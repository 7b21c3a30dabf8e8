import Uncomment.Proofs.Lexer.Closing
import Uncomment.Proofs.Line.Modes
import Uncomment.Proofs.Line.Settled
import Uncomment.Proofs.Strip.Rows

/-!
# Lines that are processed twice

What a settled language puts out for a line is left unchanged when it is processed
again, in the mode that the lines put out before it leave (`Line.process_again`).
That mode is the one of the first run, except that no block comment is open any more
(`Mode.uncommented`); a line that is dropped does not change it
(`Line.uncommented_of_dropped`).
-/

namespace Uncomment

namespace Pruning
namespace Reading

variable {language : Language} {facts : LineFacts} {cursor : Cursor} {last : Option UInt8}
variable {left : Pruning}

theorem startsClean_text
    (h : Reading language facts cursor last left)
    (hclean : Utf8.startsClean cursor.rest = true) :
    Utf8.startsClean left.text = true := by
  induction h with
  | done | cutLine | cutBlock =>
      rfl
  | step hrest =>
      rw [hrest] at hclean
      exact hclean
  | @splice cursor last b rest start stop found width gap left _ _ _ _ _ _ hclean' _ _ ih =>
      cases gap with
      | true => rfl
      | false => exact ih hclean'

theorem mem_text
    (h : Reading language facts cursor last left)
    {b : UInt8}
    (hb : b ∈ left.text) :
    b ∈ cursor.rest ∨ b = Byte.space := by
  induction h with
  | done | cutLine | cutBlock =>
      cases hb
  | step hrest _ _ hstep _ _ ih =>
      rw [hrest]
      rcases List.mem_append.1 hb with hb | hb
      · rcases List.mem_cons.1 hb with rfl | hb
        · exact Or.inl List.mem_cons_self
        · exact Or.inl (List.mem_cons_of_mem _ (List.mem_of_mem_take hb))
      · refine (ih hb).imp_left fun hin => ?_
        rw [hstep] at hin
        exact List.mem_cons_of_mem _ (List.mem_of_mem_drop hin)
  | splice hrest _ _ _ _ _ _ _ _ ih =>
      rw [hrest]
      rcases List.mem_append.1 hb with hb | hb
      · split at hb
        · exact Or.inr (List.mem_singleton.1 hb)
        · cases hb
      · refine (ih hb).imp_left fun hin => ?_
        exact List.mem_cons_of_mem _ (List.mem_of_mem_drop hin)

/-- No line leaves a block scalar open by itself. -/
theorem mode_ne_blockScalar
    (h : Reading language facts cursor last left)
    (indent : Nat) :
    left.mode ≠ .blockScalar indent := by
  induction h with
  | done =>
      exact Mode.ofSpan_ne_blockScalar _ _ indent
  | cutLine | cutBlock =>
      simp
  | step _ _ _ _ _ _ ih | splice _ _ _ _ _ _ _ _ _ ih =>
      exact ih

end Reading

/-- A line of which no ink is left leaves nothing open, comments apart. -/
theorem uncommented_of_isInk
    {language : Language} {line : Bytes} {result : Pruning}
    (h : ofLine language line = .ok result)
    (hink : ∀ b ∈ result.text, Blank.isInk b = false) :
    result.mode.uncommented = .normal := by
  rw [(reading_of_ofLine h).mode_of_isInk hink]
  rfl

end Pruning

namespace Strip

theorem splitReturn_append
    (line : Bytes) :
    splitReturn (line ++ [Byte.carriageReturn]) = (line, true) := by
  simp [splitReturn]

/--
The line of a row that is put out in place of a changed one is what was left of it,
without some blanks at its end.
-/
theorem exists_tail_of_settle
    {row left out second : Bytes} {hasReturn hasReturn' : Bool}
    (hemit : emit row hasReturn (Line.settle left) = some out)
    (hout : splitReturn out = (second, hasReturn')) :
    ∃ tail, left = second ++ tail ∧ ∀ b ∈ tail, Byte.isBlank b = true := by
  obtain ⟨slack, hleft, hslack⟩ := Blank.exists_slack left
  have hblank (b : UInt8) (hb : b ∈ slack) : Byte.isBlank b = true :=
    Blank.isBlank_of_isSlack (hslack b hb)
  rcases Line.settle_cases left with hsettle | ⟨hsettle, -⟩
  · rw [hsettle] at hemit
    cases hasReturn with
    | true =>
        cases hemit
        simp only [if_true, splitReturn_append, Prod.mk.injEq] at hout
        exact ⟨slack, by rw [← hout.1]; exact hleft, hblank⟩
    | false =>
        cases hemit
        have htrimmed := eq_of_splitReturn hout
        simp only [Bool.false_eq_true, if_false] at htrimmed
        refine ⟨(if hasReturn' then [Byte.carriageReturn] else []) ++ slack, ?_, ?_⟩
        · rw [← List.append_assoc, ← htrimmed]
          exact hleft
        · intro b hb
          rcases List.mem_append.1 hb with hb | hb
          · split at hb
            · rw [List.mem_singleton.1 hb]
              rfl
            · cases hb
          · exact hblank b hb
  · rw [hsettle] at hemit
    cases hemit

/-- The line of a row that is put out is what was left, without some blanks at its end. -/
theorem exists_tail_of_finish
    {row line left out second : Bytes} {hasReturn hasReturn' : Bool}
    (hsplit : splitReturn row = (line, hasReturn))
    (hemit : emit row hasReturn (Line.finish line left) = some out)
    (hout : splitReturn out = (second, hasReturn')) :
    ∃ tail, left = second ++ tail ∧ ∀ b ∈ tail, Byte.isBlank b = true := by
  rcases Line.finish_cases line left with ⟨hunchanged, rfl⟩ | hsettle
  · rw [hunchanged] at hemit
    cases hemit
    rw [hsplit] at hout
    cases hout
    exact ⟨[], (List.append_nil _).symm, by simp⟩
  · rw [hsettle] at hemit
    exact exists_tail_of_settle hemit hout

end Strip
namespace Line

variable {language : Language}

/-- In a language other than YAML the pruning of a line decides what comes next. -/
theorem modeAfter_eq
    (hyaml : language ≠ .yaml)
    (line : Bytes) (result : Pruning) :
    modeAfter language line result = result.mode := by
  rw [modeAfter, if_neg]
  rintro ⟨rfl, -⟩
  exact hyaml rfl

/-- What is left of code is unchanged when it is processed as a line. -/
theorem processNormal_again
    (hsettles : Pruning.Settles language)
    (hyaml : language ≠ .yaml)
    {code second tail : Bytes} {result : Pruning}
    (hresult : Pruning.ofLine language code = .ok result)
    (htext : result.text = second ++ tail)
    (htail : ∀ b ∈ tail, Byte.isBlank b = true) :
    processNormal language second = .ok (.unchanged, result.mode.uncommented) := by
  rw [processNormal]
  split
  · next hwhite =>
      rw [Pruning.uncommented_of_isInk hresult]
      intro b hb
      rw [htext] at hb
      rcases List.mem_append.1 hb with hb | hb
      · exact Blank.isInk_of_isAllWhite hwhite b hb
      · exact Blank.isInk_of_isBlank (htail b hb)
  · rw [hsettles code second tail result hresult htext htail]
    dsimp only
    rw [modeAfter_eq hyaml, finish, if_pos rfl]

/-- What is left of a line that starts in a literal is unchanged when it is processed again. -/
theorem processLiteral_again
    (hsettles : Pruning.Settles language)
    {kind : LongLiteral} {line second tail : Bytes} {close : Nat} {result : Pruning}
    (hclose : Lexer.findClose language.dialect kind.span line = some close)
    (hboundary : Utf8.Boundary line close)
    (hresult : Pruning.ofLine language (line.drop close) = .ok result)
    (htext : line.take close ++ result.text = second ++ tail)
    (htail : ∀ b ∈ tail, Byte.isBlank b = true) :
    processLiteral language kind second = .ok (.unchanged, result.mode.uncommented) := by
  obtain ⟨hpos, hle, b, hlast, hink⟩ := Lexer.exists_ink_of_findClose hclose
  have hclean : Utf8.startsClean (line.drop close) = true := by
    rcases hboundary with hzero | ⟨-, hclean⟩
    · omega
    · exact hclean
  have hhead : line.take close <+: second := by
    refine Blank.isPrefix_of_getLast? hlast (Blank.isBlank_of_isInk hink) htail ?_
    rw [← htext]
    exact List.prefix_append _ _
  obtain ⟨code, rfl⟩ := hhead
  rw [List.append_assoc, List.append_cancel_left_eq] at htext
  have hlen : (line.take close).length = close := by
    rw [List.length_take]
    omega
  have hdrop : (line.take close ++ code).drop close = code := by
    have hleft : (line.take close ++ code).drop (line.take close).length = code := List.drop_left
    rwa [hlen] at hleft
  have hcode : Utf8.startsClean code = true := by
    have hclean' := (Pruning.reading_of_ofLine hresult).startsClean_text hclean
    rw [htext] at hclean'
    cases code with
    | nil => rfl
    | cons c more => exact hclean'
  have hstart : Utf8.startingAt (line.take close ++ code) close = .ok code := by
    refine (Utf8.startingAt_eq_ok_iff _ _ _).2 ⟨Or.inr ⟨?_, ?_⟩, hdrop.symm⟩
    · rw [List.length_append]
      omega
    · rw [hdrop]
      exact hcode
  rw [processLiteral, Lexer.findClose_of_isPrefix hclose (List.prefix_append _ _)]
  dsimp only
  rw [hstart]
  dsimp only
  rw [hsettles _ code tail result hresult htext htail]
  dsimp only
  rw [if_pos rfl]

/-- What is put out for a line is unchanged when it is processed again. -/
theorem process_again
    (hsettles : Pruning.Settles language)
    (hyaml : language ≠ .yaml)
    {mode next : Mode} {row line out second : Bytes} {hasReturn hasReturn' : Bool}
    {result : LineResult}
    (hmode : ∀ indent, mode ≠ .blockScalar indent)
    (hsplit : Strip.splitReturn row = (line, hasReturn))
    (hprocess : process language mode line = .ok (result, next))
    (hemit : Strip.emit row hasReturn result = some out)
    (hout : Strip.splitReturn out = (second, hasReturn')) :
    process language mode.uncommented second = .ok (.unchanged, next.uncommented) := by
  have hsame (hunchanged : result = .unchanged) : second = line := by
    subst hunchanged
    cases hemit
    rw [hsplit] at hout
    exact (Prod.mk.inj hout).1.symm
  cases outcome_of_process hprocess with
  | white hwhite =>
      rw [hsame rfl]
      exact hprocess
  | code hwhite hpruning =>
      obtain ⟨tail, htext, htail⟩ := Strip.exists_tail_of_finish hsplit hemit hout
      rw [modeAfter_eq hyaml]
      exact processNormal_again hsettles hyaml hpruning htext htail
  | inComment =>
      cases hemit
  | afterComment hfind hboundary hpruning =>
      obtain ⟨tail, htext, htail⟩ := Strip.exists_tail_of_settle hemit hout
      rw [modeAfter_eq hyaml]
      exact processNormal_again hsettles hyaml hpruning htext htail
  | inLiteral hclose =>
      rw [hsame rfl]
      exact hprocess
  | afterLiteral hclose hboundary hpruning =>
      obtain ⟨tail, htext, htail⟩ := Strip.exists_tail_of_finish hsplit hemit hout
      exact processLiteral_again hsettles hclose hboundary hpruning htext htail
  | inScalar | afterScalar =>
      exact absurd rfl (hmode _)

/-- A line that is dropped leaves the mode as it is, comments apart. -/
theorem uncommented_of_dropped
    (hyaml : language ≠ .yaml)
    {mode next : Mode} {line : Bytes}
    (hmode : ∀ indent, mode ≠ .blockScalar indent)
    (hprocess : process language mode line = .ok (.dropped, next)) :
    next.uncommented = mode.uncommented := by
  have hwhite {left : Bytes} (h : .dropped = settle left) : ∀ b ∈ left, Blank.isInk b = false := by
    rcases settle_cases left with hother | ⟨-, hwhite⟩
    · rw [hother] at h
      cases h
    · exact Blank.isInk_of_isAllWhite_trimEndSpaces hwhite
  have hfinish {left : Bytes} (h : .dropped = finish line left) : .dropped = settle left := by
    rcases finish_cases line left with ⟨hother, -⟩ | hother
    · rw [hother] at h
      cases h
    · exact h.trans hother
  generalize hdropped : LineResult.dropped = result at hprocess
  cases outcome_of_process hprocess with
  | white | inLiteral | inScalar =>
      cases hdropped
  | code _ hpruning =>
      rw [modeAfter_eq hyaml]
      exact Pruning.uncommented_of_isInk hpruning (hwhite (hfinish hdropped))
  | inComment =>
      rfl
  | afterComment _ _ hpruning =>
      rw [modeAfter_eq hyaml]
      exact Pruning.uncommented_of_isInk hpruning (hwhite hdropped)
  | afterLiteral hclose =>
      obtain ⟨-, -, b, hlast, hink⟩ := Lexer.exists_ink_of_findClose hclose
      rw [hwhite (hfinish hdropped) b (List.mem_append_left _ (List.mem_of_getLast? hlast))] at hink
      cases hink
  | afterScalar =>
      exact absurd rfl (hmode _)

/-- Only YAML opens block scalars. -/
theorem next_ne_blockScalar
    (hyaml : language ≠ .yaml)
    {mode next : Mode} {line : Bytes} {result : LineResult}
    (hmode : ∀ indent, mode ≠ .blockScalar indent)
    (hprocess : process language mode line = .ok (result, next)) :
    ∀ indent, next ≠ .blockScalar indent := by
  have hcode {code : Bytes} {pruning : Pruning}
      (hpruning : Pruning.ofLine language code = .ok pruning) :
      ∀ indent, pruning.mode ≠ .blockScalar indent :=
    (Pruning.reading_of_ofLine hpruning).mode_ne_blockScalar
  cases outcome_of_process hprocess with
  | white | inComment | inLiteral =>
      exact hmode
  | code _ hpruning | afterComment _ _ hpruning =>
      rw [modeAfter_eq hyaml]
      exact hcode hpruning
  | afterLiteral _ _ hpruning =>
      exact hcode hpruning
  | inScalar | afterScalar =>
      exact absurd rfl (hmode _)

end Line

end Uncomment

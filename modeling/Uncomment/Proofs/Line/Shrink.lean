import Uncomment.Proofs.Line.Modes
import Uncomment.Proofs.Text.White
import Uncomment.Proofs.Lexer.Closing

/-!
# Changed lines get shorter

A comment takes at least two bytes or reaches to the end of the line, and at most one
space takes its place.  So what is left of code is the code itself or shorter
(`Pruning.text_eq_or_length_lt`).

A line that is replaced ends with code, which is pruned; what comes before it is the end
of an open literal, which is kept, or the end of an open comment, which is skipped
(`Line.Pruned`).  The replacement is what is left, trimmed
(`Line.exists_pruned_of_replaced`).
-/

namespace Uncomment

/-- Behind a boundary that is not the start of the text a character starts, if anything comes. -/
theorem Utf8.Boundary.startsClean_drop
    {text : Bytes} {offset : Nat}
    (h : Boundary text offset)
    (hpos : 0 < offset) :
    startsClean (text.drop offset) = true := by
  rcases h with rfl | ⟨-, hclean⟩
  · cases hpos
  · exact hclean

namespace Pruning

/-- A reading leaves the unread bytes as they are or removes something and leaves fewer. -/
theorem Reading.text_eq_or_length_lt
    {language : Language} {facts : LineFacts} {cursor : Cursor} {last : Option UInt8}
    {left : Pruning}
    (h : Reading language facts cursor last left) :
    left.removals = [] ∧ left.text = cursor.rest ∨
      left.text.length < cursor.rest.length := by
  induction h with
  | done hrest =>
      exact Or.inl ⟨rfl, hrest.symm⟩
  | step hrest _ hmore hstep _ _ ih =>
      rw [hstep] at ih
      rw [hrest]
      rcases ih with ⟨hnil, heq⟩ | hlt
      · exact Or.inl ⟨hnil, by rw [heq, List.cons_append, List.take_append_drop]⟩
      · refine Or.inr ?_
        simp only [List.length_append, List.length_cons, List.length_take, List.length_drop]
          at hlt ⊢
        omega
  | cutLine hrule | cutBlock hrule =>
      obtain ⟨hmem, hstart⟩ := mem_rules_of_commentAt? hrule
      have hpos := List.length_pos_iff.2 (Language.start_ne_nil hmem)
      exact Or.inr (Nat.lt_of_lt_of_le hpos hstart.length_le)
  | @splice cursor _ b rest start stop found width gap left hrest hrule hfind hwidth _ hle
      _ _ _ ih =>
      have hmem := (mem_rules_of_commentAt? hrule).1
      have hstart := List.length_pos_iff.2 (Language.start_ne_nil hmem)
      have hstop := List.length_pos_iff.2 (Language.isInk_of_mem_stop hmem).1
      have hleft : left.text.length ≤ rest.length - (width - 1) := by
        have hnext : (cursor.resume b rest (width - 1)).rest.length = rest.length - (width - 1) :=
          List.length_drop
        rcases ih with ⟨-, heq⟩ | hlt
        · rw [heq, hnext]
        · omega
      have hgap : (if gap = true then [Byte.space] else []).length ≤ 1 := by
        cases gap <;> simp
      refine Or.inr ?_
      rw [hrest, List.length_cons] at hle ⊢
      rw [List.length_append]
      change 0 < start.length at hstart
      omega

/-- What is left of code is the code or shorter. -/
theorem text_eq_or_length_lt
    {language : Language} {code : Bytes} {pruning : Pruning}
    (h : ofLine language code = .ok pruning) :
    pruning.text = code ∨ pruning.text.length < code.length := by
  exact (reading_of_ofLine h).text_eq_or_length_lt.imp_left And.right

theorem length_lt_of_removals
    {language : Language} {code : Bytes} {pruning : Pruning}
    (h : ofLine language code = .ok pruning)
    (hne : pruning.removals ≠ []) :
    pruning.text.length < code.length := by
  exact (reading_of_ofLine h).text_eq_or_length_lt.resolve_left fun hsame => hne hsame.1

end Pruning

namespace Line

/-- What is left of a line from which something goes away. -/
inductive Pruned (language : Language) : Bytes → Bytes → Prop
  | keeping {kept code : Bytes} {pruning : Pruning} :
      Pruning.ofLine language code = .ok pruning →
      (kept = [] ∨ Utf8.startsClean code = true) →
      pruning.text ≠ code →
      Pruned language (kept ++ code) (kept ++ pruning.text)
  | skipping {skipped code : Bytes} {pruning : Pruning} :
      Pruning.ofLine language code = .ok pruning →
      Utf8.startsClean code = true →
      skipped ≠ [] →
      Pruned language (skipped ++ code) pruning.text

variable {language : Language} {mode next : Mode} {line left text : Bytes}

theorem Pruned.length_lt
    (h : Pruned language line left) :
    left.length < line.length := by
  cases h with
  | keeping hpruning _ hchanged =>
      have hlt := (Pruning.text_eq_or_length_lt hpruning).resolve_left hchanged
      simp only [List.length_append]
      omega
  | skipping hpruning _ hskipped =>
      have hpos := List.length_pos_iff.2 hskipped
      rw [List.length_append]
      rcases Pruning.text_eq_or_length_lt hpruning with heq | hlt
      · rw [heq]
        omega
      · omega

/-- A line is replaced by what is left of it, if that is not white. -/
theorem settle_eq_replaced_iff :
    settle left = .replaced text ↔
      Blank.trimEndSpaces left = text ∧ Blank.isAllWhite text = false := by
  unfold settle
  split
  · next hwhite =>
      constructor
      · intro h
        cases h
      · rintro ⟨rfl, hsolid⟩
        rw [hwhite] at hsolid
        cases hsolid
  · next hsolid =>
      rw [Bool.not_eq_true] at hsolid
      constructor
      · intro h
        cases h
        exact ⟨rfl, hsolid⟩
      · rintro ⟨rfl, -⟩
        rfl

/-- A replaced line was pruned, and is not white. -/
theorem exists_pruned_of_replaced
    (hmode : mode.Possible language)
    (h : process language mode line = .ok (.replaced text, next)) :
    ∃ left, Pruned language line left ∧ Blank.trimEndSpaces left = text ∧
      Blank.isAllWhite text = false := by
  have hfinish {left : Bytes} (hleft : .replaced text = finish line left) :
      left ≠ line ∧ settle left = .replaced text := by
    rcases finish_cases line left with ⟨hsame, -⟩ | hsettle
    · rw [hsame] at hleft
      cases hleft
    · refine ⟨?_, by rw [← hsettle, ← hleft]⟩
      rintro rfl
      rw [finish, if_pos rfl] at hleft
      cases hleft
  have hcode {pruning : Pruning} (hpruning : Pruning.ofLine language line = .ok pruning)
      (hleft : .replaced text = finish line pruning.text) :
      ∃ left, Pruned language line left ∧ Blank.trimEndSpaces left = text ∧
        Blank.isAllWhite text = false := by
    obtain ⟨hne, hsettle⟩ := hfinish hleft
    have hpruned : Pruned language ([] ++ line) ([] ++ pruning.text) :=
      .keeping hpruning (Or.inl rfl) hne
    exact ⟨_, hpruned, settle_eq_replaced_iff.1 hsettle⟩
  generalize hresult : LineResult.replaced text = result at h
  cases outcome_of_process h with
  | white | inComment | inLiteral | inScalar =>
      cases hresult
  | code _ hpruning | afterScalar _ hpruning =>
      exact hcode hpruning hresult
  | @afterComment stop _ found pruning hfind hboundary hpruning =>
      obtain ⟨start, hrule⟩ := hmode
      have hstop := List.length_pos_iff.2 (Language.isInk_of_mem_stop hrule).1
      have hle := Bytes.find?_add_length_le hfind
      have hskipped : line.take (found + stop.length) ≠ [] := by
        rw [← List.length_pos_iff, List.length_take]
        omega
      have hclean := hboundary.startsClean_drop (by omega)
      have hpruned := Pruned.skipping hpruning hclean hskipped
      rw [List.take_append_drop] at hpruned
      exact ⟨_, hpruned, settle_eq_replaced_iff.1 hresult.symm⟩
  | @afterLiteral kind _ close pruning hclose hboundary hpruning =>
      obtain ⟨hpos, -, -⟩ := Lexer.exists_ink_of_findClose hclose
      obtain ⟨hne, hsettle⟩ := hfinish hresult
      have hchanged : pruning.text ≠ line.drop close := by
        intro heq
        rw [heq, List.take_append_drop] at hne
        exact hne rfl
      have hclean := hboundary.startsClean_drop (by omega)
      have hpruned : Pruned language (line.take close ++ line.drop close)
          (line.take close ++ pruning.text) :=
        .keeping hpruning (Or.inr hclean) hchanged
      rw [List.take_append_drop] at hpruned
      exact ⟨_, hpruned, settle_eq_replaced_iff.1 hsettle⟩

theorem length_lt_of_replaced
    (hmode : mode.Possible language)
    (h : process language mode line = .ok (.replaced text, next)) :
    text.length < line.length := by
  obtain ⟨left, hpruned, rfl, -⟩ := exists_pruned_of_replaced hmode h
  exact Nat.lt_of_le_of_lt (Blank.trimEndSpaces_isPrefix left).length_le hpruned.length_lt

end Line
end Uncomment

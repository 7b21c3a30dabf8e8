import Uncomment.Proofs.Line.Again

/-!
# Texts that are stripped twice

From the lines to whole texts: the rows that a run of a settled language puts out have
no line feeds (`Strip.Run.lineFeed_notMem`), so stripping the result reads exactly
these rows, and each of them is unchanged (`Strip.Run.unchanged_again`).  So a second
`strip` changes nothing (`strip_again`).
-/

namespace Uncomment

namespace Line

/-- What is put out in place of a changed row are bytes that were left and carriage returns. -/
theorem mem_of_emit_settle
    {row left out : Bytes} {hasReturn : Bool} {b : UInt8}
    (hemit : Strip.emit row hasReturn (settle left) = some out)
    (hb : b ∈ out) :
    b ∈ left ∨ b = Byte.carriageReturn := by
  have htrimmed {c : UInt8} (hc : c ∈ Blank.trimEndSpaces left) : c ∈ left :=
    (Blank.trimEndSpaces_isPrefix left).subset hc
  rcases settle_cases left with hsettle | ⟨hsettle, -⟩
  · rw [hsettle] at hemit
    cases hasReturn with
    | true =>
        cases hemit
        rcases List.mem_append.1 hb with hb | hb
        · exact Or.inl (htrimmed hb)
        · exact Or.inr (List.mem_singleton.1 hb)
    | false =>
        cases hemit
        exact Or.inl (htrimmed hb)
  · rw [hsettle] at hemit
    cases hemit

theorem lineFeed_notMem_of_emit
    {language : Language} {mode next : Mode} {row line out : Bytes} {hasReturn : Bool}
    {result : LineResult}
    (hsplit : Strip.splitReturn row = (line, hasReturn))
    (hprocess : process language mode line = .ok (result, next))
    (hemit : Strip.emit row hasReturn result = some out)
    (hrow : Byte.lineFeed ∉ row) :
    Byte.lineFeed ∉ out := by
  have hline : Byte.lineFeed ∉ line := by
    rw [Strip.eq_of_splitReturn hsplit] at hrow
    exact fun hmem => hrow (List.mem_append_left _ hmem)
  have hcode {code : Bytes} {pruning : Pruning}
      (hpruning : Pruning.ofLine language code = .ok pruning)
      (hsub : ∀ b ∈ code, b ∈ line) : Byte.lineFeed ∉ pruning.text := by
    intro hmem
    rcases (Pruning.reading_of_ofLine hpruning).mem_text hmem with hin | heq
    · exact hline (hsub _ hin)
    · cases heq
  have hsettle {left : Bytes} (hleft : Byte.lineFeed ∉ left)
      (hout : Strip.emit row hasReturn (settle left) = some out) : Byte.lineFeed ∉ out := by
    intro hmem
    rcases mem_of_emit_settle hout hmem with hin | heq
    · exact hleft hin
    · cases heq
  have hfinish {left : Bytes} (hleft : Byte.lineFeed ∉ left)
      (hout : Strip.emit row hasReturn (finish line left) = some out) : Byte.lineFeed ∉ out := by
    rcases finish_cases line left with ⟨hsame, -⟩ | hchanged
    · rw [hsame] at hout
      cases hout
      exact hrow
    · rw [hchanged] at hout
      exact hsettle hleft hout
  cases outcome_of_process hprocess with
  | white | inLiteral | inScalar =>
      cases hemit
      exact hrow
  | inComment =>
      cases hemit
  | code _ hpruning | afterScalar _ hpruning =>
      exact hfinish (hcode hpruning fun _ hb => hb) hemit
  | afterComment _ _ hpruning =>
      exact hsettle (hcode hpruning fun _ hb => List.mem_of_mem_drop hb) hemit
  | afterLiteral _ _ hpruning =>
      refine hfinish (fun hmem => ?_) hemit
      rcases List.mem_append.1 hmem with hhead | htext
      · exact hline (List.mem_of_mem_take hhead)
      · exact hcode hpruning (fun _ hb => List.mem_of_mem_drop hb) htext

end Line

namespace Strip
namespace Run

variable {language : Language} {mode : Mode} {rows outs : List Bytes}

theorem lineFeed_notMem
    (h : Run language mode rows outs)
    (hrows : ∀ row ∈ rows, Byte.lineFeed ∉ row) :
    ∀ out ∈ outs, Byte.lineFeed ∉ out := by
  induction h with
  | done =>
      exact hrows
  | keep hsplit hprocess hemit _ ih =>
      intro out hout
      rcases List.mem_cons.1 hout with rfl | hout
      · exact Line.lineFeed_notMem_of_emit hsplit hprocess hemit (hrows _ List.mem_cons_self)
      · exact ih (fun row hrow => hrows row (List.mem_cons_of_mem _ hrow)) out hout
  | drop _ _ _ ih =>
      exact ih fun row hrow => hrows row (List.mem_cons_of_mem _ hrow)

/-- The rows that a run puts out are unchanged when they are processed again. -/
theorem unchanged_again
    (hsettles : Pruning.Settles language)
    (hyaml : language ≠ .yaml)
    (h : Run language mode rows outs)
    (hmode : ∀ indent, mode ≠ .blockScalar indent) :
    ∀ step ∈ Line.feedAll language mode.uncommented (outs.map fun out => (splitReturn out).1),
      step.1 = .ok .unchanged := by
  induction h with
  | done =>
      simp [Line.feedAll]
  | @keep mode next row line out hasReturn result rows outs hsplit hprocess hemit _ ih =>
      have hagain := Line.process_again hsettles hyaml hmode hsplit hprocess hemit
        (Prod.eta _).symm
      intro step hstep
      rw [List.map_cons, Line.feedAll_of_process hagain] at hstep
      rcases List.mem_cons.1 hstep with rfl | hstep
      · rfl
      · exact ih (Line.next_ne_blockScalar hyaml hmode hprocess) step hstep
  | drop hsplit hprocess _ ih =>
      rw [← Line.uncommented_of_dropped hyaml hmode hprocess]
      exact ih (Line.next_ne_blockScalar hyaml hmode hprocess)

end Run

/-- Rows that are all unchanged are put out as they are. -/
theorem run_of_unchanged
    {language : Language} {mode : Mode} {rows : List Bytes}
    (h : ∀ step ∈ Line.feedAll language mode (rows.map fun row => (splitReturn row).1),
      step.1 = .ok .unchanged) :
    Run language mode rows rows := by
  induction rows generalizing mode with
  | nil =>
      exact .done
  | cons row more ih =>
      rw [List.map_cons, Line.feedAll, List.forall_mem_cons] at h
      obtain ⟨hfirst, hmore⟩ := h
      cases hprocess : Line.process language mode (splitReturn row).1 with
      | error fault =>
          rw [Line.feed, hprocess] at hfirst
          cases hfirst
      | ok step =>
          obtain ⟨result, next⟩ := step
          rw [Line.feed, hprocess] at hfirst hmore
          obtain rfl : result = .unchanged := Except.ok.inj hfirst
          exact .keep (Prod.eta _).symm hprocess rfl (ih hmore)

end Strip

/-- A text whose lines are all unchanged is stripped to itself. -/
theorem strip_of_unchanged
    {language : Language} {text : Bytes}
    (h : ∀ step ∈ Line.feedAll language .normal
        ((Bytes.lines text).map fun row => (Strip.splitReturn row).1),
      step.1 = .ok .unchanged) :
    strip language text = .ok text := by
  rw [Strip.strip_of_run (Strip.run_of_unchanged h), Bytes.unlines_lines]

/-- Stripping a second time leaves every line unchanged. -/
theorem strip_again
    {language : Language} {text once : Bytes}
    (hsettles : Pruning.Settles language)
    (hyaml : language ≠ .yaml)
    (h : strip language text = .ok once) :
    (∀ step ∈ Line.feedAll language .normal
        ((Bytes.lines once).map fun row => (Strip.splitReturn row).1),
      step.1 = .ok .unchanged) ∧ strip language once = .ok once := by
  have hunchanged : ∀ step ∈ Line.feedAll language .normal
      ((Bytes.lines once).map fun row => (Strip.splitReturn row).1),
      step.1 = .ok .unchanged := by
    obtain ⟨outs, hrun, rfl⟩ := Strip.exists_run_of_strip h
    have hagain := hrun.unchanged_again hsettles hyaml (by simp)
    cases outs with
    | nil =>
        -- A text that is dropped as a whole leaves one empty line.
        intro step hstep
        rw [List.mem_singleton.1 hstep]
        rfl
    | cons out others =>
        have hfeeds := hrun.lineFeed_notMem fun row hrow => (Bytes.isInfix_of_mem_lines hrow).1
        rw [Bytes.lines_unlines (List.cons_ne_nil out others) hfeeds]
        exact hagain
  exact ⟨hunchanged, strip_of_unchanged hunchanged⟩

end Uncomment

import Uncomment.Proofs.Line.Modes
import Uncomment.Proofs.Strip.Total

/-!
# Lines without comment tokens

Where no start token of a language stands (`Language.Unmarked`) no comment starts and
no veto is asked.  So such lines stay as they are, one after the other: code without
comments opens no block comment (`Line.process_of_unmarked`).
-/

namespace Uncomment

/-- No start token of the language stands in a text. -/
def Language.Unmarked (language : Language) (text : Bytes) : Prop :=
  ∀ rule ∈ language.rules, ¬ rule.start <:+: text

namespace Language.Unmarked

variable {language : Language} {text : Bytes}

theorem of_isInfix
    {part : Bytes}
    (h : language.Unmarked text)
    (hpart : part <:+: text) :
    language.Unmarked part := by
  intro rule hrule hstart
  exact h rule hrule (hstart.trans hpart)

/-- No comment starts at a cursor in an unmarked text. -/
theorem commentAt?_eq
    {cursor : Cursor}
    (h : language.Unmarked text)
    (facts : LineFacts)
    (hat : cursor.At text) :
    Pruning.commentAt? language facts cursor = .ok none := by
  refine Pruning.commentAt?_eq_none fun _ rule hrule hstart => ?_
  rw [hat.2] at hstart
  have hinfix := hstart.isInfix.trans (List.drop_suffix cursor.offset text).isInfix
  exact absurd hinfix (h rule hrule)

end Language.Unmarked

/-- The mode after a line in which no block comment starts. -/
theorem Mode.isComment_ofSpan
    (dialect : Dialect) (span : Span) :
    (ofSpan dialect span).isComment = false := by
  cases span with
  | backtick =>
      rw [ofSpan]
      split <;> rfl
  | code | single | double | tripleDouble | tripleSingle | regex | raw =>
      rfl

namespace Pruning

variable {language : Language} {line : Bytes}

/-- Unmarked code stays as it is, and opens no comment. -/
theorem ofLine_of_unmarked
    (hline : language.Unmarked line) :
    ∃ mode, ofLine language line = .ok ⟨line, [], mode⟩ ∧ mode.isComment = false := by
  obtain ⟨final, hfinal⟩ := Cursor.exists_getLast?_trail language.dialect (Cursor.start line)
  have hnone : ∀ stop ∈ (Cursor.start line).trail language.dialect,
      commentAt? language (LineFacts.ofLine line) stop = .ok none :=
    fun _ hstop => hline.commentAt?_eq _ (Cursor.at_of_mem_trail (Cursor.at_start line) hstop)
  exact ⟨_, fromCursor_of_trail hnone hfinal [] [], Mode.isComment_ofSpan _ _⟩

end Pruning

namespace Line

variable {language : Language} {line : Bytes}

theorem isComment_modeAfter
    {pruning : Pruning}
    (hmode : pruning.mode.isComment = false) :
    (modeAfter language line pruning).isComment = false := by
  unfold modeAfter
  split
  · rfl
  · exact hmode

theorem processNormal_of_unmarked
    (hline : language.Unmarked line) :
    ∃ next, processNormal language line = .ok (.unchanged, next) ∧ next.isComment = false := by
  obtain ⟨mode, hpruning, hmode⟩ := Pruning.ofLine_of_unmarked hline
  unfold processNormal
  split
  · exact ⟨.normal, rfl, rfl⟩
  · rw [hpruning]
    simp only [finish, if_true]
    exact ⟨_, rfl, isComment_modeAfter hmode⟩

/-- An unmarked line outside block comments is unchanged, and so is what it leaves open. -/
theorem process_of_unmarked
    {mode : Mode}
    (hplaced : Utf8.Placed line)
    (hline : language.Unmarked line)
    (hmode : mode.isComment = false) :
    ∃ next, process language mode line = .ok (.unchanged, next) ∧ next.isComment = false := by
  cases mode with
  | normal =>
      exact processNormal_of_unmarked hline
  | blockComment stop =>
      cases hmode
  | literal kind =>
      rw [process, processLiteral]
      cases hclose : Lexer.findClose language.dialect kind.span line with
      | none =>
          exact ⟨.literal kind, rfl, rfl⟩
      | some close =>
          have hcode := hline.of_isInfix (List.drop_suffix close line).isInfix
          obtain ⟨next, hpruning, hnext⟩ := Pruning.ofLine_of_unmarked hcode
          simp only [startingAt_of_findClose hplaced hclose, hpruning, if_true]
          exact ⟨next, rfl, hnext⟩
  | blockScalar indent =>
      rw [process]
      split
      · exact ⟨.blockScalar indent, rfl, rfl⟩
      · exact processNormal_of_unmarked hline

/-- Unmarked lines are unchanged, one after the other. -/
theorem unchanged_of_unmarked
    {mode : Mode} {lines : List Bytes}
    (hplaced : ∀ line ∈ lines, Utf8.Placed line)
    (hlines : ∀ line ∈ lines, language.Unmarked line)
    (hmode : mode.isComment = false) :
    ∀ step ∈ feedAll language mode lines, step.1 = .ok .unchanged := by
  induction lines generalizing mode with
  | nil =>
      simp [feedAll]
  | cons line more ih =>
      rw [List.forall_mem_cons] at hplaced hlines
      obtain ⟨next, hprocess, hnext⟩ := process_of_unmarked hplaced.1 hlines.1 hmode
      rw [feedAll_of_process hprocess, List.forall_mem_cons]
      exact ⟨rfl, ih hplaced.2 hlines.2 hnext⟩

end Line
end Uncomment

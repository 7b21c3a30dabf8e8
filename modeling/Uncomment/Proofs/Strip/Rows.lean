import Mathlib.Data.List.Basic
import Uncomment.Strip

/-!
# Rows

A text is cut into rows at line feeds and put together again: `Bytes.lines` is the
library's `List.splitOn`, so rows without line feeds come back
(`Bytes.lines_unlines`).

`Strip.Run` describes what `Strip.rowsFrom` computes without its accumulator: from a
mode on, rows are kept or dropped one after the other.
-/

namespace Uncomment

namespace Bytes

/-- Cutting with the lines found so far is cutting behind them. -/
theorem linesFrom_eq_append
    (found : List Bytes) (current text : Bytes) :
    linesFrom found current text =
      found.reverse ++ List.splitOnPPrepend (· == Byte.lineFeed) text current := by
  induction text generalizing found current with
  | nil =>
      simp [linesFrom]
  | cons b rest ih =>
      rw [linesFrom, List.splitOnPPrepend_cons_eq_if]
      split
      · rw [ih, List.reverse_cons, List.append_assoc, List.singleton_append]
        rfl
      · exact ih found (b :: current)

/-- The lines of a text are what lies between its line feeds. -/
theorem lines_eq_splitOn
    (text : Bytes) :
    lines text = text.splitOn Byte.lineFeed := by
  exact linesFrom_eq_append [] [] text

theorem lines_ne_nil
    (text : Bytes) :
    lines text ≠ [] := by
  rw [lines_eq_splitOn]
  exact List.splitOn_ne_nil _ _

/-- A text is its lines put together. -/
theorem unlines_lines
    (text : Bytes) :
    unlines (lines text) = text := by
  rw [lines_eq_splitOn]
  exact List.intercalate_splitOn Byte.lineFeed

/-- Rows without line feeds are the lines of what they are put together to. -/
theorem lines_unlines
    {rows : List Bytes}
    (hne : rows ≠ [])
    (hrows : ∀ row ∈ rows, Byte.lineFeed ∉ row) :
    lines (unlines rows) = rows := by
  rw [lines_eq_splitOn]
  exact List.splitOn_intercalate Byte.lineFeed hrows hne

theorem head_lines_isPrefix
    {text row : Bytes}
    (h : (lines text).head? = some row) :
    row <+: text := by
  rw [lines_eq_splitOn] at h
  induction text generalizing row with
  | nil =>
      cases h
      exact List.nil_prefix
  | cons b rest ih =>
      rw [List.splitOn_cons_eq_if_modifyHead] at h
      split at h
      · cases h
        exact List.nil_prefix
      · cases hsplit : List.splitOn Byte.lineFeed rest with
        | nil =>
            rw [hsplit] at h
            cases h
        | cons first others =>
            rw [hsplit] at h
            cases h
            rw [hsplit] at ih
            exact List.cons_prefix_cons.2 ⟨rfl, ih rfl⟩

/-- A line has no line feed, and it stands in the text as it is. -/
theorem isInfix_of_mem_lines
    {text row : Bytes}
    (h : row ∈ lines text) :
    Byte.lineFeed ∉ row ∧ row <:+: text := by
  induction text generalizing row with
  | nil =>
      rw [lines_eq_splitOn] at h
      simp only [List.splitOn_nil, List.mem_singleton] at h
      subst h
      exact ⟨List.not_mem_nil, List.infix_rfl⟩
  | cons b rest ih =>
      rw [lines_eq_splitOn, List.splitOn_cons_eq_if_modifyHead, ← lines_eq_splitOn] at h
      split at h
      · rcases List.mem_cons.1 h with rfl | h
        · exact ⟨List.not_mem_nil, List.nil_infix⟩
        · exact ⟨(ih h).1, List.infix_cons (ih h).2⟩
      · next hb =>
          cases hlines : lines rest with
          | nil =>
              rw [hlines] at h
              cases h
          | cons first others =>
              rw [hlines] at h
              rcases List.mem_cons.1 h with rfl | h
              · have hfirst := ih (hlines ▸ List.mem_cons_self)
                have hpre : first <+: rest := head_lines_isPrefix (by rw [hlines]; rfl)
                refine ⟨?_, (List.cons_prefix_cons.2 ⟨rfl, hpre⟩).isInfix⟩
                rw [List.mem_cons, not_or]
                exact ⟨fun heq => hb (beq_iff_eq.2 heq.symm), hfirst.1⟩
              · have hrow := ih (hlines ▸ List.mem_cons_of_mem first h)
                exact ⟨hrow.1, List.infix_cons hrow.2⟩

end Bytes

namespace Strip

theorem eq_of_splitReturn
    {row line : Bytes} {hasReturn : Bool}
    (h : splitReturn row = (line, hasReturn)) :
    row = line ++ if hasReturn then [Byte.carriageReturn] else [] := by
  unfold splitReturn at h
  split at h
  · next hlast =>
      cases h
      exact (List.dropLast_append_getLast? _ hlast).symm
  · cases h
    simp

theorem splitReturn_isPrefix
    (row : Bytes) :
    (splitReturn row).1 <+: row := by
  unfold splitReturn
  split
  · exact List.dropLast_prefix row
  · exact List.prefix_rfl

/-- What becomes of rows from a mode on. -/
inductive Run (language : Language) : Mode → List Bytes → List Bytes → Prop
  | done {mode : Mode} :
      Run language mode [] []
  | keep {mode next : Mode} {row line out : Bytes} {hasReturn : Bool} {result : LineResult}
      {rows outs : List Bytes} :
      splitReturn row = (line, hasReturn) →
      Line.process language mode line = .ok (result, next) →
      emit row hasReturn result = some out →
      Run language next rows outs →
      Run language mode (row :: rows) (out :: outs)
  | drop {mode next : Mode} {row line : Bytes} {hasReturn : Bool}
      {rows outs : List Bytes} :
      splitReturn row = (line, hasReturn) →
      Line.process language mode line = .ok (.dropped, next) →
      Run language next rows outs →
      Run language mode (row :: rows) outs

theorem exists_run
    {language : Language} {mode : Mode} {found rows outs : List Bytes}
    (h : rowsFrom language mode found rows = .ok outs) :
    ∃ left, Run language mode rows left ∧ outs = found.reverse ++ left := by
  induction rows generalizing mode found with
  | nil =>
      cases h
      exact ⟨[], .done, by simp⟩
  | cons row more ih =>
      rw [rowsFrom] at h
      cases hsplit : splitReturn row with
      | mk line hasReturn =>
          rw [hsplit] at h
          dsimp only at h
          cases hprocess : Line.process language mode line with
          | error fault =>
              rw [hprocess] at h
              cases h
          | ok step =>
              obtain ⟨result, next⟩ := step
              rw [hprocess] at h
              dsimp only at h
              cases hemit : emit row hasReturn result with
              | some out =>
                  rw [hemit] at h
                  obtain ⟨left, hrun, rfl⟩ := ih h
                  exact ⟨out :: left, .keep hsplit hprocess hemit hrun, by simp⟩
              | none =>
                  rw [hemit] at h
                  obtain ⟨left, hrun, rfl⟩ := ih h
                  cases result with
                  | dropped => exact ⟨left, .drop hsplit hprocess hrun, rfl⟩
                  | unchanged => cases hemit
                  | replaced text => cases hemit

/-- A text that is stripped has a run. -/
theorem exists_run_of_strip
    {language : Language} {text out : Bytes}
    (h : strip language text = .ok out) :
    ∃ outs, Run language .normal (Bytes.lines text) outs ∧ Bytes.unlines outs = out := by
  rw [strip, rows] at h
  cases hrows : rowsFrom language .normal [] (Bytes.lines text) with
  | error fault =>
      rw [hrows] at h
      cases h
  | ok outs =>
      rw [hrows] at h
      cases h
      obtain ⟨left, hrun, hleft⟩ := exists_run hrows
      exact ⟨left, hrun, by rw [hleft]; rfl⟩

/-- A run says what rows are stripped to. -/
theorem rowsFrom_of_run
    {language : Language} {mode : Mode} {rows outs : List Bytes}
    (h : Run language mode rows outs)
    (found : List Bytes) :
    rowsFrom language mode found rows = .ok (found.reverse ++ outs) := by
  induction h generalizing found with
  | done =>
      simp [rowsFrom]
  | keep hsplit hprocess hemit _ ih =>
      rw [rowsFrom, hsplit]
      dsimp only
      rw [hprocess]
      dsimp only
      rw [hemit]
      dsimp only
      rw [ih]
      simp
  | drop hsplit hprocess _ ih =>
      rw [rowsFrom, hsplit]
      dsimp only
      rw [hprocess]
      exact ih found

/-- The run of the lines of a text says what the text is stripped to. -/
theorem strip_of_run
    {language : Language} {text : Bytes} {outs : List Bytes}
    (h : Run language .normal (Bytes.lines text) outs) :
    strip language text = .ok (Bytes.unlines outs) := by
  rw [strip, Strip.rows, rowsFrom_of_run h]
  rfl

end Strip
end Uncomment

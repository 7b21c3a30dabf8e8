import Uncomment.Lexer.Closing
import Uncomment.Proofs.Lexer.Locality

/-!
# Where an open literal closes

The search for the end of an open literal looks at nothing behind the closing
delimiter (`Lexer.findClose_of_isPrefix`), whose last byte is ink
(`Lexer.exists_ink_of_findClose`).
-/

namespace Uncomment

namespace Cursor

theorem isInk_lastOf_of_closing?
    {span : Span} {b : UInt8} {rest : Bytes} {more : Nat}
    (h : span.closing? b rest = some more) :
    Blank.isInk (lastOf b rest more) = true := by
  exact Span.isInk_of_closing? h _ (lastOf_mem b rest more)

end Cursor

namespace Lexer

/-- The offset from which the search for a closing delimiter counts only shifts its answer. -/
theorem findCloseFrom_eq_map
    (dialect : Dialect) (span : Span) (offset skip : Nat) (text : Bytes) :
    findCloseFrom dialect span offset skip text =
      (findCloseFrom dialect span 0 skip text).map (offset + ·) := by
  induction text generalizing offset skip with
  | nil =>
      cases skip <;> rfl
  | cons b rest ih =>
      have hlater (skip : Nat) : findCloseFrom dialect span (offset + 1) skip rest =
          (findCloseFrom dialect span (0 + 1) skip rest).map (offset + ·) := by
        rw [ih (offset + 1), ih (0 + 1), Option.map_map]
        congr 1
        funext close
        simp only [Function.comp_apply]
        omega
      cases skip with
      | succ skip =>
          exact hlater skip
      | zero =>
          simp only [findCloseFrom]
          split
          · exact hlater 1
          · split
            · rw [Option.map_some]
              congr 1
              omega
            · exact hlater 0

/-- What closes an open literal ends within the line, with ink. -/
theorem exists_ink_of_findCloseFrom
    {dialect : Dialect} {span : Span} {offset skip close : Nat} {text : Bytes}
    (h : findCloseFrom dialect span offset skip text = some close) :
    ∃ width b, close = offset + width + 1 ∧ text[width]? = some b ∧ Blank.isInk b = true := by
  induction text generalizing offset skip with
  | nil =>
      cases skip <;> cases h
  | cons first rest ih =>
      have hlater {skip : Nat}
          (hrest : findCloseFrom dialect span (offset + 1) skip rest = some close) :
          ∃ width b, close = offset + width + 1 ∧ (first :: rest)[width]? = some b ∧
            Blank.isInk b = true := by
        obtain ⟨width, b, rfl, hget, hink⟩ := ih hrest
        exact ⟨width + 1, b, by omega, by rwa [List.getElem?_cons_succ], hink⟩
      cases skip with
      | succ skip =>
          exact hlater h
      | zero =>
          rw [findCloseFrom] at h
          split at h
          · exact hlater h
          · split at h
            · next more hclosing =>
                cases h
                exact ⟨more, _, rfl, Cursor.getElem?_eq_lastOf first (Span.closing?_le hclosing),
                  Cursor.isInk_lastOf_of_closing? hclosing⟩
            · exact hlater h

/-- The byte before the end of an open literal. -/
theorem exists_ink_of_findClose
    {dialect : Dialect} {span : Span} {line : Bytes} {close : Nat}
    (h : findClose dialect span line = some close) :
    0 < close ∧ close ≤ line.length ∧
      ∃ b, (line.take close).getLast? = some b ∧ Blank.isInk b = true := by
  obtain ⟨width, b, rfl, hget, hink⟩ := exists_ink_of_findCloseFrom h
  obtain ⟨hlt, rfl⟩ := List.getElem?_eq_some_iff.1 hget
  refine ⟨by omega, by omega, _, ?_, hink⟩
  rw [List.getLast?_take, if_neg (by omega), Nat.zero_add, Nat.add_sub_cancel,
    List.getElem?_eq_getElem hlt, Option.some_or]

/-- A literal closes no sooner than its delimiter has been read. -/
theorem le_of_findCloseFrom
    {dialect : Dialect} {span : Span} {offset skip close : Nat} {text tail : Bytes} {first : UInt8}
    (hspan : span.closingTail = some (first, tail))
    (h : findCloseFrom dialect span offset skip text = some close) :
    offset + tail.length + 1 ≤ close := by
  induction text generalizing offset skip with
  | nil =>
      cases skip <;> cases h
  | cons b rest ih =>
      have hlater {skip : Nat}
          (hrest : findCloseFrom dialect span (offset + 1) skip rest = some close) :
          offset + tail.length + 1 ≤ close := by
        have hle := ih hrest
        omega
      cases skip with
      | succ skip =>
          exact hlater h
      | zero =>
          rw [findCloseFrom] at h
          split at h
          · exact hlater h
          · split at h
            · next more hclosing =>
                cases h
                obtain ⟨tail', hspan', -, rfl⟩ := Span.closing?_eq_some_iff.1 hclosing
                rw [hspan] at hspan'
                cases hspan'
                exact Nat.le_refl _
            · exact hlater h

/-- A literal closes where it does whatever comes behind the closing delimiter. -/
theorem findCloseFrom_of_isPrefix
    {dialect : Dialect} {span : Span} {offset skip close : Nat} {text other : Bytes}
    (h : findCloseFrom dialect span offset skip text = some close)
    (hpre : text.take (close - offset) <+: other) :
    findCloseFrom dialect span offset skip other = some close := by
  induction text generalizing offset skip other with
  | nil =>
      cases skip <;> cases h
  | cons b rest ih =>
      obtain ⟨width, -, hwidth, -, -⟩ := exists_ink_of_findCloseFrom h
      rw [show close - offset = close - (offset + 1) + 1 by omega, List.take_succ_cons] at hpre
      cases other with
      | nil =>
          rw [List.prefix_nil] at hpre
          cases hpre
      | cons c later =>
          obtain ⟨rfl, hlater⟩ := List.cons_prefix_cons.1 hpre
          cases skip with
          | succ skip =>
              rw [findCloseFrom] at h ⊢
              exact ih h hlater
          | zero =>
              rw [findCloseFrom] at h ⊢
              split at h
              · next hescape =>
                  rw [if_pos hescape]
                  exact ih h hlater
              · next hescape =>
                  rw [if_neg hescape]
                  split at h
                  · next more hclosing =>
                      cases h
                      obtain ⟨tail, hspan, htail, rfl⟩ := Span.closing?_eq_some_iff.1 hclosing
                      rw [show offset + tail.length + 1 - (offset + 1) = tail.length by omega,
                        ← List.prefix_iff_eq_take.1 htail] at hlater
                      rw [Span.closing?_eq_some_iff.2 ⟨tail, hspan, hlater, rfl⟩]
                  · next hclosing =>
                      have hnone : span.closing? b later = none := by
                        rw [Option.eq_none_iff_forall_ne_some]
                        intro more hmore
                        obtain ⟨tail, hspan, htail, rfl⟩ := Span.closing?_eq_some_iff.1 hmore
                        have hle := le_of_findCloseFrom hspan h
                        obtain ⟨before, _, hbefore, hget, -⟩ := exists_ink_of_findCloseFrom h
                        obtain ⟨hlt, -⟩ := List.getElem?_eq_some_iff.1 hget
                        have hrest : tail <+: rest := by
                          refine (List.prefix_of_prefix_length_le htail hlater ?_).trans
                            (List.take_prefix _ _)
                          rw [List.length_take]
                          omega
                        rw [Span.closing?_eq_some_iff.2 ⟨tail, hspan, hrest, rfl⟩] at hclosing
                        cases hclosing
                      rw [hnone]
                      exact ih h hlater

theorem findClose_of_isPrefix
    {dialect : Dialect} {span : Span} {close : Nat} {line other : Bytes}
    (h : findClose dialect span line = some close)
    (hpre : line.take close <+: other) :
    findClose dialect span other = some close := by
  exact findCloseFrom_of_isPrefix h (by rwa [Nat.sub_zero])

end Lexer

end Uncomment

import Uncomment.Proofs.Text.Cut
import Uncomment.Veto.Facts

/-!
# Tables are in order

The tables of a line list what they list from left to right: the occurrences of a text,
the headers of control statements and the calls with an exclamation mark.  So those that
end at or before an offset are the first ones (`filter_eq_take_countP`), and the last
of them is found at their number.
-/

namespace Uncomment

/-- If a property passes on to earlier items, the items that have it are the first ones. -/
theorem filter_eq_take_countP
    {α : Type} {accepts : α → Bool} {items : List α}
    (h : items.Pairwise fun item later => accepts later = true → accepts item = true) :
    items.filter accepts = items.take (items.countP accepts) := by
  induction items with
  | nil =>
      rfl
  | cons item more ih =>
      rw [List.pairwise_cons] at h
      by_cases hitem : accepts item = true
      · rw [List.filter_cons_of_pos hitem, List.countP_cons_of_pos hitem, List.take_succ_cons,
          ih h.2]
      · have hmore : ∀ later ∈ more, ¬ accepts later = true := by
          intro later hlater haccepts
          exact hitem (h.1 later hlater haccepts)
        rw [List.filter_cons_of_neg hitem, List.countP_cons_of_neg hitem,
          List.filter_eq_nil_iff.2 hmore, List.countP_eq_zero.2 hmore, List.take_zero]

/-- The last of the items that have such a property. -/
theorem getLast?_filter
    {α : Type} {accepts : α → Bool} {items : List α}
    (h : items.Pairwise fun item later => accepts later = true → accepts item = true) :
    (items.filter accepts).getLast? =
      if items.countP accepts = 0 then none else items[items.countP accepts - 1]? := by
  have hle := @List.countP_le_length _ accepts items
  rw [filter_eq_take_countP h, List.getLast?_take]
  split
  · rfl
  · rw [List.getElem?_eq_getElem (by omega), Option.some_or]

namespace Bytes

theorem pairwise_occurrencesFrom
    (needle : Bytes) (offset skip : Nat) (text : Bytes) :
    (occurrencesFrom needle offset skip text).Pairwise (· < ·) := by
  induction text generalizing offset skip with
  | nil =>
      cases skip <;> exact .nil
  | cons b rest ih =>
      cases skip with
      | succ skip =>
          exact ih _ _
      | zero =>
          rw [occurrencesFrom]
          split
          · refine List.pairwise_cons.2 ⟨fun start hstart => ?_, ih _ _⟩
            exact (within_of_mem_occurrencesFrom hstart).1
          · exact ih _ _

end Bytes

namespace Pattern

theorem pos_of_headerWidth?
    {text : Bytes} {width : Nat}
    (h : headerWidth? text = some width) :
    0 < width := by
  unfold headerWidth? at h
  split at h
  · cases h
  · dsimp only at h
    split at h
    · cases h
      exact Nat.succ_pos _
    · cases h

/-- A header ends behind what is passed over. -/
theorem lt_stop_of_mem_headersFrom
    {offset skip : Nat} {afterWord : Bool} {text : Bytes} {hit : Hit}
    (h : hit ∈ headersFrom offset skip afterWord text) :
    offset + skip < hit.stop := by
  induction text generalizing offset skip afterWord with
  | nil =>
      cases skip <;> cases h
  | cons b rest ih =>
      cases skip with
      | succ skip =>
          have hlt := ih h
          omega
      | zero =>
          rw [headersFrom] at h
          split at h
          · next width hwidth =>
              have hpos : 0 < width := by
                split at hwidth
                · cases hwidth
                · exact pos_of_headerWidth? hwidth
              rcases List.mem_cons.1 h with rfl | h
              · dsimp only
                omega
              · have hlt := ih h
                omega
          · have hlt := ih h
            omega

theorem pairwise_headersFrom
    (offset skip : Nat) (afterWord : Bool) (text : Bytes) :
    (headersFrom offset skip afterWord text).Pairwise (·.stop < ·.stop) := by
  induction text generalizing offset skip afterWord with
  | nil =>
      cases skip <;> exact .nil
  | cons b rest ih =>
      cases skip with
      | succ skip =>
          exact ih _ _ _
      | zero =>
          rw [headersFrom]
          split
          · next width hwidth =>
              refine List.pairwise_cons.2 ⟨fun hit hhit => ?_, ih _ _ _⟩
              have hlt := lt_stop_of_mem_headersFrom hhit
              dsimp only
              omega
          · exact ih _ _ _

theorem lt_stop_of_mem_bangCallsFrom
    {offset skip : Nat} {name : Option Nat} {text : Bytes} {hit : Hit}
    (h : hit ∈ bangCallsFrom offset skip name text) :
    offset + skip < hit.stop := by
  induction text generalizing offset skip name with
  | nil =>
      cases skip <;> cases h
  | cons b rest ih =>
      have hlater {skip : Nat} {name : Option Nat}
          (h : hit ∈ bangCallsFrom (offset + 1) skip name rest) : offset + 1 + skip < hit.stop :=
        ih h
      cases skip with
      | succ skip =>
          have hlt := ih h
          omega
      | zero =>
          cases name with
          | none =>
              have hlt := hlater h
              omega
          | some name =>
              rw [bangCallsFrom] at h
              split at h
              · have hlt := hlater h
                omega
              · split at h
                · rcases List.mem_cons.1 h with rfl | h
                  · dsimp only
                    omega
                  · have hlt := hlater h
                    omega
                · have hlt := hlater h
                  omega

theorem pairwise_bangCallsFrom
    (offset skip : Nat) (name : Option Nat) (text : Bytes) :
    (bangCallsFrom offset skip name text).Pairwise (·.stop < ·.stop) := by
  induction text generalizing offset skip name with
  | nil =>
      cases skip <;> exact .nil
  | cons b rest ih =>
      cases skip with
      | succ skip =>
          exact ih _ _ _
      | zero =>
          cases name with
          | none =>
              exact ih _ _ _
          | some name =>
              rw [bangCallsFrom]
              split
              · exact ih _ _ _
              · split
                · refine List.pairwise_cons.2 ⟨fun hit hhit => ?_, ih _ _ _⟩
                  exact lt_stop_of_mem_bangCallsFrom hhit
                · exact ih _ _ _

end Pattern
end Uncomment

import Uncomment.Proofs.Text.White
import Uncomment.Veto.Facts

/-!
# What a text and a front part of it share

A line that loses its end keeps what lies before: the occurrences of a text
(`Bytes.occurrences_append`), the places where it may be cut
(`Utf8.startingAt_of_append`), the bytes before an offset (`Utf8.byteBefore_append`).
-/

namespace Uncomment

namespace Bytes

theorem within_of_mem_occurrencesFrom
    {needle text : Bytes} {offset skip start : Nat}
    (h : start ∈ occurrencesFrom needle offset skip text) :
    offset ≤ start ∧ start + needle.length ≤ offset + text.length := by
  induction text generalizing offset skip with
  | nil =>
      cases skip <;> cases h
  | cons b rest ih =>
      have hlater {skip : Nat} (hrest : start ∈ occurrencesFrom needle (offset + 1) skip rest) :
          offset ≤ start ∧ start + needle.length ≤ offset + (b :: rest).length := by
        have hwithin := ih hrest
        rw [List.length_cons]
        omega
      cases skip with
      | succ skip =>
          exact hlater h
      | zero =>
          rw [occurrencesFrom] at h
          split at h
          · next hpre =>
              rcases List.mem_cons.1 h with rfl | h
              · have hle := (List.isPrefixOf_iff_prefix.1 hpre).length_le
                omega
              · exact hlater h
          · exact hlater h

/-- More text adds only occurrences that end in it. -/
theorem occurrencesFrom_append
    {needle : Bytes}
    (hneedle : needle ≠ [])
    (front back : Bytes) (offset skip : Nat) :
    ∃ more, occurrencesFrom needle offset skip (front ++ back) =
        occurrencesFrom needle offset skip front ++ more ∧
      ∀ start ∈ more, offset + front.length < start + needle.length := by
  have hpos : 0 < needle.length := List.length_pos_iff.2 hneedle
  induction front generalizing offset skip with
  | nil =>
      refine ⟨occurrencesFrom needle offset skip back, ?_, ?_⟩
      · cases skip <;> rfl
      · intro start hstart
        have hle := (within_of_mem_occurrencesFrom hstart).1
        rw [List.length_nil]
        omega
  | cons b rest ih =>
      have hlater (skip : Nat) :
          ∃ more, occurrencesFrom needle (offset + 1) skip (rest ++ back) =
              occurrencesFrom needle (offset + 1) skip rest ++ more ∧
            ∀ start ∈ more, offset + (b :: rest).length < start + needle.length := by
        obtain ⟨more, heq, hmore⟩ := ih (offset + 1) skip
        refine ⟨more, heq, fun start hstart => ?_⟩
        have hlt := hmore start hstart
        rw [List.length_cons]
        omega
      cases skip with
      | succ skip =>
          exact hlater skip
      | zero =>
          rw [List.cons_append, occurrencesFrom, occurrencesFrom]
          simp only [List.isPrefixOf_iff_prefix]
          by_cases hfront : needle <+: b :: rest
          · have hboth : needle <+: b :: (rest ++ back) :=
              hfront.trans (List.prefix_append (b :: rest) back)
            rw [if_pos hfront, if_pos hboth]
            obtain ⟨more, heq, hmore⟩ := hlater (needle.length - 1)
            exact ⟨more, by rw [heq, List.cons_append], hmore⟩
          · rw [if_neg hfront]
            by_cases hboth : needle <+: b :: (rest ++ back)
            · -- The needle starts in the front and ends behind it.
              have hlen : (b :: rest).length < needle.length := by
                by_contra hle
                exact hfront (List.prefix_of_prefix_length_le hboth
                  (List.prefix_append (b :: rest) back) (by omega))
              have hnone : occurrencesFrom needle (offset + 1) 0 rest = [] := by
                refine List.eq_nil_iff_forall_not_mem.2 fun start hstart => ?_
                have hwithin := within_of_mem_occurrencesFrom hstart
                rw [List.length_cons] at hlen
                omega
              rw [if_pos hboth, hnone]
              refine ⟨_, rfl, fun start hstart => ?_⟩
              rcases List.mem_cons.1 hstart with rfl | hstart
              · omega
              · have hwithin := within_of_mem_occurrencesFrom hstart
                omega
            · rw [if_neg hboth]
              exact hlater 0

/-- More text adds only occurrences that do not lie before its start. -/
theorem occurrences_append
    {needle : Bytes}
    (hneedle : needle ≠ [])
    (front back : Bytes) :
    ∃ more, occurrences needle (front ++ back) = occurrences needle front ++ more ∧
      ∀ start ∈ more, front.length < start + needle.length := by
  obtain ⟨more, heq, hmore⟩ := occurrencesFrom_append hneedle front back 0 0
  exact ⟨more, heq, fun start hstart => by simpa using hmore start hstart⟩

end Bytes

namespace LineFacts

/-- What is counted before an offset depends on the line up to there. -/
theorem countBefore_append
    {needle : Bytes} {offset : Nat}
    (hneedle : needle ≠ [])
    (front back : Bytes)
    (hle : offset ≤ front.length) :
    (ofLine (front ++ back)).countBefore needle offset =
      (ofLine front).countBefore needle offset := by
  obtain ⟨more, heq, hmore⟩ := Bytes.occurrences_append hneedle front back
  have hnone : more.countP (fun start => start + needle.length ≤ offset) = 0 := by
    refine List.countP_eq_zero.2 fun start hstart => ?_
    have hlt := hmore start hstart
    simp only [decide_eq_true_eq]
    omega
  rw [countBefore, countBefore, positions_ofLine, positions_ofLine, heq, List.countP_append,
    hnone, Nat.add_zero]

theorem seenBefore_append
    {needle : Bytes} {offset : Nat}
    (hneedle : needle ≠ [])
    (front back : Bytes)
    (hle : offset ≤ front.length) :
    (ofLine (front ++ back)).seenBefore needle offset =
      (ofLine front).seenBefore needle offset := by
  obtain ⟨more, heq, hmore⟩ := Bytes.occurrences_append hneedle front back
  rw [seenBefore, seenBefore, positions_ofLine, positions_ofLine, heq, List.head?_append]
  cases Bytes.occurrences needle front with
  | cons start others =>
      rfl
  | nil =>
      cases more with
      | nil =>
          rfl
      | cons start others =>
          have hlt := hmore start List.mem_cons_self
          simp
          omega

end LineFacts

namespace Utf8

theorem boundary_of_append
    {front back : Bytes} {offset : Nat}
    (hle : offset ≤ front.length)
    (h : Boundary (front ++ back) offset) :
    Boundary front offset := by
  rcases h with rfl | ⟨-, hclean⟩
  · exact Or.inl rfl
  · refine Or.inr ⟨hle, ?_⟩
    rw [List.drop_append_of_le_length hle] at hclean
    cases hdrop : front.drop offset with
    | nil =>
        rfl
    | cons b rest =>
        rwa [hdrop] at hclean

theorem startingAt_of_append
    {front back text : Bytes} {offset : Nat}
    (hle : offset ≤ front.length)
    (h : startingAt (front ++ back) offset = .ok text) :
    startingAt front offset = .ok (front.drop offset) ∧ text = front.drop offset ++ back := by
  obtain ⟨hboundary, rfl⟩ := (startingAt_eq_ok_iff _ _ _).1 h
  refine ⟨(startingAt_eq_ok_iff _ _ _).2 ⟨boundary_of_append hle hboundary, rfl⟩, ?_⟩
  rw [List.drop_append_of_le_length hle]

theorem byteBefore_append
    (front back : Bytes) {offset : Nat}
    (hle : offset ≤ front.length) :
    byteBefore (front ++ back) offset = byteBefore front offset := by
  unfold byteBefore
  split
  · rfl
  · rw [List.getElem?_append_left (by omega)]

end Utf8
end Uncomment

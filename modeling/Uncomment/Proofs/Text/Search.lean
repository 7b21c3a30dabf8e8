import Mathlib.Tactic.Common
import Uncomment.Text.Bytes

/-!
# Searching a text

`Bytes.find?` reports the first offset at which a needle begins
(`Bytes.find?_eq_some_iff`, `Bytes.find?_eq_none_iff`).
-/

namespace Uncomment
namespace Bytes

/-- The offset from which a search counts only shifts its answer. -/
theorem findFrom_eq_map
    (needle text : Bytes) (offset : Nat) :
    findFrom needle offset text = (find? needle text).map (offset + ·) := by
  unfold find?
  induction text generalizing offset with
  | nil =>
      simp only [findFrom]
      split <;> rfl
  | cons b rest ih =>
      simp only [findFrom]
      split
      · rfl
      · rw [ih (offset + 1), ih (0 + 1), Option.map_map]
        congr 1
        funext found
        simp only [Function.comp_apply]
        omega

theorem find?_eq_zero
    {needle text : Bytes}
    (h : needle <+: text) :
    find? needle text = some 0 := by
  unfold find?
  cases text with
  | nil =>
      rw [List.prefix_nil] at h
      rw [h]
      rfl
  | cons b rest =>
      rw [findFrom, if_pos (List.isPrefixOf_iff_prefix.2 h)]

theorem find?_cons
    {needle rest : Bytes} {b : UInt8}
    (h : ¬ needle <+: b :: rest) :
    find? needle (b :: rest) = (find? needle rest).map (1 + ·) := by
  rw [← List.isPrefixOf_iff_prefix] at h
  rw [find?, findFrom, if_neg h, findFrom_eq_map]

/-- A needle is found at the first offset at which it begins. -/
theorem find?_eq_some_iff
    {needle text : Bytes} {found : Nat} :
    find? needle text = some found ↔
      needle <+: text.drop found ∧ ∀ earlier < found, ¬ needle <+: text.drop earlier := by
  induction text generalizing found with
  | nil =>
      by_cases h : needle = []
      · subst h
        rw [find?_eq_zero List.nil_prefix, Option.some.injEq]
        constructor
        · rintro rfl
          exact ⟨by simp, by simp⟩
        · rintro ⟨-, hearlier⟩
          by_contra hne
          exact hearlier 0 (by omega) List.nil_prefix
      · simp [find?, findFrom, h]
  | cons b rest ih =>
      by_cases h : needle <+: b :: rest
      · rw [find?_eq_zero h, Option.some.injEq]
        constructor
        · rintro rfl
          exact ⟨h, by simp⟩
        · rintro ⟨-, hearlier⟩
          by_contra hne
          exact hearlier 0 (by omega) h
      · rw [find?_cons h, Option.map_eq_some_iff]
        constructor
        · rintro ⟨later, hlater, rfl⟩
          obtain ⟨hpre, hearlier⟩ := ih.1 hlater
          rw [Nat.add_comm 1 later]
          refine ⟨hpre, ?_⟩
          intro earlier hlt
          cases earlier with
          | zero => exact h
          | succ earlier => exact hearlier earlier (by omega)
        · rintro ⟨hpre, hearlier⟩
          cases found with
          | zero => exact absurd hpre h
          | succ later =>
              refine ⟨later, ih.2 ⟨hpre, ?_⟩, Nat.add_comm 1 later⟩
              intro earlier hlt
              exact hearlier (earlier + 1) (by omega)

/-- A needle is not found where it begins at no offset. -/
theorem find?_eq_none_iff
    {needle text : Bytes} :
    find? needle text = none ↔ ∀ offset, ¬ needle <+: text.drop offset := by
  induction text with
  | nil =>
      simp [find?, findFrom]
  | cons b rest ih =>
      by_cases h : needle <+: b :: rest
      · rw [find?_eq_zero h]
        simp only [reduceCtorEq, false_iff, not_forall, not_not]
        exact ⟨0, h⟩
      · rw [find?_cons h, Option.map_eq_none_iff, ih]
        constructor
        · intro hnever offset
          cases offset with
          | zero => exact h
          | succ offset => exact hnever offset
        · intro hnever offset
          exact hnever (offset + 1)

/-- What is found lies within the text. -/
theorem find?_add_length_le
    {needle text : Bytes} {found : Nat}
    (h : find? needle text = some found) :
    found + needle.length ≤ text.length := by
  obtain ⟨hpre, hearlier⟩ := find?_eq_some_iff.1 h
  have hlen := hpre.length_le
  rw [List.length_drop] at hlen
  cases needle with
  | nil =>
      have hzero : ¬ 0 < found := fun hpos => hearlier 0 hpos List.nil_prefix
      rw [List.length_nil]
      omega
  | cons b more =>
      rw [List.length_cons] at hlen ⊢
      omega

end Bytes
end Uncomment

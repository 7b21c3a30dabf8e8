/-!
# Joined texts

Texts that are joined by a character are found again between its occurrences, as long as it stands
in none of them.
-/

namespace Uncomment
namespace Text

variable {parts : List String} {c : Char}

theorem mem_intercalate {sep : String} (h : c ∈ (sep.intercalate parts).toList) :
    c ∈ sep.toList ∨ ∃ part ∈ parts, c ∈ part.toList := by
  induction parts with
  | nil => simp at h
  | cons part parts ih =>
      by_cases hnil : parts = []
      · subst hnil
        exact .inr ⟨part, by simp, by simpa using h⟩
      · rw [String.toList_intercalate, List.map_cons,
          List.intercalate_cons_of_ne_nil (by simpa using hnil), ← String.toList_intercalate,
          List.append_assoc, List.mem_append, List.mem_append] at h
        rcases h with h | h | h
        · exact .inr ⟨part, by simp, h⟩
        · exact .inl h
        · exact (ih h).imp_right fun ⟨other, hother, hc⟩ => ⟨other, by simp [hother], hc⟩

/-- Joined texts are cut apart again. -/
theorem splitOn_intercalate
    (hne : parts ≠ []) (h : ∀ part ∈ parts, c ∉ part.toList) :
    ((String.singleton c).intercalate parts).toList.splitOn c = parts.map String.toList := by
  rw [String.toList_intercalate, String.toList_singleton]
  exact List.splitOn_intercalate c (by simpa using h) (by simpa using hne)

/-- To end every text is to join the texts and an empty one. -/
theorem join_map_append (sep : String) (parts : List String) :
    String.join (parts.map (· ++ sep)) = sep.intercalate (parts ++ [""]) := by
  induction parts with
  | nil => rfl
  | cons part parts ih =>
      rw [List.map_cons, String.join_cons, ih, ← String.toList_inj]
      simp [List.intercalate_cons_of_ne_nil]

end Text
end Uncomment

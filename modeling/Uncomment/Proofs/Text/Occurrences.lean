import Uncomment.Proofs.Text.Cut
import Uncomment.Proofs.Text.Search

/-!
# Occurrences, found naively

What the table of a needle tells can be found out by searching: whether the needle occurs
(`Bytes.contains_iff`), how often, if one goes on behind each occurrence (`Bytes.tally`), and
where last (`Bytes.findLast?`).  The table lists occurrences that do not overlap.  A needle of
which no proper part is both a front and an end part (`Bytes.Unbordered`) cannot overlap itself,
so its table has every place where it stands (`Bytes.mem_occurrences_iff`).
-/

namespace Uncomment
namespace Bytes

variable {needle text : Bytes}

theorem infix_iff_exists_drop :
    needle <:+: text ↔ ∃ start, needle <+: text.drop start := by
  rw [List.infix_iff_prefix_suffix]
  constructor
  · rintro ⟨later, hpre, hsuffix⟩
    rw [List.suffix_iff_eq_drop.1 hsuffix] at hpre
    exact ⟨_, hpre⟩
  · rintro ⟨start, hpre⟩
    exact ⟨_, hpre, List.drop_suffix start text⟩

theorem contains_iff :
    contains needle text = true ↔ needle <:+: text := by
  rw [contains, infix_iff_exists_drop, ← Option.ne_none_iff_isSome, Ne, find?_eq_none_iff]
  simp only [not_forall, not_not]

/-- A text stands in a part of a line where it stands in the line, if it lies in the part. -/
theorem isPrefix_drop_take_iff
    (hneedle : needle ≠ [])
    (start high : Nat) :
    needle <+: (text.take high).drop start ↔
      needle <+: text.drop start ∧ start + needle.length ≤ high := by
  have hpos := List.length_pos_iff.2 hneedle
  rw [List.drop_take, List.prefix_take_iff]
  refine and_congr_right fun _ => ?_
  omega

/-- A text lies between two offsets of a line if it stands at an offset between them. -/
theorem infix_drop_take_iff
    (hneedle : needle ≠ [])
    (low high : Nat) :
    needle <:+: (text.take high).drop low ↔
      ∃ start, low ≤ start ∧ needle <+: text.drop start ∧ start + needle.length ≤ high := by
  rw [infix_iff_exists_drop]
  simp only [List.drop_drop, isPrefix_drop_take_iff hneedle]
  constructor
  · rintro ⟨start, h⟩
    exact ⟨low + start, Nat.le_add_right _ _, h⟩
  · rintro ⟨start, hlow, h⟩
    obtain ⟨more, rfl⟩ := Nat.exists_eq_add_of_le hlow
    exact ⟨more, h⟩

section Tally

/-- How often a text occurs if one searches on behind each occurrence that has been found. -/
def tally (needle text : Bytes) : Nat :=
  if _needle : needle = [] then 0
  else
    match _found : find? needle text with
    | none => 0
    | some found => 1 + tally needle (text.drop (found + needle.length))
termination_by text.length
decreasing_by
  have hpos := List.length_pos_iff.2 _needle
  have hle := find?_add_length_le _found
  rw [List.length_drop]
  omega

/-- What is passed over only moves the place from which the occurrences are looked for. -/
theorem occurrencesFrom_skip
    (needle : Bytes) (offset skip : Nat) (text : Bytes) :
    occurrencesFrom needle offset skip text =
      occurrencesFrom needle (offset + skip) 0 (text.drop skip) := by
  induction skip generalizing offset text with
  | zero =>
      rfl
  | succ skip ih =>
      cases text with
      | nil => rfl
      | cons b rest => rw [occurrencesFrom, ih, List.drop_succ_cons, Nat.add_right_comm]; rfl

/-- The first occurrence is the one that is found, and the others come behind it. -/
theorem occurrencesFrom_eq
    (hneedle : needle ≠ [])
    (offset : Nat) (text : Bytes) :
    occurrencesFrom needle offset 0 text =
      match find? needle text with
      | none => []
      | some found =>
          (offset + found) :: occurrencesFrom needle (offset + (found + needle.length)) 0
            (text.drop (found + needle.length)) := by
  have hpos := List.length_pos_iff.2 hneedle
  induction text generalizing offset with
  | nil =>
      have hnone : find? needle [] = none := by
        rw [find?_eq_none_iff]
        simpa using hneedle
      rw [hnone]
      rfl
  | cons b rest ih =>
      rw [occurrencesFrom]
      split
      · next hpre =>
          obtain ⟨more, hmore⟩ := Nat.exists_eq_add_of_lt hpos
          rw [Nat.zero_add] at hmore
          rw [find?_eq_zero (List.isPrefixOf_iff_prefix.1 hpre), occurrencesFrom_skip]
          simp only [Nat.add_zero, Nat.zero_add]
          rw [hmore, List.drop_succ_cons, Nat.add_sub_cancel, Nat.add_assoc, Nat.add_comm 1 more]
      · next hpre =>
          rw [List.isPrefixOf_iff_prefix] at hpre
          rw [find?_cons hpre, ih]
          cases find? needle rest with
          | none =>
              rfl
          | some found =>
              rw [Option.map_some]
              dsimp only
              rw [show 1 + found + needle.length = found + needle.length + 1 by omega,
                List.drop_succ_cons, Nat.add_assoc offset 1 found, Nat.add_assoc offset 1,
                Nat.add_comm 1 (found + needle.length)]

/-- The table of a needle has one entry for each occurrence that a search comes to. -/
theorem length_occurrencesFrom
    (hneedle : needle ≠ [])
    (offset : Nat) (text : Bytes) :
    (occurrencesFrom needle offset 0 text).length = tally needle text := by
  fun_induction tally needle text generalizing offset with
  | case1 text hnil =>
      exact absurd hnil hneedle
  | case2 text _ hnone =>
      rw [occurrencesFrom_eq hneedle, hnone]
      rfl
  | case3 text _ found hfound ih =>
      rw [occurrencesFrom_eq hneedle, hfound, List.length_cons, ih, Nat.add_comm]

end Tally

section Last

/-- The offset at which a text occurs for the last time. -/
def findLast? (needle : Bytes) : Bytes → Option Nat
  | [] => none
  | b :: rest =>
      match findLast? needle rest with
      | some later => some (later + 1)
      | none => if needle.isPrefixOf (b :: rest) then some 0 else none

/-- A needle stands at an offset of a text, and at none behind it. -/
def LastAt (needle text : Bytes) (start : Nat) : Prop :=
  needle <+: text.drop start ∧ ∀ later, start < later → ¬ needle <+: text.drop later

/-- The last offset is the one at which the needle is found last. -/
theorem findLast?_eq
    (hneedle : needle ≠ [])
    (text : Bytes) :
    match findLast? needle text with
    | some start => LastAt needle text start
    | none => ∀ start, ¬ needle <+: text.drop start := by
  induction text with
  | nil =>
      simpa [findLast?] using hneedle
  | cons b rest ih =>
      rw [findLast?]
      cases hlast : findLast? needle rest with
      | some later =>
          rw [hlast] at ih
          refine ⟨ih.1, fun start hlt => ?_⟩
          obtain ⟨more, rfl⟩ := Nat.exists_eq_add_of_lt hlt
          exact ih.2 (later + 1 + more) (by omega)
      | none =>
          rw [hlast] at ih
          have hlater (start : Nat) (hlt : 0 < start) : ¬ needle <+: (b :: rest).drop start := by
            obtain ⟨more, rfl⟩ := Nat.exists_eq_add_of_lt hlt
            rw [Nat.zero_add, List.drop_succ_cons]
            exact ih more
          by_cases hpre : needle.isPrefixOf (b :: rest) = true
          · simp only [if_pos hpre]
            exact ⟨List.isPrefixOf_iff_prefix.1 hpre, hlater⟩
          · simp only [if_neg hpre]
            rw [List.isPrefixOf_iff_prefix] at hpre
            intro start
            rcases Nat.eq_zero_or_pos start with rfl | hlt
            · exact hpre
            · exact hlater start hlt

theorem findLast?_eq_some_iff
    {start : Nat}
    (hneedle : needle ≠ []) :
    findLast? needle text = some start ↔ LastAt needle text start := by
  have hspec := findLast?_eq hneedle text
  constructor
  · intro h
    rwa [h] at hspec
  · intro h
    cases hlast : findLast? needle text with
    | none =>
        rw [hlast] at hspec
        exact absurd h.1 (hspec start)
    | some last =>
        rw [hlast] at hspec
        rcases Nat.lt_trichotomy start last with hlt | rfl | hlt
        · exact absurd hspec.1 (h.2 last hlt)
        · rfl
        · exact absurd h.1 (hspec.2 start hlt)

end Last

section Unbordered

/-- No part of a needle but the whole is both a front and an end part of it. -/
def Unbordered (needle : Bytes) : Prop :=
  ∀ part, part <+: needle → part <:+ needle → part = [] ∨ part = needle

/-- It is enough to compare the front and the end part of each width. -/
theorem unbordered_iff :
    Unbordered needle ↔
      ∀ width < needle.length, 0 < width →
        needle.take width ≠ needle.drop (needle.length - width) := by
  constructor
  · intro h width hlt hpos heq
    have hlen : (needle.take width).length = width := by
      rw [List.length_take, Nat.min_eq_left hlt.le]
    rcases h (needle.take width) (List.take_prefix _ _) (heq ▸ List.drop_suffix _ _) with
      hnil | hall
    · rw [hnil, List.length_nil] at hlen
      omega
    · rw [hall] at hlen
      omega
  · intro h part hpre hsuffix
    by_contra hne
    rw [not_or] at hne
    have hpos := List.length_pos_iff.2 hne.1
    have hlt : part.length < needle.length := by
      refine Nat.lt_of_le_of_ne hpre.length_le fun heq => hne.2 ?_
      exact hpre.eq_of_length heq
    refine h part.length hlt hpos ?_
    rw [← List.prefix_iff_eq_take.1 hpre, ← List.suffix_iff_eq_drop.1 hsuffix]

instance :
    DecidablePred Unbordered :=
  fun _ => decidable_of_iff _ unbordered_iff.symm

/-- An unbordered needle that stands at the front of a text stands next behind itself at most. -/
theorem Unbordered.length_le
    {start : Nat}
    (h : Unbordered needle)
    (hfront : needle <+: text)
    (hstart : needle <+: text.drop start)
    (hpos : 0 < start) :
    needle.length ≤ start := by
  by_contra hlt
  -- The two occurrences would share a part that begins the one and ends the other.
  obtain ⟨back, rfl⟩ := hfront
  rw [List.drop_append_of_le_length (by omega)] at hstart
  have hshared : needle.drop start <+: needle := by
    refine List.prefix_of_prefix_length_le (List.prefix_append _ back) hstart ?_
    rw [List.length_drop]
    omega
  have hlen : (needle.drop start).length = needle.length - start := List.length_drop
  rcases h _ hshared (List.drop_suffix _ _) with hnil | hall
  · rw [hnil, List.length_nil] at hlen
    omega
  · rw [hall] at hlen
    omega

/-- The table of an unbordered needle has every place where the needle stands. -/
theorem mem_occurrencesFrom_iff
    {offset skip start : Nat}
    (hneedle : needle ≠ [])
    (h : Unbordered needle) :
    start ∈ occurrencesFrom needle offset skip text ↔
      offset + skip ≤ start ∧ needle <+: text.drop (start - offset) := by
  have hpos := List.length_pos_iff.2 hneedle
  induction text generalizing offset skip with
  | nil =>
      have hnone : occurrencesFrom needle offset skip [] = [] := by
        cases skip <;> rfl
      simp [hnone, hneedle]
  | cons b rest ih =>
      have hlater {skip : Nat} :
          start ∈ occurrencesFrom needle (offset + 1) skip rest ↔
            offset + 1 + skip ≤ start ∧ needle <+: (b :: rest).drop (start - offset) := by
        refine ih.trans (and_congr_right fun hle => ?_)
        rw [show start - offset = start - (offset + 1) + 1 by omega, List.drop_succ_cons]
      cases skip with
      | succ skip =>
          rw [occurrencesFrom, hlater, Nat.add_assoc, Nat.add_comm 1]
      | zero =>
          rw [occurrencesFrom]
          split
          · next hpre =>
              rw [List.isPrefixOf_iff_prefix] at hpre
              rw [List.mem_cons, hlater]
              constructor
              · rintro (rfl | ⟨hle, hstart⟩)
                · exact ⟨Nat.le_refl _, by simpa using hpre⟩
                · exact ⟨by omega, hstart⟩
              · rintro ⟨hle, hstart⟩
                rcases Nat.eq_or_lt_of_le hle with heq | hlt
                · exact Or.inl heq.symm
                · have hbehind := h.length_le hpre hstart (by omega)
                  exact Or.inr ⟨by omega, hstart⟩
          · next hpre =>
              rw [List.isPrefixOf_iff_prefix] at hpre
              rw [hlater]
              refine and_congr_left fun hstart => ?_
              have hne : start ≠ offset := by
                rintro rfl
                rw [Nat.sub_self] at hstart
                exact hpre hstart
              omega

theorem mem_occurrences_iff
    {start : Nat}
    (hneedle : needle ≠ [])
    (h : Unbordered needle) :
    start ∈ occurrences needle text ↔ needle <+: text.drop start := by
  refine (mem_occurrencesFrom_iff hneedle h).trans ?_
  simp

end Unbordered
end Bytes
end Uncomment

import Uncomment.Proofs.Text.Occurrences
import Uncomment.Proofs.Veto.Mark

/-!
# Tables answer as searches do

Every question about occurrences that the tables of a line answer can be answered by a search
of the part of the line that it is about.  The occurrences of a needle in the line and in a
front part of it begin alike, so `LineFacts.seenBefore` and `LineFacts.countBefore` do as a
search of the front part does.  A part that starts in the middle of the line may start within
an occurrence, so `LineFacts.seenBetween` and `LineFacts.unclosedBefore` do so for needles that
do not overlap themselves.
-/

namespace Uncomment
namespace LineFacts

variable {line needle : Bytes} {offset : Nat}

/-- A needle has been seen before an offset if it lies in the text before it. -/
theorem seenBefore_eq_contains
    (hneedle : needle ≠ []) :
    (ofLine line).seenBefore needle offset = Bytes.contains needle (line.take offset) := by
  have hhead : (Bytes.occurrences needle line).head? = Bytes.find? needle line := by
    rw [Bytes.occurrences, Bytes.occurrencesFrom_eq hneedle]
    cases Bytes.find? needle line with
    | none => rfl
    | some found => rw [List.head?_cons, Nat.zero_add]
  rw [Bool.eq_iff_iff, Bytes.contains_iff, seenBefore, positions_ofLine, hhead,
    Option.any_eq_true, ← List.drop_zero (l := line.take offset), Bytes.infix_drop_take_iff hneedle]
  constructor
  · rintro ⟨found, hfound, hle⟩
    exact ⟨found, Nat.zero_le _, (Bytes.find?_eq_some_iff.1 hfound).1, of_decide_eq_true hle⟩
  · rintro ⟨start, -, hstart, hle⟩
    cases hfind : Bytes.find? needle line with
    | none =>
        exact absurd hstart (Bytes.find?_eq_none_iff.1 hfind start)
    | some found =>
        have hfirst : found ≤ start := by
          by_contra hlt
          exact (Bytes.find?_eq_some_iff.1 hfind).2 start (by omega) hstart
        exact ⟨found, rfl, decide_eq_true (by omega)⟩

/-- What is counted before an offset is counted in the text before it. -/
theorem countBefore_eq_tally
    (hneedle : needle ≠ [])
    (hle : offset ≤ line.length) :
    (ofLine line).countBefore needle offset = Bytes.tally needle (line.take offset) := by
  have hlen : (line.take offset).length = offset := by
    rw [List.length_take, Nat.min_eq_left hle]
  have hcut := countBefore_append hneedle (line.take offset) (line.drop offset) hlen.ge
  have hall : (Bytes.occurrences needle (line.take offset)).countP
      (fun start => start + needle.length ≤ offset) =
        (Bytes.occurrences needle (line.take offset)).length := by
    refine List.countP_eq_length.2 fun start hstart => decide_eq_true ?_
    have hwithin := Mark.within_of_mem_occurrences hstart
    omega
  rw [List.take_append_drop] at hcut
  rw [hcut, countBefore, positions_ofLine, hall, Bytes.occurrences,
    Bytes.length_occurrencesFrom hneedle]

/-- The first entry from an offset on tells of all of them, because the table is in order. -/
theorem seenBetween_iff_exists
    (low high : Nat) :
    (ofLine line).seenBetween needle low high = true ↔
      ∃ start ∈ Bytes.occurrences needle line, low ≤ start ∧ start + needle.length ≤ high := by
  rw [seenBetween, positions_ofLine, Option.any_eq_true]
  constructor
  · rintro ⟨start, hfind, hhigh⟩
    have hlow := List.find?_some hfind
    exact ⟨start, List.mem_of_find?_eq_some hfind, of_decide_eq_true hlow, of_decide_eq_true hhigh⟩
  · rintro ⟨start, hmem, hlow, hhigh⟩
    have hsome : ((Bytes.occurrences needle line).find? (low ≤ ·)).isSome = true :=
      List.find?_isSome.2 ⟨start, hmem, decide_eq_true hlow⟩
    obtain ⟨first, hfind⟩ := Option.isSome_iff_exists.1 hsome
    refine ⟨first, hfind, decide_eq_true ?_⟩
    obtain ⟨-, before, behind, heq, hbefore⟩ := List.find?_eq_some_iff_append.1 hfind
    have hsorted := Bytes.pairwise_occurrencesFrom needle 0 0 line
    rw [← Bytes.occurrences, heq, List.pairwise_append, List.pairwise_cons] at hsorted
    rw [heq, List.mem_append, List.mem_cons] at hmem
    rcases hmem with hmem | rfl | hmem
    · have hno := hbefore start hmem
      simp only [Bool.not_eq_true', decide_eq_false_iff_not] at hno
      exact absurd hlow hno
    · exact hhigh
    · have hlt := hsorted.2.1.1 start hmem
      omega

/-- An unbordered needle is seen between two offsets if it lies in the text between them. -/
theorem seenBetween_eq_contains
    (hneedle : needle ≠ [])
    (hunbordered : Bytes.Unbordered needle)
    (low high : Nat) :
    (ofLine line).seenBetween needle low high =
      Bytes.contains needle ((line.take high).drop low) := by
  rw [Bool.eq_iff_iff, Bytes.contains_iff, seenBetween_iff_exists,
    Bytes.infix_drop_take_iff hneedle]
  simp only [Bytes.mem_occurrences_iff hneedle hunbordered]
  constructor
  · rintro ⟨start, hstart, hlow, hhigh⟩
    exact ⟨start, hlow, hstart, hhigh⟩
  · rintro ⟨start, hlow, hstart, hhigh⟩
    exact ⟨start, hstart, hlow, hhigh⟩

/-- A needle that overlaps itself may be overlooked, because the table has the first of two only. -/
example :
    (ofLine (Bytes.ofString "aaa")).seenBetween (Bytes.ofString "aa") 1 3 = false ∧
      Bytes.contains (Bytes.ofString "aa") (((Bytes.ofString "aaa").take 3).drop 1) = true := by
  decide

/-- The last entry of an unbordered needle is the last place where it stands. -/
theorem getLast?_occurrences
    (hneedle : needle ≠ [])
    (hunbordered : Bytes.Unbordered needle)
    (text : Bytes) :
    (Bytes.occurrences needle text).getLast? = Bytes.findLast? needle text := by
  have hmem (start : Nat) := @Bytes.mem_occurrences_iff needle text start hneedle hunbordered
  have hsorted := Bytes.pairwise_occurrencesFrom needle 0 0 text
  rw [← Bytes.occurrences] at hsorted
  rcases List.eq_nil_or_concat (Bytes.occurrences needle text) with hnil | ⟨front, last, hlast⟩
  · cases hfind : Bytes.findLast? needle text with
    | none =>
        rw [hnil]
        rfl
    | some start =>
        have hstart := (hmem start).2 ((Bytes.findLast?_eq_some_iff hneedle).1 hfind).1
        rw [hnil] at hstart
        cases hstart
  · rw [hlast, List.concat_eq_append] at hmem hsorted ⊢
    rw [List.getLast?_concat, eq_comm, Bytes.findLast?_eq_some_iff hneedle]
    refine ⟨(hmem last).1 (by simp), fun later hlt hlater => ?_⟩
    rw [List.pairwise_append] at hsorted
    have hin := (hmem later).2 hlater
    rw [List.mem_append, List.mem_singleton] at hin
    rcases hin with hin | rfl
    · have hle := hsorted.2.2 later hin last (by simp)
      omega
    · omega

/--
Something unclosed before an offset has an opener in the text before it, and no closer behind
the last one there.
-/
theorem unclosedBefore_eq_search
    {opener closer : Bytes}
    (hopener : opener ≠ [])
    (hcloser : closer ≠ [])
    (hopener' : Bytes.Unbordered opener)
    (hcloser' : Bytes.Unbordered closer)
    (hle : offset ≤ line.length) :
    (ofLine line).unclosedBefore opener closer offset =
      (Bytes.findLast? opener (line.take offset)).any fun start =>
        !Bytes.contains closer ((line.take offset).drop (start + opener.length)) := by
  have hlen : (line.take offset).length = offset := by
    rw [List.length_take, Nat.min_eq_left hle]
  have hall : (Bytes.occurrences opener (line.take offset)).filter
      (fun start => start + opener.length ≤ offset) =
        Bytes.occurrences opener (line.take offset) := by
    refine List.filter_eq_self.2 fun start hstart => decide_eq_true ?_
    have hwithin := Mark.within_of_mem_occurrences hstart
    omega
  have hcut := unclosedBefore_append hopener hcloser (line.take offset) (line.drop offset) hlen.ge
  rw [List.take_append_drop] at hcut
  rw [hcut]
  simp only [unclosedBefore, positions_ofLine, hall, getLast?_occurrences hopener hopener',
    seenBetween_eq_contains hcloser hcloser', List.take_take, Nat.min_self]

end LineFacts
end Uncomment

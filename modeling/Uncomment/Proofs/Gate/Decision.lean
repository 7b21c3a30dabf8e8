import Uncomment.Gate
import Uncomment.Proofs.Strip.Rows
import Uncomment.Proofs.Text.Encoding
import Uncomment.Run.Job

/-!
# What the gate decides

The gate gives the first of three reasons that applies to a content: it is too large, it
is binary, or it has too long a line, of which the first one is named
(`Gate.Decides`, `Gate.check_eq_iff`).  Force lifts the first and the last of them.

A content that passes is that of a string, so what is decoded behind the gate is never
found to be binary there (`Run.processDecoded_eq`).
-/

namespace Uncomment
namespace Gate

variable {limits : Limits} {force : Bool} {content : Bytes}

/-- The content is larger than the limit, which has not been lifted. -/
def IsTooLarge (limits : Limits) (force : Bool) (content : Bytes) : Prop :=
  force = false ∧ limits.maxBytes < content.length

/-- A zero byte stands among the first 512 bytes, or the content is that of no string. -/
def IsBinary (content : Bytes) : Prop :=
  0 ∈ content.take 512 ∨ ¬ ∃ text : String, Bytes.ofString text = content

/-- The first row longer than a limit, by its number counted from one, and its length. -/
inductive FirstLong (limit : Nat) : List Bytes → Nat → Nat → Prop
  | intro {before behind : List Bytes} {row : Bytes} :
      (∀ earlier ∈ before, earlier.length ≤ limit) →
      limit < row.length →
      FirstLong limit (before ++ row :: behind) (before.length + 1) row.length

/-- The answers of the gate. -/
inductive Decides (limits : Limits) (force : Bool) (content : Bytes) : Option Skip → Prop
  | tooLarge :
      IsTooLarge limits force content →
      Decides limits force content (some (.tooLarge content.length limits.maxBytes))
  | binary :
      ¬ IsTooLarge limits force content →
      IsBinary content →
      Decides limits force content (some .binary)
  | lineTooLong {number length : Nat} :
      ¬ IsTooLarge limits force content →
      ¬ IsBinary content →
      force = false →
      FirstLong limits.maxLineLength (content.splitOn Byte.lineFeed) number length →
      Decides limits force content (some (.lineTooLong number length limits.maxLineLength))
  | passes :
      ¬ IsTooLarge limits force content →
      ¬ IsBinary content →
      (force = true ∨
        ∀ row ∈ content.splitOn Byte.lineFeed, row.length ≤ limits.maxLineLength) →
      Decides limits force content none

theorem longRow?_eq_none_iff
    {limit number : Nat} {rows : List Bytes} :
    longRow? limit number rows = none ↔ ∀ row ∈ rows, row.length ≤ limit := by
  induction rows generalizing number with
  | nil => simp [longRow?]
  | cons row more ih =>
      rw [longRow?, List.forall_mem_cons]
      split
      · next hlong => simp [Nat.not_le.2 hlong]
      · next hshort => rw [ih, and_iff_right (Nat.not_lt.1 hshort)]

/-- The row that is found is the first one longer than the limit. -/
theorem longRow?_append
    {limit : Nat} {before behind : List Bytes} {row : Bytes}
    (hbefore : ∀ earlier ∈ before, earlier.length ≤ limit)
    (hrow : limit < row.length)
    (number : Nat) :
    longRow? limit number (before ++ row :: behind) =
      some (number + before.length, row.length) := by
  induction before generalizing number with
  | nil => rw [List.nil_append, longRow?, if_pos hrow]; rfl
  | cons first others ih =>
      rw [List.forall_mem_cons] at hbefore
      rw [List.cons_append, longRow?, if_neg (Nat.not_lt.2 hbefore.1), ih hbefore.2,
        List.length_cons, Nat.add_right_comm, Nat.add_assoc]

/-- A row that is found stands behind rows within the limit. -/
theorem exists_of_longRow?
    {limit start number length : Nat} {rows : List Bytes}
    (h : longRow? limit start rows = some (number, length)) :
    ∃ before row behind, rows = before ++ row :: behind ∧
      (∀ earlier ∈ before, earlier.length ≤ limit) ∧ limit < row.length := by
  induction rows generalizing start with
  | nil => cases h
  | cons row more ih =>
      rw [longRow?] at h
      split at h
      · next hlong => exact ⟨[], row, more, rfl, by simp, hlong⟩
      · next hshort =>
          obtain ⟨before, first, behind, rfl, hbefore, hfirst⟩ := ih h
          exact ⟨row :: before, first, behind, rfl,
            List.forall_mem_cons.2 ⟨Nat.not_lt.1 hshort, hbefore⟩, hfirst⟩

/-- The search of the rows finds the first one longer than the limit. -/
theorem longRow?_eq_some_iff
    {limit number length : Nat} {rows : List Bytes} :
    longRow? limit 1 rows = some (number, length) ↔ FirstLong limit rows number length := by
  constructor
  · intro h
    obtain ⟨before, row, behind, rfl, hbefore, hrow⟩ := exists_of_longRow? h
    rw [longRow?_append hbefore hrow, Nat.add_comm] at h
    cases h
    exact .intro hbefore hrow
  · rintro ⟨hbefore, hrow⟩
    rw [longRow?_append hbefore hrow, Nat.add_comm]

theorem isBinary_iff :
    isBinary content = true ↔ IsBinary content := by
  rw [isBinary, IsBinary, Bool.or_eq_true, Bool.not_eq_true', List.elem_iff, binaryWindow,
    ← Utf8.valid_iff_exists_ofString, Bool.not_eq_true]

/-- The gate decides as it should. -/
theorem decides_check
    (limits : Limits) (force : Bool) (content : Bytes) :
    Decides limits force content (check limits force content) := by
  rw [check]
  split
  · next hlarge =>
      rw [Bool.and_eq_true, Bool.not_eq_true', decide_eq_true_eq] at hlarge
      exact .tooLarge hlarge
  · next hlarge =>
      rw [Bool.and_eq_true, Bool.not_eq_true', decide_eq_true_eq] at hlarge
      split
      · next hbinary =>
          exact .binary hlarge (isBinary_iff.1 hbinary)
      · next hbinary =>
          rw [isBinary_iff] at hbinary
          split
          · next hforce =>
              exact .passes hlarge hbinary (Or.inl hforce)
          · next hforce =>
              rw [Bytes.lines_eq_splitOn]
              split
              · next hlong =>
                  exact .lineTooLong hlarge hbinary (Bool.not_eq_true _ ▸ hforce)
                    (longRow?_eq_some_iff.1 hlong)
              · next hshort =>
                  exact .passes hlarge hbinary (Or.inr (longRow?_eq_none_iff.1 hshort))

/-- There is one first row longer than a limit, and none if all rows are within the limit. -/
theorem FirstLong.exists_lt
    {limit number length : Nat} {rows : List Bytes}
    (h : FirstLong limit rows number length) :
    ∃ row ∈ rows, limit < row.length := by
  obtain ⟨-, hrow⟩ := h
  exact ⟨_, by simp, hrow⟩

/-- The reasons exclude each other, so there is one answer. -/
theorem Decides.unique
    {answer answer' : Option Skip}
    (h : Decides limits force content answer)
    (h' : Decides limits force content answer') :
    answer = answer' := by
  have hrows {number length : Nat}
      (hlong : FirstLong limits.maxLineLength (content.splitOn Byte.lineFeed) number length)
      (hforce : force = false)
      (hshort : force = true ∨
        ∀ row ∈ content.splitOn Byte.lineFeed, row.length ≤ limits.maxLineLength) : False := by
    obtain ⟨row, hrow, hlt⟩ := hlong.exists_lt
    rcases hshort with hlift | hshort
    · rw [hforce] at hlift
      cases hlift
    · exact absurd (hshort row hrow) (Nat.not_le.2 hlt)
  cases h with
  | tooLarge hlarge =>
      cases h' with
      | tooLarge => rfl
      | binary hnot | lineTooLong hnot | passes hnot => exact absurd hlarge hnot
  | binary hnot hbinary =>
      cases h' with
      | binary => rfl
      | tooLarge hlarge => exact absurd hlarge hnot
      | lineTooLong _ hno | passes _ hno => exact absurd hbinary hno
  | lineTooLong hnot hno hforce hlong =>
      cases h' with
      | tooLarge hlarge => exact absurd hlarge hnot
      | binary _ hbinary => exact absurd hbinary hno
      | lineTooLong _ _ _ hlong' =>
          rw [← longRow?_eq_some_iff] at hlong hlong'
          rw [hlong] at hlong'
          cases hlong'
          rfl
      | passes _ _ hshort => exact (hrows hlong hforce hshort).elim
  | passes hnot hno hshort =>
      cases h' with
      | tooLarge hlarge => exact absurd hlarge hnot
      | binary _ hbinary => exact absurd hbinary hno
      | lineTooLong _ _ hforce hlong => exact (hrows hlong hforce hshort).elim
      | passes => rfl

/-- What is decided is the answer of the gate. -/
theorem check_eq_iff
    {answer : Option Skip} :
    check limits force content = answer ↔ Decides limits force content answer := by
  have hcheck := decides_check limits force content
  exact ⟨fun h => h ▸ hcheck, fun h => hcheck.unique h⟩

/-- A content that passes is that of a string. -/
theorem exists_ofString_of_check
    (h : check limits force content = none) :
    ∃ text : String, Bytes.ofString text = content := by
  cases check_eq_iff.1 h with
  | passes _ hno => exact not_not.1 (not_or.1 hno).2

/-- What passes without force passes with force, and with wider limits. -/
theorem check_of_wider
    {wider : Limits}
    (h : check limits false content = none)
    (hwider : force = true ∨
      limits.maxBytes ≤ wider.maxBytes ∧ limits.maxLineLength ≤ wider.maxLineLength) :
    check wider force content = none := by
  rw [check_eq_iff] at h ⊢
  cases h with
  | passes hnot hno hshort =>
      rcases hwider with rfl | ⟨hbytes, hlines⟩
      · exact .passes (by simp [IsTooLarge]) hno (Or.inl rfl)
      · refine .passes ?_ hno (Or.inr fun row hrow => ?_)
        · rintro ⟨-, hlarge⟩
          exact hnot ⟨rfl, Nat.lt_of_le_of_lt hbytes hlarge⟩
        · have hrows := hshort.resolve_left (by simp)
          exact (hrows row hrow).trans hlines

end Gate

namespace Run

/--
Process a file as `processFile` does, with its content decoded behind the gate; `garbled` is
the outcome for a content that cannot be decoded.
-/
def processDecoded
    (garbled : Outcome)
    (disk : Disk)
    (here : Location)
    (settings : Settings)
    (path : Path)
    (language : Language)
    (backup : Option Backup) :
    Except Fault (Outcome × Disk) :=
  match disk.read here path with
  | .error e => .ok (.failed ⟨["Failed to read " ++ path.toString], e.message⟩, disk)
  | .ok content =>
      match Gate.check settings.limits settings.force content with
      | some reason => .ok (.skipped reason, disk)
      | none =>
          match String.fromUTF8? content.toByteArray with
          | none => .ok (garbled, disk)
          | some text =>
              match strip language (Bytes.ofString text) with
              | .error fault => .error fault
              | .ok stripped =>
                  if stripped = Bytes.ofString text then .ok (.unchanged, disk)
                  else if settings.dryRun then .ok (.changed none, disk)
                  else .ok (replace disk here path backup content stripped)

/-- A content that passes the gate can be decoded, so no file is found to be garbled. -/
theorem processDecoded_eq
    (garbled : Outcome) :
    processDecoded garbled = processFile := by
  funext disk here settings path language backup
  rw [processDecoded, processFile]
  cases disk.read here path with
  | error e => rfl
  | ok content =>
      dsimp only
      cases hcheck : Gate.check settings.limits settings.force content with
      | some reason => rfl
      | none =>
          obtain ⟨text, rfl⟩ := Gate.exists_ofString_of_check hcheck
          have hdecoded : String.fromUTF8? (Bytes.ofString text).toByteArray = some text :=
            Utf8.fromUTF8?_eq_some_iff.2 rfl
          exact hdecoded ▸ rfl

end Run
namespace Gate

/--
The gate gives the first reason that applies: a size beyond the limit, binary content, and
the first line that is too long; force lifts the limits.  A content that passes can be
decoded, so the outcome for garbled content behind the gate is that of no file.  What passes
without force passes with force, and with limits that are no narrower.
-/
theorem gate_decides
    (limits : Limits) (force : Bool) (content : Bytes) :
    (∀ answer, check limits force content = answer ↔ Decides limits force content answer) ∧
    (check limits force content = none →
      ∃ text, String.fromUTF8? content.toByteArray = some text) ∧
    (∀ garbled, Run.processDecoded garbled = Run.processFile) ∧
    (check limits false content = none → ∀ wider, check wider true content = none ∧
      (limits.maxBytes ≤ wider.maxBytes → limits.maxLineLength ≤ wider.maxLineLength →
        check wider false content = none)) := by
  refine ⟨fun answer => check_eq_iff, fun hpass => ?_, Run.processDecoded_eq,
    fun hpass wider => ⟨?_, fun hbytes hlines => ?_⟩⟩
  · obtain ⟨text, htext⟩ := exists_ofString_of_check hpass
    exact ⟨text, Utf8.fromUTF8?_eq_some_iff.2 htext⟩
  · exact check_of_wider hpass (Or.inl rfl)
  · exact check_of_wider hpass (Or.inr ⟨hbytes, hlines⟩)

/-- The second line is too long; a text within the limits passes with the widest ones too. -/
theorem gate_decides_second_line :
    check ⟨20, 4⟩ false (Bytes.ofString "ok\nlonger\n") = some (.lineTooLong 2 6 4) ∧
      Decides ⟨20, 4⟩ false (Bytes.ofString "ok\nlonger\n") (some (.lineTooLong 2 6 4)) ∧
      check ⟨20, 4⟩ false (Bytes.ofString "é\n\nabc") = none ∧
      (∃ text, String.fromUTF8? (Bytes.ofString "é\n\nabc").toByteArray = some text) ∧
      check ⟨0, 0⟩ true (Bytes.ofString "é\n\nabc") = none ∧
      check ⟨18446744073709551615, 4⟩ false (Bytes.ofString "é\n\nabc") = none := by
  have hlong : check ⟨20, 4⟩ false (Bytes.ofString "ok\nlonger\n") =
      some (.lineTooLong 2 6 4) := by
    decide +kernel
  have hpass : check ⟨20, 4⟩ false (Bytes.ofString "é\n\nabc") = none := by
    decide +kernel
  obtain ⟨-, hdecoded, -, hwider⟩ := gate_decides ⟨20, 4⟩ false (Bytes.ofString "é\n\nabc")
  exact ⟨hlong, ((gate_decides _ _ _).1 _).1 hlong, hpass, hdecoded hpass,
    (hwider hpass _).1, (hwider hpass _).2 (by decide) (by decide)⟩

end Gate
end Uncomment

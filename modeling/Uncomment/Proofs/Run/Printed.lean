import Uncomment.Run.Printout
import Uncomment.Proofs.Run.Recording
import Uncomment.Proofs.Text.Joined
import Mathlib.Data.List.Perm.Subperm

/-!
# The printed lines of a run

The text of a run is cut at its line breaks into the lines it was made of, as long as no line break
stands in a path or in the words of a failure (`Printout.splitOn_text`).  A failure without a file
is told from the failure of a file by its path alone, so that one whose path is that of a file
has no line: `Printout.failures_printed_iff` counts the lines and says when every failure has one.
-/

namespace Uncomment

/-- A text without line breaks. -/
def Text.OneLine (text : String) : Prop := '\n' ∉ text.toList

instance (text : String) : Decidable (Text.OneLine text) :=
  inferInstanceAs (Decidable (_ ∉ _))

namespace Text

variable {s t : String}

@[simp]
theorem oneLine_append : OneLine (s ++ t) ↔ OneLine s ∧ OneLine t := by
  simp [OneLine, String.toList_append, not_or]

theorem oneLine_intercalate {sep : String} {parts : List String}
    (hsep : OneLine sep) (h : ∀ part ∈ parts, OneLine part) :
    OneLine (sep.intercalate parts) := by
  intro hmem
  rcases mem_intercalate hmem with hmem | ⟨part, hpart, hmem⟩
  · exact hsep hmem
  · exact h part hpart hmem

@[simp]
theorem oneLine_toString (n : Nat) : OneLine (toString n) := by
  intro hmem
  have hdigits : '\n' ∈ Nat.toDigits 10 n := by simpa using hmem
  have hdigit : Char.isDigit '\n' := Nat.isDigit_of_mem_toDigits (by decide) (by decide) hdigits
  exact absurd hdigit (by decide)

end Text

open Text

theorem Language.oneLine_label (language : Language) : OneLine language.label := by
  cases language <;> decide

theorem Gate.Skip.oneLine_message (reason : Gate.Skip) : OneLine reason.message := by
  cases reason with
  | binary => decide
  | tooLarge size limit =>
      unfold message
      simp only [oneLine_append, oneLine_toString, and_true]
      decide
  | lineTooLong line length limit =>
      unfold message
      simp only [oneLine_append, oneLine_toString, and_true]
      decide

namespace Printout

variable {colours : Bool} {reports : List Report} {summary start : Summary}

/-- Putting a mark into a text adds nothing but the mark. -/
theorem mem_insertAfter {mark added : List Char} {skip : Nat} {text : List Char} {c : Char}
    (h : c ∈ insertAfter mark added skip text) : c ∈ added ∨ c ∈ text := by
  induction skip, text using insertAfter.induct mark <;>
    grind [insertAfter]

theorem oneLine_paint {colour : Colour} {text : String} (h : OneLine text) :
    OneLine (paint colours colour text) := by
  cases colours
  · exact h
  · have hsequence : OneLine colour.sequence := by cases colour <;> decide
    have hinner : OneLine (String.ofList
        (insertAfter resetSequence.toList colour.sequence.toList 0 text.toList)) := by
      intro hmem
      rw [String.toList_ofList] at hmem
      exact (mem_insertAfter hmem).elim hsequence h
    simp only [paint, if_true, oneLine_append]
    exact ⟨⟨hsequence, hinner⟩, by decide⟩

/-- The line of a failure in a summary. -/
def failedLine (colours : Bool) (failed : Remark) : String :=
  failureLine colours failed.path failed.text

theorem oneLine_failedLine {failed : Remark}
    (hpath : OneLine failed.path) (htext : OneLine failed.text) :
    OneLine (failedLine colours failed) := by
  have hmark : OneLine (paint colours .red failureMark) := oneLine_paint (by decide)
  simp only [failedLine, failureLine, oneLine_append]
  exact ⟨⟨⟨⟨hmark, by decide⟩, hpath⟩, by decide⟩, oneLine_paint htext⟩

theorem fileLine_of_failed? {report : Report} {failed : Remark}
    (h : report.failed? = some failed) : fileLine colours report = failedLine colours failed := by
  obtain ⟨path, language, outcome⟩ := report
  cases outcome with
  | failed failure =>
      obtain rfl := Option.some.inj h
      rfl
  | _ => cases h

/-- The language of a file, as its line names it. -/
theorem oneLine_label (language : Option Language) :
    OneLine (match language with
      | some language => "|" ++ language.label ++ "|"
      | none => "") := by
  cases language with
  | some language =>
      simp only [oneLine_append]
      exact ⟨⟨by decide, language.oneLine_label⟩, by decide⟩
  | none => decide

theorem oneLine_fileLine {report : Report} (hpath : OneLine report.path)
    (hfailed : ∀ failed, report.failed? = some failed → OneLine failed.text) :
    OneLine (fileLine colours report) := by
  obtain ⟨path, language, outcome⟩ := report
  have hgap : OneLine " " := by decide
  cases outcome with
  | changed backup =>
      simp only [fileLine, oneLine_append]
      refine ⟨⟨⟨⟨⟨oneLine_paint (by decide), hgap⟩, oneLine_paint (oneLine_label _)⟩, hgap⟩,
        hpath⟩, ?_⟩
      split
      · exact oneLine_append.2 ⟨hgap, oneLine_paint (by decide)⟩
      · decide
  | unchanged =>
      simp only [fileLine, oneLine_append]
      exact ⟨⟨⟨⟨⟨⟨oneLine_paint (by decide), hgap⟩, oneLine_paint (oneLine_label _)⟩, hgap⟩,
        hpath⟩, hgap⟩, oneLine_paint (by decide)⟩
  | skipped reason =>
      have hreason : OneLine ("(" ++ reason.message ++ ")") := by
        simp only [oneLine_append]
        exact ⟨⟨by decide, reason.oneLine_message⟩, by decide⟩
      simp only [fileLine, oneLine_append]
      exact ⟨⟨⟨⟨oneLine_paint (by decide), hgap⟩, hpath⟩, hgap⟩, oneLine_paint hreason⟩
  | failed failure =>
      rw [fileLine_of_failed? rfl]
      exact oneLine_failedLine hpath (hfailed _ rfl)

theorem oneLine_count {word : String} (hword : OneLine word) (n : Nat) :
    OneLine (word ++ " " ++ toString n) := by
  simp only [oneLine_append, oneLine_toString, and_true]
  exact ⟨hword, by decide⟩

theorem oneLine_summaryLine (h : ∀ dir ∈ summary.backupDirs, OneLine dir.toString) :
    OneLine (summaryLine colours summary) := by
  refine oneLine_intercalate (by decide) fun part hpart => ?_
  rw [List.mem_append, List.mem_append] at hpart
  rcases hpart with (hcounts | hfailures) | hending
  · simp only [List.mem_cons, List.not_mem_nil, or_false] at hcounts
    rcases hcounts with rfl | rfl | rfl | rfl <;> exact oneLine_count (by decide) _
  · split at hfailures
    · obtain rfl := List.mem_singleton.1 hfailures
      exact oneLine_paint (oneLine_count (by decide) _)
    · cases hfailures
  · split at hending
    · obtain rfl := List.mem_singleton.1 hending
      exact oneLine_paint (by decide)
    · split at hending
      · cases hending
      · obtain rfl := List.mem_singleton.1 hending
        refine oneLine_append.2 ⟨by decide, oneLine_intercalate (by decide) fun name hname => ?_⟩
        obtain ⟨dir, hdir, rfl⟩ := List.mem_map.1 hname
        exact h dir hdir

/-- The failures whose path is that of no report. -/
def unreported (reports : List Report) (failures : List Remark) : List Remark :=
  failures.filter fun failed => ∀ report ∈ reports, report.path ≠ failed.path

/-- No line break stands in a path or in the words of a failure. -/
structure Unbroken (reports : List Report) (summary : Summary) : Prop where
  paths : ∀ report ∈ reports, OneLine report.path
  failed : ∀ failed ∈ summary.failed, OneLine failed.path ∧ OneLine failed.text
  dirs : ∀ dir ∈ summary.backupDirs, OneLine dir.toString

/-- The lines of a run whose walks failed as `start` says. -/
theorem lines_recordAll (start : Summary) (reports : List Report) :
    lines colours reports (start.recordAll reports) =
      reports.map (fileLine colours) ++
        (unreported reports start.failed).map (failedLine colours) ++
        [summaryLine colours (start.recordAll reports)] := by
  have hfilter (failures : List Remark) :
      (failures.filter fun failed => !reports.any fun report => report.path == failed.path) =
        unreported reports failures :=
    List.filter_congr fun failed _ => by
      rw [Bool.eq_iff_iff]
      simp
  have hreported : unreported reports (reports.filterMap Report.failed?) = [] := by
    refine List.filter_eq_nil_iff.2 fun failed hfailed => ?_
    obtain ⟨report, hreport, hsome⟩ := List.mem_filterMap.1 hfailed
    simpa using ⟨report, hreport, (Report.path_of_failed? hsome).symm⟩
  rw [lines, Summary.failed_recordAll, List.filter_append, hfilter, hfilter, hreported,
    List.append_nil]
  rfl

theorem oneLine_of_mem_lines (h : Unbroken reports (start.recordAll reports)) {line : String}
    (hline : line ∈ lines colours reports (start.recordAll reports)) : OneLine line := by
  rw [lines_recordAll, List.mem_append, List.mem_append] at hline
  rcases hline with (hfile | hwalk) | hcounts
  · obtain ⟨report, hreport, rfl⟩ := List.mem_map.1 hfile
    refine oneLine_fileLine (h.paths report hreport) fun failed hsome => (h.failed failed ?_).2
    rw [Summary.failed_recordAll]
    exact List.mem_append_right _ (List.mem_filterMap.2 ⟨report, hreport, hsome⟩)
  · obtain ⟨failed, hmem, rfl⟩ := List.mem_map.1 hwalk
    obtain ⟨hpath, htext⟩ := h.failed failed (by
      rw [Summary.failed_recordAll]
      exact List.mem_append_left _ (List.mem_of_mem_filter hmem))
    exact oneLine_failedLine hpath htext
  · obtain rfl := List.mem_singleton.1 hcounts
    exact oneLine_summaryLine h.dirs

/-- The printed text is cut into the lines it was made of. -/
theorem splitOn_text (h : ∀ line ∈ lines colours reports summary, OneLine line) :
    (text colours reports summary).toList.splitOn '\n' =
      (lines colours reports summary).map String.toList ++ [[]] := by
  have hempty : ∀ line ∈ lines colours reports summary ++ [""], OneLine line := by
    intro line hline
    rcases List.mem_append.1 hline with hline | hline
    · exact h line hline
    · obtain rfl := List.mem_singleton.1 hline
      decide
  rw [text, Text.join_map_append]
  exact (Text.splitOn_intercalate (by simp) hempty).trans (by simp)

theorem map_failedLine_sublist (reports : List Report) :
    ((reports.filterMap Report.failed?).map (failedLine colours)).Sublist
      (reports.map (fileLine colours)) := by
  induction reports with
  | nil => exact .slnil
  | cons report reports ih =>
      cases hfailed : report.failed? with
      | none =>
          rw [List.filterMap_cons_none hfailed]
          exact ih.cons _
      | some failed =>
          rw [List.filterMap_cons_some hfailed, List.map_cons, List.map_cons,
            fileLine_of_failed? hfailed]
          exact ih.cons_cons _

/--
The printed lines of a run whose walks failed as `start` says: one for each report, one for each
failure of a walk whose path is that of no report, and the counts.  Among them are the lines of
these failures and of the files that failed.  So every failure has a line of its own, and there are
as many lines as reports, failures of walks, and one, just if no failure of a walk has the path
of a report.
-/
theorem failures_printed_iff (colours : Bool)
    (h : Unbroken reports (start.recordAll reports)) :
    ∃ rows : List String,
      (text colours reports (start.recordAll reports)).toList.splitOn '\n' =
        rows.map String.toList ++ [[]] ∧
      rows.length = reports.length + (unreported reports start.failed).length + 1 ∧
      ((reports.filterMap Report.failed? ++ unreported reports start.failed).map
        (failedLine colours)).Sublist rows ∧
      ((rows.length = reports.length + start.failed.length + 1 ∧
          ((start.recordAll reports).failed.map (failedLine colours)).Subperm rows) ↔
        ∀ failed ∈ start.failed, ∀ report ∈ reports, report.path ≠ failed.path) := by
  have hlength : (lines colours reports (start.recordAll reports)).length =
      reports.length + (unreported reports start.failed).length + 1 := by
    simp [lines_recordAll, Nat.add_assoc]
  have hlines : ((reports.filterMap Report.failed? ++ unreported reports start.failed).map
      (failedLine colours)).Sublist (lines colours reports (start.recordAll reports)) := by
    rw [lines_recordAll, List.map_append]
    exact ((map_failedLine_sublist reports).append (.refl _)).trans (List.sublist_append_left _ _)
  refine ⟨lines colours reports (start.recordAll reports),
    splitOn_text fun line => oneLine_of_mem_lines h, hlength, hlines, fun hall => ?_, fun hall => ?_⟩
  · have hkept : (unreported reports start.failed).length = start.failed.length := by
      have := hall.1
      omega
    intro failed hmem
    simpa using List.length_filter_eq_length_iff.1 hkept failed hmem
  · have hkept : unreported reports start.failed = start.failed :=
      List.filter_eq_self.2 (by simpa using hall)
    rw [hkept] at hlength hlines
    refine ⟨hlength, ?_⟩
    rw [Summary.failed_recordAll]
    exact (List.perm_append_comm.map _).subperm.trans hlines.subperm

/-- Two roots are missing, and a file of another root is reported under the path of one of them. -/
theorem failures_printed_iff_one_hidden :
    let reports : List Report := [⟨"a.c", some .c, .unchanged⟩]
    let start : Summary := { failed := [⟨"a.c", "No such file"⟩, ⟨"b.c", "No such file"⟩] }
    Unbroken reports (start.recordAll reports) ∧
      ∃ rows : List String,
        (text false reports (start.recordAll reports)).toList.splitOn '\n' =
          rows.map String.toList ++ [[]] ∧
        rows.length = 3 ∧ "\u2718 b.c: No such file" ∈ rows ∧
        ¬(rows.length = 4 ∧
          ((start.recordAll reports).failed.map (failedLine false)).Subperm rows) := by
  intro reports start
  have hunbroken : Unbroken reports (start.recordAll reports) :=
    ⟨by decide, by decide, by decide⟩
  obtain ⟨rows, hrows, hlength, hlines, hall⟩ := failures_printed_iff false hunbroken
  refine ⟨hunbroken, rows, hrows, hlength, hlines.subset (by decide), fun h => ?_⟩
  exact absurd (hall.1 h) (by decide)

end Printout
end Uncomment

import Uncomment.Run.Summary

/-!
# Summaries of reports

Each list of a summary picks the reports of one kind, in order, and a report belongs to one
of them: `Summary.recordAll_eq`.
-/

namespace Uncomment

namespace Report

/-- The path of a changed file. -/
def changed? (report : Report) : Option String :=
  match report.outcome with
  | .changed _ => some report.path
  | _ => none

/-- The path of an unchanged file. -/
def unchanged? (report : Report) : Option String :=
  match report.outcome with
  | .unchanged => some report.path
  | _ => none

/-- The path of a skipped file and why it was skipped. -/
def skipped? (report : Report) : Option Remark :=
  match report.outcome with
  | .skipped reason => some ⟨report.path, reason.message⟩
  | _ => none

/-- The path of a file that failed and what went wrong. -/
def failed? (report : Report) : Option Remark :=
  match report.outcome with
  | .failed failure => some ⟨report.path, failure.message⟩
  | _ => none

theorem path_of_failed? {report : Report} {failed : Remark} (h : report.failed? = some failed) :
    failed.path = report.path := by
  obtain ⟨path, language, outcome⟩ := report
  cases outcome with
  | failed failure => rw [← Option.some.inj h]
  | _ => cases h

theorem length_lists (reports : List Report) :
    (reports.filterMap changed?).length + (reports.filterMap unchanged?).length +
        (reports.filterMap skipped?).length + (reports.filterMap failed?).length =
      reports.length := by
  induction reports with
  | nil => rfl
  | cons report reports ih =>
      obtain ⟨path, language, outcome⟩ := report
      cases outcome <;>
        simp only [List.filterMap_cons, changed?, unchanged?, skipped?, failed?,
          List.length_cons] <;>
        omega

end Report

/-- A summary sorts the reports by what they say. -/
theorem Summary.recordAll_eq (summary : Summary) (reports : List Report) :
    summary.recordAll reports =
      { summary with
        changed := summary.changed ++ reports.filterMap Report.changed?
        unchanged := summary.unchanged ++ reports.filterMap Report.unchanged?
        skipped := summary.skipped ++ reports.filterMap Report.skipped?
        failed := summary.failed ++ reports.filterMap Report.failed? } := by
  induction reports generalizing summary with
  | nil => simp [recordAll]
  | cons report reports ih =>
      have hfirst : summary.recordAll (report :: reports) =
          (summary.record report).recordAll reports := rfl
      rw [hfirst, ih, record]
      obtain ⟨path, language, outcome⟩ := report
      cases outcome <;>
        simp [List.filterMap_cons, Report.changed?, Report.unchanged?, Report.skipped?,
          Report.failed?]

theorem Summary.failed_recordAll (summary : Summary) (reports : List Report) :
    (summary.recordAll reports).failed =
      summary.failed ++ reports.filterMap Report.failed? := by
  rw [recordAll_eq]

end Uncomment

import Uncomment.Gate
import Uncomment.Language
import Uncomment.Path

/-!
# Reports and summaries

Every processed file has a `Report`; the `Summary` of a run collects the reports
in order.  Failures to read a root stand in the summary without a report.
-/

namespace Uncomment

/-- What went wrong: the cause, and what was being done, outermost first. -/
structure Failure where
  context : List String
  cause : String
deriving DecidableEq, Repr

/-- A failure in words. -/
def Failure.message (failure : Failure) : String :=
  ": ".intercalate (failure.context ++ [failure.cause])

/-- What happened to a file. -/
inductive Outcome where
  /-- Comments were removed; the content before went to the given path, if anywhere. -/
  | changed (backup : Option Path)
  | unchanged
  | skipped (reason : Gate.Skip)
  | failed (failure : Failure)
deriving DecidableEq, Repr

/-- What happened to the file shown under a path. -/
structure Report where
  path : String
  language : Option Language
  outcome : Outcome
deriving DecidableEq, Repr

/-- A path with a remark. -/
structure Remark where
  path : String
  text : String
deriving DecidableEq, Repr

/-- The result of a run. -/
structure Summary where
  changed : List String := []
  unchanged : List String := []
  skipped : List Remark := []
  failed : List Remark := []
  backupDirs : List Path := []
  dryRun : Bool := false
deriving DecidableEq, Repr

namespace Summary

/-- Add a report at the end. -/
def record (summary : Summary) (report : Report) : Summary :=
  match report.outcome with
  | .changed _ => { summary with changed := summary.changed ++ [report.path] }
  | .unchanged => { summary with unchanged := summary.unchanged ++ [report.path] }
  | .skipped reason =>
      { summary with skipped := summary.skipped ++ [⟨report.path, reason.message⟩] }
  | .failed failure =>
      { summary with failed := summary.failed ++ [⟨report.path, failure.message⟩] }

/-- Add reports in order. -/
def recordAll (summary : Summary) (reports : List Report) : Summary :=
  reports.foldl record summary

/-- The number of files whose comments were looked for. -/
def processed (summary : Summary) : Nat :=
  summary.changed.length + summary.unchanged.length

/-- Whether anything failed. -/
def hasFailures (summary : Summary) : Bool :=
  !summary.failed.isEmpty

end Summary
end Uncomment

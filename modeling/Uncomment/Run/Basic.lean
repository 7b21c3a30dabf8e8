import Uncomment.Run.Job
import Uncomment.Run.Printout
import Uncomment.Run.Walk

/-!
# A run

A run first makes a plan: which files to process, in which language, and where
their contents go before they are overwritten.  Roots that do not exist and
walks that fail are recorded on the way.  Then the jobs of the plan are done one
after the other, and the reports are put together in a summary.

A run is refused, before anything is written, if its single file cannot be
opened or has no supported type, or if an exclude pattern cannot be read or is
nested too deeply.
-/

namespace Uncomment
namespace Run

/-- Why a run is refused. -/
inductive Refusal where
  | cannotOpen (file : Path) (error : OsError)
  | unsupported (file : Path)
  | badGlob (glob : String) (error : Glob.Error)
  | tooDeep (excess : Glob.Excess)
deriving DecidableEq, Repr

/-- A refusal in words. -/
def Refusal.message : Refusal → String
  | .cannotOpen file error => "Cannot open " ++ file.toString ++ ": " ++ error.message
  | .unsupported file =>
      "Unsupported file type: " ++ file.toString ++ " (use --force to process it anyway)"
  | .badGlob glob error =>
      "Invalid --exclude glob pattern: " ++ glob ++ ": error parsing glob '" ++ glob ++ "': " ++
        error.message
  | .tooDeep excess => "Failed to build exclude glob set: " ++ excess.message

/-- The files to process, and the failures met while they were looked for. -/
structure Plan where
  jobs : List Job
  failures : List Remark
deriving DecidableEq, Repr

/-- The plan that does nothing. -/
def Plan.empty : Plan := ⟨[], []⟩

/-- The backup directory of a root, unless nothing is written or backups are off. -/
def backupFor (settings : Settings) (stamp : String) (root : Path) : Option Backup :=
  if settings.dryRun || !settings.backup then none else some (.make root stamp)

/-- The directory above a location, the top being its own. -/
def parentOf (location : Location) : Location :=
  location.dropLast

/-- Read the exclude patterns that are not blank. -/
def readExcludes : List String → Except Refusal (List Glob)
  | [] => .ok []
  | written :: more =>
      let glob := String.ofList (Blank.trimChars written.toList)
      if glob.isEmpty then readExcludes more
      else
        match Glob.parse Glob.excludeStyle glob with
        | .error e => .error (.badGlob glob e)
        | .ok exclude =>
            match readExcludes more with
            | .error refusal => .error refusal
            | .ok excludes => .ok (exclude :: excludes)

/-- What the exclude patterns match, provided that none of them is nested too deeply. -/
def excludePatterns (written : List String) : Except Refusal (List Pattern) :=
  match readExcludes written with
  | .error refusal => .error refusal
  | .ok excludes =>
      match Glob.excess? excludes with
      | some excess => .error (.tooDeep excess)
      | none => .ok (excludes.map Glob.pattern)

/-- The plan for a single file. -/
def planFile
    (disk : Disk)
    (here : Location)
    (settings : Settings)
    (stamp : String)
    (file : Path) :
    Except Refusal Plan :=
  match disk.locate here file with
  | .error e => .error (.cannotOpen file e)
  | .ok location =>
      let path := location.toPath
      match eligible? disk here settings.force path with
      | none => .error (.unsupported file)
      | some language =>
          let root := (parentOf location).toPath
          .ok ⟨[⟨path, Path.display root path, language, backupFor settings stamp root⟩], []⟩

/-- What a walk has come across, as part of a plan. -/
def planFound
    (disk : Disk)
    (here : Location)
    (settings : Settings)
    (root : Location)
    (backup : Option Backup) :
    Walk.Found → Plan
  | .failure message => ⟨[], [⟨root.toPath.toString, message⟩]⟩
  | .file location =>
      let path := location.toPath
      match eligible? disk here settings.force path with
      | none => .empty
      | some language => ⟨[⟨path, Path.display root.toPath path, language, backup⟩], []⟩

/-- The plan for a root. -/
def planRoot
    (disk : Disk)
    (here : Location)
    (settings : Settings)
    (stamp : String)
    (excludes : List Pattern)
    (written : Path) :
    Plan :=
  match disk.locate here written with
  | .error e => ⟨[], [⟨written.toString, e.message⟩]⟩
  | .ok root =>
      let base :=
        match disk.get? root with
        | some (.file _) => parentOf root
        | _ => root
      let options : Walk.Options := ⟨here, settings.followLinks, !settings.noIgnore, excludes⟩
      let found := Walk.found disk options root
      let parts := found.map <|
        planFound disk here settings root (backupFor settings stamp base.toPath)
      ⟨parts.flatMap Plan.jobs, parts.flatMap Plan.failures⟩

/-- The plan of a run. -/
def plan
    (disk : Disk)
    (here : Location)
    (settings : Settings)
    (stamp : String) :
    Except Refusal Plan :=
  match settings.file with
  | some file => planFile disk here settings stamp file
  | none =>
      match excludePatterns settings.excludes with
      | .error refusal => .error refusal
      | .ok excludes =>
          let parts := settings.paths.map (planRoot disk here settings stamp excludes)
          .ok ⟨parts.flatMap Plan.jobs, parts.flatMap Plan.failures⟩

/-- The backup directories of the changed files, in the order in which they came into use. -/
def usedBackups (jobs : List Job) (reports : List Report) : List Path :=
  (jobs.zip reports).foldl
    (fun dirs (job, report) =>
      match job.backup, report.outcome with
      | some backup, .changed (some _) =>
          if List.elem backup.dir dirs then dirs else dirs ++ [backup.dir]
      | _, _ => dirs)
    []

/-- What a run that was not refused leaves to be shown. -/
structure Result where
  reports : List Report
  summary : Summary
deriving DecidableEq, Repr

/-- What is printed for a result. -/
def Result.printed (settings : Settings) (colours : Bool) (result : Result) : String :=
  if settings.json then Printout.json result.summary ++ "\n"
  else Printout.text colours result.reports result.summary

/-- The result of a plan whose jobs have the given reports. -/
def Plan.result (settings : Settings) (plan : Plan) (reports : List Report) : Result :=
  let start : Summary := { dryRun := settings.dryRun, failed := plan.failures }
  let recorded := start.recordAll reports
  ⟨reports, { recorded with backupDirs := usedBackups plan.jobs reports }⟩

/-- How a run ends. -/
inductive Ending where
  /-- It was refused. -/
  | refused (refusal : Refusal)
  /-- It has no result because a text could not be cut. -/
  | broken (fault : Fault)
  /-- It went through. -/
  | done (result : Result)
deriving DecidableEq, Repr

/-- Run with the given settings in a directory, at the moment of the given time stamp. -/
def run
    (disk : Disk)
    (here : Location)
    (settings : Settings)
    (stamp : String) :
    Ending × Disk :=
  match plan disk here settings stamp with
  | .error refusal => (.refused refusal, disk)
  | .ok plan =>
      match processAll here settings plan.jobs disk with
      | (.error fault, left) => (.broken fault, left)
      | (.ok reports, left) => (.done (plan.result settings reports), left)

end Run
end Uncomment

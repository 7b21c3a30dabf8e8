import Uncomment.Backup
import Uncomment.Detect
import Uncomment.Disk.Basic
import Uncomment.Run.Summary
import Uncomment.Strip

/-!
# Processing a file

A file is read, passed through the gate and stripped.  If that changes it, its
content goes to the backup directory, if there is one, and only then is the file
overwritten.  Whatever fails on the way is the outcome of the file, and nothing
more is done to it.
-/

namespace Uncomment

/-- What a run is asked to do. -/
structure Settings where
  /-- The roots to walk. -/
  paths : List Path := [⟨["."]⟩]
  /-- A single file to process instead of the roots. -/
  file : Option Path := none
  /-- Whether every file type is processed and the limits are lifted. -/
  force : Bool := false
  followLinks : Bool := false
  /-- Whether ignore files are left unread. -/
  noIgnore : Bool := false
  /-- The exclude patterns as written. -/
  excludes : List String := []
  limits : Gate.Limits := {}
  /-- Whether nothing is written. -/
  dryRun : Bool := false
  /-- Whether files are backed up before they are overwritten. -/
  backup : Bool := true
  /-- Whether the summary is printed as JSON. -/
  json : Bool := false
deriving DecidableEq, Repr

namespace Backup

/-- Create the directory in which a target lies. -/
def prepare
    (disk : Disk)
    (here : Location)
    (target : Path) :
    Except Failure Unit × Disk :=
  match target.parent? with
  | none => (.ok (), disk)
  | some parent =>
      match disk.makeDirs here parent with
      | (.ok (), ready) => (.ok (), ready)
      | (.error e, left) =>
          (.error ⟨["Failed to create backup dir " ++ parent.toString], e.message⟩, left)

/-- Store the content of a file, and say where it is. -/
def save
    (disk : Disk)
    (here : Location)
    (backup : Backup)
    (file : Path)
    (content : Bytes) :
    Except Failure Path × Disk :=
  match backup.target? file with
  | none => (.error ⟨[], "backup target has no file name"⟩, disk)
  | some target =>
      match prepare disk here target with
      | (.error failure, left) => (.error failure, left)
      | (.ok (), ready) =>
          match ready.write here target content with
          | .ok written => (.ok target, written)
          | .error e =>
              (.error ⟨["Failed to write backup " ++ target.toString], e.message⟩, ready)

end Backup

namespace Run

/-- A file to be processed. -/
structure Job where
  path : Path
  /-- The path under which it is reported. -/
  shown : String
  language : Language
  backup : Option Backup
deriving DecidableEq, Repr

/-- Store the content of a file if there is a directory for it. -/
def saveFirst
    (disk : Disk)
    (here : Location)
    (path : Path)
    (backup : Option Backup)
    (content : Bytes) :
    Except Failure (Option Path) × Disk :=
  match backup with
  | none => (.ok none, disk)
  | some dir =>
      match Backup.save disk here dir path content with
      | (.ok target, ready) => (.ok (some target), ready)
      | (.error failure, left) => (.error failure, left)

/-- Overwrite a file with its stripped text after storing its content. -/
def replace
    (disk : Disk)
    (here : Location)
    (path : Path)
    (backup : Option Backup)
    (content stripped : Bytes) :
    Outcome × Disk :=
  match saveFirst disk here path backup content with
  | (.error failure, left) => (.failed failure, left)
  | (.ok target, ready) =>
      match ready.write here path stripped with
      | .ok written => (.changed target, written)
      | .error e => (.failed ⟨["Failed to write " ++ path.toString], e.message⟩, ready)

/-- Process a file. -/
def processFile
    (disk : Disk)
    (here : Location)
    (settings : Settings)
    (path : Path)
    (language : Language)
    (backup : Option Backup) :
    Except Fault (Outcome × Disk) :=
  match disk.read here path with
  | .error e => .ok (.failed ⟨["Failed to read " ++ path.toString], e.message⟩, disk)
  | .ok content =>
      match Gate.check settings.limits settings.force content with
      | some reason => .ok (.skipped reason, disk)
      | none =>
          match strip language content with
          | .error fault => .error fault
          | .ok stripped =>
              if stripped = content then .ok (.unchanged, disk)
              else if settings.dryRun then .ok (.changed none, disk)
              else .ok (replace disk here path backup content stripped)

/-- The language under which a file is processed, or none if its type is not supported. -/
def eligible? (disk : Disk) (here : Location) (force : Bool) (path : Path) : Option Language :=
  let head? := (disk.read here path).toOption
  if force then some (Detect.forcedLanguage path head?) else Detect.language? path head?

/--
Process jobs one after the other; the reports are given in the order of the jobs.
A fault leaves its own file alone and no reports; the other files are still processed.
-/
def processAll
    (here : Location)
    (settings : Settings) :
    List Job → Disk → Except Fault (List Report) × Disk
  | [], disk => (.ok [], disk)
  | job :: more, disk =>
      match processFile disk here settings job.path job.language job.backup with
      | .error fault => (.error fault, (processAll here settings more disk).2)
      | .ok (outcome, next) =>
          match processAll here settings more next with
          | (.error fault, left) => (.error fault, left)
          | (.ok reports, left) => (.ok (⟨job.shown, some job.language, outcome⟩ :: reports), left)

end Run
end Uncomment

import Std.Time.Zoned
import Uncomment.CommandLine

/-!
# The program

The part of the file system that a request can reach is read into a `Disk`, the
request is carried out there, and what has changed is written back.  New entries
are written first, so a backup is in place before its file is overwritten.  Which
names share a file and which files may not be written is not read.
-/

namespace Uncomment
namespace Program

/-- What has been read from the file system. -/
structure Snapshot where
  /-- The working directory. -/
  here : Location
  disk : Disk := .empty
  /-- The locations below which everything has been read. -/
  complete : List Location := []

/-- The location of an absolute path without links. -/
def locationOf (path : String) : Location :=
  (Path.ofString path).components.filterMap fun
    | .normal name => some name
    | _ => none

/-- The way to a location in the file system. -/
def placeOf (location : Location) : String :=
  location.toPath.toString

/-- Run an action, with no answer if it fails. -/
def attempt {α : Type} (action : IO α) : IO (Option α) := do
  match ← action.toBaseIO with
  | .ok a => return some a
  | .error _ => return none

/-- The location to which an entry leads once all links are followed. -/
def actual? (location : Location) : IO (Option Location) := do
  return (← attempt (IO.FS.realPath (placeOf location))).map (locationOf ·.toString)

/-- A target that no link can reach, because no name holds a slash. -/
def nowhere : Path := ⟨["", "/"]⟩

/-- The entry with a name in a directory, if it is a file, a directory or a link. -/
def entry? (dir : Location) (name : String) : IO (Option Entry) := do
  let place : IO.FS.DirEntry := ⟨placeOf dir, name⟩
  let some data ← attempt place.path.symlinkMetadata | return none
  match data.type with
  | .dir => return some .dir
  | .symlink =>
      let target := (← actual? (dir ++ [name])).map Location.toPath
      return some (.link (target.getD nowhere))
  | .file => return (← attempt (IO.FS.readBinFile place.path)).map fun bytes => .file bytes.toList
  | .other => return none

/-- The names in a directory. -/
def namesIn (dir : Location) : IO (List String) := do
  let place : IO.FS.DirEntry := ⟨placeOf dir, ""⟩
  let entries ← attempt place.root.readDir
  return (entries.getD #[]).toList.map (·.fileName)

/-- Read what stands on a way from a directory, and say where it leads. -/
def readAlong (disk : Disk) (dir : Location) : List Component → IO (Disk × Option Location)
  | [] => return (disk, some dir)
  | .root :: rest => readAlong disk [] rest
  | .current :: rest => readAlong disk dir rest
  | .parent :: rest => readAlong disk dir.dropLast rest
  | .normal name :: rest => do
      let location := dir ++ [name]
      match ← entry? dir name with
      | none => return (disk, none)
      | some entry =>
          let next := disk.put location entry
          match entry with
          | .link _ =>
              let some actual ← actual? location | return (next, none)
              readAlong next actual rest
          | _ => readAlong next location rest

/-- Read the ignore files of a directory, and what leads to its exclude file. -/
def readIgnores (disk : Disk) (here dir : Location) : IO Disk := do
  let mut disk := disk
  for file in [Ignore.ownFile, Ignore.gitFile, Ignore.marker] do
    disk := (← readAlong disk dir file.components).1
  if let .ok (some linked) := Ignore.workTree? disk dir then
    disk := (← readAlong disk [] (here.map .normal)).1
    disk := (← readAlong disk here (linked.join Ignore.commonFile).components).1
  if let .ok path := Ignore.repository disk here dir then
    disk := (← readAlong disk here (path.join Ignore.excludeFile).components).1
  return disk

mutual

/-- Read everything below a directory, and what links lead to if they are to be followed. -/
partial def readBelow (followLinks : Bool) (start : Snapshot) (dir : Location) : IO Snapshot := do
  let mut snapshot := { start with disk := ← readIgnores start.disk start.here dir }
  for name in ← namesIn dir do
    let some entry ← entry? dir name | continue
    let location := dir ++ [name]
    snapshot := { snapshot with disk := snapshot.disk.put location entry }
    match entry with
    | .dir => snapshot ← readBelow followLinks snapshot location
    | .link _ =>
        if followLinks then
          if let some actual ← actual? location then
            snapshot ← readTree followLinks snapshot actual
    | .file _ => continue
  return snapshot

/-- Read a location, everything below it and the ignore files above it. -/
partial def readTree (followLinks : Bool) (start : Snapshot) (location : Location) :
    IO Snapshot := do
  if start.complete.any (·.isPrefixOf location) then return start
  let mut disk := start.disk
  for dir in Ignore.above location do
    disk := (← readAlong disk [] (dir.map .normal)).1
    disk ← readIgnores disk start.here dir
  disk := (← readAlong disk [] (location.map .normal)).1
  let snapshot := { start with disk := disk, complete := location :: start.complete }
  match disk.get? location with
  | some .dir => readBelow followLinks snapshot location
  | _ => readTree followLinks snapshot (location.dropLast ++ [Backup.folder])

end

/-- Read what the given settings can reach from a directory. -/
def readFor (settings : Settings) (here : Location) : IO Disk := do
  let mut snapshot : Snapshot := { here := here }
  for path in settings.file.elim settings.paths fun file => [file] do
    snapshot := { snapshot with disk := (← readAlong snapshot.disk [] (here.map .normal)).1 }
    let (disk, reached) ← readAlong snapshot.disk here path.components
    snapshot := { snapshot with disk := disk }
    if let some location := reached then
      snapshot ← readTree settings.followLinks snapshot location
  return snapshot.disk

/-- Write an entry to the file system. -/
def writeEntry (location : Location) : Entry → IO Unit
  | .dir => IO.FS.createDirAll (placeOf location)
  | .file content => IO.FS.writeBinFile (placeOf location) ⟨content.toArray⟩
  | .link _ => return ()

/-- Write the entries that differ from those before, the new ones first. -/
def writeBack (before after : Disk) : IO Unit := do
  let changed := after.entries.filter fun (location, entry) => before.get? location != some entry
  let (overwritten, added) :=
    changed.partition fun (location, _) => (before.get? location).isSome
  for (location, entry) in added ++ overwritten do
    writeEntry location entry

/-- The local time. -/
def now : IO Moment := do
  let time ← Std.Time.PlainDateTime.now
  return {
    year := Int.toNat time.year
    month := Int.toNat time.month.val
    day := Int.toNat time.day.val
    hour := Int.toNat time.hour.val
    minute := Int.toNat time.minute.val
    second := Int.toNat time.second.val }

/-- Whether output is coloured here. -/
def colours : IO Bool := do
  let mut settled : List (String × String) := []
  for name in ["CLICOLOR_FORCE", "NO_COLOR", "CLICOLOR"] do
    if let some value ← IO.getEnv name then
      settled := (name, value) :: settled
  let terminal ← (← IO.getStdout).isTty
  return CommandLine.wantsColours (fun name => List.lookup name settled) terminal

/-- Do what arguments ask for, and give the exit code. -/
def run (arguments : List String) : IO UInt32 := do
  let here := locationOf (← IO.currentDir).toString
  let disk ←
    match CommandLine.read arguments with
    | .ok (.run settings) => readFor settings here
    | _ => pure Disk.empty
  let (response, left) :=
    CommandLine.execute disk here (← colours) (← now).stamp arguments
  writeBack disk left
  IO.print response.output
  if let some line := response.error then
    IO.eprintln line
  return response.exit.toUInt32

end Program
end Uncomment

/-- The program as it is called from a shell. -/
def main (arguments : List String) : IO UInt32 :=
  Uncomment.Program.run arguments

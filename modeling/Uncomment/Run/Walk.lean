import Uncomment.Backup
import Uncomment.Disk.Basic
import Uncomment.Glob.Ignore

/-!
# Walking a root

A walk finds the files below a root.  It passes over hidden entries, entries that
ignore files name, the backup directory directly below the root, and whatever an
exclude pattern matches; a directory that is passed over is not entered.  The
root itself is never passed over.

Links are passed over too unless they are to be followed.  A followed link that
leads nowhere, or back to a directory that is being walked, is reported as a
failure and not entered.
-/

namespace Uncomment
namespace Walk

/-- What a walk depends on besides its root. -/
structure Options where
  /-- The working directory, from which links between work trees are seen. -/
  here : Location
  /-- Whether links are followed. -/
  followLinks : Bool
  /-- Whether ignore files are read. -/
  readIgnores : Bool
  /-- The exclude patterns. -/
  excludes : List Pattern
deriving DecidableEq, Repr

/-- What a walk comes across. -/
inductive Found where
  /-- A file. -/
  | file (location : Location)
  /-- A failure, in words. -/
  | failure (message : String)
deriving DecidableEq, Repr

/-- A directory that is being walked. -/
structure Dir where
  /-- The location by which it was reached. -/
  location : Location
  /-- The location at which it is. -/
  actual : Location
  /-- The directories walked above it: how they were reached and where they are, innermost first. -/
  parents : List (Location × Location)
  /-- The ignore files that apply to its entries, innermost first. -/
  levels : List Ignore.Level

/-- An entry of a directory, with links followed where that is asked for. -/
inductive Kind where
  | file
  | dir (actual : Location)
  | other
  | broken (message : String)

/-- The kind of an entry. -/
def kindOf
    (disk : Disk)
    (options : Options)
    (dir : Dir)
    (name : String)
    (entry : Entry) :
    Kind :=
  match entry with
  | .file _ => .file
  | .dir => .dir (dir.actual ++ [name])
  | .link _ =>
      if !options.followLinks then .other
      else
        let path := Location.toPath (dir.location ++ [name])
        let written := path.toString
        match disk.locate [] path with
        | .error e =>
            .broken (written ++ ": IO error for operation on " ++ written ++ ": " ++ e.message)
        | .ok actual =>
            match disk.get? actual with
            | some .dir =>
                let walked := (dir.location, dir.actual) :: dir.parents
                match walked.find? fun (_, other) => other = actual with
                | some (ancestor, _) =>
                    .broken ("File system loop found: " ++ written ++
                      " points to an ancestor " ++ (Location.toPath ancestor).toString)
                | none => .dir actual
            | some (.file _) => .file
            | _ => .other

/-- Whether a name is hidden. -/
def isHidden (name : String) : Bool :=
  name.toList.head? == some '.'

/-- Whether the exclude patterns match an entry; directories are also tried with a slash. -/
def isExcluded (excludes : List Pattern) (relative : Location) (isDir : Bool) : Bool :=
  let text := Bytes.ofString (Path.slashed ⟨relative⟩)
  excludes.any (·.accepts text) ||
    (isDir && text.getLast? != some Byte.slash &&
      excludes.any (·.accepts (text ++ [Byte.slash])))

/-- Whether an entry below a root is passed over. -/
def isSkipped
    (options : Options)
    (root : Location)
    (dir : Dir)
    (name : String)
    (isDir : Bool) :
    Bool :=
  let location := dir.location ++ [name]
  let ignored := (Ignore.levelsVerdict? dir.levels location isDir).getD (isHidden name)
  let isBackup := isDir && dir.location = root && name == Backup.folder
  ignored || isBackup || isExcluded options.excludes (location.drop root.length) isDir

/-- The levels that apply inside a directory. -/
def levelsInside
    (disk : Disk)
    (options : Options)
    (location : Location)
    (levels : List Ignore.Level) :
    List Ignore.Level :=
  if options.readIgnores then (Ignore.Level.load disk options.here location).1 :: levels else []

/-- The entries below a directory, at most `depth` levels deep. -/
def below
    (disk : Disk)
    (options : Options)
    (root : Location) :
    Nat → Dir → List Found
  | 0, _ => []
  | depth + 1, dir =>
      (disk.children dir.actual).flatMap fun (name, entry) =>
        let location := dir.location ++ [name]
        match kindOf disk options dir name entry with
        | .broken message => [.failure message]
        | .other => []
        | .file =>
            if isSkipped options root dir name false then [] else [.file location]
        | .dir actual =>
            if isSkipped options root dir name true then []
            else
              below disk options root depth
                { location := location
                  actual := actual
                  parents := (dir.location, dir.actual) :: dir.parents
                  levels := levelsInside disk options location dir.levels }

/--
More levels than any walk has.  Between two followed links a walk goes down at
most as many levels as there are entries, and it follows a link into a directory
at most once for every directory.
-/
def depthBound (disk : Disk) : Nat :=
  (disk.entries.length + 2) * (disk.entries.length + 2)

/-- Everything a walk from a root comes across. -/
def found (disk : Disk) (options : Options) (root : Location) : List Found :=
  match disk.get? root with
  | some (.file _) => [.file root]
  | some .dir =>
      let (levels, problems) :=
        if options.readIgnores then Ignore.levelsAbove disk options.here root else ([], [])
      let failures := if problems.isEmpty then [] else [.failure ("\n".intercalate problems)]
      failures ++
        below disk options root (depthBound disk)
          { location := root
            actual := root
            parents := []
            levels := levelsInside disk options root levels }
  | _ => []

end Walk
end Uncomment

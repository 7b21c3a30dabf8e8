import Uncomment.Path
import Uncomment.Text.Bytes

/-!
# The disk

A `Disk` is a file system as a value: a sorted list of locations and what is
found there, the top directory being always present.  A `Location` is the list
of names that lead from the top to an entry.  A file may have several names
(`Disk.SameFile`), and what is written under one of them is found under all.

Paths are followed component by component.  A link is replaced by its target,
seen from the directory that holds it, at most forty times.  Names and paths have
a greatest length, and no path holds a zero character.

An operation fails for what stands on the way of its path, and writing a file also
where the system does not permit it (`Disk.isGuarded`).  A disk leaves out the other
permissions (a file that may not be read, a directory that may not be listed or
changed), a device that is full or broken, entries that are neither a file nor a
directory nor a link, and other programs that change the disk meanwhile.
-/

namespace Uncomment

/-- The names that lead from the top of a disk to an entry. -/
abbrev Location := List String

namespace Location

/-- The absolute path of a location. -/
def toPath (location : Location) : Path :=
  .ofLead .root location

/-- The order of locations: by the first names that differ, a directory before its entries. -/
def precedes : Location → Location → Bool
  | _, [] => false
  | [], _ :: _ => true
  | a :: as, b :: bs => if a = b then precedes as bs else a < b

/-- The name of an entry within a directory, if it lies directly in it. -/
def nameIn? : Location → Location → Option String
  | [], [name] => some name
  | d :: dir, n :: names => if d = n then nameIn? dir names else none
  | _, _ => none

end Location

/-- What is found at a location. -/
inductive Entry where
  | file (content : Bytes)
  | dir
  | link (target : Path)
deriving DecidableEq, Repr

/-- Why an operation of the file system failed. -/
inductive OsError where
  | notFound
  | alreadyExists
  | notDirectory
  | isDirectory
  | nameTooLong
  | tooManyLinks
  | permissionDenied
  | zeroCharacter
deriving DecidableEq, Repr

/-- An error in the words of the operating system. -/
def OsError.message : OsError → String
  | .notFound => "No such file or directory (os error 2)"
  | .permissionDenied => "Permission denied (os error 13)"
  | .alreadyExists => "File exists (os error 17)"
  | .notDirectory => "Not a directory (os error 20)"
  | .isDirectory => "Is a directory (os error 21)"
  | .nameTooLong => "File name too long (os error 36)"
  | .tooManyLinks => "Too many levels of symbolic links (os error 40)"
  | .zeroCharacter => "file name contained an unexpected NUL byte"

/-- A file system. -/
structure Disk where
  /-- The entries below the top, in the order of their locations. -/
  entries : List (Location × Entry)
  /-- The numbers of the files that have several names, under each of them. -/
  numbers : List (Location × Nat) := []
  /-- Locations at which no file may be written or created. -/
  guarded : List Location := []
deriving DecidableEq, Repr

namespace Disk

/-- A disk without files. -/
def empty : Disk := { entries := [] }

/-- What is found at a location. -/
def get? (disk : Disk) (location : Location) : Option Entry :=
  if location = [] then some .dir else disk.entries.lookup location

/-- Whether two locations are names of one file. -/
def SameFile (disk : Disk) (location other : Location) : Prop :=
  location = other ∨
    (disk.numbers.lookup location).isSome ∧
      disk.numbers.lookup location = disk.numbers.lookup other

instance (disk : Disk) (location other : Location) : Decidable (disk.SameFile location other) :=
  inferInstanceAs (Decidable (_ ∨ _))

/-- Whether the file at a location may not be written, under this name or another. -/
def isGuarded (disk : Disk) (location : Location) : Bool :=
  disk.guarded.any fun other => disk.SameFile location other

/-- Insert an entry into a sorted list, replacing the one at its location. -/
def insertEntry
    (location : Location)
    (entry : Entry) :
    List (Location × Entry) → List (Location × Entry)
  | [] => [(location, entry)]
  | (other, old) :: rest =>
      if other = location then (location, entry) :: rest
      else if location.precedes other then (location, entry) :: (other, old) :: rest
      else (other, old) :: insertEntry location entry rest

/-- The disk with an entry put at a location. -/
def put (disk : Disk) (location : Location) (entry : Entry) : Disk :=
  { disk with entries := insertEntry location entry disk.entries }

/-- The disk with a content in the file at a location, which may be new, under all its names. -/
def store (disk : Disk) (location : Location) (content : Bytes) : Disk :=
  { disk with
    entries := (insertEntry location (.file content) disk.entries).map fun (other, entry) =>
      (other, if disk.SameFile location other then .file content else entry) }

/-- The disk without a location and everything below it. -/
def remove (disk : Disk) (location : Location) : Disk where
  entries := disk.entries.filter fun (other, _) => !location.isPrefixOf other
  numbers := disk.numbers.filter fun (other, _) => !location.isPrefixOf other
  guarded := disk.guarded.filter fun other => !location.isPrefixOf other

/-- The entries directly in a directory, in the order of their names. -/
def children (disk : Disk) (dir : Location) : List (String × Entry) :=
  disk.entries.filterMap fun (location, entry) =>
    (dir.nameIn? location).map fun name => (name, entry)

/-- The number of links that are followed on one path. -/
def linkBudget : Nat := 40

/-- The greatest number of bytes in a name. -/
def nameLimit : Nat := 255

/-- The greatest number of bytes in a path that is given to the system. -/
def pathLimit : Nat := 4095

/-- A step on the way of a path. -/
inductive Step where
  /-- Go on with a component. -/
  | take (component : Component)
  /-- What has been reached has to be a directory: the path ends with a slash after a name. -/
  | demandDir
deriving DecidableEq, Repr

/-- The segments of a path without the empty ones that slashes at its end make. -/
def withoutSlashes (segments : List String) : List String :=
  (segments.reverse.dropWhile (· == "")).reverse

/--
The steps of a path.  A slash at its end demands a directory, and a dot at its end
is taken as a component, so that it needs a directory before it.
-/
def steps (path : Path) : List Step :=
  let named := withoutSlashes path.segments
  let ending : List Step :=
    match named.getLast? with
    | some "." => if named.length = 1 then [] else [.take .current]
    | some _ => if named.length < path.segments.length then [.demandDir] else []
    | none => []
  path.components.map .take ++ ending

/--
Follow steps from a directory.  With `create` the last name may be missing; the
answer is then the location at which it would be created, which is never a
directory.  Where a link stands, `onLink` goes on from the directory that holds it.
-/
def followUntilLink
    (disk : Disk)
    (create : Bool)
    (onLink : Location → List Step → Except OsError Location) :
    Location → List Step → Except OsError Location
  | here, [] => .ok here
  | here, step :: rest =>
      match disk.get? here with
      | some .dir =>
          match step with
          | .demandDir => followUntilLink disk create onLink here rest
          | .take .root => followUntilLink disk create onLink [] rest
          | .take .current => followUntilLink disk create onLink here rest
          | .take .parent => followUntilLink disk create onLink here.dropLast rest
          | .take (.normal name) =>
              if create && !rest.isEmpty && rest.all (· = .demandDir) then .error .isDirectory
              else if nameLimit < name.utf8ByteSize then .error .nameTooLong
              else
                match disk.get? (here ++ [name]) with
                | none =>
                    if create && rest.isEmpty then .ok (here ++ [name]) else .error .notFound
                | some (.link target) => onLink here (steps target ++ rest)
                | some _ => followUntilLink disk create onLink (here ++ [name]) rest
      | some (.file _) => .error .notDirectory
      | _ => .error .notFound

/-- Follow steps from a directory through at most `budget` links. -/
def follow
    (disk : Disk)
    (create : Bool) :
    Nat → Location → List Step → Except OsError Location
  | 0 => followUntilLink disk create fun _ _ => .error .tooManyLinks
  | budget + 1 => followUntilLink disk create (follow disk create budget)

/-- Whether a zero character stands in a path. -/
def hasZero (path : Path) : Bool :=
  path.segments.any fun segment => segment.toList.any (· == '\x00')

/-- The location of a path seen from a directory, found name by name. -/
def locate (disk : Disk) (here : Location) (path : Path) : Except OsError Location :=
  if hasZero path then .error .zeroCharacter
  else if path.isEmpty then .error .notFound
  else disk.follow false linkBudget here (steps path)

/-- Why a path cannot be given to the system, if there is a reason. -/
def rejection? (path : Path) : Option OsError :=
  if hasZero path then some .zeroCharacter
  else if path.isEmpty then some .notFound
  else if pathLimit < path.toString.utf8ByteSize then some .nameTooLong
  else none

/-- Whether a path names a directory. -/
def isDir (disk : Disk) (here : Location) (path : Path) : Bool :=
  match rejection? path, disk.locate here path with
  | none, .ok location => disk.get? location == some .dir
  | _, _ => false

/-- The content of the file that a path names. -/
def read (disk : Disk) (here : Location) (path : Path) : Except OsError Bytes :=
  match rejection? path with
  | some e => .error e
  | none =>
      match disk.locate here path with
      | .error e => .error e
      | .ok location =>
          match disk.get? location with
          | some (.file content) => .ok content
          | some .dir => .error .isDirectory
          | _ => .error .notFound

/-- Give the file that a path names a content, creating it if it is missing. -/
def write
    (disk : Disk)
    (here : Location)
    (path : Path)
    (content : Bytes) :
    Except OsError Disk :=
  match rejection? path with
  | some e => .error e
  | none =>
      match disk.follow true linkBudget here (steps path) with
      | .error e => .error e
      | .ok location =>
          match disk.get? location with
          | some .dir => .error .isDirectory
          | _ =>
              if disk.isGuarded location then .error .permissionDenied
              else .ok (disk.store location content)

/-- Create a directory with a name in another one. -/
def makeDirIn (disk : Disk) (parent : Location) (name : String) : Except OsError Disk :=
  match disk.get? parent with
  | some .dir =>
      if nameLimit < name.utf8ByteSize then .error .nameTooLong
      else
        match disk.get? (parent ++ [name]) with
        | some _ => .error .alreadyExists
        | none => .ok (disk.put (parent ++ [name]) .dir)
  | some (.file _) => .error .notDirectory
  | _ => .error .notFound

/-- Create one directory. -/
def makeDir (disk : Disk) (here : Location) (path : Path) : Except OsError Disk :=
  match rejection? path with
  | some e => .error e
  | none =>
      match path.components.getLast? with
      | none => .error .notFound
      | some (.normal name) =>
          match disk.follow false linkBudget here (path.components.dropLast.map .take) with
          | .error e => .error e
          | .ok parent => disk.makeDirIn parent name
      | some _ =>
          match disk.follow false linkBudget here (path.components.map .take) with
          | .error e => .error e
          | .ok _ => .error .alreadyExists

/-- A path and its parents, as many as `count` says. -/
def lineage : Nat → Path → List Path
  | 0, _ => []
  | count + 1, path =>
      path ::
        match path.parent? with
        | some parent => lineage count parent
        | none => []

/--
Create the first of the given directories, each of which has the next one as its
parent.  Parents are created where they are missing.  A failure leaves the
directories created before it.
-/
def makeDirsAlong
    (here : Location) :
    List Path → Disk → Except OsError Unit × Disk
  | [], disk => (.ok (), disk)
  | path :: parents, disk =>
      let settle (disk : Disk) (e : OsError) : Except OsError Unit × Disk :=
        if disk.isDir here path then (.ok (), disk) else (.error e, disk)
      match disk.makeDir here path with
      | .ok made => (.ok (), made)
      | .error .notFound =>
          match makeDirsAlong here parents disk with
          | (.error e, left) => (.error e, left)
          | (.ok (), ready) =>
              match ready.makeDir here path with
              | .ok made => (.ok (), made)
              | .error e => settle ready e
      | .error e => settle disk e

/-- Create a directory and the parents that are missing. -/
def makeDirs (disk : Disk) (here : Location) (path : Path) : Except OsError Unit × Disk :=
  makeDirsAlong here (lineage path.components.length path) disk

end Disk
end Uncomment

import Uncomment.Disk.Basic
import Uncomment.Glob.Limit
import Uncomment.Glob.Parse
import Uncomment.Text.Blank
import Uncomment.Text.Utf8

/-!
# Ignore files

An ignore file holds one glob a line.  The last line that matches an entry
decides: a plain line has the entry ignored, a line after an exclamation mark has
it kept.  A glob without a slash matches at any depth, one that ends with a slash
matches directories only.

Of the ignore files that apply to an entry, those nearer to it come first.  Any
answer of a file `.ignore` goes before the answers of files `.gitignore`, and
those before the exclude files of repositories.

The exclude file of a repository lies in its directory `.git`.  Where `.git` is a
file, the directory belongs to a linked work tree: the file names the directory
of the work tree, and a file `commondir` there names the directory that all work
trees share and that has the exclude file.
-/

namespace Uncomment
namespace Ignore

/-- A line of an ignore file. -/
structure Line where
  glob : Glob
  /-- Whether the entries that match are kept rather than ignored. -/
  keeps : Bool
  /-- Whether only directories match. -/
  dirsOnly : Bool
deriving DecidableEq, Repr

/-- What is wrong with a line. -/
inductive Defect where
  /-- Its glob cannot be read. -/
  | badGlob (glob : String) (error : Glob.Error)
  /-- It is not UTF-8. -/
  | notText
deriving DecidableEq, Repr

/-- What is said of a file that is not UTF-8. -/
def notTextMessage : String := "stream did not contain valid UTF-8"

/-- A defect in words. -/
def Defect.message : Defect → String
  | .badGlob glob error => "error parsing glob '" ++ glob ++ "': " ++ error.message
  | .notText => notTextMessage

/-- A line that cannot be read. -/
structure Problem where
  number : Nat
  defect : Defect
deriving DecidableEq, Repr

/-- A problem in words, for the file with the given path. -/
def Problem.message (path : Path) (problem : Problem) : String :=
  path.toString ++ ": line " ++ toString problem.number ++ ": " ++ problem.defect.message

/-- Characters without the white space at the end. -/
def trimEnd (cs : List Char) : List Char :=
  (cs.reverse.dropWhile Blank.isWhite).reverse

/-- A glob with the marks of a line taken off: exclamation mark, slash in front, slash at the end. -/
structure Marked where
  keeps : Bool
  anchored : Bool
  dirsOnly : Bool
  glob : List Char
deriving DecidableEq, Repr

/-- Take the marks at the front of a line off. -/
def frontMarks : List Char → Marked
  | '\\' :: '!' :: rest => ⟨false, false, false, '!' :: rest⟩
  | '\\' :: '#' :: rest => ⟨false, false, false, '#' :: rest⟩
  | '!' :: '/' :: rest => ⟨true, true, false, rest⟩
  | '!' :: rest => ⟨true, false, false, rest⟩
  | '/' :: rest => ⟨false, true, false, rest⟩
  | rest => ⟨false, false, false, rest⟩

/-- Take the slash at the end of a line off, and a backslash before it. -/
def backMark (marked : Marked) : Marked :=
  match marked.glob.reverse with
  | '/' :: '\\' :: front => { marked with dirsOnly := true, glob := front.reverse }
  | '/' :: front => { marked with dirsOnly := true, glob := front.reverse }
  | _ => marked

/-- The glob of a line, spelled so that it is matched against the whole path. -/
def fullGlob (marked : Marked) : List Char :=
  let floating :=
    !marked.anchored && !List.elem '/' marked.glob && marked.glob != ['*', '*']
  let glob := if floating then '*' :: '*' :: '/' :: marked.glob else marked.glob
  if ['/', '*', '*'].isSuffixOf glob then glob ++ ['/', '*'] else glob

/-- Read one line; blank lines and comments hold no glob. -/
def readLine (number : Nat) (written : List Char) : Except Problem (Option Line) :=
  let cs := if ['\\', ' '].isSuffixOf written then written else trimEnd written
  if written.head? = some '#' || cs.isEmpty then .ok none
  else
    let marked := backMark (frontMarks cs)
    match Glob.parse Glob.ignoreStyle (String.ofList (fullGlob marked)) with
    | .ok glob => .ok (some ⟨glob, marked.keeps, marked.dirsOnly⟩)
    | .error e => .error ⟨number, .badGlob (String.ofList cs) e⟩

/-- Lines and problems of an ignore file, both in order. -/
structure File where
  lines : List Line
  problems : List Problem
deriving DecidableEq, Repr

/-- Read numbered rows up to the first one that is not UTF-8. -/
def readRows : Nat → List Bytes → File
  | _, [] => ⟨[], []⟩
  | number, row :: more =>
      if !Utf8.valid row then ⟨[], [⟨number, .notText⟩]⟩
      else
        let cs := Utf8.decode row
        let text := if number = 1 then cs.dropWhile (· == '\uFEFF') else cs
        let rest := readRows (number + 1) more
        match readLine number text with
        | .ok none => rest
        | .ok (some line) => ⟨line :: rest.lines, rest.problems⟩
        | .error problem => ⟨rest.lines, problem :: rest.problems⟩

/-- The rows of a file: lines without their ends, where a line feed at the very end adds none. -/
def rowsOf (content : Bytes) : List Bytes :=
  let rows := Bytes.lines content
  let ended := rows.dropLast.map fun row =>
    if row.getLast? = some Byte.carriageReturn then row.dropLast else row
  match rows.getLast? with
  | some [] | none => ended
  | some last => ended ++ [last]

/-- Read an ignore file. -/
def File.ofContent (content : Bytes) : File :=
  readRows 1 (rowsOf content)

/-- The problems that are reported: a line that is not UTF-8 only beside other problems. -/
def File.reported (file : File) : List Problem :=
  match file.problems with
  | [⟨_, .notText⟩] => []
  | problems => problems

/-- What the last matching line says: whether the entry is ignored. -/
def verdict? (lines : List Line) (path : Bytes) (isDir : Bool) : Option Bool :=
  (lines.reverse.find? fun line =>
    (!line.dirsOnly || isDir) && line.glob.pattern.accepts path).map fun line => !line.keeps

/-- The ignore files of one directory. -/
structure Level where
  base : Location
  own : List Line
  git : List Line
  exclude : List Line
deriving DecidableEq, Repr

/-- The path of an entry relative to the directory of a level. -/
def Level.relative (level : Level) (location : Location) : Bytes :=
  Bytes.ofString ("/".intercalate (location.drop level.base.length))

/--
Whether an entry is ignored according to levels given from the innermost to the
outermost; none if no line matches.
-/
def levelsVerdict? (levels : List Level) (location : Location) (isDir : Bool) : Option Bool :=
  let first (linesOf : Level → List Line) : Option Bool :=
    levels.findSome? fun level => verdict? (linesOf level) (level.relative location) isDir
  (first Level.own).or ((first Level.git).or (first Level.exclude))

/--
Read the ignore file at a path, and say what is wrong with it.  A glob that goes
down too many levels makes the whole file useless.
-/
def load (disk : Disk) (here : Location) (path : Path) : List Line × List String :=
  match disk.read here path with
  | .error _ => ([], [])
  | .ok content =>
      let file := File.ofContent content
      let problems := file.reported.map (Problem.message path)
      match Glob.excess? (file.lines.map Line.glob) with
      | none => (file.lines, problems)
      | some excess => ([], problems ++ [excess.message])

/-- Where a directory has ignore lines of its own. -/
def ownFile : Path := ⟨[".ignore"]⟩

/-- Where a directory has ignore lines for version control. -/
def gitFile : Path := ⟨[".gitignore"]⟩

/-- Where a directory has its repository, or says where that is. -/
def marker : Path := ⟨[".git"]⟩

/-- Where a work tree says what it shares with the others. -/
def commonFile : Path := ⟨["commondir"]⟩

/-- Where a repository has ignore lines that are not shared. -/
def excludeFile : Path := ⟨["info", "exclude"]⟩

/--
The first line of the file at a path.  If there is none, the answer is what is to
be reported about that.
-/
def headLine (disk : Disk) (here : Location) (path : Path) : Except (List String) (List Char) :=
  match disk.read here path with
  | .error .isDirectory => .error [path.toString ++ ": " ++ OsError.isDirectory.message]
  | .error _ => .error []
  | .ok content =>
      match (rowsOf content).head? with
      | none => .error []
      | some row =>
          if Utf8.valid row then .ok (Utf8.decode row)
          else .error [path.toString ++ ": " ++ notTextMessage]

/-- The path that the first line of a marker names. -/
def linkedDir? (line : List Char) : Option Path :=
  let mark := "gitdir: ".toList
  if mark.isPrefixOf line then some (.ofString (String.ofList (line.drop mark.length))) else none

/--
The directory of a linked work tree, seen from the working directory; none if the
marker of a directory is no file.
-/
def workTree? (disk : Disk) (dir : Location) : Except (List String) (Option Path) :=
  let path := dir.toPath.join marker
  match disk.read [] path with
  | .error _ => .ok none
  | .ok _ =>
      match headLine disk [] path with
      | .error problems => .error problems
      | .ok line =>
          match linkedDir? line with
          | none => .error []
          | some linked => .ok (some linked)

/-- The directory that a work tree shares with the others, as its first line says. -/
def sharedDir (linked : Path) (line : List Char) : Path :=
  let named := Path.ofString (String.ofList line)
  if line.head? = some '.' then linked.join named else named

/-- The directory that has the exclude file for a directory. -/
def repository (disk : Disk) (here dir : Location) : Except (List String) Path :=
  match workTree? disk dir with
  | .error problems => .error problems
  | .ok none => .ok (dir.toPath.join marker)
  | .ok (some linked) => (headLine disk here (linked.join commonFile)).map (sharedDir linked)

/-- The exclude lines for a directory, and what is wrong with them. -/
def loadExclude (disk : Disk) (here dir : Location) : List Line × List String :=
  match repository disk here dir with
  | .error problems => ([], problems)
  | .ok path => load disk here (path.join excludeFile)

/-- The ignore files of a directory, and what is wrong with them. -/
def Level.load (disk : Disk) (here dir : Location) : Level × List String :=
  let (own, p₁) := Ignore.load disk here (dir.toPath.join ownFile)
  let (git, p₂) := Ignore.load disk here (dir.toPath.join gitFile)
  let (exclude, p₃) := loadExclude disk here dir
  (⟨dir, own, git, exclude⟩, p₁ ++ p₂ ++ p₃)

/-- The directories above a location, outermost first. -/
def above (location : Location) : List Location :=
  (List.range location.length).map (location.take ·)

/--
The levels of the directories above a location, innermost first, and what is
wrong with their files, outermost first.
-/
def levelsAbove (disk : Disk) (here location : Location) : List Level × List String :=
  let loaded := (above location).map (Level.load disk here)
  ((loaded.map Prod.fst).reverse, loaded.flatMap Prod.snd)

end Ignore
end Uncomment

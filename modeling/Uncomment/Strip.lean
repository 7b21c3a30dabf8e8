import Uncomment.Line.Process

/-!
# Stripping a text

`strip` removes the comments of a whole text.  The text is cut at line feeds; a
carriage return at the end of a line stands apart from it and comes back after a
replaced line.  Dropped lines vanish together with their line feed.
-/

namespace Uncomment
namespace Strip

/-- A line without the carriage return at its end, and whether it had one. -/
def splitReturn (row : Bytes) : Bytes × Bool :=
  if row.getLast? = some Byte.carriageReturn then (row.dropLast, true) else (row, false)

/-- What is put out for a line whose text has the given result. -/
def emit (row : Bytes) (hasReturn : Bool) : LineResult → Option Bytes
  | .unchanged => some row
  | .replaced text => some (if hasReturn then text ++ [Byte.carriageReturn] else text)
  | .dropped => none

/-- Strip lines from a mode on, the lines put out so far being given reversed. -/
def rowsFrom
    (language : Language)
    (mode : Mode)
    (out : List Bytes) :
    List Bytes → Except Fault (List Bytes)
  | [] => .ok out.reverse
  | row :: more =>
      let (line, hasReturn) := splitReturn row
      match Line.process language mode line with
      | .error fault => .error fault
      | .ok (result, next) =>
          match emit row hasReturn result with
          | some kept => rowsFrom language next (kept :: out) more
          | none => rowsFrom language next out more

/-- The lines that are left of the lines of a text. -/
def rows (language : Language) (text : Bytes) : Except Fault (List Bytes) :=
  rowsFrom language .normal [] (Bytes.lines text)

end Strip

/-- A text without its comments. -/
def strip (language : Language) (text : Bytes) : Except Fault Bytes :=
  (Strip.rows language text).map Bytes.unlines

end Uncomment

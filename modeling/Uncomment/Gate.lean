import Uncomment.Text.Utf8

/-!
# The gate

Before a file is stripped its bytes pass a gate.  Binary files are always
refused; files that are too large or have too long a line are refused unless the
limits are lifted by force.  The first reason that applies is given: size, then
binary content, then line length.
-/

namespace Uncomment
namespace Gate

/-- The number of bytes at the front of a file that are searched for a zero byte. -/
def binaryWindow : Nat := 512

/-- How large a file may be, and how long a line. -/
structure Limits where
  maxBytes : Nat := 104857600
  maxLineLength : Nat := 50000
deriving DecidableEq, Repr

/-- Why a file is left alone. -/
inductive Skip where
  | binary
  | tooLarge (size limit : Nat)
  | lineTooLong (line length limit : Nat)
deriving DecidableEq, Repr

/-- A reason in words. -/
def Skip.message : Skip → String
  | .binary => "binary file"
  | .tooLarge size limit =>
      "file too large (" ++ toString size ++ " bytes, limit " ++ toString limit ++ ")"
  | .lineTooLong line length limit =>
      "line " ++ toString line ++ " too long (" ++ toString length ++ " bytes, limit " ++
        toString limit ++ ")"

/-- A zero byte near the front, or no UTF-8 at all. -/
def isBinary (content : Bytes) : Bool :=
  List.elem 0 (content.take binaryWindow) || !Utf8.valid content

/-- The first row longer than a limit, counting rows from `number`, and its length. -/
def longRow? (limit : Nat) : Nat → List Bytes → Option (Nat × Nat)
  | _, [] => none
  | number, row :: more =>
      if limit < row.length then some (number, row.length)
      else longRow? limit (number + 1) more

/-- The reason to leave a file alone, if there is one. -/
def check (limits : Limits) (force : Bool) (content : Bytes) : Option Skip :=
  if !force && limits.maxBytes < content.length then
    some (.tooLarge content.length limits.maxBytes)
  else if isBinary content then some .binary
  else if force then none
  else
    match longRow? limits.maxLineLength 1 (Bytes.lines content) with
    | some (line, length) => some (.lineTooLong line length limits.maxLineLength)
    | none => none

end Gate
end Uncomment

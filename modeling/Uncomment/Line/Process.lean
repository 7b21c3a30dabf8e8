import Uncomment.Lexer.Closing
import Uncomment.Line.Pruning

/-!
# Processing lines

`Line.process` takes a line in the mode that the lines before it have left, and
answers with what becomes of the line and with the next mode.  Four cases:

* in the mode `normal` the comments of the line are removed;
* inside a block comment the line is dropped up to the stop token, and what
  comes after that is treated as code;
* inside a literal the line is kept up to the closing delimiter, and what comes
  after that is treated as code;
* inside a block scalar the line is kept if it is blank or indented further than
  the header, and treated as in mode `normal` otherwise.

Code is only ever read in mode `normal`, so a fault leaves that mode.
-/

namespace Uncomment
namespace Line

/-- Drop the first byte if it is of a class. -/
def dropOne (accepts : UInt8 → Bool) : Bytes → Bytes
  | [] => []
  | b :: rest => if accepts b then rest else b :: rest

/-- The digits that may give an indentation. -/
def isIndentDigit (b : UInt8) : Bool :=
  0x31 ≤ b && b ≤ 0x39

/-- The signs that may follow a scalar indicator. -/
def isChompSign (b : UInt8) : Bool :=
  b == 0x2B || b == 0x2D

/--
Whether a text ends with the header of a block scalar: a colon or a hyphen, white
space, a bar or a greater-than sign, at most one digit, sign and digit each, and
white space.
-/
def endsWithScalarHeader (text : Bytes) : Bool :=
  let reversed := text.reverse
  let core := reversed.drop (Blank.trailingFrom 0 0 reversed)
  let marked := dropOne isIndentDigit (dropOne isChompSign (dropOne isIndentDigit core))
  match marked with
  | [] => false
  | b :: rest =>
      let blank := Blank.trailingFrom 0 0 rest
      (b == 0x7C || b == 0x3E) && 0 < blank &&
        ((rest.drop blank).head?).any fun c => c == 0x3A || c == 0x2D

/-- The mode after a line, given the mode of its pruning: a YAML line may open a block scalar. -/
def modeAfter
    (language : Language)
    (line : Bytes)
    (result : Pruning) :
    Mode :=
  if language = .yaml ∧ result.mode = .normal ∧
      (Blank.trimStart result.text).head? ≠ some Byte.hash ∧
      endsWithScalarHeader result.text = true then
    .blockScalar (Blank.indentation line)
  else result.mode

/-- What becomes of a line given what is left of it. -/
def finish (line left : Bytes) : LineResult :=
  if left = line then .unchanged
  else
    let trimmed := Blank.trimEndSpaces left
    if Blank.isAllWhite trimmed then .dropped else .replaced trimmed

/-- Process a line in mode `normal`. -/
def processNormal (language : Language) (line : Bytes) : Except Fault (LineResult × Mode) :=
  if Blank.isAllWhite line then .ok (.unchanged, .normal)
  else
    match Pruning.ofLine language line with
    | .error fault => .error fault
    | .ok result => .ok (finish line result.text, modeAfter language line result)

/-- Process a line inside a block comment. -/
def processComment
    (language : Language)
    (stop line : Bytes) :
    Except Fault (LineResult × Mode) :=
  match Bytes.find? stop line with
  | none => .ok (.dropped, .blockComment stop)
  | some found =>
      match Utf8.startingAt line (found + stop.length) with
      | .error fault => .error fault
      | .ok code =>
          match Pruning.ofLine language code with
          | .error fault => .error fault
          | .ok result =>
              let outcome :=
                match finish [] result.text with
                | .unchanged => .dropped
                | other => other
              .ok (outcome, modeAfter language line result)

/-- Process a line inside a literal. -/
def processLiteral
    (language : Language)
    (kind : LongLiteral)
    (line : Bytes) :
    Except Fault (LineResult × Mode) :=
  match Lexer.findClose language.dialect kind.span line with
  | none => .ok (.unchanged, .literal kind)
  | some close =>
      match Utf8.startingAt line close with
      | .error fault => .error fault
      | .ok code =>
          match Pruning.ofLine language code with
          | .error fault => .error fault
          | .ok result =>
              if result.text = code then .ok (.unchanged, result.mode)
              else .ok (finish line (line.take close ++ result.text), result.mode)

/-- Process a line in a mode. -/
def process
    (language : Language)
    (mode : Mode)
    (line : Bytes) :
    Except Fault (LineResult × Mode) :=
  match mode with
  | .normal => processNormal language line
  | .blockComment stop => processComment language stop line
  | .literal kind => processLiteral language kind line
  | .blockScalar indent =>
      if Blank.isAllWhite line || indent < Blank.indentation line then
        .ok (.unchanged, .blockScalar indent)
      else processNormal language line

/-- The outcome of a line and the mode after it, which is `normal` after a fault. -/
def feed
    (language : Language)
    (mode : Mode)
    (line : Bytes) :
    Except Fault LineResult × Mode :=
  match process language mode line with
  | .ok (result, next) => (.ok result, next)
  | .error fault => (.error fault, .normal)

/-- The outcomes of lines and the modes after them. -/
def feedAll (language : Language) : Mode → List Bytes → List (Except Fault LineResult × Mode)
  | _, [] => []
  | mode, line :: more =>
      let step := feed language mode line
      step :: feedAll language step.2 more

end Line
end Uncomment

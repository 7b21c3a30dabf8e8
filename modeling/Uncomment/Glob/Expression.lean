import Uncomment.Glob.Pattern

/-!
# Expressions

A glob is matched as a regular expression over bytes.  An `Expression` is the
tree of such an expression:

* `pattern` is the set of byte strings that it matches;
* `text` is how it is written;
* `nesting` is how many levels it goes down.

Two trees with one pattern can have different levels: every pair of brackets
that is written counts, also one around a single byte.
-/

namespace Uncomment

/-- A regular expression over bytes. -/
inductive Expression where
  /-- The empty text. -/
  | empty
  /-- One given byte. -/
  | byte (b : UInt8)
  /-- Any byte. -/
  | anyByte
  /-- One byte of a class in brackets. -/
  | oneOf (cls : ByteClass)
  /-- Any number of times. -/
  | many (inner : Expression)
  /-- Once or not at all. -/
  | optional (inner : Expression)
  /-- One expression and then another. -/
  | seq (first second : Expression)
  /-- One expression or another; it stands in a group. -/
  | choice (left right : Expression)
  /-- An expression in parentheses. -/
  | group (inner : Expression)
deriving DecidableEq, Repr

namespace Expression

/-- One expression and then another; an empty one is left out. -/
def append : Expression → Expression → Expression
  | .empty, second => second
  | first, .empty => first
  | first, second => .seq first second

/-- Expressions one after the other. -/
def concat (expressions : List Expression) : Expression :=
  expressions.foldr append .empty

/-- A group of alternatives, of which the empty ones do not count. -/
def alternatives (expressions : List Expression) : Expression :=
  match expressions.filter (· ≠ .empty) with
  | [] => .empty
  | first :: more => .group (more.foldl .choice first)

/-- What the expression matches. -/
def pattern : Expression → Pattern
  | .empty => .nothing
  | .byte b => .byte (.single b)
  | .anyByte => .byte .all
  | .oneOf cls => .byte cls
  | .many inner => .many inner.pattern
  | .optional inner => .alt .nothing inner.pattern
  | .seq first second => .append first.pattern second.pattern
  | .choice left right => .alt left.pattern right.pattern
  | .group inner => inner.pattern

/-- The characters that have a meaning of their own in a written expression. -/
def marks : List Char :=
  "\\.+*?()|[]\x7b\x7d^$#&-~".toList

/-- A byte as it is written. -/
def byteText (b : UInt8) : String :=
  if b < 128 then
    let c := Char.ofNat b.toNat
    if List.elem c marks then "\\" ++ c.toString else c.toString
  else "\\x" ++ String.ofList (Nat.toDigits 16 b.toNat)

/-- A range of bytes as it is written. -/
def rangeText : UInt8 × UInt8 → String
  | (low, high) => if low = high then byteText low else byteText low ++ "-" ++ byteText high

/-- A class as it is written. -/
def classText (cls : ByteClass) : String :=
  "[" ++ (if cls.negated then "^" else "") ++ String.join (cls.ranges.map rangeText) ++ "]"

/-- The expression as it is written. -/
def text : Expression → String
  | .empty => ""
  | .byte b => byteText b
  | .anyByte => "."
  | .oneOf cls => classText cls
  | .many inner => inner.text ++ "*"
  | .optional inner => inner.text ++ "?"
  | .seq first second => first.text ++ second.text
  | .choice left right => left.text ++ "|" ++ right.text
  | .group inner => "(?:" ++ inner.text ++ ")"

/-- How many expressions stand side by side. -/
def width : Expression → Nat
  | .empty => 0
  | .seq first second => first.width + second.width
  | _ => 1

/-- The level for standing side by side; a single expression has none. -/
def rowLevel (expression : Expression) : Nat :=
  if 2 ≤ expression.width then 1 else 0

/-- The level for what stands in a group: a choice has one, and so has a row. -/
def groupLevel : Expression → Nat
  | .choice _ _ => 1
  | expression => expression.rowLevel

/-- The level for the ranges of a class; a single range has none. -/
def rangeLevel (cls : ByteClass) : Nat :=
  if 2 ≤ cls.ranges.length then 1 else 0

/-- How many levels the deepest of the expressions side by side goes down. -/
def nesting : Expression → Nat
  | .empty | .byte _ | .anyByte => 0
  | .oneOf cls => 1 + rangeLevel cls
  | .many inner | .optional inner => 1 + inner.nesting
  | .seq first second => max first.nesting second.nesting
  | .choice left right => max (left.nesting + left.rowLevel) (right.nesting + right.rowLevel)
  | .group inner => 1 + (inner.nesting + inner.groupLevel)

end Expression
end Uncomment

import Uncomment.Text.Bytes

/-!
# Byte patterns

A `Pattern` describes a set of byte strings.  Whether a byte string belongs to
it is decided by reading the bytes one by one: `residues` gives the patterns
that the rest of the text has to match after a byte, and a text matches if one
of the patterns left at its end admits the empty text.
-/

namespace Uncomment

/-- A set of bytes, given by ranges or by what is left outside of ranges. -/
structure ByteClass where
  negated : Bool
  ranges : List (UInt8 × UInt8)
deriving DecidableEq, Repr

namespace ByteClass

/-- Every byte. -/
def all : ByteClass := ⟨true, []⟩

/-- One byte. -/
def single (b : UInt8) : ByteClass := ⟨false, [(b, b)]⟩

/-- Every byte but one. -/
def allBut (b : UInt8) : ByteClass := ⟨true, [(b, b)]⟩

/-- Whether a byte belongs to the class. -/
def accepts (cls : ByteClass) (b : UInt8) : Bool :=
  cls.negated != cls.ranges.any fun (low, high) => low ≤ b && b ≤ high

end ByteClass

/-- A set of byte strings. -/
inductive Pattern where
  /-- The empty text alone. -/
  | nothing
  /-- One byte of a class. -/
  | byte (cls : ByteClass)
  /-- A text of the first pattern and then one of the second. -/
  | seq (first second : Pattern)
  /-- A text of either pattern. -/
  | alt (left right : Pattern)
  /-- Any number of texts of the pattern. -/
  | many (inner : Pattern)
deriving DecidableEq, Repr

namespace Pattern

/-- One pattern and then another; nothing before or after a pattern is left out. -/
def append : Pattern → Pattern → Pattern
  | .nothing, second => second
  | first, .nothing => first
  | first, second => .seq first second

/-- Whether the empty text matches. -/
def admitsEmpty : Pattern → Bool
  | .nothing => true
  | .byte _ => false
  | .seq first second => first.admitsEmpty && second.admitsEmpty
  | .alt left right => left.admitsEmpty || right.admitsEmpty
  | .many _ => true

/-- The patterns for what may follow after a byte. -/
def residues (b : UInt8) : Pattern → List Pattern
  | .nothing => []
  | .byte cls => if cls.accepts b then [.nothing] else []
  | .seq first second =>
      (first.residues b).map (append · second) ++
        if first.admitsEmpty then second.residues b else []
  | .alt left right => left.residues b ++ right.residues b
  | .many inner => (inner.residues b).map (append · (.many inner))

/-- Whether one of the patterns matches the text. -/
def anyMatches : List Pattern → Bytes → Bool
  | patterns, [] => patterns.any admitsEmpty
  | patterns, b :: rest =>
      anyMatches ((patterns.flatMap (residues b)).eraseDups) rest

/-- Whether a text belongs to the pattern. -/
def accepts (pattern : Pattern) (bytes : Bytes) : Bool :=
  anyMatches [pattern] bytes

end Pattern
end Uncomment

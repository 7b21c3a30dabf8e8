/-!
# Byte strings

Text is handled as the list of the bytes of its UTF-8 form, so that a position
in it is a byte offset.  This module holds

* the classes of single bytes that the lexical rules mention (`Byte`);
* searching: `Bytes.find?` for the first occurrence of a needle and
  `Bytes.occurrences` for all of them, left to right and not overlapping;
* cutting a text into lines at line feeds and joining lines again.

Every search walks the list once by structural recursion.
-/

namespace Uncomment

/-- A text given by the bytes of its UTF-8 form. -/
abbrev Bytes := List UInt8

namespace Byte

/-- The tab. -/
abbrev tab : UInt8 := 0x09

/-- The line feed. -/
abbrev lineFeed : UInt8 := 0x0A

/-- The carriage return. -/
abbrev carriageReturn : UInt8 := 0x0D

/-- The space. -/
abbrev space : UInt8 := 0x20

/-- The double quotation mark. -/
abbrev quote : UInt8 := 0x22

/-- The number sign. -/
abbrev hash : UInt8 := 0x23

/-- The apostrophe. -/
abbrev tick : UInt8 := 0x27

/-- The slash. -/
abbrev slash : UInt8 := 0x2F

/-- The backslash. -/
abbrev backslash : UInt8 := 0x5C

/-- The backtick. -/
abbrev backtick : UInt8 := 0x60

/-- The opening brace. -/
abbrev openBrace : UInt8 := 0x7B

/-- The closing brace. -/
abbrev closeBrace : UInt8 := 0x7D

/-- ASCII white space: space, tab, line feed, form feed and carriage return. -/
def isBlank (b : UInt8) : Bool :=
  b == 0x20 || b == 0x09 || b == 0x0A || b == 0x0C || b == 0x0D

/-- The digits. -/
def isDigit (b : UInt8) : Bool :=
  0x30 ≤ b && b ≤ 0x39

/-- The ASCII letters. -/
def isLetter (b : UInt8) : Bool :=
  (0x41 ≤ b && b ≤ 0x5A) || (0x61 ≤ b && b ≤ 0x7A)

/-- The ASCII letters and the digits. -/
def isAlphanumeric (b : UInt8) : Bool :=
  isLetter b || isDigit b

/-- The bytes that continue an identifier. -/
def isIdentifier (b : UInt8) : Bool :=
  isAlphanumeric b || b == 0x5F

/-- The bytes that start an identifier. -/
def startsIdentifier (b : UInt8) : Bool :=
  isLetter b || b == 0x5F

/-- The hexadecimal digits of both cases. -/
def isHexDigit (b : UInt8) : Bool :=
  isDigit b || (0x41 ≤ b && b ≤ 0x46) || (0x61 ≤ b && b ≤ 0x66)

/-- The lower-case form of an ASCII capital; any other byte is left alone. -/
def lower (b : UInt8) : UInt8 :=
  if 0x41 ≤ b && b ≤ 0x5A then b + 0x20 else b

end Byte

namespace Bytes

/-- The bytes of the UTF-8 form of a string. -/
def ofString (s : String) : Bytes :=
  s.toList.flatMap String.utf8EncodeChar

/-- Search for the first occurrence of `needle`, counting offsets from `offset`. -/
def findFrom (needle : Bytes) (offset : Nat) : Bytes → Option Nat
  | [] => if needle.isEmpty then some offset else none
  | b :: rest =>
      if needle.isPrefixOf (b :: rest) then some offset
      else findFrom needle (offset + 1) rest

/-- The offset of the first occurrence of `needle`. -/
def find? (needle text : Bytes) : Option Nat :=
  findFrom needle 0 text

/-- Whether `needle` occurs in the text. -/
def contains (needle text : Bytes) : Bool :=
  (find? needle text).isSome

/--
Offsets of the occurrences of `needle`, counted from `offset`; the next `skip`
bytes still belong to the occurrence found last and start none.
-/
def occurrencesFrom (needle : Bytes) : Nat → Nat → Bytes → List Nat
  | _, _, [] => []
  | offset, skip + 1, _ :: rest => occurrencesFrom needle (offset + 1) skip rest
  | offset, 0, b :: rest =>
      if needle.isPrefixOf (b :: rest) then
        offset :: occurrencesFrom needle (offset + 1) (needle.length - 1) rest
      else
        occurrencesFrom needle (offset + 1) 0 rest

/-- Offsets of the occurrences of `needle`, left to right and not overlapping. -/
def occurrences (needle text : Bytes) : List Nat :=
  occurrencesFrom needle 0 0 text

/-- Cut at line feeds, with the lines found so far and the open line both reversed. -/
def linesFrom (found : List Bytes) (current : Bytes) : Bytes → List Bytes
  | [] => (current.reverse :: found).reverse
  | b :: rest =>
      if b == Byte.lineFeed then linesFrom (current.reverse :: found) [] rest
      else linesFrom found (b :: current) rest

/-- The lines of a text: the stretches between its line feeds, at least one. -/
def lines (text : Bytes) : List Bytes :=
  linesFrom [] [] text

/-- Lines put together with a line feed between each two. -/
def unlines (rows : List Bytes) : Bytes :=
  [Byte.lineFeed].intercalate rows

/-- The text with its ASCII capitals lowered. -/
def lower (text : Bytes) : Bytes :=
  text.map Byte.lower

end Bytes
end Uncomment

import Uncomment.Text.Bytes

/-!
# White space

The twenty-five characters with the property *White_Space*, as characters
(`isWhite`) and as the byte sequences that encode them.  `whiteWidth` measures
the white-space character at the front of a text, `whiteWidthBack` the one at
its end; trimming removes such characters from either end.  Both measures are
zero where no white space stands.
-/

namespace Uncomment
namespace Blank

/-- The characters with the property *White_Space*. -/
def isWhite (c : Char) : Bool :=
  let code := c.toNat
  (0x09 ≤ code && code ≤ 0x0D) || code == 0x20 || code == 0x85 || code == 0xA0 ||
    code == 0x1680 || (0x2000 ≤ code && code ≤ 0x200A) || code == 0x2028 ||
    code == 0x2029 || code == 0x202F || code == 0x205F || code == 0x3000

/-- The white-space characters of one byte. -/
def isNarrow (b : UInt8) : Bool :=
  b == 0x20 || (0x09 ≤ b && b ≤ 0x0D)

/-- Whether two bytes, in reading order, encode white space. -/
def isPair (b₁ b₂ : UInt8) : Bool :=
  b₁ == 0xC2 && (b₂ == 0x85 || b₂ == 0xA0)

/-- Whether three bytes, in reading order, encode white space. -/
def isTriple (b₁ b₂ b₃ : UInt8) : Bool :=
  (b₁ == 0xE1 && b₂ == 0x9A && b₃ == 0x80) ||
  (b₁ == 0xE2 && b₂ == 0x80 &&
    ((0x80 ≤ b₃ && b₃ ≤ 0x8A) || b₃ == 0xA8 || b₃ == 0xA9 || b₃ == 0xAF)) ||
  (b₁ == 0xE2 && b₂ == 0x81 && b₃ == 0x9F) ||
  (b₁ == 0xE3 && b₂ == 0x80 && b₃ == 0x80)

/-- The number of bytes of the white-space character at the front of a text. -/
def whiteWidth : Bytes → Nat
  | [] => 0
  | b :: rest =>
      if isNarrow b then 1
      else if b < 0x80 then 0
      else
        match rest with
        | [] => 0
        | b₂ :: rest =>
            if isPair b b₂ then 2
            else
              match rest with
              | [] => 0
              | b₃ :: _ => if isTriple b b₂ b₃ then 3 else 0

/-- The number of bytes of the white-space character at the end of a text given reversed. -/
def whiteWidthBack : Bytes → Nat
  | [] => 0
  | b :: rest =>
      if isNarrow b then 1
      else if b < 0x80 then 0
      else
        match rest with
        | [] => 0
        | b₂ :: rest =>
            if isPair b₂ b then 2
            else
              match rest with
              | [] => 0
              | b₁ :: _ => if isTriple b₁ b₂ b then 3 else 0

/--
The number of bytes of white space at the front of a text, `count` bytes having
been counted and the next `skip` bytes being known to be white.
-/
def leadingFrom : Nat → Nat → Bytes → Nat
  | count, _, [] => count
  | count, skip + 1, _ :: rest => leadingFrom (count + 1) skip rest
  | count, 0, b :: rest =>
      match whiteWidth (b :: rest) with
      | 0 => count
      | more + 1 => leadingFrom (count + 1) more rest

/-- The number of bytes of white space at the end of a text given reversed, counted likewise. -/
def trailingFrom : Nat → Nat → Bytes → Nat
  | count, _, [] => count
  | count, skip + 1, _ :: rest => trailingFrom (count + 1) skip rest
  | count, 0, b :: rest =>
      match whiteWidthBack (b :: rest) with
      | 0 => count
      | more + 1 => trailingFrom (count + 1) more rest

/-- The number of bytes of white space at the front of a text. -/
def leading (text : Bytes) : Nat :=
  leadingFrom 0 0 text

/-- The text without the white space at its front. -/
def trimStart (text : Bytes) : Bytes :=
  text.drop (leading text)

/-- The text without the white space at its end. -/
def trimEnd (text : Bytes) : Bytes :=
  let reversed := text.reverse
  (reversed.drop (trailingFrom 0 0 reversed)).reverse

/-- The text without the white space at both ends. -/
def trim (text : Bytes) : Bytes :=
  trimEnd (trimStart text)

/-- Whether a text consists of white space only. -/
def isAllWhite (text : Bytes) : Bool :=
  (trimStart text).isEmpty

/-- Find white space from the end of a text given reversed, `passed` bytes having been passed. -/
def lastWhiteFrom (length passed : Nat) : Bytes → Option Nat
  | [] => none
  | b :: rest =>
      match whiteWidthBack (b :: rest) with
      | 0 => lastWhiteFrom length (passed + 1) rest
      | width => some (length - passed - width)

/-- The offset at which the last white-space character of a text starts. -/
def lastWhite? (text : Bytes) : Option Nat :=
  lastWhiteFrom text.length 0 text.reverse

/-- The text without the spaces and tabs at its end. -/
def trimEndSpaces (text : Bytes) : Bytes :=
  (text.reverse.dropWhile fun b => b == Byte.space || b == Byte.tab).reverse

/-- The number of spaces and tabs that a line starts with. -/
def indentation (line : Bytes) : Nat :=
  (line.takeWhile fun b => b == Byte.space || b == Byte.tab).length

/-- A string without the white space at both ends. -/
def trimChars (cs : List Char) : List Char :=
  ((cs.dropWhile isWhite).reverse.dropWhile isWhite).reverse

end Blank
end Uncomment

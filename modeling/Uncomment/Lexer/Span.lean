import Uncomment.Dialect
import Uncomment.Text.Utf8

/-!
# Spans

A `Span` is the lexical context in which a byte of a line is read: code, or one
of the literals.  This module says where a literal may open (`opening?`), where
it closes (`Span.closing?`) and whether a backslash escapes inside it.

Delimiters are looked for in a text given by its first byte `b` and the bytes
`rest` after it, and their width is reported by the number of bytes of `rest`
that belong to them.  So every delimiter takes at least one byte.
-/

namespace Uncomment

/-- The lexical context of a byte. -/
inductive Span where
  | code
  | single
  | double
  | backtick
  | tripleDouble
  | tripleSingle
  | regex
  /-- A raw string, closed by a quotation mark and this many number signs. -/
  | raw (hashes : Nat)
deriving DecidableEq, Repr

namespace Span

/-- Whether a backslash escapes the next byte. -/
def escapes (dialect : Dialect) : Span → Bool
  | .code | .raw _ => false
  | .backtick => dialect.backtickEscapes
  | _ => true

/-- The bytes that `closing?` looks for after the first one of a closing delimiter. -/
def closingTail : Span → Option (UInt8 × Bytes)
  | .code => none
  | .single => some (Byte.tick, [])
  | .double => some (Byte.quote, [])
  | .backtick => some (Byte.backtick, [])
  | .regex => some (Byte.slash, [])
  | .tripleDouble => some (Byte.quote, [Byte.quote, Byte.quote])
  | .tripleSingle => some (Byte.tick, [Byte.tick, Byte.tick])
  | .raw hashes => some (Byte.quote, List.replicate hashes Byte.hash)

/--
The number of bytes of `rest` that belong to the closing delimiter starting at
`b`, if one starts there.
-/
def closing? (span : Span) (b : UInt8) (rest : Bytes) : Option Nat :=
  match span.closingTail with
  | none => none
  | some (first, tail) =>
      if b == first && tail.isPrefixOf rest then some tail.length else none

end Span

namespace Lexer

/--
A raw string that opens at `b`: the number of bytes of `rest` that belong to its
opening delimiter, and its number signs.  Right after an identifier none opens.
-/
def rawOpening?
    (before : Option UInt8)
    (b : UInt8)
    (rest : Bytes) :
    Option (Nat × Nat) :=
  if before.any Byte.isIdentifier then none
  else
    let marked := if b == 0x62 then rest else b :: rest
    match marked with
    | [] => none
    | r :: more =>
        let hashes := (more.takeWhile (· == Byte.hash)).length
        if r == 0x72 && (more.drop hashes).head? == some Byte.quote then
          some ((if b == 0x62 then 1 else 0) + hashes + 1, hashes)
        else none

/--
Whether the text after an apostrophe completes a character literal: one
character and an apostrophe, or an escape whose apostrophe comes soon.
-/
def completesCharLiteral : Bytes → Bool
  | [] => false
  | b :: rest =>
      if b == Byte.backslash then List.elem Byte.tick ((rest.drop 1).take 10)
      else (rest.drop (Utf8.tailLength b)).head? == some Byte.tick

/-- The code bytes after which a slash may open a regular expression. -/
def regexLeaders : Bytes :=
  Bytes.ofString "=(,:[\x7b;"

/--
Whether a slash opens a regular expression: it starts no comment, and the code
before it is empty or ends where an operand is due.
-/
def regexOpens (lastCode : Option UInt8) (rest : Bytes) : Bool :=
  if rest.head? == some Byte.slash || rest.head? == some 0x2A then false
  else
    match lastCode with
    | none => true
    | some b => List.elem b regexLeaders

/--
The literal that opens at `b`: the number of bytes of `rest` that belong to its
opening delimiter, and its span.
-/
def opening?
    (dialect : Dialect)
    (before lastCode : Option UInt8)
    (b : UInt8)
    (rest : Bytes) :
    Option (Nat × Span) :=
  match if dialect.rawStrings then rawOpening? before b rest else none with
  | some (more, hashes) => some (more, .raw hashes)
  | none =>
      if b == Byte.quote then
        if dialect.tripleDouble && [Byte.quote, Byte.quote].isPrefixOf rest then
          some (2, .tripleDouble)
        else if dialect.double then some (0, .double)
        else none
      else if b == Byte.tick then
        if dialect.tripleSingle && [Byte.tick, Byte.tick].isPrefixOf rest then
          some (2, .tripleSingle)
        else
          match dialect.single with
          | .off => none
          | .string => some (0, .single)
          | .charLiteral => if completesCharLiteral rest then some (0, .single) else none
      else if b == Byte.backtick then
        if dialect.backtick then some (0, .backtick) else none
      else if b == Byte.slash then
        if dialect.regex && regexOpens lastCode rest then some (0, .regex) else none
      else none

end Lexer
end Uncomment

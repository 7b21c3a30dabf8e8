import Uncomment.Lexer.Cursor

/-!
# Span tables

The span table of a line has one span for every byte and a last one that is
still open at the end of the line.  The first byte of an opening delimiter is
read in code and its other bytes in the literal; all bytes of a closing
delimiter are read in the literal.

Two questions about plain lines are answered from such a table: which quotation
marks are open at an offset (`Quotes.classify`), and whether the offset lies in
a regular expression (`inRegexLiteral`).
-/

namespace Uncomment

/-- The spans in which the bytes of a line are read. -/
structure SpanTable where
  /-- One span for each byte, and the one left open at the end. -/
  spans : List Span
deriving DecidableEq, Repr

namespace SpanTable

/-- The spans of the bytes between two stops of a cursor. -/
def stretch (here next : Cursor) : List Span :=
  let width := next.offset - here.offset
  if here.span = .code ∧ next.span ≠ .code then
    .code :: List.replicate (width - 1) next.span
  else List.replicate width here.span

/-- The spans of the bytes along a trail, and the span at its end. -/
def along : List Cursor → List Span
  | [] => []
  | [last] => [last.span]
  | here :: next :: more => stretch here next ++ along (next :: more)

/-- The span table of a line. -/
def ofLine (dialect : Dialect) (line : Bytes) : SpanTable where
  spans := along ((Cursor.start line).trail dialect)

/-- The span left open at the end of the line. -/
def atEnd (table : SpanTable) : Span :=
  (table.spans.getLast?).getD .code

/-- The span of the byte at an offset; from the end on, the span left open. -/
def spanAt (table : SpanTable) (offset : Nat) : Span :=
  (table.spans[offset]?).getD table.atEnd

/-- Whether the byte at an offset is read in code. -/
def isCode (table : SpanTable) (offset : Nat) : Bool :=
  table.spanAt offset == .code

end SpanTable

/-- Which kinds of quotation marks are open. -/
structure Quotes where
  inSingle : Bool
  inDouble : Bool
  inBacktick : Bool
deriving DecidableEq, Repr

namespace Quotes

/-- The quotation marks that a span lies in. -/
def ofSpan (span : Span) : Quotes where
  inSingle := span matches .single | .tripleSingle
  inDouble := span matches .double | .tripleDouble | .raw _
  inBacktick := span matches .backtick

/-- Whether any quotation mark is open. -/
def any (quotes : Quotes) : Bool :=
  quotes.inSingle || quotes.inDouble || quotes.inBacktick

/-- The quotation marks open at an offset of a line in the plain dialect. -/
def classify (line : Bytes) (offset : Nat) : Quotes :=
  ofSpan ((SpanTable.ofLine Dialect.plain line).spanAt offset)

end Quotes

namespace Lexer

/-- Whether an odd number of backslashes stands right before an offset. -/
def isEscaped (line : Bytes) (offset : Nat) : Bool :=
  ((line.take offset).reverse.takeWhile (· == Byte.backslash)).length % 2 == 1

/-- Whether an offset lies in a regular expression literal. -/
def inRegexLiteral (line : Bytes) (offset : Nat) : Bool :=
  (SpanTable.ofLine { Dialect.plain with regex := true } line).spanAt offset == .regex

end Lexer
end Uncomment

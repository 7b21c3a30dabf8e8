import Uncomment.Lexer.Span

/-!
# Modes and results

A `Mode` is what the lines read so far have left open: nothing, a block comment,
a literal of several lines, or a YAML block scalar.  A `LineResult` is what
becomes of one line.
-/

namespace Uncomment

/-- The literals that may go on over several lines. -/
inductive LongLiteral where
  | tripleDouble
  | tripleSingle
  | template
deriving DecidableEq, Repr

namespace LongLiteral

/-- The span in which such a literal is read. -/
def span : LongLiteral → Span
  | .tripleDouble => .tripleDouble
  | .tripleSingle => .tripleSingle
  | .template => .backtick

end LongLiteral

/-- What earlier lines have left open. -/
inductive Mode where
  /-- Nothing. -/
  | normal
  /-- A block comment that ends with the given token. -/
  | blockComment (stop : Bytes)
  /-- A literal. -/
  | literal (kind : LongLiteral)
  /-- A block scalar whose header is indented by the given number of bytes. -/
  | blockScalar (indent : Nat)
deriving DecidableEq, Repr

namespace Mode

/-- The mode left by a line that ends in a span. -/
def ofSpan (dialect : Dialect) : Span → Mode
  | .tripleDouble => .literal .tripleDouble
  | .tripleSingle => .literal .tripleSingle
  | .backtick => if dialect.multilineBacktick then .literal .template else .normal
  | _ => .normal

end Mode

/-- What becomes of a line. -/
inductive LineResult where
  /-- The line stays as it is. -/
  | unchanged
  /-- The line is replaced. -/
  | replaced (text : Bytes)
  /-- The line held nothing but comments and goes away. -/
  | dropped
deriving DecidableEq, Repr

end Uncomment

import Uncomment.Lexer.Span

/-!
# Closing an open literal

`Lexer.findClose` looks for the end of a literal that an earlier line has left
open.  It needs no cursor: inside a literal only escapes and the closing
delimiter matter.
-/

namespace Uncomment
namespace Lexer

/--
Search for the closing delimiter of a span, counting from `offset`; the next
`skip` bytes are escaped.
-/
def findCloseFrom (dialect : Dialect) (span : Span) : Nat → Nat → Bytes → Option Nat
  | _, _, [] => none
  | offset, skip + 1, _ :: rest => findCloseFrom dialect span (offset + 1) skip rest
  | offset, 0, b :: rest =>
      if b == Byte.backslash && span.escapes dialect then
        findCloseFrom dialect span (offset + 1) 1 rest
      else
        match span.closing? b rest with
        | some more => some (offset + more + 1)
        | none => findCloseFrom dialect span (offset + 1) 0 rest

/-- The offset just after the delimiter that closes a span in which the line starts. -/
def findClose (dialect : Dialect) (span : Span) (line : Bytes) : Option Nat :=
  findCloseFrom dialect span 0 0 line

end Lexer
end Uncomment

import Uncomment.Language

/-!
# Dialects

A `Dialect` says which constructs of a language hide the characters inside them
from the comment rules: the three kinds of quotation marks, tripled ones, raw
strings with a prefix letter, and regular expression literals.
-/

namespace Uncomment

/-- What an apostrophe means. -/
inductive Tick where
  /-- An ordinary character. -/
  | off
  /-- It opens and closes a string. -/
  | string
  /-- It encloses one character; any other apostrophe is code. -/
  | charLiteral
deriving DecidableEq, Repr

/-- Which literals the lines of a language may hold. -/
structure Dialect where
  /-- The meaning of an apostrophe. -/
  single : Tick
  /-- Whether quotation marks enclose strings. -/
  double : Bool
  /-- Whether backticks enclose strings. -/
  backtick : Bool
  /-- Whether a backslash escapes inside backticks. -/
  backtickEscapes : Bool
  /-- Whether a string in backticks may go on in the next line. -/
  multilineBacktick : Bool
  /-- Whether `r"..."`, `br"..."` and `r#"..."#` are raw strings. -/
  rawStrings : Bool
  /-- Whether slashes enclose regular expressions. -/
  regex : Bool
  /-- Whether three quotation marks enclose strings of several lines. -/
  tripleDouble : Bool
  /-- Whether three apostrophes enclose strings of several lines. -/
  tripleSingle : Bool
deriving DecidableEq, Repr

namespace Dialect

/-- Strings in all three kinds of quotation marks, with backslash escapes. -/
def plain : Dialect where
  single := .string
  double := true
  backtick := true
  backtickEscapes := true
  multilineBacktick := false
  rawStrings := false
  regex := false
  tripleDouble := false
  tripleSingle := false

end Dialect

namespace Language

/-- The dialect of a language. -/
def dialect : Language → Dialect
  | .javaScript | .typeScript =>
      { Dialect.plain with regex := true, multilineBacktick := true }
  | .go => { Dialect.plain with backtickEscapes := false, multilineBacktick := true }
  | .rust => { Dialect.plain with single := .charLiteral, backtick := false, rawStrings := true }
  | .ocaml | .fsharp | .haskell =>
      { Dialect.plain with single := .charLiteral, backtick := false }
  | .python =>
      { Dialect.plain with backtick := false, tripleDouble := true, tripleSingle := true }
  | .java | .swift | .julia => { Dialect.plain with tripleDouble := true }
  | .dart => { Dialect.plain with tripleDouble := true, tripleSingle := true }
  | .markdown =>
      { Dialect.plain with
          single := .off, double := false, backtickEscapes := false, multilineBacktick := true }
  | .html => { Dialect.plain with single := .off, backtick := false }
  | .latex | .rst => { Dialect.plain with single := .off, double := false, backtick := false }
  | .lisp | .ada | .vhdl | .batch => { Dialect.plain with single := .off, backtick := false }
  | _ => Dialect.plain

end Language
end Uncomment

import Uncomment.Glob.Expression

/-!
# Globs

A glob is a pattern for paths:

* `?` stands for one byte and `*` for any number of bytes, slashes included
  unless the style keeps them apart;
* `**` between slashes, or at an end, stands for any number of directories;
* brackets hold a class of characters and braces hold alternatives;
* a backslash takes away the meaning of the next character.

A `Glob` is a list of tokens together with the style in which it was read.
-/

namespace Uncomment

/-- How globs are read. -/
structure Glob.Style where
  /-- Whether slashes are matched by slashes only, and not by stars and question marks. -/
  separatesSlashes : Bool
  /-- Whether an opening bracket without a closing one is an ordinary character. -/
  allowsUnclosedClass : Bool
deriving DecidableEq, Repr

/-- A part of a glob. -/
inductive Glob.Token where
  /-- A character that stands for itself. -/
  | literal (c : Char)
  /-- Any number of bytes. -/
  | star
  /-- Any number of directories at the front. -/
  | leadingDirs
  /-- Anything below a directory. -/
  | anythingBelow
  /-- Anything else. -/
  | other (expression : Expression)
deriving DecidableEq, Repr

/-- A pattern for paths. -/
structure Glob where
  style : Glob.Style
  tokens : List Glob.Token
deriving DecidableEq, Repr

namespace Glob

/-- The style of exclude patterns: stars match slashes, and classes have to be closed. -/
def excludeStyle : Style := ⟨false, false⟩

/-- The style of ignore files: stars match no slashes, and a lone bracket is a character. -/
def ignoreStyle : Style := ⟨true, true⟩

/-- The byte of a question mark. -/
def Style.anyByte (style : Style) : Expression :=
  if style.separatesSlashes then .oneOf (.allBut Byte.slash) else .anyByte

/-- Any text at all. -/
def anything : Expression := .many .anyByte

/-- A slash. -/
def slash : Expression := .byte Byte.slash

/-- Any number of directories at the front. -/
def leadingDirs : Expression :=
  .alternatives [.optional slash, .append anything slash]

/-- Any number of directories between two slashes. -/
def innerDirs : Expression :=
  .alternatives [slash, .append slash (.append anything slash)]

/-- The expression of a token. -/
def Token.expression (style : Style) : Token → Expression
  | .literal c => .concat ((String.utf8EncodeChar c).map .byte)
  | .star => .many style.anyByte
  | .leadingDirs => Glob.leadingDirs
  | .anythingBelow => .append slash anything
  | .other expression => expression

/-- The expression of tokens one after the other. -/
def expressionOf (style : Style) (tokens : List Token) : Expression :=
  .concat (tokens.map (Token.expression style))

/-- The expression of a glob; two stars alone match everything. -/
def expression (glob : Glob) : Expression :=
  if glob.tokens = [.leadingDirs] then anything
  else expressionOf glob.style glob.tokens

/-- What a glob matches. -/
def pattern (glob : Glob) : Pattern := glob.expression.pattern

end Glob
end Uncomment

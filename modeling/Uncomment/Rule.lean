import Uncomment.Language

/-!
# Comment rules

A rule says how a comment starts and where it stops: at the end of the line, or
at a stop token that may stand on a later line.  The rules of a language are
tried in order, which matters only where two start tokens begin at one byte; a
block rule whose start token extends that of a line rule therefore comes first.
-/

namespace Uncomment

/-- How one kind of comment is written. -/
inductive Rule where
  /-- From the start token to the end of the line. -/
  | line (start : Bytes)
  /-- From the start token to the first stop token after it. -/
  | block (start stop : Bytes)
deriving DecidableEq, Repr

namespace Rule

/-- The token with which a comment starts. -/
def start : Rule → Bytes
  | .line start => start
  | .block start _ => start

/-- Whether the comment ends with its line. -/
def isLine : Rule → Bool
  | .line _ => true
  | .block _ _ => false

/-- The line rule with the given start token. -/
def ofLine (start : String) : Rule :=
  .line (Bytes.ofString start)

/-- The block rule with the given tokens. -/
def ofBlock (start stop : String) : Rule :=
  .block (Bytes.ofString start) (Bytes.ofString stop)

end Rule

namespace Language

/-- The comment rules of a language, in the order in which they are tried. -/
def rules : Language → List Rule
  | .c | .java | .swift | .dart | .javaScript | .typeScript | .go | .rust | .json | .verilog
  | .scss => [.ofBlock "/*" "*/", .ofLine "//"]
  | .php => [.ofBlock "/*" "*/", .ofLine "//", .ofLine "#"]
  | .python | .ruby | .shell | .perl | .r | .tcl | .hash | .toml | .yaml | .unknown =>
      [.ofLine "#"]
  | .powerShell => [.ofBlock "<#" "#>", .ofLine "#"]
  | .batch => [.ofLine "REM", .ofLine "rem", .ofLine "::"]
  | .julia => [.ofBlock "#=" "=#", .ofLine "#"]
  | .coffeeScript => [.ofBlock "###" "###", .ofLine "#"]
  | .hcl => [.ofBlock "/*" "*/", .ofLine "#", .ofLine "//"]
  | .sql => [.ofBlock "/*" "*/", .ofLine "--"]
  | .lua => [.ofBlock "--[[" "]]", .ofLine "--"]
  | .haskell => [.ofBlock "\x7b-" "-\x7d", .ofLine "--"]
  | .ada | .vhdl => [.ofLine "--"]
  | .ocaml => [.ofBlock "(*" "*)"]
  | .fsharp => [.ofBlock "(*" "*)", .ofLine "//"]
  | .pascal => [.ofBlock "(*" "*)", .ofBlock "\x7b" "\x7d", .ofLine "//"]
  | .css => [.ofBlock "/*" "*/"]
  | .html | .markdown => [.ofBlock "<!--" "-->"]
  | .latex | .erlang => [.ofLine "%"]
  | .matlab => [.ofBlock "%\x7b" "%\x7d", .ofLine "%"]
  | .prolog => [.ofBlock "/*" "*/", .ofLine "%"]
  | .assembly => [.ofLine ";", .ofLine "#", .ofLine "//"]
  | .fortran => [.ofLine "!", .ofLine "C", .ofLine "c", .ofLine "*"]
  | .fortranFree => [.ofLine "!"]
  | .lisp => [.ofLine ";"]
  | .cobol => [.ofLine "*>"]
  | .rst => []

theorem start_ne_nil
    {language : Language} {rule : Rule}
    (h : rule ∈ language.rules) :
    rule.start ≠ [] := by
  revert rule
  cases language <;> decide

end Language
end Uncomment

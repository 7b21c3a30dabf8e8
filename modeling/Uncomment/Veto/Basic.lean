import Uncomment.Lexer.Table
import Uncomment.Rule
import Uncomment.Veto.Facts
import Uncomment.Veto.Heading

/-!
# Vetoes

A comment token in code need not start a comment: a number sign may be part of a
parameter expansion or an address, two hyphens part of an operator, a percent
sign escaped.  The veto of a language decides from the line whether the token at
an offset has to be kept.  Where it cannot decide, it does not keep the token.

A veto cuts the line at the offset it is asked about, or right after the token,
and so ends in a `Fault` if the line cannot be cut there.  It cuts only when its
answer needs the cut.
-/

namespace Uncomment
namespace Veto

/-- A place in a line at which a comment token is considered. -/
structure Site where
  /-- What is known about the line. -/
  facts : LineFacts
  /-- The offset of the token. -/
  offset : Nat
  /-- The token. -/
  token : Bytes

namespace Site

/-- The line before the token. -/
def before (site : Site) : Except Fault Bytes :=
  Utf8.upTo site.facts.line site.offset

/-- The line after the token. -/
def after (site : Site) : Except Fault Bytes :=
  Utf8.startingAt site.facts.line (site.offset + site.token.length)

/-- The byte before the token. -/
def previousByte (site : Site) : Except Fault (Option UInt8) :=
  Utf8.byteBefore site.facts.line site.offset

/-- The byte after the token. -/
def nextByte (site : Site) : Except Fault (Option UInt8) := do
  let text ← site.after
  return text.head?

/-- Whether only white space stands before the token. -/
def isLeading (site : Site) : Except Fault Bool := do
  let text ← site.before
  return Blank.isAllWhite text

/-- Whether the token is the given one. -/
def isAt (site : Site) (token : String) : Bool :=
  site.token == Bytes.ofString token

/-- Whether the line is the first line of a script, and the token its first byte. -/
def isShebang (site : Site) : Bool :=
  site.offset == 0 && (Bytes.ofString "#!").isPrefixOf site.facts.line

/-- Whether a brace after a dollar sign is open: more braces open than closed before the token. -/
def inExpansion (site : Site) : Bool :=
  site.facts.seenBefore (Bytes.ofString "$\x7b") site.offset &&
    site.facts.countBefore (Bytes.ofString "\x7d") site.offset <
      site.facts.countBefore (Bytes.ofString "\x7b") site.offset

end Site

/--
Whether the token is part of a web address: `http` occurs between the last white
space and the token.  The word starts one byte after the start of that white space.
-/
def inAddress (site : Site) : Except Fault Bool := do
  let text ← site.before
  let word ←
    match Blank.lastWhite? text with
    | some offset => Utf8.startingAt text (offset + 1)
    | none => .ok text
  return Bytes.contains (Bytes.ofString "http") word

/-- Number signs kept in YAML: in expansions, in addresses, and those that start headings. -/
def yaml (site : Site) : Except Fault Bool := do
  if !site.isAt "#" then return false
  let closed :=
    site.facts.seenBetween (Bytes.ofString "\x7d") (site.offset + site.token.length)
      site.facts.line.length
  if site.inExpansion && closed then return true
  if ← inAddress site then return true
  if ← site.isLeading then
    let comment := Blank.trim (← Utf8.startingAt site.facts.line site.offset)
    return (Bytes.ofString "##").isPrefixOf comment ||
      (Bytes.ofString "# #").isPrefixOf comment || Heading.isStructural comment
  return false

/-- Whether a text starts with exactly `count` hexadecimal digits and no more of its word. -/
def startsHex (text : Bytes) (count : Nat) : Bool :=
  (text.take count).length == count && (text.take count).all Byte.isHexDigit &&
    !((text.drop count).head?).any Byte.isAlphanumeric

/-- Whether the text after a number sign reads as a colour. -/
def isHexColour (text : Bytes) : Bool :=
  startsHex text 6 || startsHex text 3

/-- Number signs kept in shell scripts: colours, inside words, expansions and tests. -/
def shell (site : Site) : Except Fault Bool := do
  if !site.isAt "#" then return false
  if isHexColour (← site.after) then return true
  let glued := (← site.previousByte).any fun b =>
    !Byte.isBlank b && !List.elem b (Bytes.ofString ";|&()")
  if glued || site.inExpansion then return true
  return site.facts.seenBefore (Bytes.ofString "[ ") site.offset &&
    !site.facts.seenBefore (Bytes.ofString " ]") site.offset

/--
Follow format strings through a text: the quotation mark of the one that is open
and the number of replacement fields open in it.  The next `skip` bytes are
passed over.
-/
def formatField : Nat → Option UInt8 → Nat → Bytes → Option UInt8 × Nat
  | _, quote, depth, [] => (quote, depth)
  | skip + 1, quote, depth, _ :: rest => formatField skip quote depth rest
  | 0, none, depth, b :: rest =>
      match rest.head? with
      | some q =>
          if (b == 0x66 || b == 0x46) && (q == Byte.quote || q == Byte.tick) then
            formatField 1 (some q) 0 rest
          else formatField 0 none depth rest
      | none => formatField 0 none depth rest
  | 0, some q, depth, b :: rest =>
      if b == Byte.backslash then formatField 1 (some q) depth rest
      else if b == Byte.openBrace then
        if rest.head? == some Byte.openBrace && depth == 0 then
          formatField 1 (some q) depth rest
        else formatField 0 (some q) (depth + 1) rest
      else if b == Byte.closeBrace && 0 < depth then
        formatField 0 (some q) (depth - 1) rest
      else if b == q && depth == 0 then formatField 0 none depth rest
      else formatField 0 (some q) depth rest

/-- Whether a text ends inside a replacement field of a format string. -/
def inFormatField (text : Bytes) : Bool :=
  let (quote, depth) := formatField 0 none 0 text
  quote.isSome && 0 < depth

/-- Number signs kept in Python: inside tripled quotation marks, format fields and raw strings. -/
def python (site : Site) : Except Fault Bool := do
  if !site.isAt "#" then return false
  let count (mark : String) : Nat :=
    site.facts.countBefore (Bytes.ofString mark) site.offset
  let seen (mark : String) : Bool :=
    site.facts.seenBefore (Bytes.ofString mark) site.offset
  if count "\"\"\"" % 2 == 1 || count "'''" % 2 == 1 then return true
  if seen "f\"" || seen "f'" then
    if inFormatField (← site.before) then return true
  return (seen "r\"" || seen "r'") && (count "\"" + count "'") % 2 == 1

/--
Slashes kept in the languages of the C family: after the header of a control
statement whose body has not begun.
-/
def headerOpen (site : Site) : Except Fault Bool := do
  match LineFacts.lastHit? site.facts.headers site.offset with
  | none => return false
  | some header =>
      if site.facts.seenBetween (Bytes.ofString "\x7b") header.stop site.offset then return false
      let text ← site.before
      return !(Bytes.ofString ";").isSuffixOf (Blank.trimEnd text)

/-- Whether a call with an exclamation mark before the token has not been finished. -/
def bangCallOpen (site : Site) : Bool :=
  (LineFacts.lastHit? site.facts.bangCalls site.offset).any fun call =>
    !site.facts.seenBetween (Bytes.ofString ";") call.stop site.offset

/-- The veto of the C family; `bang` adds unfinished calls with an exclamation mark. -/
def cFamily (bang : Bool) (site : Site) : Except Fault Bool := do
  if !site.isAt "//" && !site.isAt "/*" then return false
  if ← headerOpen site then return true
  return bang && bangCallOpen site

/-- Number signs kept in PHP: those after code and those of attributes. -/
def phpHash (site : Site) : Except Fault Bool := do
  if !site.isAt "#" then return false
  if !(← site.isLeading) then return true
  return (← site.nextByte) == some 0x5B

/-- Comment tokens kept in style sheets: inside an address or a content value. -/
def css (site : Site) : Bool :=
  site.facts.unclosedBefore (Bytes.ofString "url(") (Bytes.ofString ")") site.offset ||
    site.facts.unclosedBefore (Bytes.ofString "content:") (Bytes.ofString ";") site.offset

/-- Comment tokens kept in batch files: those that do not start a command. -/
def batch (site : Site) : Except Fault Bool := do
  let text := Blank.trim (← site.before)
  let atCommandStart :=
    text.isEmpty || (Bytes.ofString "&").isSuffixOf text || (Bytes.ofString "@").isSuffixOf text
  if site.isAt "REM" || site.isAt "rem" then
    if !atCommandStart then return true
    return (← site.nextByte).any fun b => !Byte.isBlank b
  return site.isAt "::" && !atCommandStart

/-- Whether the token is the given one and is followed by a byte of a class. -/
def followedBy
    (token : String)
    (accepts : UInt8 → Bool)
    (site : Site) :
    Except Fault Bool := do
  if !site.isAt token then return false
  return (← site.nextByte).any accepts

/-- Whether the token comes right after the given byte. -/
def precededBy (b : UInt8) (site : Site) : Except Fault Bool := do
  return (← site.previousByte) == some b

/-- The characters that make two hyphens part of an operator in Haskell. -/
def operatorBytes : Bytes :=
  Bytes.ofString "!#$%&*+./<=>?@\\^|~:"

/-- The veto of each language, the first line of a script apart. -/
def family (language : Language) (site : Site) : Except Fault Bool :=
  match language with
  | .yaml => yaml site
  | .shell | .perl => shell site
  | .python => python site
  | .php => do
      if ← cFamily false site then return true
      phpHash site
  | .c | .java | .swift | .dart | .javaScript | .typeScript | .go | .json | .verilog =>
      cFamily false site
  | .rust => cFamily true site
  | .css | .scss => .ok (css site)
  | .html | .markdown =>
      .ok (site.isAt "<!--" &&
        site.facts.unclosedBefore (Bytes.ofString "<![CDATA[") (Bytes.ofString "]]>") site.offset)
  | .haskell => followedBy "--" (fun b => List.elem b operatorBytes) site
  | .latex => .ok (Lexer.isEscaped site.facts.line site.offset)
  | .fortran => .ok ((site.isAt "C" || site.isAt "c" || site.isAt "*") && site.offset != 0)
  | .batch => batch site
  | .pascal => followedBy "\x7b" (· == 0x24) site
  | .assembly =>
      followedBy "#" (fun b => Byte.isDigit b || List.elem b (Bytes.ofString "-$:")) site
  | .erlang => precededBy 0x24 site
  | .lisp => precededBy Byte.backslash site
  | .coffeeScript => followedBy "###" (· == Byte.hash) site
  | .ruby | .r | .tcl | .powerShell | .julia | .hash | .toml | .hcl | .sql | .lua | .ada | .vhdl
  | .ocaml | .fsharp | .matlab | .prolog | .fortranFree | .cobol | .rst | .unknown => .ok false

/-- The languages whose files may start with the line that names an interpreter. -/
def hasShebang : Language → Bool
  | .shell | .python | .ruby | .perl | .r | .tcl | .php | .julia | .hash | .unknown => true
  | _ => false

/-- Whether the comment token at an offset in code has to be kept. -/
def keeps
    (language : Language)
    (facts : LineFacts)
    (offset : Nat)
    (token : Bytes) :
    Except Fault Bool :=
  let site : Site := ⟨facts, offset, token⟩
  if site.isAt "#" && site.isShebang && hasShebang language then .ok true
  else family language site

/-- Whether the comment token at an offset of a line is not in code or has to be kept. -/
def isProtected
    (language : Language)
    (line : Bytes)
    (offset : Nat)
    (token : Bytes) :
    Except Fault Bool :=
  if (SpanTable.ofLine language.dialect line).isCode offset then
    keeps language (LineFacts.ofLine line) offset token
  else .ok true

end Veto
end Uncomment

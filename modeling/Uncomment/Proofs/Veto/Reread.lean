import Uncomment.Proofs.Text.Encoding
import Uncomment.Proofs.Veto.Matches
import Uncomment.Proofs.Veto.Tables
import Uncomment.Veto.Basic

/-!
# Vetoes that read the line again

The vetoes once more, without tables: each question about a token reads the text before the
token, or the part of the line that it is about, from its start.  The answers are the same
(`Veto.keeps_eq_reread`).

What the tables of a line tell and what searches find is put side by side in
`Veto.tables_tell_what_searches_find`.
-/

namespace Uncomment

theorem Utf8.Boundary.valid_take
    {text : Bytes} {offset : Nat}
    (h : Boundary text offset)
    (hvalid : valid text = true) :
    valid (text.take offset) = true := by
  obtain ⟨cs, rfl⟩ := valid_iff_exists_encode.1 hvalid
  obtain ⟨as, has⟩ := h.exists_encode_eq_take
  exact has ▸ valid_encode as

theorem Utf8.Boundary.le_length
    {text : Bytes} {offset : Nat}
    (h : Boundary text offset) :
    offset ≤ text.length := by
  rcases h with rfl | ⟨hle, -⟩
  · exact Nat.zero_le _
  · exact hle

namespace Veto

/-- The texts that the vetoes look for from the middle of a line on. -/
def delimiters : List Bytes :=
  ["\x7b", "\x7d", ";", "url(", ")", "content:", "<![CDATA[", "]]>"].map Bytes.ofString

theorem unbordered_of_mem_delimiters :
    ∀ needle ∈ delimiters, needle ≠ [] ∧ Bytes.Unbordered needle := by
  decide +kernel

namespace Reread

/-- A line of which no table has been made. -/
def bare (line : Bytes) : LineFacts :=
  ⟨line, [], [], []⟩

/-- The part of the line before the token. -/
def before (site : Site) : Bytes :=
  site.facts.line.take site.offset

/-- Whether a needle lies in a text. -/
def seen (needle : String) (text : Bytes) : Bool :=
  Bytes.contains (Bytes.ofString needle) text

/-- How often a needle occurs in a text. -/
def count (needle : String) (text : Bytes) : Nat :=
  Bytes.tally (Bytes.ofString needle) text

/-- Whether behind the last `opener` in a text comes no `closer`. -/
def unclosed (opener closer : String) (text : Bytes) : Bool :=
  (Bytes.findLast? (Bytes.ofString opener) text).any fun start =>
    !seen closer (text.drop (start + (Bytes.ofString opener).length))

/-- Whether a brace after a dollar sign is open: more braces open than closed in a text. -/
def inExpansion (text : Bytes) : Bool :=
  seen "$\x7b" text && count "\x7d" text < count "\x7b" text

/-- Number signs kept in YAML: in expansions, in addresses, and those that start headings. -/
def yaml (site : Site) : Except Fault Bool := do
  if !site.isAt "#" then return false
  let closed := seen "\x7d" (site.facts.line.drop (site.offset + site.token.length))
  if inExpansion (before site) && closed then return true
  if ← inAddress site then return true
  if ← site.isLeading then
    let comment := Blank.trim (← Utf8.startingAt site.facts.line site.offset)
    return (Bytes.ofString "##").isPrefixOf comment ||
      (Bytes.ofString "# #").isPrefixOf comment || Heading.isStructural comment
  return false

/-- Number signs kept in shell scripts: colours, inside words, expansions and tests. -/
def shell (site : Site) : Except Fault Bool := do
  if !site.isAt "#" then return false
  if isHexColour (← site.after) then return true
  let glued := (← site.previousByte).any fun b =>
    !Byte.isBlank b && !List.elem b (Bytes.ofString ";|&()")
  if glued || inExpansion (before site) then return true
  return seen "[ " (before site) && !seen " ]" (before site)

/-- Number signs kept in Python: inside tripled quotation marks, format fields and raw strings. -/
def python (site : Site) : Except Fault Bool := do
  if !site.isAt "#" then return false
  let text := before site
  if count "\"\"\"" text % 2 == 1 || count "'''" text % 2 == 1 then return true
  if seen "f\"" text || seen "f'" text then
    if inFormatField (← site.before) then return true
  return (seen "r\"" text || seen "r'" text) && (count "\"" text + count "'" text) % 2 == 1

/-- Slashes kept after the header of a control statement whose body has not begun. -/
def headerOpen (site : Site) : Except Fault Bool := do
  match (Pattern.headers (before site)).getLast? with
  | none => return false
  | some header =>
      if seen "\x7b" ((before site).drop header.stop) then return false
      let text ← site.before
      return !(Bytes.ofString ";").isSuffixOf (Blank.trimEnd text)

/-- Whether a call with an exclamation mark before the token has not been finished. -/
def bangCallOpen (site : Site) : Bool :=
  ((Pattern.bangCalls (before site)).getLast?).any fun call =>
    !seen ";" ((before site).drop call.stop)

/-- The veto of the C family; `bang` adds unfinished calls with an exclamation mark. -/
def cFamily (bang : Bool) (site : Site) : Except Fault Bool := do
  if !site.isAt "//" && !site.isAt "/*" then return false
  if ← headerOpen site then return true
  return bang && bangCallOpen site

/-- Comment tokens kept in style sheets: inside an address or a content value. -/
def css (site : Site) : Bool :=
  unclosed "url(" ")" (before site) || unclosed "content:" ";" (before site)

/-- The veto of each language, the first line of a script apart. -/
def family (language : Language) (site : Site) : Except Fault Bool :=
  match language with
  | .yaml => yaml site
  | .shell | .perl => shell site
  | .python => python site
  | .php => do
      if ← cFamily false site then return true
      phpHash site
  | .c | .java | .swift | .dart | .javaScript | .typeScript | .go | .json | .verilog =>
      cFamily false site
  | .rust => cFamily true site
  | .css | .scss => .ok (css site)
  | .html | .markdown => .ok (site.isAt "<!--" && unclosed "<![CDATA[" "]]>" (before site))
  | other => Veto.family other site

/-- Whether the comment token at an offset in code has to be kept, found out without tables. -/
def keeps
    (language : Language)
    (line : Bytes)
    (offset : Nat)
    (token : Bytes) :
    Except Fault Bool :=
  let site : Site := ⟨bare line, offset, token⟩
  if site.isAt "#" && site.isShebang && hasShebang language then .ok true
  else family language site

section

variable {line token : Bytes} {offset : Nat} {needle opener closer : String}

theorem seenBefore_eq
    (hneedle : Bytes.ofString needle ≠ []) :
    (LineFacts.ofLine line).seenBefore (Bytes.ofString needle) offset =
      seen needle (line.take offset) :=
  LineFacts.seenBefore_eq_contains hneedle

theorem countBefore_eq
    (hle : offset ≤ line.length)
    (hneedle : Bytes.ofString needle ≠ []) :
    (LineFacts.ofLine line).countBefore (Bytes.ofString needle) offset =
      count needle (line.take offset) :=
  LineFacts.countBefore_eq_tally hneedle hle

theorem seenBetween_eq
    {low : Nat}
    (hneedle : Bytes.ofString needle ∈ delimiters) :
    (LineFacts.ofLine line).seenBetween (Bytes.ofString needle) low offset =
      seen needle ((line.take offset).drop low) := by
  obtain ⟨hne, hunbordered⟩ := unbordered_of_mem_delimiters _ hneedle
  exact LineFacts.seenBetween_eq_contains hne hunbordered low offset

theorem unclosedBefore_eq
    (hle : offset ≤ line.length)
    (hopener : Bytes.ofString opener ∈ delimiters)
    (hcloser : Bytes.ofString closer ∈ delimiters) :
    (LineFacts.ofLine line).unclosedBefore (Bytes.ofString opener) (Bytes.ofString closer) offset =
      unclosed opener closer (line.take offset) := by
  obtain ⟨hopener, hopener'⟩ := unbordered_of_mem_delimiters _ hopener
  obtain ⟨hcloser, hcloser'⟩ := unbordered_of_mem_delimiters _ hcloser
  exact LineFacts.unclosedBefore_eq_search hopener hcloser hopener' hcloser' hle

theorem inExpansion_eq
    (hle : offset ≤ line.length) :
    (Site.mk (LineFacts.ofLine line) offset token).inExpansion =
      inExpansion (line.take offset) := by
  simp (disch := decide) only [Site.inExpansion, inExpansion, seenBefore_eq, countBefore_eq hle]

theorem yaml_eq
    (hle : offset ≤ line.length) :
    Veto.yaml ⟨LineFacts.ofLine line, offset, token⟩ = yaml ⟨bare line, offset, token⟩ := by
  have hclosed : (LineFacts.ofLine line).seenBetween (Bytes.ofString "\x7d")
      (offset + token.length) line.length = seen "\x7d" (line.drop (offset + token.length)) := by
    rw [seenBetween_eq (by decide), List.take_length]
  unfold Veto.yaml yaml
  simp only [inExpansion_eq hle]
  rw [show (LineFacts.ofLine line).line = line from rfl, hclosed]
  rfl

theorem shell_eq
    (hle : offset ≤ line.length) :
    Veto.shell ⟨LineFacts.ofLine line, offset, token⟩ = shell ⟨bare line, offset, token⟩ := by
  unfold Veto.shell shell
  simp (disch := decide) only [inExpansion_eq hle, seenBefore_eq]
  rfl

theorem python_eq
    (hle : offset ≤ line.length) :
    Veto.python ⟨LineFacts.ofLine line, offset, token⟩ = python ⟨bare line, offset, token⟩ := by
  unfold Veto.python python
  simp (disch := decide) only [seenBefore_eq, countBefore_eq hle]
  rfl

theorem headerOpen_eq
    (hle : offset ≤ line.length)
    (hvalid : Utf8.valid (line.take offset) = true) :
    Veto.headerOpen ⟨LineFacts.ofLine line, offset, token⟩ =
      headerOpen ⟨bare line, offset, token⟩ := by
  unfold Veto.headerOpen headerOpen
  simp (disch := decide) only [LineFacts.lastHit?_headers hvalid hle, seenBetween_eq]
  rfl

theorem bangCallOpen_eq
    (hle : offset ≤ line.length) :
    Veto.bangCallOpen ⟨LineFacts.ofLine line, offset, token⟩ =
      bangCallOpen ⟨bare line, offset, token⟩ := by
  unfold Veto.bangCallOpen bangCallOpen
  simp (disch := decide) only [LineFacts.lastHit?_bangCalls hle, seenBetween_eq]
  rfl

theorem cFamily_eq
    (hle : offset ≤ line.length)
    (hvalid : Utf8.valid (line.take offset) = true)
    (bang : Bool) :
    Veto.cFamily bang ⟨LineFacts.ofLine line, offset, token⟩ =
      cFamily bang ⟨bare line, offset, token⟩ := by
  unfold Veto.cFamily cFamily
  simp only [headerOpen_eq hle hvalid, bangCallOpen_eq hle]
  rfl

theorem css_eq
    (hle : offset ≤ line.length) :
    Veto.css ⟨LineFacts.ofLine line, offset, token⟩ = css ⟨bare line, offset, token⟩ := by
  unfold Veto.css css
  simp (disch := decide) only [unclosedBefore_eq hle]
  rfl

theorem family_eq
    (hle : offset ≤ line.length)
    (hvalid : Utf8.valid (line.take offset) = true)
    (language : Language) :
    Veto.family language ⟨LineFacts.ofLine line, offset, token⟩ =
      family language ⟨bare line, offset, token⟩ := by
  cases language with
  | yaml =>
      exact yaml_eq hle
  | shell | perl =>
      exact shell_eq hle
  | python =>
      exact python_eq hle
  | c | java | swift | dart | javaScript | typeScript | go | json | verilog =>
      exact cFamily_eq hle hvalid false
  | rust =>
      exact cFamily_eq hle hvalid true
  | php =>
      rw [Veto.family, family, cFamily_eq hle hvalid]
      rfl
  | css | scss =>
      exact congrArg Except.ok (css_eq hle)
  | html | markdown =>
      rw [Veto.family, family, unclosedBefore_eq hle (by decide) (by decide)]
      rfl
  | ruby | r | tcl | powerShell | batch | julia | coffeeScript | hash | toml | hcl | sql | lua
  | haskell | ada | vhdl | ocaml | fsharp | pascal | latex | matlab | erlang | prolog | assembly
  | fortran | fortranFree | lisp | cobol | rst | unknown =>
      rfl

end

end Reread

/-- The vetoes answer from the tables of a line as they do by reading the line again. -/
theorem keeps_eq_reread
    {line : Bytes} {offset : Nat}
    (hle : offset ≤ line.length)
    (hvalid : Utf8.valid (line.take offset) = true)
    (language : Language) (token : Bytes) :
    keeps language (LineFacts.ofLine line) offset token =
      Reread.keeps language line offset token := by
  rw [keeps, Reread.keeps, Reread.family_eq hle hvalid]
  rfl

/--
At a boundary of a well-formed line every question to its tables has the answer that a search of
the text before the boundary gives: whether and how often a needle occurs there, whether an
unbordered one occurs behind an earlier offset, whether behind the last opener no closer comes,
and which header or call is the last one of that text.  The texts that the vetoes look for from
the middle of a line on are unbordered, so each veto answers as it does by reading again.
-/
theorem tables_tell_what_searches_find
    {line : Bytes} {offset : Nat}
    (hline : Utf8.valid line = true)
    (hoffset : Utf8.Boundary line offset) :
    (∀ needle, needle ≠ [] →
      ((LineFacts.ofLine line).seenBefore needle offset = true ↔ needle <:+: line.take offset) ∧
        (LineFacts.ofLine line).countBefore needle offset =
          Bytes.tally needle (line.take offset)) ∧
    (∀ needle, needle ≠ [] → Bytes.Unbordered needle → ∀ low,
      ((LineFacts.ofLine line).seenBetween needle low offset = true ↔
        needle <:+: (line.take offset).drop low)) ∧
    (∀ opener closer, opener ≠ [] → closer ≠ [] →
      Bytes.Unbordered opener → Bytes.Unbordered closer →
        ((LineFacts.ofLine line).unclosedBefore opener closer offset = true ↔
          ∃ start, Bytes.LastAt opener (line.take offset) start ∧
            ¬ closer <:+: (line.take offset).drop (start + opener.length))) ∧
    (∀ needle ∈ delimiters, Bytes.Unbordered needle) ∧
    LineFacts.lastHit? (LineFacts.ofLine line).headers offset =
      (Pattern.headers (line.take offset)).getLast? ∧
    LineFacts.lastHit? (LineFacts.ofLine line).bangCalls offset =
      (Pattern.bangCalls (line.take offset)).getLast? ∧
    ∀ language token,
      keeps language (LineFacts.ofLine line) offset token =
        Reread.keeps language line offset token := by
  have hle := hoffset.le_length
  have hvalid := hoffset.valid_take hline
  refine ⟨fun needle hneedle => ⟨?seenBefore, LineFacts.countBefore_eq_tally hneedle hle⟩,
    fun needle hneedle hunbordered low => ?seenBetween,
    fun opener closer hopener hcloser hopener' hcloser' => ?unclosedBefore,
    fun needle hneedle => (unbordered_of_mem_delimiters needle hneedle).2,
    LineFacts.lastHit?_headers hvalid hle, LineFacts.lastHit?_bangCalls hle,
    keeps_eq_reread hle hvalid⟩
  case seenBefore =>
    rw [LineFacts.seenBefore_eq_contains hneedle, Bytes.contains_iff]
  case seenBetween =>
    rw [LineFacts.seenBetween_eq_contains hneedle hunbordered, Bytes.contains_iff]
  case unclosedBefore =>
    rw [LineFacts.unclosedBefore_eq_search hopener hcloser hopener' hcloser' hle,
      Option.any_eq_true]
    simp only [Bytes.findLast?_eq_some_iff hopener, Bool.not_eq_true', ← Bool.not_eq_true,
      Bytes.contains_iff]

/-- Behind the second header of a line, whose body has not begun, slashes are kept. -/
theorem tables_tell_what_searches_find_second_header :
    Utf8.valid (Bytes.ofString "if (a) x(); if (b // one /* two") = true ∧
      Utf8.Boundary (Bytes.ofString "if (a) x(); if (b // one /* two") 18 ∧
      LineFacts.lastHit?
        (LineFacts.ofLine (Bytes.ofString "if (a) x(); if (b // one /* two")).headers 18 =
          some ⟨12, 16⟩ ∧
      keeps .c (LineFacts.ofLine (Bytes.ofString "if (a) x(); if (b // one /* two")) 18
        (Bytes.ofString "//") = .ok true := by
  have hvalid : Utf8.valid (Bytes.ofString "if (a) x(); if (b // one /* two") = true := by
    decide +kernel
  have hoffset : Utf8.Boundary (Bytes.ofString "if (a) x(); if (b // one /* two") 18 :=
    Or.inr (by decide +kernel)
  obtain ⟨-, -, -, -, hheaders, -, hkeeps⟩ := tables_tell_what_searches_find hvalid hoffset
  refine ⟨hvalid, hoffset, ?_, ?_⟩
  · rw [hheaders]
    decide +kernel
  · rw [hkeeps]
    decide +kernel

end Veto
end Uncomment

import Uncomment.Proofs.Checked.Access
import Uncomment.Proofs.Text.Characters
import Uncomment.Proofs.Veto.Order
import Uncomment.Proofs.Veto.Total
import Uncomment.Veto.Basic

/-!
# Vetoes with checked reads

The vetoes once more, with every cut of the line and every lookup in a table checked.
Where a start token stands in a text of characters the only read that can fail is the cut
of the last word before the token, which YAML looks at (`Checked.keeps_agrees`): all other
cuts are next to the token, and the lookups ask for an entry that the table has.
-/

namespace Uncomment
namespace Checked

open Veto (Site)

/-- The line before the token. -/
def before (site : Site) : Except Place Bytes :=
  cutUpTo .beforeToken site.facts.line site.offset

/-- The line behind the token. -/
def after (site : Site) : Except Place Bytes :=
  cutFrom .afterToken site.facts.line (site.offset + site.token.length)

/-- The byte before the token. -/
def previousByte (site : Site) : Except Place (Option UInt8) := do
  if site.offset = 0 then return none
  else return some (← entry .previousByte site.facts.line (site.offset - 1))

/-- The byte behind the token. -/
def nextByte (site : Site) : Except Place (Option UInt8) := do
  let text ← after site
  return text.head?

/-- Whether only white space stands before the token. -/
def isLeading (site : Site) : Except Place Bool := do
  let text ← before site
  return Blank.isAllWhite text

/-- Whether the last `opener` before an offset has no `closer` between it and the offset. -/
def unclosedBefore (facts : LineFacts) (opener closer : Bytes) (offset : Nat) :
    Except Place Bool := do
  let opens := facts.countBefore opener offset
  if opens = 0 then return false
  else
    let start ← entry .landmark (facts.positions opener) (opens - 1)
    return !facts.seenBetween closer (start + opener.length) offset

/-- The last of the given stretches that ends at or before an offset. -/
def lastHit? (hits : List Hit) (offset : Nat) : Except Place (Option Hit) := do
  let count := hits.countP fun hit => hit.stop ≤ offset
  if count = 0 then return none
  else return some (← entry .hit hits (count - 1))

/-- Whether the token is part of a web address. -/
def inAddress (site : Site) : Except Place Bool := do
  let text ← before site
  let start := match Blank.lastWhite? text with
    | some offset => offset + 1
    | none => 0
  let word ← cutFrom .address text start
  return Bytes.contains (Bytes.ofString "http") word

/-- Number signs kept in YAML. -/
def yaml (site : Site) : Except Place Bool := do
  if !site.isAt "#" then return false
  let closed :=
    site.facts.seenBetween (Bytes.ofString "\x7d") (site.offset + site.token.length)
      site.facts.line.length
  if site.inExpansion && closed then return true
  if ← inAddress site then return true
  if ← isLeading site then
    let comment := Blank.trim (← cutFrom .comment site.facts.line site.offset)
    return (Bytes.ofString "##").isPrefixOf comment ||
      (Bytes.ofString "# #").isPrefixOf comment || Heading.isStructural comment
  return false

/-- Whether a text starts with exactly `count` hexadecimal digits and no more of its word. -/
def startsHex (text : Bytes) (count : Nat) : Except Place Bool := do
  if count ≤ text.length then
    let digits ← bytesUpTo .colour text count
    return digits.all Byte.isHexDigit && !(text[count]?).any Byte.isAlphanumeric
  else return false

/-- Whether the text after a number sign reads as a colour. -/
def isHexColour (text : Bytes) : Except Place Bool := do
  if ← startsHex text 6 then return true else startsHex text 3

/-- Number signs kept in shell scripts. -/
def shell (site : Site) : Except Place Bool := do
  if !site.isAt "#" then return false
  if ← isHexColour (← after site) then return true
  let glued := (← previousByte site).any fun b =>
    !Byte.isBlank b && !List.elem b (Bytes.ofString ";|&()")
  if glued || site.inExpansion then return true
  return site.facts.seenBefore (Bytes.ofString "[ ") site.offset &&
    !site.facts.seenBefore (Bytes.ofString " ]") site.offset

/-- Follow format strings from an index on. -/
def formatField (text : Bytes) (index : Nat) (quote : Option UInt8) (depth : Nat) :
    Except Place (Option UInt8 × Nat) := do
  if index < text.length then
    let b ← entry .formatField text index
    match quote with
    | none =>
        match text[index + 1]? with
        | some q =>
            if (b == 0x66 || b == 0x46) && (q == Byte.quote || q == Byte.tick) then
              formatField text (index + 2) (some q) 0
            else formatField text (index + 1) none depth
        | none => formatField text (index + 1) none depth
    | some q =>
        if b == Byte.backslash then formatField text (index + 2) (some q) depth
        else if b == Byte.openBrace then
          if text[index + 1]? == some Byte.openBrace && depth == 0 then
            formatField text (index + 2) (some q) depth
          else formatField text (index + 1) (some q) (depth + 1)
        else if b == Byte.closeBrace && 0 < depth then
          formatField text (index + 1) (some q) (depth - 1)
        else if b == q && depth == 0 then formatField text (index + 1) none depth
        else formatField text (index + 1) (some q) depth
  else return (quote, depth)
termination_by text.length - index

/-- Whether a text ends inside a replacement field of a format string. -/
def inFormatField (text : Bytes) : Except Place Bool := do
  let (quote, depth) ← formatField text 0 none 0
  return quote.isSome && 0 < depth

/-- Number signs kept in Python. -/
def python (site : Site) : Except Place Bool := do
  if !site.isAt "#" then return false
  let count (mark : String) : Nat :=
    site.facts.countBefore (Bytes.ofString mark) site.offset
  let seen (mark : String) : Bool :=
    site.facts.seenBefore (Bytes.ofString mark) site.offset
  if count "\"\"\"" % 2 == 1 || count "'''" % 2 == 1 then return true
  if seen "f\"" || seen "f'" then
    if ← inFormatField (← before site) then return true
  return (seen "r\"" || seen "r'") && (count "\"" + count "'") % 2 == 1

/-- Slashes kept after the header of a control statement whose body has not begun. -/
def headerOpen (site : Site) : Except Place Bool := do
  match ← lastHit? site.facts.headers site.offset with
  | none => return false
  | some header =>
      if site.facts.seenBetween (Bytes.ofString "\x7b") header.stop site.offset then return false
      let text ← before site
      return !(Bytes.ofString ";").isSuffixOf (Blank.trimEnd text)

/-- Whether a call with an exclamation mark before the token has not been finished. -/
def bangCallOpen (site : Site) : Except Place Bool := do
  let call ← lastHit? site.facts.bangCalls site.offset
  return call.any fun call =>
    !site.facts.seenBetween (Bytes.ofString ";") call.stop site.offset

/-- The veto of the C family. -/
def cFamily (bang : Bool) (site : Site) : Except Place Bool := do
  if !site.isAt "//" && !site.isAt "/*" then return false
  if ← headerOpen site then return true
  if bang then bangCallOpen site else return false

/-- Number signs kept in PHP. -/
def phpHash (site : Site) : Except Place Bool := do
  if !site.isAt "#" then return false
  if !(← isLeading site) then return true
  return (← nextByte site) == some 0x5B

/-- Comment tokens kept in style sheets. -/
def css (site : Site) : Except Place Bool := do
  if ← unclosedBefore site.facts (Bytes.ofString "url(") (Bytes.ofString ")") site.offset then
    return true
  unclosedBefore site.facts (Bytes.ofString "content:") (Bytes.ofString ";") site.offset

/-- Comment tokens kept in markup. -/
def markup (site : Site) : Except Place Bool := do
  if !site.isAt "<!--" then return false
  unclosedBefore site.facts (Bytes.ofString "<![CDATA[") (Bytes.ofString "]]>") site.offset

/-- Percent signs kept in LaTeX: those behind an odd number of backslashes. -/
def latex (site : Site) : Except Place Bool := do
  let text ← bytesUpTo .escape site.facts.line (min site.offset site.facts.line.length)
  return (text.reverse.takeWhile (· == Byte.backslash)).length % 2 == 1

/-- Comment tokens kept in batch files. -/
def batch (site : Site) : Except Place Bool := do
  let text := Blank.trim (← before site)
  let atCommandStart :=
    text.isEmpty || (Bytes.ofString "&").isSuffixOf text || (Bytes.ofString "@").isSuffixOf text
  if site.isAt "REM" || site.isAt "rem" then
    if !atCommandStart then return true
    return (← nextByte site).any fun b => !Byte.isBlank b
  return site.isAt "::" && !atCommandStart

/-- Whether the token is the given one and is followed by a byte of a class. -/
def followedBy (token : String) (accepts : UInt8 → Bool) (site : Site) : Except Place Bool := do
  if !site.isAt token then return false
  return (← nextByte site).any accepts

/-- Whether the token comes right after the given byte. -/
def precededBy (b : UInt8) (site : Site) : Except Place Bool := do
  return (← previousByte site) == some b

/-- The veto of each language, the first line of a script apart. -/
def family (language : Language) (site : Site) : Except Place Bool :=
  match language with
  | .yaml => yaml site
  | .shell | .perl => shell site
  | .python => python site
  | .php => do
      if ← cFamily false site then return true
      phpHash site
  | .c | .java | .swift | .dart | .javaScript | .typeScript | .go | .json | .verilog =>
      cFamily false site
  | .rust => cFamily true site
  | .css | .scss => css site
  | .html | .markdown => markup site
  | .haskell => followedBy "--" (fun b => List.elem b Veto.operatorBytes) site
  | .latex => latex site
  | .fortran => .ok ((site.isAt "C" || site.isAt "c" || site.isAt "*") && site.offset != 0)
  | .batch => batch site
  | .pascal => followedBy "\x7b" (· == 0x24) site
  | .assembly =>
      followedBy "#" (fun b => Byte.isDigit b || List.elem b (Bytes.ofString "-$:")) site
  | .erlang => precededBy 0x24 site
  | .lisp => precededBy Byte.backslash site
  | .coffeeScript => followedBy "###" (· == Byte.hash) site
  | .ruby | .r | .tcl | .powerShell | .julia | .hash | .toml | .hcl | .sql | .lua | .ada | .vhdl
  | .ocaml | .fsharp | .matlab | .prolog | .fortranFree | .cobol | .rst | .unknown => .ok false

/-- Whether the comment token at an offset in code has to be kept. -/
def keeps (language : Language) (facts : LineFacts) (offset : Nat) (token : Bytes) :
    Except Place Bool :=
  let site : Site := ⟨facts, offset, token⟩
  if site.isAt "#" && site.isShebang && Veto.hasShebang language then .ok true
  else family language site

section

variable {line : Bytes}

/-- The last landmark that opens is found in its table. -/
theorem unclosedBefore_eq
    (line opener closer : Bytes) (offset : Nat) :
    unclosedBefore (LineFacts.ofLine line) opener closer offset =
      .ok ((LineFacts.ofLine line).unclosedBefore opener closer offset) := by
  have hsorted := Bytes.pairwise_occurrencesFrom opener 0 0 line
  have hlast : (((Bytes.occurrences opener line).filter
      fun start => start + opener.length ≤ offset).getLast?) = _ :=
    getLast?_filter (hsorted.imp fun hlt hle => by simp only [decide_eq_true_eq] at hle ⊢; omega)
  have hcount : (Bytes.occurrences opener line).countP
      (fun start => start + opener.length ≤ offset) ≤ (Bytes.occurrences opener line).length :=
    List.countP_le_length
  rw [unclosedBefore, LineFacts.unclosedBefore, LineFacts.countBefore, LineFacts.positions_ofLine,
    hlast]
  split
  · rfl
  · rw [entry_of_getElem? (List.getElem?_eq_getElem (by omega)),
      List.getElem?_eq_getElem (by omega)]
    rfl

/-- The last of some hits is found at their number. -/
theorem lastHit?_eq
    {hits : List Hit}
    (hsorted : hits.Pairwise (·.stop < ·.stop))
    (offset : Nat) :
    lastHit? hits offset = .ok (LineFacts.lastHit? hits offset) := by
  have hlast : (hits.filter fun hit => hit.stop ≤ offset).getLast? = _ :=
    getLast?_filter (hsorted.imp fun hlt hle => by simp only [decide_eq_true_eq] at hle ⊢; omega)
  have hcount : hits.countP (fun hit => hit.stop ≤ offset) ≤ hits.length :=
    List.countP_le_length
  rw [lastHit?, LineFacts.lastHit?, hlast]
  split
  · rfl
  · rw [entry_of_getElem? (List.getElem?_eq_getElem (by omega)),
      List.getElem?_eq_getElem (by omega)]
    rfl

theorem startsHex_eq
    (text : Bytes) (count : Nat) :
    startsHex text count = .ok (Veto.startsHex text count) := by
  rw [startsHex, Veto.startsHex, List.length_take]
  split
  · next hle =>
      rw [bytesUpTo_of_le hle, Nat.min_eq_left hle, List.head?_drop]
      simp
  · next hlt =>
      have hne : (min count text.length == count) = false := by
        rw [beq_eq_false_iff_ne]
        omega
      rw [hne]
      rfl

theorem isHexColour_eq
    (text : Bytes) :
    isHexColour text = .ok (Veto.isHexColour text) := by
  rw [isHexColour, startsHex_eq, startsHex_eq, Veto.isHexColour]
  cases Veto.startsHex text 6 <;> rfl

/-- Format strings are followed byte by byte. -/
theorem formatField_eq
    (text : Bytes) (index : Nat) (quote : Option UInt8) (depth : Nat) :
    formatField text index quote depth =
      .ok (Veto.formatField 0 quote depth (text.drop index)) := by
  induction hwidth : text.length - index using Nat.strongRecOn generalizing index quote depth with
  | ind width ih =>
      rw [formatField]
      cases hdrop : text.drop index with
      | nil =>
          have hle := List.drop_eq_nil_iff.1 hdrop
          rw [if_neg (by omega)]
          cases quote <;> rfl
      | cons b rest =>
          have hlen := length_of_drop hdrop
          have hrest := drop_succ_of_drop hdrop
          have hnext : text[index + 1]? = rest.head? := by
            rw [List.head?_eq_getElem?, getElem?_of_drop hdrop, List.getElem?_cons_succ]
          have hone (quote : Option UInt8) (depth : Nat) :
              formatField text (index + 1) quote depth =
                .ok (Veto.formatField 0 quote depth rest) := by
            rw [ih _ (by omega) (index + 1) quote depth rfl, hrest]
          have htwo (quote : Option UInt8) (depth : Nat) :
              formatField text (index + 2) quote depth =
                .ok (Veto.formatField 1 quote depth rest) := by
            rw [ih _ (by omega) (index + 2) quote depth rfl, show index + 2 = index + 1 + 1 from rfl,
              ← List.drop_drop, hrest]
            cases rest with
            | nil => cases quote <;> rfl
            | cons c more => rfl
          rw [if_pos (by omega), entry_of_drop hdrop, ok_bind]
          simp only [hnext, hone, htwo]
          cases quote with
          | none =>
              rw [Veto.formatField]
              cases rest.head? with
              | none =>
                  rfl
              | some q =>
                  dsimp only
                  split <;> rfl
          | some q =>
              rw [Veto.formatField]
              dsimp only
              repeat' split
              all_goals rfl

end

section

variable {site : Site}

theorem before_agrees
    (h : site.Readable) :
    Agrees (before site) site.before := by
  obtain ⟨text, htext⟩ := h.before
  exact agrees_cutUpTo htext

theorem after_agrees
    (h : site.Readable) :
    Agrees (after site) site.after := by
  obtain ⟨text, htext⟩ := h.after
  exact agrees_cutFrom htext

theorem previousByte_agrees
    (h : site.Readable) :
    Agrees (previousByte site) site.previousByte := by
  obtain ⟨answer, hanswer⟩ := h.previousByte
  rw [Site.previousByte, Utf8.byteBefore] at hanswer ⊢
  by_cases hzero : site.offset = 0
  · rw [previousByte, if_pos hzero, if_pos hzero]
    rfl
  · rw [if_neg hzero] at hanswer ⊢
    cases hget : site.facts.line[site.offset - 1]? with
    | none =>
        rw [hget] at hanswer
        cases hanswer
    | some b =>
        rw [previousByte, if_neg hzero, entry_of_getElem? hget]
        rfl

theorem nextByte_agrees
    (h : site.Readable) :
    Agrees (nextByte site) site.nextByte := by
  exact (after_agrees h).bind fun _ => .pure _

theorem isLeading_agrees
    (h : site.Readable) :
    Agrees (isLeading site) site.isLeading := by
  exact (before_agrees h).bind fun _ => .pure _

theorem followedBy_agrees
    (h : site.Readable) (mark : String) (accepts : UInt8 → Bool) :
    Agrees (followedBy mark accepts site) (Veto.followedBy mark accepts site) := by
  exact .ite (.pure _) ((nextByte_agrees h).bind fun _ => .pure _)

theorem precededBy_agrees
    (h : site.Readable) (b : UInt8) :
    Agrees (precededBy b site) (Veto.precededBy b site) := by
  exact (previousByte_agrees h).bind fun _ => .pure _

theorem batch_agrees
    (h : site.Readable) :
    Agrees (batch site) (Veto.batch site) := by
  exact (before_agrees h).bind fun _ => .ite
    (.ite (.pure _) ((nextByte_agrees h).bind fun _ => .pure _)) (.pure _)

theorem phpHash_agrees
    (h : site.Readable) :
    Agrees (phpHash site) (Veto.phpHash site) := by
  exact .ite (.pure _) ((isLeading_agrees h).bind fun _ => .ite (.pure _)
    ((nextByte_agrees h).bind fun _ => .pure _))

theorem shell_agrees
    (h : site.Readable) :
    Agrees (shell site) (Veto.shell site) := by
  exact .ite (.pure _) ((after_agrees h).bind fun text => .ok_bind (isHexColour_eq text)
    (.ite (.pure _) ((previousByte_agrees h).bind fun _ => .ite (.pure _) (.pure _))))

theorem python_agrees
    (h : site.Readable) :
    Agrees (python site) (Veto.python site) := by
  have hfield (text : Bytes) : inFormatField text = .ok (Veto.inFormatField text) := by
    rw [inFormatField, formatField_eq]
    rfl
  exact .ite (.pure _) (.ite (.pure _) (.ite
    ((before_agrees h).bind fun text => .ok_bind (hfield text) (.ite (.pure _) (.pure _)))
    (.pure _)))

/-- In the last word before a token an address is looked for, wherever the word starts. -/
theorem inAddress_agrees
    (h : site.Readable) :
    Agrees (inAddress site) (Veto.inAddress site) := by
  refine (before_agrees h).bind fun text => ?_
  dsimp only
  cases Blank.lastWhite? text with
  | some offset => exact .bind rfl fun _ => .pure _
  | none => exact .bind rfl fun _ => .pure _

theorem yaml_agrees
    (h : site.Readable) :
    Agrees (yaml site) (Veto.yaml site) := by
  obtain ⟨rest, hrest⟩ := h.fromHere
  exact .ite (.pure _) (.ite (.pure _) ((inAddress_agrees h).bind fun _ => .ite (.pure _)
    ((isLeading_agrees h).bind fun _ => .ite
      ((agrees_cutFrom hrest).bind fun _ => .pure _) (.pure _))))

end

section

variable {language : Language} {line token : Bytes} {offset : Nat}

/-- A token at an offset of a line. -/
abbrev siteOf (line : Bytes) (offset : Nat) (token : Bytes) : Site :=
  ⟨LineFacts.ofLine line, offset, token⟩

theorem cFamily_agrees
    (h : (siteOf line offset token).Readable)
    (bang : Bool) :
    Agrees (cFamily bang (siteOf line offset token))
      (Veto.cFamily bang (siteOf line offset token)) := by
  have hheader : Agrees (headerOpen (siteOf line offset token))
      (Veto.headerOpen (siteOf line offset token)) := by
    have hsorted : (LineFacts.ofLine line).headers.Pairwise (·.stop < ·.stop) :=
      Pattern.pairwise_headersFrom 0 0 false line
    refine .ok_bind (lastHit?_eq hsorted offset) ?_
    unfold Veto.headerOpen
    cases LineFacts.lastHit? (LineFacts.ofLine line).headers offset with
    | none => exact .pure _
    | some header => exact .ite (.pure _) ((before_agrees h).bind fun _ => .pure _)
  refine .ite (.pure _) (hheader.bind fun _ => .ite (.pure _) ?_)
  cases bang with
  | true => exact .ok_bind (lastHit?_eq (Pattern.pairwise_bangCallsFrom 0 0 none line) offset) rfl
  | false => exact .pure _

theorem css_agrees
    (line : Bytes) (offset : Nat) (token : Bytes) :
    Agrees (css (siteOf line offset token)) (.ok (Veto.css (siteOf line offset token))) := by
  refine .ok_bind (unclosedBefore_eq line _ _ offset) ?_
  rw [unclosedBefore_eq, Veto.css]
  cases (LineFacts.ofLine line).unclosedBefore (Bytes.ofString "url(") (Bytes.ofString ")")
    offset <;> rfl

theorem markup_agrees
    (line : Bytes) (offset : Nat) (token : Bytes) :
    Agrees (markup (siteOf line offset token))
      (.ok ((siteOf line offset token).isAt "<!--" && (LineFacts.ofLine line).unclosedBefore
        (Bytes.ofString "<![CDATA[") (Bytes.ofString "]]>") offset)) := by
  rw [markup, unclosedBefore_eq]
  cases (siteOf line offset token).isAt "<!--" <;> rfl

theorem latex_agrees
    (line : Bytes) (offset : Nat) (token : Bytes) :
    Agrees (latex (siteOf line offset token)) (.ok (Lexer.isEscaped line offset)) := by
  refine .ok_bind (bytesUpTo_of_le (Nat.min_le_right _ _)) ?_
  rw [← List.take_eq_take_min, Lexer.isEscaped]
  rfl

/-- Every veto answers as it does without checks. -/
theorem family_agrees
    (language : Language)
    (h : (siteOf line offset token).Readable) :
    Agrees (family language (siteOf line offset token))
      (Veto.family language (siteOf line offset token)) := by
  cases language with
  | yaml => exact yaml_agrees h
  | shell | perl => exact shell_agrees h
  | python => exact python_agrees h
  | php => exact (cFamily_agrees h false).bind fun _ => .ite (.pure _) (phpHash_agrees h)
  | c | java | swift | dart | javaScript | typeScript | go | json | verilog =>
      exact cFamily_agrees h false
  | rust => exact cFamily_agrees h true
  | css | scss => exact css_agrees line offset token
  | html | markdown => exact markup_agrees line offset token
  | latex => exact latex_agrees line offset token
  | batch => exact batch_agrees h
  | haskell | pascal | assembly | coffeeScript => exact followedBy_agrees h _ _
  | erlang | lisp => exact precededBy_agrees h _
  | fortran | ruby | r | tcl | powerShell | julia | hash | toml | hcl | sql | lua | ada | vhdl
  | ocaml | fsharp | matlab | prolog | fortranFree | cobol | rst | unknown => exact .ok _

/-- At a start token in a text of characters every read of a veto succeeds but one. -/
theorem keeps_agrees
    {rule : Rule} {cs : List Char}
    (hrule : rule ∈ language.rules)
    (hpre : rule.start <+: (Utf8.encode cs).drop offset) :
    Agrees (keeps language (LineFacts.ofLine (Utf8.encode cs)) offset rule.start)
      (Veto.keeps language (LineFacts.ofLine (Utf8.encode cs)) offset rule.start) := by
  have hreadable := Veto.Site.readable (Utf8.placed_encode cs) hrule hpre
  exact .ite (.ok _) (family_agrees language hreadable)

end

end Checked
end Uncomment

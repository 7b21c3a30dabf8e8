import Uncomment.Text.Blank
import Uncomment.Text.Letter
import Uncomment.Text.Utf8

/-!
# Facts about a line

The vetoes ask the same questions about a line at every comment candidate: where
do certain landmarks occur, where does the header of a control statement end,
where does a call with an exclamation mark open?  `LineFacts` answers them from
tables that are made once for the line.

Each table belongs to the whole line, but a question about an offset only looks
at what lies before it, or between two offsets.
-/

namespace Uncomment

/-- A stretch of a line, from `start` up to but not including `stop`. -/
structure Hit where
  start : Nat
  stop : Nat
deriving DecidableEq, Repr

namespace Pattern

/-- The width of the keyword of a control statement at the front of a text. -/
def keywordWidth? (text : Bytes) : Option Nat :=
  if (Bytes.ofString "if").isPrefixOf text then some 2
  else if (Bytes.ofString "for").isPrefixOf text then some 3
  else if (Bytes.ofString "while").isPrefixOf text then some 5
  else none

/-- The width of the header of a control statement: keyword, white space, opening parenthesis. -/
def headerWidth? (text : Bytes) : Option Nat :=
  match keywordWidth? text with
  | none => none
  | some width =>
      let blank := Blank.leading (text.drop width)
      if (text.drop (width + blank)).head? == some 0x28 then some (width + blank + 1) else none

/--
The headers of control statements, counted from `offset`.  The next `skip` bytes
are passed over; `afterWord` says that the character before is part of a word, in
which case no keyword starts.
-/
def headersFrom : Nat → Nat → Bool → Bytes → List Hit
  | _, _, _, [] => []
  | offset, skip + 1, afterWord, _ :: rest => headersFrom (offset + 1) skip afterWord rest
  | offset, 0, afterWord, b :: rest =>
      match if afterWord then none else headerWidth? (b :: rest) with
      | some width =>
          ⟨offset, offset + width⟩ :: headersFrom (offset + 1) (width - 1) false rest
      | none =>
          let (c, more) := Utf8.front b rest
          headersFrom (offset + 1) more (Letter.isWord c) rest

/-- The headers of control statements in a line. -/
def headers (line : Bytes) : List Hit :=
  headersFrom 0 0 false line

/-- The width of white space and an opening bracket at the front of a text. -/
def bracketWidth? (text : Bytes) : Option Nat :=
  let blank := Blank.leading text
  match (text.drop blank).head? with
  | some b => if b == 0x28 || b == 0x5B || b == Byte.openBrace then some (blank + 1) else none
  | none => none

/--
The calls of the form `name!(`, counted from `offset`, where `name` is the offset
of the identifier that is being read, if one is.
-/
def bangCallsFrom : Nat → Nat → Option Nat → Bytes → List Hit
  | _, _, _, [] => []
  | offset, skip + 1, name, _ :: rest => bangCallsFrom (offset + 1) skip name rest
  | offset, 0, none, b :: rest =>
      bangCallsFrom (offset + 1) 0 (if Byte.startsIdentifier b then some offset else none) rest
  | offset, 0, some name, b :: rest =>
      if Byte.isIdentifier b then bangCallsFrom (offset + 1) 0 (some name) rest
      else
        match if b == 0x21 then bracketWidth? rest else none with
        | some width => ⟨name, offset + 1 + width⟩ :: bangCallsFrom (offset + 1) width none rest
        | none => bangCallsFrom (offset + 1) 0 none rest

/-- The calls of the form `name!(`, with any opening bracket, in a line. -/
def bangCalls (line : Bytes) : List Hit :=
  bangCallsFrom 0 0 none line

end Pattern

/-- What the vetoes ask about one line. -/
structure LineFacts where
  /-- The line itself. -/
  line : Bytes
  /-- The headers of control statements. -/
  headers : List Hit
  /-- The calls of the form `name!(`. -/
  bangCalls : List Hit
  /-- The offsets of every landmark. -/
  marks : List (Bytes × List Nat)
deriving DecidableEq, Repr

namespace LineFacts

/-- The texts whose occurrences the vetoes look for. -/
def landmarks : List Bytes :=
  ["$\x7b", "\x7b", "\x7d", "[ ", " ]", "\"\"\"", "'''", "f\"", "f'", "r\"", "r'", "\"", "'",
   ";", "url(", ")", "content:", "<![CDATA[", "]]>"].map Bytes.ofString

/-- The facts about a line. -/
def ofLine (line : Bytes) : LineFacts where
  line := line
  headers := Pattern.headers line
  bangCalls := Pattern.bangCalls line
  marks := landmarks.map fun needle => (needle, Bytes.occurrences needle line)

/-- The offsets of the occurrences of a text, left to right and not overlapping. -/
def positions (facts : LineFacts) (needle : Bytes) : List Nat :=
  (facts.marks.lookup needle).getD (Bytes.occurrences needle facts.line)

/-- The number of occurrences that end at or before an offset. -/
def countBefore (facts : LineFacts) (needle : Bytes) (offset : Nat) : Nat :=
  (facts.positions needle).countP fun start => start + needle.length ≤ offset

/-- Whether the first occurrence ends at or before an offset. -/
def seenBefore (facts : LineFacts) (needle : Bytes) (offset : Nat) : Bool :=
  ((facts.positions needle).head?).any fun start => start + needle.length ≤ offset

/-- Whether the first occurrence at or after `low` ends at or before `high`. -/
def seenBetween (facts : LineFacts) (needle : Bytes) (low high : Nat) : Bool :=
  ((facts.positions needle).find? (low ≤ ·)).any fun start => start + needle.length ≤ high

/-- Whether the last `opener` before an offset has no `closer` between it and the offset. -/
def unclosedBefore (facts : LineFacts) (opener closer : Bytes) (offset : Nat) : Bool :=
  let opened := (facts.positions opener).filter fun start => start + opener.length ≤ offset
  (opened.getLast?).any fun start => !facts.seenBetween closer (start + opener.length) offset

/-- The last of the given stretches that ends at or before an offset. -/
def lastHit? (hits : List Hit) (offset : Nat) : Option Hit :=
  (hits.filter fun hit => hit.stop ≤ offset).getLast?

/-- The table of a line answers as a search of the line does. -/
@[simp] theorem positions_ofLine
    (line needle : Bytes) :
    (ofLine line).positions needle = Bytes.occurrences needle line := by
  have lookup_map (needles : List Bytes) :
      ((needles.map fun n => (n, Bytes.occurrences n line)).lookup needle).getD
        (Bytes.occurrences needle line) = Bytes.occurrences needle line := by
    induction needles with
    | nil => rfl
    | cons n more ih =>
        simp only [List.map_cons, List.lookup_cons]
        split
        · next h =>
            simp [eq_of_beq h]
        · exact ih
  exact lookup_map landmarks

end LineFacts
end Uncomment

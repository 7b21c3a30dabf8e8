import Uncomment.Lexer.Closing
import Uncomment.Lexer.Cursor
import Uncomment.Proofs.Checked.Access
import Uncomment.Proofs.Lexer.Locality
import Uncomment.Proofs.Text.Characters

/-!
# Scanning with checked reads

The scanner once more, by offsets into a line: what a cursor does with the unread bytes
is done here with the whole line and an offset, and every byte is looked up.

In a text of characters no read fails, and the answers are those of the cursor
(`Checked.advance_eq`, `Checked.findClose_eq`).  The only cuts are those behind an
apostrophe and behind the character that follows it.
-/

namespace Uncomment
namespace Checked

/-- Where a scan of a line stands. -/
structure Scan where
  /-- The offset of the next byte. -/
  offset : Nat
  /-- The context of the next byte. -/
  span : Span
  /-- The last byte of code that was not blank. -/
  lastCode : Option UInt8
  /-- The length of the run of backslashes in code that ends here. -/
  backslashes : Nat
deriving DecidableEq, Repr

/-- A scan at the start of a line. -/
def Scan.start : Scan := ⟨0, .code, none, 0⟩

/-- A scan that goes on in code at an offset. -/
def Scan.skipTo (scan : Scan) (line : Bytes) (offset : Nat) : Scan :=
  { scan with offset := min offset line.length, span := .code, backslashes := 0 }

/-- Whether the byte before an offset is part of an identifier. -/
def followsIdentifier (line : Bytes) (offset : Nat) : Except Place Bool := do
  if 0 < offset then return Byte.isIdentifier (← entry .rawPrefix line (offset - 1))
  else return false

/-- The offset behind an `r`, number signs and a quotation mark, and how many signs there are. -/
def rawMarks? (line : Bytes) (offset : Nat) : Except Place (Option (Nat × Nat)) := do
  if (line)[offset]? != some 0x72 then return none
  let hashes := ((← bytesFrom .rawPrefix line (offset + 1)).takeWhile (· == Byte.hash)).length
  let close := offset + 1 + hashes
  return if (line)[close]? == some Byte.quote then some (close + 1, hashes) else none

/-- The width of the prefix of a raw string, its quotation mark included, and its number signs. -/
def rawOpening? (line : Bytes) (offset : Nat) : Except Place (Option (Nat × Nat)) := do
  if ← followsIdentifier line offset then return none
  let first ← entry .rawPrefix line offset
  let marks ← rawMarks? line (if first == 0x62 then offset + 1 else offset)
  return marks.map fun (stop, hashes) => (stop - offset, hashes)

/-- Whether the text behind the apostrophe at an offset completes a character literal. -/
def completesCharLiteral (line : Bytes) (offset : Nat) : Except Place Bool := do
  let text ← cutFrom .charLiteral line (offset + 1)
  match text with
  | [] => return false
  | b :: _ =>
      if b == Byte.backslash then
        let tail ← bytesFrom .charLiteral text (min text.length 2)
        return List.elem Byte.tick (tail.take 10)
      else
        let tail ← cutFrom .charLiteral text (Utf8.tailLength b + 1)
        return tail.head? == some Byte.tick

/-- The raw string that opens at an offset, if the dialect has any. -/
def opensRaw? (dialect : Dialect) (line : Bytes) (offset : Nat) :
    Except Place (Option (Nat × Nat)) :=
  if dialect.rawStrings then rawOpening? line offset else .ok none

/-- The literal that opens with an apostrophe at an offset. -/
def opensTick? (dialect : Dialect) (line : Bytes) (offset : Nat) :
    Except Place (Option (Nat × Span)) :=
  match dialect.single with
  | .off => .ok none
  | .string => .ok (some (1, .single))
  | .charLiteral => do
      return if ← completesCharLiteral line offset then some (1, .single) else none

/-- The literal that opens at an offset: the width of its delimiter, and its span. -/
def opening?
    (dialect : Dialect)
    (line : Bytes)
    (offset : Nat)
    (lastCode : Option UInt8) :
    Except Place (Option (Nat × Span)) := do
  let text ← bytesFrom .scanned line offset
  match ← opensRaw? dialect line offset with
  | some (width, hashes) => return some (width, .raw hashes)
  | none =>
      let b ← entry .scanned text 0
      if b == Byte.quote then
        return if dialect.tripleDouble && [Byte.quote, Byte.quote, Byte.quote].isPrefixOf text then
            some (3, .tripleDouble)
          else if dialect.double then some (1, .double)
          else none
      else if b == Byte.tick then
        if dialect.tripleSingle && [Byte.tick, Byte.tick, Byte.tick].isPrefixOf text then
          return some (3, .tripleSingle)
        else opensTick? dialect line offset
      else if b == Byte.backtick then
        return if dialect.backtick then some (1, .backtick) else none
      else if b == Byte.slash then
        return if dialect.regex && Lexer.regexOpens lastCode (text.drop 1) then some (1, .regex)
          else none
      else return none

/-- The width of the closing delimiter of a span at an offset. -/
def closing? (span : Span) (line : Bytes) (offset : Nat) : Except Place (Option Nat) := do
  let text ← bytesFrom .closing line offset
  let closesWith (b : UInt8) : Except Place (Option Nat) := do
    return if (← entry .closing text 0) == b then some 1 else none
  match span with
  | .code => return none
  | .single => closesWith Byte.tick
  | .double => closesWith Byte.quote
  | .backtick => closesWith Byte.backtick
  | .regex => closesWith Byte.slash
  | .tripleDouble =>
      return if [Byte.quote, Byte.quote, Byte.quote].isPrefixOf text then some 3 else none
  | .tripleSingle =>
      return if [Byte.tick, Byte.tick, Byte.tick].isPrefixOf text then some 3 else none
  | .raw hashes =>
      if (← entry .closing text 0) == Byte.quote && hashes < text.length then
        let marks := (← bytesUpTo .closing text (hashes + 1)).drop 1
        return if marks.all (· == Byte.hash) then some (hashes + 1) else none
      else return none

/-- The literal that a scan in code opens at its next byte, which may be escaped. -/
def opened? (dialect : Dialect) (line : Bytes) (scan : Scan) :
    Except Place (Option (Nat × Span)) :=
  if scan.backslashes % 2 == 1 then .ok none
  else opening? dialect line scan.offset scan.lastCode

/-- One step in code. -/
def advanceCode (dialect : Dialect) (line : Bytes) (scan : Scan) : Except Place Scan := do
  match ← opened? dialect line scan with
  | some (width, span) =>
      return { scan with offset := scan.offset + width, span := span, backslashes := 0 }
  | none =>
      let b ← entry .scanned line scan.offset
      return { scan with
        offset := scan.offset + 1
        lastCode := if Byte.isBlank b then scan.lastCode else some b
        backslashes := if b == Byte.backslash then scan.backslashes + 1 else 0 }

/-- One step inside a literal. -/
def advanceLiteral (dialect : Dialect) (line : Bytes) (scan : Scan) : Except Place Scan := do
  let b ← entry .scanned line scan.offset
  if b == Byte.backslash && scan.span.escapes dialect then
    return { scan with offset := scan.offset + min (line.length - scan.offset) 2 }
  else
    match ← closing? scan.span line scan.offset with
    | some width =>
        let last ← entry .closing line (scan.offset + width - 1)
        return { scan with offset := scan.offset + width, span := .code, lastCode := some last }
    | none => return { scan with offset := scan.offset + 1 }

/-- One step: a byte, a delimiter or an escape. -/
def advance (dialect : Dialect) (line : Bytes) (scan : Scan) : Except Place Scan :=
  if scan.span = .code then advanceCode dialect line scan else advanceLiteral dialect line scan

/-- Search from an offset on for the end of a literal that is open. -/
def findCloseFrom (dialect : Dialect) (span : Span) (line : Bytes) (offset : Nat) :
    Except Place (Option Nat) := do
  if offset < line.length then
    let b ← entry .search line offset
    if b == Byte.backslash && span.escapes dialect then
      findCloseFrom dialect span line (offset + 2)
    else
      match ← closing? span line offset with
      | some width => return some (offset + width)
      | none => findCloseFrom dialect span line (offset + 1)
  else return none
termination_by line.length - offset

/-- The offset behind the delimiter that closes a literal in which a line starts. -/
def findClose (dialect : Dialect) (span : Span) (line : Bytes) : Except Place (Option Nat) :=
  findCloseFrom dialect span line 0

section

variable {line text rest : Bytes} {offset : Nat} {b : UInt8}

theorem followsIdentifier_eq
    (hle : offset ≤ line.length) :
    followsIdentifier line offset =
      .ok ((line.take offset).getLast?.any Byte.isIdentifier) := by
  unfold followsIdentifier
  split
  · next hpos =>
      have hget : (line)[offset - 1]? = some (line)[offset - 1] :=
        List.getElem?_eq_getElem (by omega)
      rw [entry_of_getElem? hget, List.getLast?_take, if_neg (by omega), hget]
      rfl
  · next hzero =>
      obtain rfl : offset = 0 := by omega
      rfl

theorem rawMarks?_eq
    (hdrop : line.drop offset = b :: rest) :
    rawMarks? line offset =
      let hashes := (rest.takeWhile (· == Byte.hash)).length
      .ok (if b == 0x72 && (rest.drop hashes).head? == some Byte.quote then
        some (offset + hashes + 2, hashes) else none) := by
  have hlen := length_of_drop hdrop
  have hget := getElem?_of_drop hdrop
  have hrest := drop_succ_of_drop hdrop
  dsimp only
  rw [rawMarks?, show (line)[offset]? = some b from hget 0]
  by_cases hb : b = 0x72
  · subst hb
    have hclose (hashes : Nat) : (line)[offset + 1 + hashes]? = (rest.drop hashes).head? := by
      rw [List.head?_drop, getElem?_of_drop hrest]
    rw [bytesFrom_of_le (by omega), hrest]
    simp only [bne_self_eq_false, Bool.false_eq_true, if_false, ok_bind, pure_eq_ok,
      beq_self_eq_true, Bool.true_and, hclose]
    rw [Nat.add_right_comm offset 1]
  · have hne : (b == 0x72) = false := by simpa using hb
    simp [hb, hne]

theorem rawOpening?_eq
    (hdrop : line.drop offset = b :: rest) :
    rawOpening? line offset =
      .ok ((Lexer.rawOpening? (line.take offset).getLast? b rest).map
        fun opened => (opened.1 + 1, opened.2)) := by
  have hlen := length_of_drop hdrop
  have hfirst : (line)[offset]? = some b := getElem?_of_drop hdrop 0
  rw [rawOpening?, followsIdentifier_eq (by omega), Lexer.rawOpening?]
  cases (line.take offset).getLast?.any Byte.isIdentifier with
  | true =>
      rfl
  | false =>
      simp only [ok_bind, entry_of_getElem? hfirst, Bool.false_eq_true, if_false, pure_eq_ok]
      by_cases hb : b == 0x62
      · have hrest := drop_succ_of_drop hdrop
        simp only [hb, if_true]
        cases rest with
        | nil =>
            have hnone : (line)[offset + 1]? = none := getElem?_of_drop hdrop 1
            simp [rawMarks?, hnone]
        | cons r more =>
            rw [rawMarks?_eq hrest]
            simp
            split
            · simp
              omega
            · rfl
      · simp only [hb, Bool.false_eq_true, if_false, rawMarks?_eq hdrop]
        simp
        split
        · simp
          omega
        · rfl

theorem completesCharLiteral_eq
    {cs : List Char}
    (hdrop : (Utf8.encode cs).drop offset = Byte.tick :: rest) :
    completesCharLiteral (Utf8.encode cs) offset = .ok (Lexer.completesCharLiteral rest) := by
  have hlen := length_of_drop hdrop
  have hrest := drop_succ_of_drop hdrop
  have hclean : Utf8.startsClean ((Utf8.encode cs).drop (offset + 1)) = true := by
    have hpre : [Byte.tick] <+: (Utf8.encode cs).drop offset := by
      rw [hdrop]
      exact ⟨rest, rfl⟩
    exact (Utf8.placed_encode cs).startsClean_drop (List.cons_ne_nil _ _)
      (List.forall_mem_singleton.2 rfl) hpre
  obtain ⟨as, bs, -, -, hbs⟩ := Utf8.exists_of_startsClean_drop hclean
  rw [completesCharLiteral, cutFrom_of_boundary (Or.inr ⟨by omega, hclean⟩), hrest]
  rw [hrest] at hbs
  subst hbs
  cases bs with
  | nil =>
      rfl
  | cons c bs =>
      obtain ⟨first, tail, hbytes, -, htail, -⟩ := Utf8.exists_bytes c
      rw [Utf8.encode_cons, hbytes, List.cons_append]
      simp only [ok_bind, Lexer.completesCharLiteral, List.length_cons]
      split
      · generalize tail ++ Utf8.encode bs = more
        have hdrop : (first :: more).drop (min (more.length + 1) 2) = more.drop 1 := by
          cases more with
          | nil => rfl
          | cons d more => simp
        rw [bytesFrom_of_le (by rw [List.length_cons]; omega), hdrop]
        rfl
      · have hskip : (tail ++ Utf8.encode bs).drop (Utf8.tailLength first) = Utf8.encode bs := by
          rw [← htail, List.drop_left]
        have hboundary : Utf8.Boundary (first :: (tail ++ Utf8.encode bs))
            (Utf8.tailLength first + 1) := by
          refine Or.inr ⟨?_, ?_⟩
          · simp [htail]
          · rw [List.drop_succ_cons, hskip]
            exact Utf8.startsClean_encode bs
        rw [cutFrom_of_boundary hboundary, List.drop_succ_cons, hskip]
        rfl

theorem opening?_eq
    {cs : List Char}
    (dialect : Dialect) (lastCode : Option UInt8)
    (hdrop : (Utf8.encode cs).drop offset = b :: rest) :
    opening? dialect (Utf8.encode cs) offset lastCode =
      .ok ((Lexer.opening? dialect ((Utf8.encode cs).take offset).getLast? lastCode b rest).map
        fun opened => (opened.1 + 1, opened.2)) := by
  have hlen := length_of_drop hdrop
  have hraw : opensRaw? dialect (Utf8.encode cs) offset =
      .ok ((if dialect.rawStrings then
        Lexer.rawOpening? ((Utf8.encode cs).take offset).getLast? b rest else none).map
          fun opened => (opened.1 + 1, opened.2)) := by
    unfold opensRaw?
    split
    · exact rawOpening?_eq hdrop
    · rfl
  rw [opening?, bytesFrom_of_le (by omega), hdrop, ok_bind, hraw, ok_bind, Lexer.opening?]
  cases (if dialect.rawStrings then
      Lexer.rawOpening? ((Utf8.encode cs).take offset).getLast? b rest else none) with
  | some opened =>
      rfl
  | none =>
      have hfirst : entry .scanned (b :: rest) 0 = .ok b := rfl
      simp only [Option.map_none, hfirst, ok_bind]
      by_cases hquote : b = Byte.quote
      · subst hquote
        simp
        repeat' split
        all_goals rfl
      · have hquote' : (b == Byte.quote) = false := by simpa using hquote
        simp only [hquote', Bool.false_eq_true, if_false]
        by_cases htick : b = Byte.tick
        · subst htick
          simp [opensTick?]
          split
          · rfl
          · cases dialect.single with
            | off | string =>
                rfl
            | charLiteral =>
                simp only [completesCharLiteral_eq hdrop, ok_bind]
                split <;> rfl
        · have htick' : (b == Byte.tick) = false := by simpa using htick
          simp only [htick', Bool.false_eq_true, if_false]
          repeat' split
          all_goals simp_all

/-- A run of one byte at the front of a text, byte by byte. -/
theorem replicate_isPrefixOf
    (count : Nat) (mark : UInt8) (text : Bytes) :
    (List.replicate count mark).isPrefixOf text =
      (decide (count ≤ text.length) && (text.take count).all (· == mark)) := by
  rw [Bool.eq_iff_iff, List.isPrefixOf_iff_prefix, List.prefix_iff_eq_take, List.length_replicate,
    eq_comm, List.eq_replicate_iff, List.length_take]
  simp only [Bool.and_eq_true, decide_eq_true_eq, List.all_eq_true, beq_iff_eq]
  have hle : min count text.length = count ↔ count ≤ text.length := by omega
  rw [hle]

/-- The delimiter that closes a span is found without a fault. -/
theorem closing?_eq
    (span : Span)
    (hdrop : line.drop offset = b :: rest) :
    closing? span line offset = .ok ((span.closing? b rest).map (· + 1)) := by
  have hlen := length_of_drop hdrop
  have hfirst : entry .closing (b :: rest) 0 = .ok b := rfl
  rw [closing?, bytesFrom_of_le (by omega), hdrop, Span.closing?]
  cases span with
  | code =>
      rfl
  | single | double | backtick | regex =>
      simp only [ok_bind, hfirst, Span.closingTail, List.isPrefixOf, Bool.and_true]
      split <;> rfl
  | tripleDouble | tripleSingle =>
      simp only [ok_bind, Span.closingTail, List.isPrefixOf_cons_cons, Bool.beq_comm]
      split <;> rfl
  | raw hashes =>
      simp only [ok_bind, hfirst, Span.closingTail, replicate_isPrefixOf, List.length_cons,
        Nat.lt_succ_iff]
      by_cases hle : hashes ≤ rest.length
      · have hmarks : ((b :: rest).take (hashes + 1)).drop 1 = rest.take hashes := by simp
        simp only [hle, decide_true, Bool.true_and, Bool.and_true, ok_bind, hmarks,
          bytesUpTo_of_le (by simpa using hle : hashes + 1 ≤ (b :: rest).length)]
        cases b == Byte.quote <;> cases (rest.take hashes).all (· == Byte.hash) <;> simp
      · simp [hle]

end

/-- The scan that stands where a cursor does. -/
def Scan.ofCursor (cursor : Cursor) : Scan :=
  ⟨cursor.offset, cursor.span, cursor.lastCode, cursor.backslashes⟩

@[simp] theorem Scan.offset_ofCursor
    (cursor : Cursor) :
    (ofCursor cursor).offset = cursor.offset := by
  rfl

@[simp] theorem Scan.span_ofCursor
    (cursor : Cursor) :
    (ofCursor cursor).span = cursor.span := by
  rfl

end Checked

namespace Cursor

/-- A cursor that stands where it says in a line, right behind the byte it has read last. -/
structure Within (line : Bytes) (cursor : Cursor) : Prop where
  at_line : cursor.At line
  before_eq : cursor.before = (line.take cursor.offset).getLast?

variable {line rest : Bytes} {cursor : Cursor} {b : UInt8}

theorem within_start
    (line : Bytes) :
    (start line).Within line := by
  exact ⟨at_start line, by simp [start]⟩

theorem within_of_move
    {next : Cursor} {more : Nat}
    (h : cursor.Within line)
    (hrest : cursor.rest = b :: rest)
    (hmore : more ≤ rest.length)
    (hnext : next.rest = rest.drop more)
    (hoffset : next.offset = cursor.offset + more + 1)
    (hbefore : next.before = some (lastOf b rest more)) :
    next.Within line := by
  refine ⟨at_of_move h.at_line hrest hmore hnext hoffset, ?_⟩
  have hdrop : line.drop cursor.offset = b :: rest := h.at_line.2.symm.trans hrest
  have hlen := congrArg List.length hdrop
  rw [List.length_drop, List.length_cons] at hlen
  rw [hbefore, hoffset, List.getLast?_take, if_neg (by omega), Nat.add_sub_cancel,
    ← List.getElem?_drop, hdrop, getElem?_eq_lastOf b hmore, Option.some_or]

theorem Within.step
    (h : cursor.Within line)
    (hrest : cursor.rest = b :: rest)
    (dialect : Dialect) :
    (cursor.step dialect b rest).Within line := by
  obtain ⟨more, hmore, hnext, hoffset, hbefore⟩ := exists_move dialect cursor b rest
  exact within_of_move h hrest hmore hnext hoffset hbefore

end Cursor

namespace Checked

variable {line rest : Bytes} {cursor : Cursor} {cs : List Char} {b : UInt8}

theorem opened?_eq
    (dialect : Dialect)
    (h : cursor.Within (Utf8.encode cs))
    (hdrop : (Utf8.encode cs).drop cursor.offset = b :: rest) :
    opened? dialect (Utf8.encode cs) (.ofCursor cursor) =
      .ok ((cursor.opened? dialect b rest).map fun opened => (opened.1 + 1, opened.2)) := by
  rw [Cursor.opened?, h.before_eq]
  by_cases hodd : (cursor.backslashes % 2 == 1) = true
  · rw [if_pos hodd]
    exact if_pos hodd
  · rw [if_neg hodd]
    exact (if_neg hodd).trans (opening?_eq dialect cursor.lastCode hdrop)

theorem advanceCode_eq
    (dialect : Dialect)
    (h : cursor.Within (Utf8.encode cs))
    (hdrop : (Utf8.encode cs).drop cursor.offset = b :: rest) :
    advanceCode dialect (Utf8.encode cs) (.ofCursor cursor) =
      .ok (.ofCursor (cursor.stepCode dialect b rest)) := by
  have hfirst : entry .scanned (Utf8.encode cs) (Scan.ofCursor cursor).offset = .ok b :=
    entry_of_drop hdrop
  rw [advanceCode, opened?_eq dialect h hdrop]
  cases hopened : cursor.opened? dialect b rest with
  | some opened =>
      rw [Cursor.stepCode_of_opened hopened]
      rfl
  | none =>
      rw [Cursor.stepCode_of_not_opened hopened]
      simp only [Option.map_none, ok_bind, hfirst]
      rfl

theorem advanceLiteral_eq
    (dialect : Dialect)
    (hdrop : (Utf8.encode cs).drop cursor.offset = b :: rest) :
    advanceLiteral dialect (Utf8.encode cs) (.ofCursor cursor) =
      .ok (.ofCursor (cursor.stepLiteral dialect b rest)) := by
  have hlen := length_of_drop hdrop
  have hget := getElem?_of_drop hdrop
  have hfirst : entry .scanned (Utf8.encode cs) (Scan.ofCursor cursor).offset = .ok b :=
    entry_of_drop hdrop
  rw [advanceLiteral, hfirst, ok_bind, Cursor.stepLiteral, Scan.span_ofCursor, Scan.offset_ofCursor]
  by_cases hescape : (b == Byte.backslash && cursor.span.escapes dialect) = true
  · have hwidth : min ((Utf8.encode cs).length - cursor.offset) 2 = min 1 rest.length + 1 := by
      omega
    rw [if_pos hescape, if_pos hescape, hwidth]
    rfl
  · rw [if_neg hescape, if_neg hescape, closing?_eq _ hdrop]
    cases hclosing : cursor.span.closing? b rest with
    | none =>
        rfl
    | some more =>
        have hlast : entry .closing (Utf8.encode cs) (cursor.offset + (more + 1) - 1) =
            .ok (Cursor.lastOf b rest more) := by
          refine entry_of_getElem? ((hget more).trans ?_)
          exact Cursor.getElem?_eq_lastOf b (Span.closing?_le hclosing)
        simp only [Option.map_some, ok_bind, hlast]
        rfl

/-- A scan advances without a fault, to where the cursor steps. -/
theorem advance_eq
    (dialect : Dialect)
    (h : cursor.Within (Utf8.encode cs))
    (hrest : cursor.rest = b :: rest) :
    advance dialect (Utf8.encode cs) (.ofCursor cursor) =
      .ok (.ofCursor (cursor.step dialect b rest)) := by
  have hdrop : (Utf8.encode cs).drop cursor.offset = b :: rest := h.at_line.2.symm.trans hrest
  rw [advance, Cursor.step]
  by_cases hcode : cursor.span = .code
  · rw [if_pos hcode, if_pos (show (Scan.ofCursor cursor).span = .code from hcode)]
    exact advanceCode_eq dialect h hdrop
  · rw [if_neg hcode, if_neg (show ¬ (Scan.ofCursor cursor).span = .code from hcode)]
    exact advanceLiteral_eq dialect hdrop

theorem findCloseFrom_eq
    (dialect : Dialect) (span : Span) (line : Bytes) (offset : Nat) :
    findCloseFrom dialect span line offset =
      .ok (Lexer.findCloseFrom dialect span offset 0 (line.drop offset)) := by
  induction hwidth : line.length - offset using Nat.strongRecOn generalizing offset with
  | ind width ih =>
      rw [findCloseFrom]
      cases hdrop : line.drop offset with
      | nil =>
          have hle := List.drop_eq_nil_iff.1 hdrop
          rw [if_neg (by omega)]
          rfl
      | cons b rest =>
          have hlen := length_of_drop hdrop
          have hnext := drop_succ_of_drop hdrop
          rw [if_pos (by omega), entry_of_drop hdrop, ok_bind, Lexer.findCloseFrom]
          split
          · rw [ih _ (by omega) (offset + 2) rfl]
            cases rest with
            | nil =>
                rw [List.drop_eq_nil_iff.2 (by simp at hlen; omega)]
                rfl
            | cons c more =>
                rw [show offset + 2 = offset + 1 + 1 by omega, ← List.drop_drop, hnext]
                rfl
          · rw [closing?_eq span hdrop]
            cases span.closing? b rest with
            | some more =>
                rfl
            | none =>
                exact (ih _ (by omega) (offset + 1) rfl).trans (by rw [hnext])

theorem findClose_eq
    (dialect : Dialect) (span : Span) (line : Bytes) :
    findClose dialect span line = .ok (Lexer.findClose dialect span line) := by
  exact findCloseFrom_eq dialect span line 0

section

variable {dialect : Dialect} {offset width hashes : Nat} {span : Span} {lastCode : Option UInt8}
variable {scan next : Scan}

theorem pos_of_rawOpening?
    (h : rawOpening? line offset = .ok (some (width, hashes))) :
    0 < width := by
  have hmarks {marked stop signs : Nat} (h : rawMarks? line marked = .ok (some (stop, signs))) :
      marked < stop := by
    unfold rawMarks? at h
    split at h
    · cases h
    · obtain ⟨text, -, h⟩ := bind_eq_ok_iff.1 h
      simp only [pure_eq_ok, Except.ok.injEq] at h
      split at h
      · cases h
        omega
      · cases h
  unfold rawOpening? at h
  obtain ⟨inWord, -, h⟩ := bind_eq_ok_iff.1 h
  split at h
  · cases h
  · obtain ⟨first, -, h⟩ := bind_eq_ok_iff.1 h
    obtain ⟨marks, hfound, h⟩ := bind_eq_ok_iff.1 h
    cases marks with
    | none =>
        cases h
    | some found =>
        cases h
        have hlt := hmarks hfound
        have hle : offset ≤ if first == 0x62 then offset + 1 else offset := by
          split <;> omega
        omega

theorem pos_of_opening?
    (h : opening? dialect line offset lastCode = .ok (some (width, span))) :
    0 < width := by
  unfold opening? at h
  obtain ⟨text, -, h⟩ := bind_eq_ok_iff.1 h
  obtain ⟨raw, hraw, h⟩ := bind_eq_ok_iff.1 h
  cases raw with
  | some opened =>
      cases h
      unfold opensRaw? at hraw
      split at hraw
      · exact pos_of_rawOpening? hraw
      · cases hraw
  | none =>
      have htick (h : opensTick? dialect line offset = .ok (some (width, span))) : 0 < width := by
        unfold opensTick? at h
        split at h
        · cases h
        · cases h
          exact Nat.one_pos
        · obtain ⟨complete, -, h⟩ := bind_eq_ok_iff.1 h
          cases complete with
          | true =>
              cases h
              exact Nat.one_pos
          | false =>
              cases h
      obtain ⟨b, -, h⟩ := bind_eq_ok_iff.1 h
      simp only [pure_eq_ok] at h
      repeat' split at h
      all_goals first
        | exact htick h
        | cases h
      all_goals omega

theorem pos_of_closing?
    (h : closing? span line offset = .ok (some width)) :
    0 < width := by
  unfold closing? at h
  obtain ⟨text, -, h⟩ := bind_eq_ok_iff.1 h
  cases span with
  | code =>
      cases h
  | single | double | backtick | regex =>
      obtain ⟨b, -, h⟩ := bind_eq_ok_iff.1 h
      simp only [pure_eq_ok] at h
      split at h
      · cases h
        exact Nat.one_pos
      · cases h
  | tripleDouble | tripleSingle =>
      simp only [pure_eq_ok] at h
      split at h
      · cases h
        exact Nat.succ_pos _
      · cases h
  | raw hashes =>
      obtain ⟨b, -, h⟩ := bind_eq_ok_iff.1 h
      split at h
      · obtain ⟨marks, -, h⟩ := bind_eq_ok_iff.1 h
        simp only [pure_eq_ok] at h
        split at h
        · cases h
          exact Nat.succ_pos _
        · cases h
      · cases h

/-- A scan that advances moves on. -/
theorem lt_of_advance
    (h : advance dialect line scan = .ok next) :
    scan.offset < next.offset := by
  unfold advance at h
  split at h
  · unfold advanceCode at h
    obtain ⟨opened, hopened, h⟩ := bind_eq_ok_iff.1 h
    cases opened with
    | some opened =>
        cases h
        unfold opened? at hopened
        split at hopened
        · cases hopened
        · exact Nat.lt_add_of_pos_right (pos_of_opening? hopened)
    | none =>
        obtain ⟨b, -, h⟩ := bind_eq_ok_iff.1 h
        cases h
        exact Nat.lt_succ_self _
  · unfold advanceLiteral at h
    obtain ⟨b, hfirst, h⟩ := bind_eq_ok_iff.1 h
    have hlt : scan.offset < line.length := by
      unfold entry at hfirst
      split at hfirst
      · next hget => exact (List.getElem?_eq_some_iff.1 hget).1
      · cases hfirst
    split at h
    · cases h
      dsimp only
      omega
    · obtain ⟨closed, hclosed, h⟩ := bind_eq_ok_iff.1 h
      cases closed with
      | some width =>
          obtain ⟨last, -, h⟩ := bind_eq_ok_iff.1 h
          cases h
          exact Nat.lt_add_of_pos_right (pos_of_closing? hclosed)
      | none =>
          cases h
          exact Nat.lt_succ_self _

end

end Checked
end Uncomment

import Uncomment.Proofs.Lexer.Table

/-!
# Quotation marks told by looking back

A cursor that reads a line in the plain dialect counts backslashes, skips the byte behind an
escape and remembers the last byte of code.  None of this is needed to say which quotation
mark is open at an offset.  `Lexer.Pending.next` goes through the line byte by byte and looks
back at each byte: one with an odd number of backslashes before it changes nothing, any other
quotation mark opens a literal or closes its own, and a slash opens a regular expression
where the last byte before it that is not blank leaves room for one.

Both say the same at every offset (`Quotes.classify_eq_pendingAt`).  What ties them together is
`Cursor.Agrees`, which holds at every stop of a cursor.
-/

namespace Uncomment

namespace Lexer

/-- The literal that a byte of a line is in, for a reader who looks back. -/
inductive Pending where
  | nothing
  | single
  | double
  | backtick
  | regex
deriving DecidableEq, Repr

/-- The last byte before an offset that is not blank. -/
def lastSolid (line : Bytes) (offset : Nat) : Option UInt8 :=
  (line.take offset).reverse.find? fun b => !Byte.isBlank b

/--
Whether a slash at an offset can start a regular expression: it starts no comment, and the
last byte before it that is not blank is missing or asks for an operand.
-/
def slashOpens (line : Bytes) (offset : Nat) : Bool :=
  (line)[offset + 1]? != some Byte.slash && (line)[offset + 1]? != some 0x2A &&
    (lastSolid line offset).all fun b => List.elem b (Bytes.ofString "=(,:[\x7b;")

namespace Pending

/-- The delimiter on either side of a literal. -/
def mark? : Pending → Option UInt8
  | .nothing => none
  | .single => some Byte.tick
  | .double => some Byte.quote
  | .backtick => some Byte.backtick
  | .regex => some Byte.slash

/-- What a byte at an offset opens; only with `regex` a slash opens a regular expression. -/
def opened (regex : Bool) (line : Bytes) (offset : Nat) (b : UInt8) : Pending :=
  if b = Byte.tick then .single
  else if b = Byte.quote then .double
  else if b = Byte.backtick then .backtick
  else if b = Byte.slash ∧ regex = true ∧ slashOpens line offset = true then .regex
  else .nothing

/-- What is open behind the byte at an offset, given what is open before it. -/
def next
    (regex : Bool)
    (line : Bytes)
    (pending : Pending)
    (offset : Nat)
    (b : UInt8) :
    Pending :=
  if isEscaped line offset then pending
  else
    match pending.mark? with
    | none => opened regex line offset b
    | some q => if b = q then .nothing else pending

/-- The quotation marks that are open. -/
def quotes (pending : Pending) : Quotes where
  inSingle := pending = .single
  inDouble := pending = .double
  inBacktick := pending = .backtick

/-- The span in which a cursor reads the literal. -/
def span : Pending → Span
  | .nothing => .code
  | .single => .single
  | .double => .double
  | .backtick => .backtick
  | .regex => .regex

end Pending

/-- What is open behind the first `count` bytes of a line. -/
def pendingAt (regex : Bool) (line : Bytes) (count : Nat) : Pending :=
  (line.zipIdx.take count).foldl (fun pending entry => pending.next regex line entry.2 entry.1)
    .nothing

section

variable {regex : Bool} {line : Bytes} {offset : Nat} {b : UInt8}

theorem pendingAt_succ
    (hb : (line)[offset]? = some b) :
    pendingAt regex line (offset + 1) =
      (pendingAt regex line offset).next regex line offset b := by
  have hentry : (line.zipIdx)[offset]? = some (b, offset) := by
    rw [List.getElem?_zipIdx, hb, Option.map_some, Nat.zero_add]
  rw [pendingAt, List.take_add_one, hentry, List.foldl_append]
  rfl

theorem odd_succ
    (n : Nat) :
    ((n + 1) % 2 == 1) = !(n % 2 == 1) := by
  rw [Bool.eq_iff_iff, Bool.not_eq_true', beq_iff_eq, beq_eq_false_iff_ne]
  omega

/-- Behind a backslash that is not escaped the next byte is, and behind no other byte. -/
theorem isEscaped_succ
    (hb : (line)[offset]? = some b) :
    isEscaped line (offset + 1) = (b == Byte.backslash && !isEscaped line offset) := by
  rw [isEscaped, isEscaped, List.take_add_one, hb, Option.toList_some, List.reverse_append,
    List.reverse_singleton, List.singleton_append, List.takeWhile_cons]
  cases b == Byte.backslash with
  | false =>
      rfl
  | true =>
      exact odd_succ _

theorem lastSolid_succ
    (hb : (line)[offset]? = some b) :
    lastSolid line (offset + 1) = if Byte.isBlank b then lastSolid line offset else some b := by
  rw [lastSolid, lastSolid, List.take_add_one, hb, Option.toList_some, List.reverse_append,
    List.reverse_singleton, List.singleton_append, List.find?_cons]
  cases Byte.isBlank b <;> rfl

end

/-- The plain dialect, with or without regular expressions. -/
abbrev plainWith (regex : Bool) : Dialect :=
  { Dialect.plain with regex := regex }

namespace Pending

variable {pending : Pending} {q : UInt8} {regex : Bool}

theorem span_eq_code_iff :
    pending.span = .code ↔ pending = .nothing := by
  cases pending <;> simp [span]

theorem exists_mark?
    (h : pending ≠ .nothing) :
    ∃ q, pending.mark? = some q := by
  cases pending with
  | nothing => exact absurd rfl h
  | single | double | backtick | regex => exact ⟨_, rfl⟩

/-- A literal ends with the delimiter it starts with. -/
theorem closingTail_span
    (h : pending.mark? = some q) :
    pending.span.closingTail = some (q, []) := by
  cases pending <;> cases h <;> rfl

theorem escapes_span
    (h : pending.mark? = some q) :
    pending.span.escapes (plainWith regex) = true := by
  cases pending <;> cases h <;> rfl

/-- No delimiter is blank or a backslash. -/
theorem of_mark?
    (h : pending.mark? = some q) :
    Byte.isBlank q = false ∧ q ≠ Byte.backslash := by
  cases pending <;> cases h <;> decide

/-- What a byte opens has that byte as its delimiter. -/
theorem mark?_opened
    {line : Bytes} {offset : Nat} {b : UInt8}
    (h : opened regex line offset b ≠ .nothing) :
    (opened regex line offset b).mark? = some b := by
  unfold opened at h ⊢
  split_ifs at h ⊢ with htick hquote hbacktick hslash
  · rw [htick]
    rfl
  · rw [hquote]
    rfl
  · rw [hbacktick]
    rfl
  · rw [hslash.1]
    rfl
  · exact absurd rfl h

end Pending
end Lexer

namespace Cursor

open Lexer

/--
A cursor in a line knows what a reader who looks back sees.  In a literal it has not stopped
behind an odd number of backslashes, unless that is the end of the line.
-/
structure Agrees (regex : Bool) (line : Bytes) (cursor : Cursor) : Prop where
  there : cursor.At line
  span : cursor.span = (pendingAt regex line cursor.offset).span
  lastCode : cursor.span = .code → cursor.lastCode = lastSolid line cursor.offset
  backslashes : cursor.span = .code →
    (cursor.backslashes % 2 == 1) = isEscaped line cursor.offset
  literal : cursor.span ≠ .code →
    cursor.backslashes = 0 ∧ (cursor.rest ≠ [] → isEscaped line cursor.offset = false)

variable {regex : Bool} {line : Bytes} {cursor : Cursor} {b : UInt8} {rest : Bytes}

theorem agrees_start
    (regex : Bool) (line : Bytes) :
    (start line).Agrees regex line where
  there := at_start line
  span := by
    rw [start, pendingAt, List.take_zero]
    rfl
  lastCode := fun _ => rfl
  backslashes := fun _ => rfl
  literal := fun h => absurd rfl h

theorem At.getElem?_eq
    (hat : cursor.At line)
    (hrest : cursor.rest = b :: rest) :
    (line)[cursor.offset]? = some b ∧ (line)[cursor.offset + 1]? = rest.head? := by
  have hdrop : line.drop cursor.offset = b :: rest := hat.2.symm.trans hrest
  constructor
  · rw [← List.head?_drop, hdrop, List.head?_cons]
  · rw [← List.head?_drop, ← List.drop_drop, hdrop]
    rfl

/-- A slash opens a regular expression for the cursor where it does for a reader who looks back. -/
theorem Agrees.regexOpens_eq
    (h : cursor.Agrees regex line)
    (hcode : cursor.span = .code)
    (hrest : cursor.rest = b :: rest) :
    regexOpens cursor.lastCode rest = slashOpens line cursor.offset := by
  have hleads : regexLeaders = Bytes.ofString "=(,:[\x7b;" := rfl
  unfold regexOpens slashOpens
  rw [(h.there.getElem?_eq hrest).2, ← h.lastCode hcode, hleads]
  simp only [bne]
  cases rest.head? == some Byte.slash with
  | true => rfl
  | false =>
      cases rest.head? == some 0x2A with
      | true => rfl
      | false => cases cursor.lastCode <;> rfl

/-- What a cursor in code opens is what a reader who looks back takes to be opened. -/
theorem Agrees.opened?_eq
    (h : cursor.Agrees regex line)
    (hcode : cursor.span = .code)
    (hrest : cursor.rest = b :: rest) :
    cursor.opened? (plainWith regex) b rest =
      if isEscaped line cursor.offset ∨ Pending.opened regex line cursor.offset b = .nothing then
        none
      else some (0, (Pending.opened regex line cursor.offset b).span) := by
  have hnear : (plainWith regex).IsNear := ⟨fun h => (by cases h), rfl⟩
  rw [opened?, h.backslashes hcode]
  cases isEscaped line cursor.offset with
  | true =>
      rfl
  | false =>
      rw [if_neg (by decide), opening?_of_isNear hnear, h.regexOpens_eq hcode hrest,
        Pending.opened]
      by_cases htick : b = Byte.tick
      · subst htick
        rfl
      by_cases hquote : b = Byte.quote
      · subst hquote
        rfl
      by_cases hbacktick : b = Byte.backtick
      · subst hbacktick
        rfl
      simp only [htick, hquote, hbacktick, if_false, false_and]
      by_cases hslash : b = Byte.slash ∧ regex = true ∧ slashOpens line cursor.offset = true
      · simp [hslash, Pending.span]
      · simp only [if_neg hslash, or_true, if_true]

/--
A step of a cursor keeps the agreement.  All bytes that it reads are read in the span of the
cursor, and a reader who looks back sees the same open at each of them.
-/
structure AgreesOver (regex : Bool) (line : Bytes) (cursor next : Cursor) (more : Nat) : Prop where
  offset_eq : next.offset = cursor.offset + more + 1
  rest_eq : next.rest = cursor.rest.drop (more + 1)
  agrees : next.Agrees regex line
  pendingAt_eq : ∀ index ≤ more,
    (pendingAt regex line (cursor.offset + index)).span = cursor.span
  eq_zero : cursor.span = .code → more = 0

theorem Agrees.over_one
    {next : Cursor}
    (h : cursor.Agrees regex line)
    (hrest : cursor.rest = b :: rest)
    (hnextRest : next.rest = rest)
    (hnextOffset : next.offset = cursor.offset + 1)
    (hspan : next.span = (pendingAt regex line (cursor.offset + 1)).span)
    (hlastCode : next.span = .code → next.lastCode = lastSolid line (cursor.offset + 1))
    (hbackslashes : next.span = .code →
      (next.backslashes % 2 == 1) = isEscaped line (cursor.offset + 1))
    (hliteral : next.span ≠ .code →
      next.backslashes = 0 ∧ (rest ≠ [] → isEscaped line (cursor.offset + 1) = false)) :
    AgreesOver regex line cursor next 0 where
  offset_eq := hnextOffset
  rest_eq := by rw [hrest, hnextRest, List.drop_one, List.tail_cons]
  agrees := by
    refine ⟨at_of_move h.there hrest (Nat.zero_le _) hnextRest hnextOffset, ?_, ?_, ?_, ?_⟩
    all_goals rw [hnextOffset]
    · exact hspan
    · exact hlastCode
    · exact hbackslashes
    · rwa [hnextRest]
  pendingAt_eq := fun index hindex => by
    rw [Nat.le_zero.1 hindex, Nat.add_zero, h.span]
  eq_zero := fun _ => rfl

theorem Agrees.over_stepCode
    (h : cursor.Agrees regex line)
    (hcode : cursor.span = .code)
    (hrest : cursor.rest = b :: rest) :
    AgreesOver regex line cursor (cursor.stepCode (plainWith regex) b rest) 0 := by
  obtain ⟨hb, -⟩ := h.there.getElem?_eq hrest
  have hnext : pendingAt regex line (cursor.offset + 1) =
      if isEscaped line cursor.offset then .nothing
      else Pending.opened regex line cursor.offset b := by
    have hnothing : pendingAt regex line cursor.offset = .nothing := by
      rw [← Pending.span_eq_code_iff, ← h.span, hcode]
    rw [pendingAt_succ hb, hnothing]
    rfl
  have hopened := h.opened?_eq hcode hrest
  split at hopened
  · next hcond =>
      rw [stepCode_of_not_opened hopened]
      refine h.over_one hrest rfl rfl ?_ (fun _ => ?_) (fun _ => ?_) fun hne => absurd hcode hne
      · change cursor.span = _
        rw [hcode, eq_comm, Pending.span_eq_code_iff, hnext]
        split
        · rfl
        · next hescaped => exact hcond.resolve_left hescaped
      · rw [lastSolid_succ hb, ← h.lastCode hcode]
      · rw [isEscaped_succ hb, ← h.backslashes hcode]
        cases b == Byte.backslash with
        | false => rfl
        | true => exact odd_succ cursor.backslashes
  · next hcond =>
      rw [not_or] at hcond
      rw [if_neg hcond.1] at hnext
      have hmark := Pending.of_mark? (Pending.mark?_opened hcond.2)
      have hspan : (Pending.opened regex line cursor.offset b).span ≠ .code :=
        fun heq => hcond.2 (Pending.span_eq_code_iff.1 heq)
      rw [stepCode_of_opened hopened]
      refine h.over_one hrest rfl rfl ?_ (fun heq => absurd heq hspan)
        (fun heq => absurd heq hspan) fun _ => ⟨rfl, fun _ => ?_⟩
      · rw [hnext]
      · rw [isEscaped_succ hb, beq_eq_false_iff_ne.2 hmark.2, Bool.false_and]

theorem Agrees.over_stepLiteral
    (h : cursor.Agrees regex line)
    (hliteral : cursor.span ≠ .code)
    (hrest : cursor.rest = b :: rest) :
    ∃ more, AgreesOver regex line cursor (cursor.stepLiteral (plainWith regex) b rest) more := by
  obtain ⟨hb, hc⟩ := h.there.getElem?_eq hrest
  obtain ⟨hzero, hescaped⟩ := h.literal hliteral
  have hescaped := hescaped (by rw [hrest]; exact List.cons_ne_nil b rest)
  have hsome : pendingAt regex line cursor.offset ≠ .nothing := fun hnothing =>
    hliteral (h.span.trans (Pending.span_eq_code_iff.2 hnothing))
  obtain ⟨q, hmark⟩ := Pending.exists_mark? hsome
  obtain ⟨hblank, hbackslash⟩ := Pending.of_mark? hmark
  have hnext : pendingAt regex line (cursor.offset + 1) =
      if b = q then .nothing else pendingAt regex line cursor.offset := by
    rw [pendingAt_succ hb, Pending.next, hescaped, if_neg (by decide), hmark]
  have hescapes : cursor.span.escapes (plainWith regex) = true := by
    rw [h.span]
    exact Pending.escapes_span hmark
  have hclosingTail : cursor.span.closingTail = some (q, []) := by
    rw [h.span]
    exact Pending.closingTail_span hmark
  have hodd : isEscaped line (cursor.offset + 1) = (b == Byte.backslash) := by
    rw [isEscaped_succ hb, hescaped, Bool.not_false, Bool.and_true]
  have hstays (hne : b ≠ q) (hcut : rest ≠ [] → b ≠ Byte.backslash) :
      AgreesOver regex line cursor (cursor.move b rest 0) 0 := by
    refine h.over_one hrest rfl rfl ?_ (fun heq => absurd heq hliteral)
      (fun heq => absurd heq hliteral) fun _ => ⟨hzero, fun hne => ?_⟩
    · rw [hnext, if_neg hne]
      exact h.span
    · rw [hodd]
      exact beq_eq_false_iff_ne.2 (hcut hne)
  rw [Cursor.stepLiteral, hescapes, Bool.and_true]
  split
  · next hescape =>
      obtain rfl := eq_of_beq hescape
      have hne : Byte.backslash ≠ q := hbackslash.symm
      cases rest with
      | nil => exact ⟨0, hstays hne fun h => absurd rfl h⟩
      | cons c more =>
          have hsame : pendingAt regex line (cursor.offset + 1) =
              pendingAt regex line cursor.offset := by
            rw [hnext, if_neg hne]
          have hsecond : pendingAt regex line (cursor.offset + 2) =
              pendingAt regex line cursor.offset := by
            rw [pendingAt_succ hc, Pending.next, hodd, if_pos (by decide), hsame]
          refine ⟨1, ⟨rfl, ?_, ⟨at_of_move h.there hrest (by simp) rfl rfl, ?_,
            fun heq => absurd heq hliteral, fun heq => absurd heq hliteral,
            fun _ => ⟨hzero, fun _ => ?_⟩⟩, ?_, fun hcode => absurd hcode hliteral⟩⟩
          · rw [hrest]
            rfl
          · change cursor.span = (pendingAt regex line (cursor.offset + 2)).span
            rw [hsecond, h.span]
          · change isEscaped line (cursor.offset + 2) = false
            rw [isEscaped_succ hc, hodd]
            simp
          · intro index hindex
            rcases Nat.le_one_iff_eq_zero_or_eq_one.1 hindex with rfl | rfl
            · exact h.span.symm
            · rw [hsame, h.span]
  · next hplain =>
      have hplain : b ≠ Byte.backslash := fun heq => hplain (beq_iff_eq.2 heq)
      refine ⟨0, ?_⟩
      cases hclosing : cursor.span.closing? b rest with
      | none =>
          refine hstays ?_ fun _ => hplain
          rintro rfl
          rw [Span.closing?_eq_some_iff.2 ⟨[], hclosingTail, List.nil_prefix, rfl⟩] at hclosing
          cases hclosing
      | some more =>
          obtain ⟨_, hother, -, rfl⟩ := Span.closing?_eq_some_iff.1 hclosing
          rw [hclosingTail] at hother
          cases hother
          refine h.over_one hrest rfl rfl ?_ (fun _ => ?_) (fun _ => ?_) fun hne => absurd rfl hne
          · rw [hnext, if_pos rfl]
            rfl
          · rw [lastSolid_succ hb, hblank]
            rfl
          · rw [hodd, beq_eq_false_iff_ne.2 hbackslash]
            change (cursor.backslashes % 2 == 1) = false
            rw [hzero]
            rfl

/-- A step keeps the agreement. -/
theorem Agrees.over_step
    (h : cursor.Agrees regex line)
    (hrest : cursor.rest = b :: rest) :
    ∃ more, AgreesOver regex line cursor (cursor.step (plainWith regex) b rest) more := by
  rw [step]
  split
  · next hcode => exact ⟨0, h.over_stepCode hcode hrest⟩
  · next hliteral => exact h.over_stepLiteral hliteral hrest

/-- The bytes of a step are read in the span of the cursor. -/
theorem AgreesOver.stretch_eq
    {next : Cursor} {more : Nat}
    (h : AgreesOver regex line cursor next more) :
    SpanTable.stretch cursor next = List.replicate (more + 1) cursor.span := by
  have hwidth : next.offset - cursor.offset = more + 1 := by
    have hoffset := h.offset_eq
    omega
  rw [SpanTable.stretch, hwidth]
  split
  · next hopens =>
      rw [h.eq_zero hopens.1, hopens.1]
      rfl
  · rfl

/-- Along a trail the table says what a reader who looks back sees. -/
theorem Agrees.getElem?_along
    (h : cursor.Agrees regex line)
    (index : Nat)
    (hindex : index ≤ cursor.rest.length) :
    (SpanTable.along (cursor.trail (plainWith regex)))[index]? =
      some (pendingAt regex line (cursor.offset + index)).span := by
  fun_induction trail (plainWith regex) cursor generalizing index with
  | case1 cursor hrest =>
      rw [hrest] at hindex
      rw [Nat.le_zero.1 hindex, Nat.add_zero, ← h.span]
      rfl
  | case2 cursor b rest hrest ih =>
      obtain ⟨more, hover⟩ := h.over_step hrest
      rw [← trail_of_cons hrest, SpanTable.along_trail_of_cons hrest, hover.stretch_eq]
      rcases Nat.lt_or_ge index (more + 1) with hlt | hge
      · rw [List.getElem?_append_left (by rwa [List.length_replicate]), List.getElem?_replicate,
          if_pos hlt, hover.pendingAt_eq index (Nat.le_of_lt_succ hlt)]
      · have hlength : index - (more + 1) ≤
            (cursor.step (plainWith regex) b rest).rest.length := by
          rw [hover.rest_eq, List.length_drop]
          omega
        have hoffset : cursor.offset + more + 1 + (index - (more + 1)) = cursor.offset + index := by
          omega
        rw [List.getElem?_append_right (by rwa [List.length_replicate]), List.length_replicate,
          ih hover.agrees _ hlength, hover.offset_eq, hoffset]

end Cursor

/-- The table of a line says what a reader who looks back sees. -/
theorem SpanTable.spanAt_eq_pendingAt
    (regex : Bool) (line : Bytes) (offset : Nat) :
    (ofLine (Lexer.plainWith regex) line).spanAt offset =
      (Lexer.pendingAt regex line (min offset line.length)).span := by
  have hlength := length_spans_ofLine (Lexer.plainWith regex) line
  have hget (index : Nat) (hindex : index ≤ line.length) :
      (ofLine (Lexer.plainWith regex) line).spans[index]? =
        some (Lexer.pendingAt regex line index).span := by
    have halong := (Cursor.agrees_start regex line).getElem?_along index hindex
    rwa [show (Cursor.start line).offset + index = index from Nat.zero_add index] at halong
  rcases Nat.le_total offset line.length with hle | hle
  · rw [spanAt, hget offset hle, Option.getD_some, Nat.min_eq_left hle]
  · -- From the end on the table answers with its last entry.
    rw [spanAt_of_le (by omega), atEnd, List.getLast?_eq_getElem?, hlength, Nat.add_sub_cancel,
      hget _ (Nat.le_refl _), Option.getD_some, Nat.min_eq_right hle]

namespace Quotes

/--
At every offset of a line, also behind its end, the quotation marks that are open and whether
a regular expression is are what a reader sees who goes byte by byte and looks back.
-/
theorem classify_eq_pendingAt
    (line : Bytes) (offset : Nat) :
    classify line offset = (Lexer.pendingAt false line (min offset line.length)).quotes ∧
      (Lexer.inRegexLiteral line offset = true ↔
        Lexer.pendingAt true line (min offset line.length) = .regex) := by
  have hquotes (pending : Lexer.Pending) : ofSpan pending.span = pending.quotes := by
    cases pending <;> rfl
  have hregex (pending : Lexer.Pending) : pending.span = .regex ↔ pending = .regex := by
    cases pending <;> simp [Lexer.Pending.span]
  constructor
  · rw [← hquotes, ← SpanTable.spanAt_eq_pendingAt false]
    rfl
  · rw [← hregex, ← SpanTable.spanAt_eq_pendingAt true, Lexer.inRegexLiteral, beq_iff_eq]

end Quotes
end Uncomment

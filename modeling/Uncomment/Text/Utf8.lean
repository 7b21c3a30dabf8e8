import Uncomment.Text.Bytes

/-!
# UTF-8

Three views of UTF-8 are needed.

* `Utf8.valid` accepts exactly the well-formed byte strings.  It runs a machine
  with one state for each set of bytes that may come next.
* `Utf8.decode` reads the characters of a well-formed text.  A byte that begins
  no character is read as the replacement character.
* `Utf8.Boundary` says where a text may be cut: anywhere but right before a
  continuation byte.  `Utf8.upTo` and `Utf8.startingAt` cut a text there, and
  answer with a `Fault` for any other offset.
-/

namespace Uncomment

/-- Why a text cannot be cut, or read, at an offset. -/
inductive Fault where
  /-- The offset lies beyond the end of the text. -/
  | pastEnd
  /-- The offset lies inside the bytes of one character. -/
  | insideCharacter
deriving DecidableEq, Repr

namespace Utf8

/-- The bytes that only occur after the first byte of a character. -/
def isContinuation (b : UInt8) : Bool :=
  0x80 ≤ b && b ≤ 0xBF

/-- What may come next: a new character, or the bytes owed by an open one. -/
inductive State where
  /-- Between two characters. -/
  | between
  /-- One continuation byte is owed. -/
  | owesOne
  /-- Two continuation bytes are owed. -/
  | owesTwo
  /-- Three continuation bytes are owed. -/
  | owesThree
  /-- After `E0`: the next byte is at least `A0`, and one more is owed. -/
  | afterE0
  /-- After `ED`: the next byte is at most `9F`, and one more is owed. -/
  | afterED
  /-- After `F0`: the next byte is at least `90`, and two more are owed. -/
  | afterF0
  /-- After `F4`: the next byte is at most `8F`, and two more are owed. -/
  | afterF4
deriving DecidableEq, Repr

/-- The state after the first byte of a character. -/
def State.first (b : UInt8) : Option State :=
  if b < 0x80 then some .between
  else if b < 0xC2 then none
  else if b < 0xE0 then some .owesOne
  else if b == 0xE0 then some .afterE0
  else if b == 0xED then some .afterED
  else if b < 0xF0 then some .owesTwo
  else if b == 0xF0 then some .afterF0
  else if b < 0xF4 then some .owesThree
  else if b == 0xF4 then some .afterF4
  else none

/-- The given state, if the byte lies between two bounds. -/
def State.within (low high b : UInt8) (next : State) : Option State :=
  if low ≤ b && b ≤ high then some next else none

/-- The state after one more byte, if that byte may come here. -/
def State.step (state : State) (b : UInt8) : Option State :=
  match state with
  | .between => State.first b
  | .owesOne => State.within 0x80 0xBF b .between
  | .owesTwo => State.within 0x80 0xBF b .owesOne
  | .owesThree => State.within 0x80 0xBF b .owesTwo
  | .afterE0 => State.within 0xA0 0xBF b .owesOne
  | .afterED => State.within 0x80 0x9F b .owesOne
  | .afterF0 => State.within 0x90 0xBF b .owesTwo
  | .afterF4 => State.within 0x80 0x8F b .owesTwo

/-- The state after a whole byte string, if every byte may come where it does. -/
def State.run : State → Bytes → Option State
  | state, [] => some state
  | state, b :: rest =>
      match state.step b with
      | some next => State.run next rest
      | none => none

/-- Whether a byte string is well-formed UTF-8. -/
def valid (text : Bytes) : Bool :=
  State.run .between text == some .between

/-- The character that stands for unreadable bytes. -/
def replacement : Char := '\uFFFD'

/-- The number of bytes that follow the first byte of a character. -/
def tailLength (b : UInt8) : Nat :=
  if b < 0xC0 then 0
  else if b < 0xE0 then 1
  else if b < 0xF0 then 2
  else 3

/-- The payload of a continuation byte. -/
def payload (b : UInt8) : Nat :=
  b.toNat % 64

/--
The character that starts with byte `b` before `rest`, and the number of bytes
of `rest` that belong to it.
-/
def front (b : UInt8) (rest : Bytes) : Char × Nat :=
  if b < 0x80 then (Char.ofNat b.toNat, 0)
  else if b < 0xC0 then (replacement, 0)
  else if b < 0xE0 then
    match rest with
    | c₁ :: _ => (Char.ofNat (b.toNat % 32 * 64 + payload c₁), 1)
    | [] => (replacement, 0)
  else if b < 0xF0 then
    match rest with
    | c₁ :: c₂ :: _ =>
        (Char.ofNat (b.toNat % 16 * 4096 + payload c₁ * 64 + payload c₂), 2)
    | _ => (replacement, 0)
  else
    match rest with
    | c₁ :: c₂ :: c₃ :: _ =>
        (Char.ofNat
          (b.toNat % 8 * 262144 + payload c₁ * 4096 + payload c₂ * 64 + payload c₃), 3)
    | _ => (replacement, 0)

/-- The characters of a text, of which the next `skip` bytes have been read already. -/
def decodeFrom : Nat → Bytes → List Char
  | _, [] => []
  | skip + 1, _ :: rest => decodeFrom skip rest
  | 0, b :: rest =>
      let (c, more) := front b rest
      c :: decodeFrom more rest

/-- The characters of a well-formed text. -/
def decode (text : Bytes) : List Char :=
  decodeFrom 0 text

/-- Whether what follows a cut is empty or starts a character. -/
def startsClean : Bytes → Bool
  | [] => true
  | b :: _ => !isContinuation b

/-- The offsets at which a text may be cut. -/
def Boundary (text : Bytes) (offset : Nat) : Prop :=
  offset = 0 ∨ offset ≤ text.length ∧ startsClean (text.drop offset) = true

/-- The part of a text from an offset on. -/
def startingAt (text : Bytes) : Nat → Except Fault Bytes
  | 0 => .ok text
  | offset + 1 =>
      match text.drop offset with
      | [] => .error .pastEnd
      | _ :: rest => if startsClean rest then .ok rest else .error .insideCharacter

/-- Check that what follows a cut starts a character. -/
def checkClean (rest : Bytes) : Except Fault Unit :=
  if startsClean rest then .ok () else .error .insideCharacter

/-- The part of a text before an offset. -/
def upTo (text : Bytes) (offset : Nat) : Except Fault Bytes :=
  (startingAt text offset).map fun _ => text.take offset

/-- The byte right before an offset, if there is one. -/
def byteBefore (text : Bytes) (offset : Nat) : Except Fault (Option UInt8) :=
  if offset = 0 then .ok none
  else
    match text[offset - 1]? with
    | some b => .ok (some b)
    | none => .error .pastEnd

/-- At a boundary a text is cut into what comes before and what comes after. -/
theorem startingAt_eq_ok_iff
    (text : Bytes) (offset : Nat) (rest : Bytes) :
    startingAt text offset = .ok rest ↔ Boundary text offset ∧ rest = text.drop offset := by
  cases offset with
  | zero =>
      rw [startingAt, List.drop_zero, Except.ok.injEq]
      exact ⟨fun h => ⟨Or.inl rfl, h.symm⟩, fun h => h.2.symm⟩
  | succ offset =>
      have hdrop : text.drop (offset + 1) = (text.drop offset).tail := by
        rw [List.tail_drop]
      simp only [startingAt, Boundary, hdrop]
      cases htail : text.drop offset with
      | nil =>
          have hlen : text.length ≤ offset := List.drop_eq_nil_iff.1 htail
          simp
          omega
      | cons b more =>
          have hlen : offset < text.length := by
            rcases Nat.lt_or_ge offset text.length with h | h
            · exact h
            · rw [List.drop_eq_nil_iff.2 h] at htail
              cases htail
          dsimp only [List.tail_cons]
          by_cases hclean : startsClean more = true
          · rw [if_pos hclean, Except.ok.injEq]
            exact ⟨fun h => ⟨Or.inr ⟨hlen, hclean⟩, h.symm⟩, fun h => h.2.symm⟩
          · simp [hclean]

/-- The part before a boundary is what precedes it. -/
theorem upTo_eq_ok_iff
    (text : Bytes) (offset : Nat) (front : Bytes) :
    upTo text offset = .ok front ↔ Boundary text offset ∧ front = text.take offset := by
  have h := startingAt_eq_ok_iff text offset
  unfold upTo
  cases hcut : startingAt text offset with
  | ok rest =>
      have hb := ((h rest).1 hcut).1
      rw [Except.map, Except.ok.injEq]
      exact ⟨fun h => ⟨hb, h.symm⟩, fun h => h.2.symm⟩
  | error fault =>
      constructor
      · intro hmap
        simp [Except.map] at hmap
      · rintro ⟨hb, -⟩
        have := (h _).2 ⟨hb, rfl⟩
        rw [hcut] at this
        cases this

end Utf8
end Uncomment

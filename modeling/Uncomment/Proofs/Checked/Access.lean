import Mathlib.Tactic.Common
import Uncomment.Text.Utf8

/-!
# Checked reads

Every place at which a text is read at an index or cut has a name (`Checked.Place`), and
every read there is checked: an index has to lie within the text, and a text is only cut
between two characters.  A read that fails reports its place.
-/

namespace Uncomment
namespace Checked

/-- The places at which texts are read. -/
inductive Place where
  /-- The bytes from the cursor on. -/
  | scanned
  /-- The byte before the prefix of a raw string, and the prefix. -/
  | rawPrefix
  /-- What follows an apostrophe that may start a character literal. -/
  | charLiteral
  /-- The bytes of a closing delimiter. -/
  | closing
  /-- The bytes in which an open literal is searched for its end. -/
  | search
  /-- The bytes that are compared with the start tokens. -/
  | candidate
  /-- The text between two comments. -/
  | kept
  /-- The text behind a start token. -/
  | body
  /-- The text behind the stop token of a comment that an earlier line opens. -/
  | behindComment
  /-- The text on both sides of the end of a literal that an earlier line opens. -/
  | behindLiteral
  /-- The text before a token. -/
  | beforeToken
  /-- The text behind a token. -/
  | afterToken
  /-- The byte before a token. -/
  | previousByte
  /-- The last landmark that opens before a token. -/
  | landmark
  /-- The last header or call before a token. -/
  | hit
  /-- The digits of a colour. -/
  | colour
  /-- The bytes in which format strings are followed. -/
  | formatField
  /-- The backslashes before a token. -/
  | escape
  /-- A comment together with its token. -/
  | comment
  /-- The last word before a token, which may be an address. -/
  | address
deriving DecidableEq, Repr

/-- The item at an index. -/
def entry {α : Type} (place : Place) (items : List α) (index : Nat) : Except Place α :=
  match items[index]? with
  | some item => .ok item
  | none => .error place

/-- The bytes from an index on. -/
def bytesFrom (place : Place) (text : Bytes) (index : Nat) : Except Place Bytes :=
  if index ≤ text.length then .ok (text.drop index) else .error place

/-- The bytes before an index. -/
def bytesUpTo (place : Place) (text : Bytes) (index : Nat) : Except Place Bytes :=
  if index ≤ text.length then .ok (text.take index) else .error place

/-- The text from an offset on. -/
def cutFrom (place : Place) (text : Bytes) (offset : Nat) : Except Place Bytes :=
  (Utf8.startingAt text offset).mapError fun _ => place

/-- The text before an offset. -/
def cutUpTo (place : Place) (text : Bytes) (offset : Nat) : Except Place Bytes :=
  (Utf8.upTo text offset).mapError fun _ => place

/-- The text between two offsets. -/
def cutBetween (place : Place) (text : Bytes) (low high : Nat) : Except Place Bytes := do
  let front ← cutUpTo place text high
  cutFrom place front low

@[simp] theorem ok_bind
    {ε α β : Type} (value : α) (next : α → Except ε β) :
    (Except.ok value >>= next) = next value := by
  rfl

@[simp] theorem error_bind
    {ε α β : Type} (error : ε) (next : α → Except ε β) :
    ((Except.error error : Except ε α) >>= next) = .error error := by
  rfl

@[simp] theorem pure_eq_ok
    {ε α : Type} (value : α) :
    (pure value : Except ε α) = .ok value := by
  rfl

theorem bind_eq_ok_iff
    {ε α β : Type} {result : Except ε α} {next : α → Except ε β} {value : β} :
    (result >>= next) = .ok value ↔ ∃ first, result = .ok first ∧ next first = .ok value := by
  cases result with
  | ok first => simp
  | error error => simp

variable {place : Place} {text : Bytes} {offset : Nat}

theorem entry_of_getElem?
    {α : Type} {items : List α} {index : Nat} {item : α}
    (h : items[index]? = some item) :
    entry place items index = .ok item := by
  rw [entry, h]

theorem bytesFrom_of_le
    (h : offset ≤ text.length) :
    bytesFrom place text offset = .ok (text.drop offset) := by
  rw [bytesFrom, if_pos h]

theorem bytesUpTo_of_le
    (h : offset ≤ text.length) :
    bytesUpTo place text offset = .ok (text.take offset) := by
  rw [bytesUpTo, if_pos h]

theorem cutFrom_of_boundary
    (h : Utf8.Boundary text offset) :
    cutFrom place text offset = .ok (text.drop offset) := by
  rw [cutFrom, (Utf8.startingAt_eq_ok_iff _ _ _).2 ⟨h, rfl⟩]
  rfl

theorem cutUpTo_of_boundary
    (h : Utf8.Boundary text offset) :
    cutUpTo place text offset = .ok (text.take offset) := by
  rw [cutUpTo, (Utf8.upTo_eq_ok_iff _ _ _).2 ⟨h, rfl⟩]
  rfl

theorem cutBetween_of_boundary
    {low high : Nat}
    (hlow : Utf8.Boundary text low)
    (hhigh : Utf8.Boundary text high)
    (hle : low ≤ high) :
    cutBetween place text low high = .ok ((text.take high).drop low) := by
  have hfront : Utf8.Boundary (text.take high) low := by
    rcases hlow with rfl | ⟨hlen, hclean⟩
    · exact Or.inl rfl
    · refine Or.inr ⟨?_, ?_⟩
      · rw [List.length_take]
        omega
      · rw [List.drop_take]
        cases hdrop : text.drop low with
        | nil =>
            rw [List.take_nil]
            rfl
        | cons b rest =>
            rw [hdrop] at hclean
            cases high - low with
            | zero => rfl
            | succ width => exact hclean
  rw [cutBetween, cutUpTo_of_boundary hhigh]
  exact cutFrom_of_boundary hfront

section

variable {line text rest : Bytes} {b : UInt8}

theorem getElem?_of_drop
    (hdrop : line.drop offset = text)
    (index : Nat) :
    (line)[offset + index]? = text[index]? := by
  rw [← hdrop, List.getElem?_drop]

theorem length_of_drop
    (hdrop : line.drop offset = b :: rest) :
    line.length = offset + rest.length + 1 := by
  have hlen := congrArg List.length hdrop
  rw [List.length_drop, List.length_cons] at hlen
  omega

theorem drop_succ_of_drop
    (hdrop : line.drop offset = b :: rest) :
    line.drop (offset + 1) = rest := by
  rw [← List.drop_drop, hdrop]
  rfl

theorem entry_of_drop
    {place : Place} {offset : Nat}
    (hdrop : line.drop offset = b :: rest) :
    entry place line offset = .ok b := by
  exact entry_of_getElem? (getElem?_of_drop hdrop 0)

end

/-- The answer of an unchecked computation, whose only fault is at an address. -/
def located {α : Type} (result : Except Fault α) : Except Place α :=
  result.mapError fun _ => .address

@[simp] theorem located_ok
    {α : Type} (value : α) :
    located (.ok value) = .ok value := by
  rfl

/-- A checked computation that answers as an unchecked one does. -/
def Agrees {α : Type} (checked : Except Place α) (plain : Except Fault α) : Prop :=
  checked = located plain

namespace Agrees

variable {α β : Type} {checked : Except Place α} {plain : Except Fault α}

theorem ok
    (value : α) :
    Agrees (.ok value) (.ok value) := by
  rfl

theorem pure
    (value : α) :
    Agrees (Pure.pure value) (Pure.pure value) := by
  rfl

theorem bind
    {next : α → Except Place β} {next' : α → Except Fault β}
    (h : Agrees checked plain)
    (hnext : ∀ value, Agrees (next value) (next' value)) :
    Agrees (checked >>= next) (plain >>= next') := by
  unfold Agrees at h ⊢
  subst h
  cases plain with
  | ok value => exact hnext value
  | error fault => rfl

/-- A check that does not fail may have no counterpart. -/
theorem ok_bind
    {next : α → Except Place β} {plain : Except Fault β} {value : α}
    (h : checked = .ok value)
    (hnext : Agrees (next value) plain) :
    Agrees (checked >>= next) plain := by
  rw [h]
  exact hnext

theorem ite
    {condition : Prop} [Decidable condition] {yes no : Except Place α} {yes' no' : Except Fault α}
    (hyes : Agrees yes yes')
    (hno : Agrees no no') :
    Agrees (if condition then yes else no) (if condition then yes' else no') := by
  split
  · exact hyes
  · exact hno

/-- Where the unchecked computation succeeds the checked one has the same value. -/
theorem eq_ok
    {value : α}
    (h : Agrees checked plain)
    (hplain : plain = .ok value) :
    checked = .ok value := by
  rw [h, hplain]
  rfl

end Agrees

/-- Where a text is cut without a fault the place does not matter. -/
theorem agrees_cutFrom
    {rest : Bytes}
    (h : Utf8.startingAt text offset = .ok rest) :
    Agrees (cutFrom place text offset) (Utf8.startingAt text offset) := by
  rw [cutFrom, h]
  rfl

theorem agrees_cutUpTo
    {front : Bytes}
    (h : Utf8.upTo text offset = .ok front) :
    Agrees (cutUpTo place text offset) (Utf8.upTo text offset) := by
  rw [cutUpTo, h]
  rfl

end Checked
end Uncomment

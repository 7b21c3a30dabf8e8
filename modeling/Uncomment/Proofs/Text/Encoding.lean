import Uncomment.Proofs.Text.Characters
import Uncomment.Proofs.Text.Divide

/-!
# Well-formed texts

The machine that checks UTF-8 accepts exactly the bytes of characters
(`Utf8.valid_iff_exists_encode`): it accepts those of one character, and at the front of
what it accepts the bytes of a character stand.  So a content is well-formed if and only
if it can be decoded to a string (`Utf8.fromUTF8?_eq_some_iff`).
-/

namespace Uncomment
namespace Utf8

theorem toNat_lt_or_lt
    (c : Char) :
    c.toNat < 0xD800 ∨ 0xDFFF < c.toNat ∧ c.toNat < 0x110000 := by
  exact c.valid

/-- Every code point outside the surrogates is that of a character. -/
theorem exists_char
    {code : Nat}
    (h : code < 0xD800 ∨ 0xDFFF < code ∧ code < 0x110000) :
    ∃ c : Char, c.toNat = code := by
  refine ⟨Char.ofNat code, ?_⟩
  rw [Char.ofNat, dif_pos h]
  rfl

namespace State

/-- What the machine makes of the first byte of a character, in numbers. -/
theorem first_eq
    (b : UInt8) :
    first b =
      if b.toNat < 0x80 then some .between
      else if b.toNat < 0xC2 then none
      else if b.toNat < 0xE0 then some .owesOne
      else if b.toNat = 0xE0 then some .afterE0
      else if b.toNat = 0xED then some .afterED
      else if b.toNat < 0xF0 then some .owesTwo
      else if b.toNat = 0xF0 then some .afterF0
      else if b.toNat < 0xF4 then some .owesThree
      else if b.toNat = 0xF4 then some .afterF4
      else none := by
  simp only [first, UInt8.lt_iff_toNat_lt, beq_iff_eq, ← UInt8.toNat_inj]
  rfl

theorem within_eq
    (low high b : UInt8) (next : State) :
    within low high b next =
      if low.toNat ≤ b.toNat ∧ b.toNat ≤ high.toNat then some next else none := by
  simp only [within, Bool.and_eq_true, decide_eq_true_eq, UInt8.le_iff_toNat_le]

theorem run_cons
    {state next : State} {b : UInt8}
    (h : state.step b = some next)
    (rest : Bytes) :
    run state (b :: rest) = run next rest := by
  rw [run, h]

/-- A byte that is owed comes, and the machine goes on behind it. -/
theorem exists_of_run_within
    {state next : State} {low high : UInt8} {text : Bytes}
    (hstate : state ≠ .between)
    (hstep : ∀ b, state.step b = within low high b next)
    (h : run state text = some .between) :
    ∃ b rest, text = b :: rest ∧ (low.toNat ≤ b.toNat ∧ b.toNat ≤ high.toNat) ∧
      run next rest = some .between := by
  cases text with
  | nil =>
      cases h
      exact absurd rfl hstate
  | cons b rest =>
      rw [run, hstep, within_eq] at h
      split at h
      · next hnext =>
          split at hnext
          · next hin =>
              cases hnext
              exact ⟨b, rest, rfl, hin, h⟩
          · cases hnext
      · cases h

end State

/-- The machine accepts the bytes of a character. -/
theorem valid_utf8EncodeChar
    (c : Char) :
    valid (String.utf8EncodeChar c) = true := by
  have hcode := toNat_lt_or_lt c
  have hencoded := encoded_utf8EncodeChar c
  generalize String.utf8EncodeChar c = bytes at hencoded
  rw [valid, beq_iff_eq]
  have hbyte {code : Nat} (hlt : code < 0x100) : (UInt8.ofNat code).toNat = code := by
    rw [UInt8.toNat_ofNat', Nat.mod_eq_of_lt hlt]
  have htail {low high : UInt8} (code : Nat) (next : State)
      (hin : low.toNat ≤ code % 64 + 0x80 ∧ code % 64 + 0x80 ≤ high.toNat) :
      State.within low high (UInt8.ofNat (code % 64 + 0x80)) next = some next := by
    rw [State.within_eq, hbyte (by omega), if_pos hin]
  have hplain (code : Nat) (next : State) :
      State.within 0x80 0xBF (UInt8.ofNat (code % 64 + 0x80)) next = some next :=
    htail code next ⟨by simp, by simp; omega⟩
  have hlast : State.step .owesOne (.ofNat (c.toNat % 64 + 0x80)) = some .between :=
    hplain c.toNat .between
  cases hencoded with
  | one hlt =>
      have hfirst : State.step .between (.ofNat c.toNat) = some .between := by
        rw [State.step, State.first_eq, hbyte (by omega), if_pos hlt]
      rw [State.run_cons hfirst, State.run]
  | two hle hlt =>
      have hfirst : State.step .between (.ofNat (c.toNat / 64 + 0xC0)) = some .owesOne := by
        rw [State.step, State.first_eq, hbyte (by omega), if_neg (by omega), if_neg (by omega),
          if_pos (by omega)]
      rw [State.run_cons hfirst, State.run_cons hlast, State.run]
  | three hle hlt =>
      -- The second byte tells the surrogates and what takes two bytes from other code points.
      have hopen : ∃ state, State.step .between (.ofNat (c.toNat / 4096 + 0xE0)) = some state ∧
          state.step (.ofNat (c.toNat / 64 % 64 + 0x80)) = some .owesOne := by
        rw [State.step, State.first_eq, hbyte (by omega), if_neg (by omega), if_neg (by omega),
          if_neg (by omega), if_pos (by omega : c.toNat / 4096 + 0xE0 < 0xF0)]
        split_ifs
        · exact ⟨_, rfl, htail _ _ ⟨by simp; omega, by simp; omega⟩⟩
        · exact ⟨_, rfl, htail _ _ ⟨by simp, by simp; omega⟩⟩
        · exact ⟨_, rfl, hplain _ _⟩
      obtain ⟨state, hfirst, hsecond⟩ := hopen
      rw [State.run_cons hfirst, State.run_cons hsecond, State.run_cons hlast, State.run]
  | four hle hlt =>
      have hopen : ∃ state, State.step .between (.ofNat (c.toNat / 262144 + 0xF0)) = some state ∧
          state.step (.ofNat (c.toNat / 4096 % 64 + 0x80)) = some .owesTwo := by
        rw [State.step, State.first_eq, hbyte (by omega), if_neg (by omega), if_neg (by omega),
          if_neg (by omega), if_neg (by omega), if_neg (by omega), if_neg (by omega)]
        split_ifs
        · exact ⟨_, rfl, htail _ _ ⟨by simp; omega, by simp; omega⟩⟩
        · exact ⟨_, rfl, hplain _ _⟩
        · exact ⟨_, rfl, htail _ _ ⟨by simp, by simp; omega⟩⟩
        · omega
      obtain ⟨state, hfirst, hsecond⟩ := hopen
      have hthird : State.step .owesTwo (.ofNat (c.toNat / 64 % 64 + 0x80)) = some .owesOne :=
        hplain (c.toNat / 64) .owesOne
      rw [State.run_cons hfirst, State.run_cons hsecond, State.run_cons hthird,
        State.run_cons hlast, State.run]

theorem valid_encode
    (cs : List Char) :
    valid (encode cs) = true := by
  induction cs with
  | nil => rfl
  | cons c cs ih => exact valid_append (valid_utf8EncodeChar c) ih

/-- Every code point outside the surrogates is encoded as that of a character. -/
theorem exists_encoded
    {code : Nat}
    (h : code < 0xD800 ∨ 0xDFFF < code ∧ code < 0x110000) :
    ∃ c bytes, String.utf8EncodeChar c = bytes ∧ c.toNat = code ∧ Encoded c bytes := by
  obtain ⟨c, hc⟩ := exists_char h
  exact ⟨c, _, rfl, hc, encoded_utf8EncodeChar c⟩

/-- A byte of the ASCII range encodes a character. -/
theorem exists_char_one
    {b : UInt8}
    (hb : b.toNat < 0x80) :
    ∃ c, String.utf8EncodeChar c = [b] := by
  obtain ⟨c, bytes, hbytes, hc, hencoded⟩ := @exists_encoded b.toNat (by omega)
  refine ⟨c, hbytes.trans ?_⟩
  cases hencoded with
  | two | three | four =>
      omega
  | one hlt =>
      rw [hc, UInt8.ofNat_toNat]

/-- Two bytes that the machine accepts as a character encode one. -/
theorem exists_char_two
    {b b₁ : UInt8}
    (hb : 0xC2 ≤ b.toNat ∧ b.toNat < 0xE0)
    (h₁ : 0x80 ≤ b₁.toNat ∧ b₁.toNat ≤ 0xBF) :
    ∃ c, String.utf8EncodeChar c = [b, b₁] := by
  obtain ⟨c, bytes, hbytes, hc, hencoded⟩ :=
    @exists_encoded ((b.toNat - 0xC0) * 64 + (b₁.toNat - 0x80)) (by omega)
  refine ⟨c, hbytes.trans ?_⟩
  cases hencoded with
  | one | three | four =>
      omega
  | two hle hlt =>
      simp only [List.cons.injEq, and_true, ← UInt8.toNat_inj, UInt8.toNat_ofNat']
      omega

theorem exists_char_three
    {b b₁ b₂ : UInt8}
    (hb : 0xE0 ≤ b.toNat ∧ b.toNat < 0xF0)
    (h₁ : 0x80 ≤ b₁.toNat ∧ b₁.toNat ≤ 0xBF)
    (h₂ : 0x80 ≤ b₂.toNat ∧ b₂.toNat ≤ 0xBF)
    (hlow : b.toNat = 0xE0 → 0xA0 ≤ b₁.toNat)
    (hsurrogate : b.toNat = 0xED → b₁.toNat ≤ 0x9F) :
    ∃ c, String.utf8EncodeChar c = [b, b₁, b₂] := by
  obtain ⟨c, bytes, hbytes, hc, hencoded⟩ := @exists_encoded
    ((b.toNat - 0xE0) * 4096 + (b₁.toNat - 0x80) * 64 + (b₂.toNat - 0x80)) (by omega)
  refine ⟨c, hbytes.trans ?_⟩
  cases hencoded with
  | one | two | four =>
      omega
  | three hle hlt =>
      simp only [List.cons.injEq, and_true, ← UInt8.toNat_inj, UInt8.toNat_ofNat']
      omega

theorem exists_char_four
    {b b₁ b₂ b₃ : UInt8}
    (hb : 0xF0 ≤ b.toNat ∧ b.toNat ≤ 0xF4)
    (h₁ : 0x80 ≤ b₁.toNat ∧ b₁.toNat ≤ 0xBF)
    (h₂ : 0x80 ≤ b₂.toNat ∧ b₂.toNat ≤ 0xBF)
    (h₃ : 0x80 ≤ b₃.toNat ∧ b₃.toNat ≤ 0xBF)
    (hlow : b.toNat = 0xF0 → 0x90 ≤ b₁.toNat)
    (hhigh : b.toNat = 0xF4 → b₁.toNat ≤ 0x8F) :
    ∃ c, String.utf8EncodeChar c = [b, b₁, b₂, b₃] := by
  obtain ⟨c, bytes, hbytes, hc, hencoded⟩ := @exists_encoded
    ((b.toNat - 0xF0) * 262144 + (b₁.toNat - 0x80) * 4096 + (b₂.toNat - 0x80) * 64 +
      (b₃.toNat - 0x80)) (by omega)
  refine ⟨c, hbytes.trans ?_⟩
  cases hencoded with
  | one | two | three =>
      omega
  | four hle hlt =>
      simp only [List.cons.injEq, and_true, ← UInt8.toNat_inj, UInt8.toNat_ofNat']
      omega

/-- A character stands at the front of a text, and the machine accepts what follows. -/
def OpensWithChar (text : Bytes) : Prop :=
  ∃ c more, text = String.utf8EncodeChar c ++ more ∧ State.run .between more = some .between

theorem opensWithChar_append
    {bytes more : Bytes}
    (hbytes : ∃ c, String.utf8EncodeChar c = bytes)
    (hmore : State.run .between more = some .between) :
    OpensWithChar (bytes ++ more) := by
  obtain ⟨c, rfl⟩ := hbytes
  exact ⟨c, more, rfl, hmore⟩

section

variable {b : UInt8} {rest : Bytes} {state : State} {low high : UInt8}

/-- A character of two bytes comes where one byte is owed. -/
theorem opensWithChar_two
    (hrun : State.run .owesOne rest = some .between)
    (hchar : ∀ b₁ : UInt8, 0x80 ≤ b₁.toNat ∧ b₁.toNat ≤ 0xBF →
      ∃ c, String.utf8EncodeChar c = [b, b₁]) :
    OpensWithChar (b :: rest) := by
  obtain ⟨b₁, more, rfl, h₁, hmore⟩ :=
    State.exists_of_run_within (by decide) (fun _ => rfl) hrun
  exact opensWithChar_append (hchar b₁ h₁) hmore

/-- A character of three bytes comes where the machine waits for a second byte within bounds. -/
theorem opensWithChar_three
    (hstate : state ≠ .between)
    (hstep : ∀ b, state.step b = State.within low high b .owesOne)
    (hrun : State.run state rest = some .between)
    (hchar : ∀ b₁ b₂ : UInt8, low.toNat ≤ b₁.toNat ∧ b₁.toNat ≤ high.toNat →
      0x80 ≤ b₂.toNat ∧ b₂.toNat ≤ 0xBF → ∃ c, String.utf8EncodeChar c = [b, b₁, b₂]) :
    OpensWithChar (b :: rest) := by
  obtain ⟨b₁, rest, rfl, h₁, hrun⟩ := State.exists_of_run_within hstate hstep hrun
  obtain ⟨b₂, more, rfl, h₂, hmore⟩ :=
    State.exists_of_run_within (by decide) (fun _ => rfl) hrun
  exact opensWithChar_append (hchar b₁ b₂ h₁ h₂) hmore

theorem opensWithChar_four
    (hstate : state ≠ .between)
    (hstep : ∀ b, state.step b = State.within low high b .owesTwo)
    (hrun : State.run state rest = some .between)
    (hchar : ∀ b₁ b₂ b₃ : UInt8, low.toNat ≤ b₁.toNat ∧ b₁.toNat ≤ high.toNat →
      0x80 ≤ b₂.toNat ∧ b₂.toNat ≤ 0xBF → 0x80 ≤ b₃.toNat ∧ b₃.toNat ≤ 0xBF →
        ∃ c, String.utf8EncodeChar c = [b, b₁, b₂, b₃]) :
    OpensWithChar (b :: rest) := by
  obtain ⟨b₁, rest, rfl, h₁, hrun⟩ := State.exists_of_run_within hstate hstep hrun
  obtain ⟨b₂, rest, rfl, h₂, hrun⟩ :=
    State.exists_of_run_within (by decide) (fun _ => rfl) hrun
  obtain ⟨b₃, more, rfl, h₃, hmore⟩ :=
    State.exists_of_run_within (by decide) (fun _ => rfl) hrun
  exact opensWithChar_append (hchar b₁ b₂ b₃ h₁ h₂ h₃) hmore

end

/-- At the front of a text that the machine accepts a character stands. -/
theorem opensWithChar_of_run
    {b : UInt8} {rest : Bytes}
    (h : State.run .between (b :: rest) = some .between) :
    OpensWithChar (b :: rest) := by
  rw [State.run, State.step, State.first_eq] at h
  have hbounds : (0x80 : UInt8).toNat = 0x80 ∧ (0x8F : UInt8).toNat = 0x8F ∧
      (0x90 : UInt8).toNat = 0x90 ∧ (0x9F : UInt8).toNat = 0x9F ∧
      (0xA0 : UInt8).toNat = 0xA0 ∧ (0xBF : UInt8).toNat = 0xBF := by
    decide
  split_ifs at h with hascii hlead hpair hE0 hED htriple hF0 hquad hF4 <;> dsimp only at h
  · exact opensWithChar_append (exists_char_one hascii) h
  · exact opensWithChar_two h fun b₁ h₁ => exists_char_two ⟨by omega, hpair⟩ h₁
  iterate 3
    refine opensWithChar_three (by decide) (fun _ => rfl) h fun b₁ b₂ h₁ h₂ => ?_
    exact exists_char_three (by omega) (by omega) h₂ (by omega) (by omega)
  iterate 3
    refine opensWithChar_four (by decide) (fun _ => rfl) h fun b₁ b₂ b₃ h₁ h₂ h₃ => ?_
    exact exists_char_four (by omega) (by omega) h₂ h₃ (by omega) (by omega)

/-- The machine accepts exactly the bytes of characters. -/
theorem valid_iff_exists_encode
    {text : Bytes} :
    valid text = true ↔ ∃ cs, encode cs = text := by
  constructor
  · intro h
    rw [valid, beq_iff_eq] at h
    induction hlen : text.length using Nat.strong_induction_on generalizing text with
    | _ length ih =>
        cases text with
        | nil =>
            exact ⟨[], rfl⟩
        | cons b rest =>
            obtain ⟨c, more, heq, hmore⟩ := opensWithChar_of_run h
            obtain ⟨first, tail, hbytes, -⟩ := exists_bytes c
            have hlt : more.length < length := by
              rw [← hlen, heq, hbytes, List.length_append, List.length_cons]
              omega
            obtain ⟨cs, rfl⟩ := ih more.length hlt hmore rfl
            exact ⟨c :: cs, heq.symm⟩
  · rintro ⟨cs, rfl⟩
    exact valid_encode cs

/-- A string is kept as the array of its bytes. -/
theorem toByteArray_ofString
    (text : String) :
    (Bytes.ofString text).toByteArray = text.toByteArray := by
  have harray := @String.toByteArray_ofList text.toList
  rw [String.ofList_toList] at harray
  exact harray.symm

/-- A content is decoded to the string whose bytes it consists of. -/
theorem fromUTF8?_eq_some_iff
    {content : Bytes} {text : String} :
    String.fromUTF8? content.toByteArray = some text ↔ Bytes.ofString text = content := by
  rw [← List.toByteArray_inj, toByteArray_ofString, String.fromUTF8?]
  split
  · rw [Option.some.injEq, ← String.toByteArray_inj, String.fromUTF8]
    exact eq_comm
  · next hno =>
      simp only [reduceCtorEq, false_iff]
      intro heq
      exact hno (heq ▸ text.isValidUTF8)

/-- A content is well-formed if it is that of a string. -/
theorem valid_iff_exists_ofString
    {content : Bytes} :
    valid content = true ↔ ∃ text : String, Bytes.ofString text = content := by
  rw [valid_iff_exists_encode]
  constructor
  · rintro ⟨cs, rfl⟩
    exact ⟨String.ofList cs, by rw [Bytes.ofString, String.toList_ofList, encode]⟩
  · rintro ⟨text, rfl⟩
    exact ⟨text.toList, rfl⟩

end Utf8
end Uncomment

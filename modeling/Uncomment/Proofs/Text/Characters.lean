import Mathlib.Data.List.Pairwise
import Mathlib.Tactic.Common
import Uncomment.Proofs.Text.Placement

/-!
# Texts of characters

The bytes of a list of characters (`Utf8.encode`).  The first byte of a character is no
continuation byte and says how many of them follow, so

* such a text is cut between two characters wherever a character starts
  (`Utf8.exists_of_encode_eq_append`);
* what stands behind given characters are characters again
  (`Utf8.exists_of_encode_eq_encode_append`);
* the rows of such a text are such texts (`Utf8.exists_of_unlines_eq_encode`).
-/

namespace Uncomment
namespace Utf8

/-- The bytes of characters. -/
def encode (cs : List Char) : Bytes :=
  cs.flatMap String.utf8EncodeChar

@[simp] theorem encode_nil :
    encode [] = [] := by
  rfl

@[simp] theorem encode_cons
    (c : Char) (cs : List Char) :
    encode (c :: cs) = String.utf8EncodeChar c ++ encode cs := by
  rfl

@[simp] theorem encode_append
    (cs ds : List Char) :
    encode (cs ++ ds) = encode cs ++ encode ds := by
  simp [encode]

/-- The bytes of a character, by the number that its code point takes. -/
inductive Encoded (c : Char) : Bytes → Prop
  | one :
      c.toNat < 0x80 →
      Encoded c [.ofNat c.toNat]
  | two :
      0x80 ≤ c.toNat → c.toNat < 0x800 →
      Encoded c [.ofNat (c.toNat / 64 + 0xC0), .ofNat (c.toNat % 64 + 0x80)]
  | three :
      0x800 ≤ c.toNat → c.toNat < 0x10000 →
      Encoded c [.ofNat (c.toNat / 4096 + 0xE0), .ofNat (c.toNat / 64 % 64 + 0x80),
        .ofNat (c.toNat % 64 + 0x80)]
  | four :
      0x10000 ≤ c.toNat → c.toNat < 0x110000 →
      Encoded c [.ofNat (c.toNat / 262144 + 0xF0), .ofNat (c.toNat / 4096 % 64 + 0x80),
        .ofNat (c.toNat / 64 % 64 + 0x80), .ofNat (c.toNat % 64 + 0x80)]

theorem encoded_utf8EncodeChar
    (c : Char) :
    Encoded c (String.utf8EncodeChar c) := by
  have hlt : c.toNat < 0x110000 := by
    rcases c.valid with h | h <;> simp at h <;> omega
  have hval : c.val.toNat = c.toNat := rfl
  unfold String.utf8EncodeChar
  simp only [hval]
  split
  · exact .one (by omega)
  · split
    · rw [Nat.mod_eq_of_lt (by omega : c.toNat / 64 < 32)]
      exact .two (by omega) (by omega)
    · split
      · rw [Nat.mod_eq_of_lt (by omega : c.toNat / 4096 < 16)]
        exact .three (by omega) (by omega)
      · rw [Nat.mod_eq_of_lt (by omega : c.toNat / 262144 < 8)]
        exact .four (by omega) hlt

/-- The first byte of a character says how many continuation bytes follow. -/
theorem exists_bytes
    (c : Char) :
    ∃ b tail, String.utf8EncodeChar c = b :: tail ∧ isContinuation b = false ∧
      tail.length = tailLength b ∧ ∀ d ∈ tail, isContinuation d = true := by
  have hencoded := encoded_utf8EncodeChar c
  generalize String.utf8EncodeChar c = bytes at hencoded
  cases hencoded with
  | one hlt =>
      refine ⟨_, _, rfl, ?_, ?_, by simp⟩
      · simp [isContinuation, UInt8.le_iff_toNat_le]
        omega
      · simp [tailLength, UInt8.lt_iff_toNat_lt]
        omega
  | two hle hlt | three hle hlt | four hle hlt =>
      refine ⟨_, _, rfl, ?_, ?_, ?_⟩
      · simp [isContinuation, UInt8.le_iff_toNat_le]
        omega
      · simp [tailLength, UInt8.lt_iff_toNat_lt]
        repeat' split
        all_goals omega
      · simp [isContinuation, UInt8.le_iff_toNat_le]
        omega

theorem startsClean_encode
    (cs : List Char) :
    startsClean (encode cs) = true := by
  cases cs with
  | nil =>
      rfl
  | cons c cs =>
      obtain ⟨b, tail, hbytes, hlead, -⟩ := exists_bytes c
      simp [hbytes, startsClean, hlead]

/-- A text of characters that is cut where a character starts is cut between characters. -/
theorem exists_of_encode_eq_append
    {cs : List Char} {front back : Bytes}
    (h : encode cs = front ++ back)
    (hclean : startsClean back = true) :
    ∃ as bs, cs = as ++ bs ∧ encode as = front ∧ encode bs = back := by
  induction cs generalizing front with
  | nil =>
      obtain ⟨rfl, rfl⟩ : front = [] ∧ back = [] := by simpa using h.symm
      exact ⟨[], [], rfl, rfl, rfl⟩
  | cons c cs ih =>
      cases front with
      | nil =>
          exact ⟨[], c :: cs, rfl, rfl, h⟩
      | cons first front =>
          obtain ⟨b, tail, hbytes, -, -, htail⟩ := exists_bytes c
          rw [encode_cons, hbytes, List.cons_append, List.cons_append, List.cons.injEq] at h
          obtain ⟨rfl, h⟩ := h
          rcases List.append_eq_append_iff.1 h with ⟨more, rfl, hcs⟩ | ⟨more, rfl, rfl⟩
          · obtain ⟨as, bs, rfl, rfl, rfl⟩ := ih hcs
            exact ⟨c :: as, bs, rfl, by simp [hbytes], rfl⟩
          · -- The cut lies among the continuation bytes of the character.
            cases more with
            | nil =>
                exact ⟨[c], cs, rfl, by simp [hbytes], rfl⟩
            | cons d more =>
                have hd := htail d (by simp)
                simp [startsClean, hd] at hclean

/-- The part of a text of characters from an offset on at which a character starts. -/
theorem exists_of_startsClean_drop
    {cs : List Char} {offset : Nat}
    (hclean : startsClean ((encode cs).drop offset) = true) :
    ∃ as bs, cs = as ++ bs ∧ encode as = (encode cs).take offset ∧
      encode bs = (encode cs).drop offset := by
  exact exists_of_encode_eq_append (List.take_append_drop offset (encode cs)).symm hclean

/-- Behind a boundary a text of characters goes on with characters. -/
theorem Boundary.exists_encode_eq_drop
    {cs : List Char} {offset : Nat}
    (h : Boundary (encode cs) offset) :
    ∃ bs, encode bs = (encode cs).drop offset := by
  rcases h with rfl | ⟨-, hclean⟩
  · exact ⟨cs, rfl⟩
  · obtain ⟨_, bs, -, -, hbs⟩ := exists_of_startsClean_drop hclean
    exact ⟨bs, hbs⟩

theorem Boundary.exists_encode_eq_take
    {cs : List Char} {offset : Nat}
    (h : Boundary (encode cs) offset) :
    ∃ as, encode as = (encode cs).take offset := by
  rcases h with rfl | ⟨-, hclean⟩
  · exact ⟨[], rfl⟩
  · obtain ⟨as, _, -, has, -⟩ := exists_of_startsClean_drop hclean
    exact ⟨as, has⟩

/-- A byte of the ASCII range is a character of its own. -/
theorem utf8EncodeChar_eq_singleton
    {c : Char} {b : UInt8}
    (hb : b ∈ String.utf8EncodeChar c)
    (hascii : b < 0x80) :
    String.utf8EncodeChar c = [b] ∧ c.toNat = b.toNat := by
  have hencoded := encoded_utf8EncodeChar c
  generalize String.utf8EncodeChar c = bytes at hb hencoded
  rw [UInt8.lt_iff_toNat_lt] at hascii
  cases hencoded with
  | one hlt =>
      obtain rfl := List.mem_singleton.1 hb
      refine ⟨rfl, ?_⟩
      simp
      omega
  | two hle hlt | three hle hlt | four hle hlt =>
      simp only [List.mem_cons, List.not_mem_nil, or_false, ← UInt8.toNat_inj,
        UInt8.toNat_ofNat'] at hb
      have : (0x80 : UInt8).toNat = 0x80 := rfl
      omega

/-- In a text of characters, characters start where they should. -/
theorem placed_encode
    (cs : List Char) :
    Placed (encode cs) := by
  induction cs with
  | nil =>
      exact .nil
  | cons c cs ih =>
      rw [encode_cons, Placed, List.isChain_append]
      refine ⟨?_, ih, ?_⟩
      · refine (List.pairwise_of_forall_mem_list fun b hb next hnext hascii => ?_).isChain
        obtain ⟨hbytes, -⟩ := utf8EncodeChar_eq_singleton hb hascii
        rw [hbytes, List.mem_singleton] at hnext
        subst hnext
        rw [isContinuation, decide_eq_false (UInt8.not_le.2 hascii), Bool.false_and]
      · intro b _ next hnext _
        have hclean := startsClean_encode cs
        cases hcs : encode cs with
        | nil =>
            rw [hcs] at hnext
            cases hnext
        | cons first rest =>
            rw [hcs] at hnext hclean
            cases hnext
            simpa [startsClean] using hclean

/-- No character is encoded by the first bytes of another one. -/
theorem eq_of_utf8EncodeChar_append
    {c d : Char} {x y : Bytes}
    (h : String.utf8EncodeChar c ++ x = String.utf8EncodeChar d ++ y) :
    c = d ∧ x = y := by
  obtain ⟨b, tail, hc, -, hctail, -⟩ := exists_bytes c
  obtain ⟨b', tail', hd, -, hdtail, -⟩ := exists_bytes d
  have hlen : (String.utf8EncodeChar c).length = (String.utf8EncodeChar d).length := by
    rw [hc, hd, List.cons_append, List.cons_append, List.cons.injEq] at h
    rw [hc, hd, List.length_cons, List.length_cons, hctail, hdtail, h.1]
  obtain ⟨hbytes, htail⟩ := List.append_inj h hlen
  refine ⟨?_, htail⟩
  have hdecode (e : Char) :=
    @ByteArray.utf8DecodeChar?_utf8EncodeChar_append ByteArray.empty e
  have hsame := hdecode c
  rw [hbytes, hdecode d] at hsame
  exact (Option.some.inj hsame).symm

/-- Characters at the front of a text of characters are its first ones. -/
theorem exists_of_encode_eq_encode_append
    {cs as : List Char} {rest : Bytes}
    (h : encode cs = encode as ++ rest) :
    ∃ bs, cs = as ++ bs ∧ encode bs = rest := by
  induction as generalizing cs with
  | nil =>
      exact ⟨cs, rfl, h⟩
  | cons a as ih =>
      cases cs with
      | nil =>
          obtain ⟨b, tail, hbytes, -⟩ := exists_bytes a
          simp [hbytes] at h
      | cons c cs =>
          rw [encode_cons, encode_cons, List.append_assoc] at h
          obtain ⟨rfl, hrest⟩ := eq_of_utf8EncodeChar_append h
          obtain ⟨bs, rfl, hbs⟩ := ih hrest
          exact ⟨bs, rfl, hbs⟩

/-- Different characters have different bytes. -/
theorem encode_injective :
    Function.Injective encode := by
  intro cs as h
  have hrest : encode cs = encode as ++ [] := by rw [h, List.append_nil]
  obtain ⟨bs, rfl, hbs⟩ := exists_of_encode_eq_encode_append hrest
  cases bs with
  | nil =>
      exact List.append_nil as
  | cons b bs =>
      obtain ⟨first, tail, hbytes, -⟩ := exists_bytes b
      simp [hbytes] at hbs

/-- Rows put together, each with a separator behind it. -/
theorem intercalate_append_sep
    {α : Type} (sep : α) {rows : List (List α)}
    (hne : rows ≠ []) :
    [sep].intercalate rows ++ [sep] = rows.flatMap (· ++ [sep]) := by
  induction rows with
  | nil =>
      exact absurd rfl hne
  | cons row more ih =>
      cases more with
      | nil =>
          simp
      | cons next more =>
          have hmore := ih (by simp)
          rw [List.intercalate_cons_cons, List.flatMap_cons, ← hmore]
          simp

theorem encode_intercalate
    (rows : List (List Char)) :
    encode (['\n'].intercalate rows) = Bytes.unlines (rows.map encode) := by
  induction rows with
  | nil =>
      rfl
  | cons row more ih =>
      cases more with
      | nil =>
          simp [Bytes.unlines]
      | cons next more =>
          have hfeed : encode ['\n'] = [Byte.lineFeed] := rfl
          rw [List.intercalate_cons_cons, encode_append, encode_append, ih, hfeed, Bytes.unlines,
            Bytes.unlines, List.map_cons, List.map_cons, List.map_cons, List.intercalate_cons_cons]

/-- The rows of a text of characters are rows of characters. -/
theorem exists_of_unlines_eq_encode
    {rows : List Bytes} {cs : List Char}
    (hne : rows ≠ [])
    (h : Bytes.unlines rows = encode cs) :
    ∃ css : List (List Char), rows = css.map encode ∧ ['\n'].intercalate css = cs := by
  induction rows generalizing cs with
  | nil =>
      exact absurd rfl hne
  | cons row more ih =>
      cases more with
      | nil =>
          refine ⟨[cs], ?_, by simp⟩
          simpa [Bytes.unlines] using h
      | cons next more =>
          have hcut : encode cs = row ++ (encode ['\n'] ++ Bytes.unlines (next :: more)) := by
            rw [← h, Bytes.unlines, List.intercalate_cons_cons, List.append_assoc]
            rfl
          obtain ⟨as, bs, rfl, rfl, hbs⟩ := exists_of_encode_eq_append hcut rfl
          obtain ⟨ds, rfl, hds⟩ := exists_of_encode_eq_encode_append hbs
          obtain ⟨css, hcss, rfl⟩ := ih (by simp) hds.symm
          refine ⟨as :: css, by rw [hcss]; rfl, ?_⟩
          rw [List.intercalate_cons_of_ne_nil]
          · simp
          · rintro rfl
            cases hcss

end Utf8
end Uncomment

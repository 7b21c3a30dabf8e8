import Uncomment.Proofs.Text.Characters
import Uncomment.Text.Blank

/-!
# The last word of a text

White space is searched for from the end of a text on, byte by byte.  In a text of
characters this finds the last white-space character and nothing else
(`Blank.lastWhite?_of_isWhite`, `Blank.lastWhite?_of_word`): the bytes that encode white
space do not stand inside another character (`Blank.eq_of_isSuffix_append`).

The last word is cut out one byte after the start of the white space, which is between
two characters exactly if the white space takes one byte (`Blank.lastWord_fails_iff`).
-/

namespace Uncomment
namespace Blank

/-- The code points of the white-space characters. -/
def whiteCodes : List Nat :=
  [0x09, 0x0A, 0x0B, 0x0C, 0x0D, 0x20, 0x85, 0xA0, 0x1680, 0x2000, 0x2001, 0x2002, 0x2003, 0x2004,
   0x2005, 0x2006, 0x2007, 0x2008, 0x2009, 0x200A, 0x2028, 0x2029, 0x202F, 0x205F, 0x3000]

/-- The white-space characters. -/
def whites : List Char :=
  whiteCodes.map Char.ofNat

theorem mem_whites_iff
    {c : Char} :
    c ∈ whites ↔ isWhite c = true := by
  constructor
  · have hall : whites.all isWhite = true := by decide
    exact List.all_eq_true.1 hall c
  · intro h
    have hcode : c.toNat ∈ whiteCodes := by
      simp [isWhite] at h
      simp [whiteCodes]
      omega
    exact List.mem_map.2 ⟨_, hcode, Char.ofNat_toNat c⟩

theorem map_whites :
    whites.map String.utf8EncodeChar =
      [[0x09], [0x0A], [0x0B], [0x0C], [0x0D], [0x20], [0xC2, 0x85], [0xC2, 0xA0],
       [0xE1, 0x9A, 0x80], [0xE2, 0x80, 0x80], [0xE2, 0x80, 0x81], [0xE2, 0x80, 0x82],
       [0xE2, 0x80, 0x83], [0xE2, 0x80, 0x84], [0xE2, 0x80, 0x85], [0xE2, 0x80, 0x86],
       [0xE2, 0x80, 0x87], [0xE2, 0x80, 0x88], [0xE2, 0x80, 0x89], [0xE2, 0x80, 0x8A],
       [0xE2, 0x80, 0xA8], [0xE2, 0x80, 0xA9], [0xE2, 0x80, 0xAF], [0xE2, 0x81, 0x9F],
       [0xE3, 0x80, 0x80]] := by
  decide

theorem mem_of_isNarrow
    {b : UInt8}
    (h : isNarrow b = true) :
    [b] ∈ whites.map String.utf8EncodeChar := by
  rw [map_whites]
  simp [isNarrow, UInt8.le_iff_toNat_le, ← UInt8.toNat_inj] at h ⊢
  omega

theorem mem_of_isPair
    {b₁ b₂ : UInt8}
    (h : isPair b₁ b₂ = true) :
    [b₁, b₂] ∈ whites.map String.utf8EncodeChar := by
  rw [map_whites]
  simp [isPair, ← UInt8.toNat_inj] at h ⊢
  omega

theorem mem_of_isTriple
    {b₁ b₂ b₃ : UInt8}
    (h : isTriple b₁ b₂ b₃ = true) :
    [b₁, b₂, b₃] ∈ whites.map String.utf8EncodeChar := by
  rw [map_whites]
  simp only [isTriple, Bool.or_eq_true, Bool.and_eq_true, beq_iff_eq, decide_eq_true_eq] at h
  rcases h with ((⟨⟨rfl, rfl⟩, rfl⟩ | ⟨⟨rfl, rfl⟩, hthird⟩) | ⟨⟨rfl, rfl⟩, rfl⟩) |
    ⟨⟨rfl, rfl⟩, rfl⟩
  · decide
  · simp [UInt8.le_iff_toNat_le, ← UInt8.toNat_inj] at hthird ⊢
    omega
  · decide
  · decide

/-- What is measured at the end of a text are the bytes of a white-space character. -/
theorem exists_white_of_whiteWidthBack
    {text : Bytes}
    (h : whiteWidthBack text ≠ 0) :
    ∃ c, isWhite c = true ∧ (String.utf8EncodeChar c).reverse <+: text := by
  have hwhite {bytes : Bytes} (hmem : bytes ∈ whites.map String.utf8EncodeChar)
      (hpre : bytes.reverse <+: text) :
      ∃ c, isWhite c = true ∧ (String.utf8EncodeChar c).reverse <+: text := by
    obtain ⟨c, hc, rfl⟩ := List.mem_map.1 hmem
    exact ⟨c, mem_whites_iff.1 hc, hpre⟩
  unfold whiteWidthBack at h
  repeat' split at h
  · exact absurd rfl h
  · next hnarrow => exact hwhite (mem_of_isNarrow hnarrow) (by simp)
  · exact absurd rfl h
  · exact absurd rfl h
  · next hpair => exact hwhite (mem_of_isPair hpair) (by simp)
  · exact absurd rfl h
  · next htriple => exact hwhite (mem_of_isTriple htriple) (by simp)
  · exact absurd rfl h

/-- A white-space character at the end of a text is measured, whatever comes before it. -/
theorem whiteWidthBack_of_isWhite
    {c : Char}
    (hc : isWhite c = true)
    (front : Bytes) :
    whiteWidthBack ((String.utf8EncodeChar c).reverse ++ front) =
      (String.utf8EncodeChar c).length := by
  have hbytes := List.mem_map_of_mem (mem_whites_iff.2 hc) (f := String.utf8EncodeChar)
  generalize String.utf8EncodeChar c = bytes at hbytes
  rw [map_whites] at hbytes
  simp only [List.mem_cons, List.not_mem_nil, or_false] at hbytes
  rcases hbytes with rfl | rfl | rfl | rfl | rfl | rfl | rfl | rfl | rfl | rfl | rfl | rfl | rfl |
    rfl | rfl | rfl | rfl | rfl | rfl | rfl | rfl | rfl | rfl | rfl | rfl <;> rfl

/-- The bytes of a character that stand at the end of a part of one are that character. -/
theorem eq_of_isSuffix_append
    {cs : List Char} {c w : Char} {part : Bytes}
    (hpart : part <+: String.utf8EncodeChar c)
    (hne : part ≠ [])
    (hw : String.utf8EncodeChar w <:+ Utf8.encode cs ++ part) :
    w = c := by
  obtain ⟨b, tail, hc, hb, -, htail⟩ := Utf8.exists_bytes c
  obtain ⟨d, tail', hd', hd, -, htail'⟩ := Utf8.exists_bytes w
  have hsame : String.utf8EncodeChar w = part := by
    obtain ⟨front, hfront⟩ := hw
    cases part with
    | nil =>
        exact absurd rfl hne
    | cons first part =>
        rw [hc, List.cons_prefix_cons] at hpart
        obtain ⟨rfl, hpart⟩ := hpart
        rw [hd'] at hfront ⊢
        rcases List.append_eq_append_iff.1 hfront with ⟨more, -, hmore⟩ | ⟨more, -, hmore⟩
        · cases more with
          | nil =>
              exact hmore
          | cons x more =>
              rw [List.cons_append, List.cons.injEq] at hmore
              rw [htail' first (by simp [hmore.2])] at hb
              cases hb
        · cases more with
          | nil =>
              exact hmore.symm
          | cons x more =>
              rw [List.cons_append, List.cons.injEq] at hmore
              rw [htail d (hpart.subset (by simp [hmore.2]))] at hd
              cases hd
  obtain ⟨more, hmore⟩ := hpart
  rw [← hsame, ← List.append_nil (String.utf8EncodeChar c)] at hmore
  exact (Utf8.eq_of_utf8EncodeChar_append hmore).1

/-- A character that is not white is passed byte by byte. -/
theorem lastWhiteFrom_append
    {c : Char} {part : Bytes}
    (hc : isWhite c = false)
    (hpart : part <+: String.utf8EncodeChar c)
    (cs : List Char) (length passed : Nat) :
    lastWhiteFrom length passed (Utf8.encode cs ++ part).reverse =
      lastWhiteFrom length (passed + part.length) (Utf8.encode cs).reverse := by
  induction part using List.reverseRecOn generalizing passed with
  | nil =>
      simp
  | append_singleton part b ih =>
      have hzero : whiteWidthBack (Utf8.encode cs ++ (part ++ [b])).reverse = 0 := by
        by_contra hwidth
        obtain ⟨w, hw, hpre⟩ := exists_white_of_whiteWidthBack hwidth
        rw [List.reverse_prefix] at hpre
        obtain rfl := eq_of_isSuffix_append hpart (by simp) hpre
        rw [hw] at hc
        cases hc
      have hmore := ih ((List.prefix_append part [b]).trans hpart) (passed + 1)
      rw [← List.append_assoc, List.reverse_append, List.reverse_singleton,
        List.singleton_append] at hzero ⊢
      rw [lastWhiteFrom, hzero, List.length_append, List.length_singleton,
        Nat.add_comm part.length 1, ← Nat.add_assoc]
      exact hmore

theorem lastWhiteFrom_word
    {word : List Char}
    (hword : ∀ d ∈ word, isWhite d = false)
    (cs : List Char) (length passed : Nat) :
    lastWhiteFrom length passed (Utf8.encode (cs ++ word)).reverse =
      lastWhiteFrom length (passed + (Utf8.encode word).length) (Utf8.encode cs).reverse := by
  induction word using List.reverseRecOn generalizing passed with
  | nil =>
      simp
  | append_singleton word d ih =>
      have hd : isWhite d = false := hword d (by simp)
      have hmore := ih (fun e he => hword e (by simp [he]))
        (passed + (String.utf8EncodeChar d).length)
      have hlast := lastWhiteFrom_append hd List.prefix_rfl (cs ++ word) length passed
      rw [← List.append_assoc, Utf8.encode_append, show Utf8.encode [d] = String.utf8EncodeChar d by
        simp, hlast, hmore]
      congr 1
      simp
      omega

/-- In a word no white space is found. -/
theorem lastWhite?_of_word
    {word : List Char}
    (hword : ∀ d ∈ word, isWhite d = false) :
    lastWhite? (Utf8.encode word) = none := by
  exact lastWhiteFrom_word hword [] _ 0

/-- The white space that is found is the one before the last word. -/
theorem lastWhite?_of_isWhite
    {c : Char} {word : List Char}
    (hc : isWhite c = true)
    (hword : ∀ d ∈ word, isWhite d = false)
    (front : List Char) :
    lastWhite? (Utf8.encode (front ++ c :: word)) = some (Utf8.encode front).length := by
  obtain ⟨b, tail, hbytes, -⟩ := Utf8.exists_bytes c
  have hwidth := whiteWidthBack_of_isWhite hc (Utf8.encode front).reverse
  have hsplit : front ++ c :: word = (front ++ [c]) ++ word := by simp
  rw [lastWhite?, hsplit, lastWhiteFrom_word hword]
  have hreverse : (Utf8.encode (front ++ [c])).reverse =
      (String.utf8EncodeChar c).reverse ++ (Utf8.encode front).reverse := by simp
  rw [hreverse]
  cases htext : (String.utf8EncodeChar c).reverse ++ (Utf8.encode front).reverse with
  | nil =>
      simp [hbytes] at htext
  | cons first rest =>
      rw [htext] at hwidth
      have hpos : 0 < (String.utf8EncodeChar c).length := by simp [hbytes]
      rw [lastWhiteFrom, hwidth]
      split
      · omega
      · simp
        omega

/-- A text is one word, or it has a last white-space character. -/
theorem exists_last_white
    (cs : List Char) :
    (∀ d ∈ cs, isWhite d = false) ∨
      ∃ front c word, cs = front ++ c :: word ∧ isWhite c = true ∧
        ∀ d ∈ word, isWhite d = false := by
  induction cs with
  | nil =>
      exact Or.inl (by simp)
  | cons first cs ih =>
      rcases ih with hword | ⟨front, c, word, rfl, hc, hword⟩
      · cases hfirst : isWhite first with
        | true => exact Or.inr ⟨[], first, cs, rfl, hfirst, hword⟩
        | false => exact Or.inl (List.forall_mem_cons.2 ⟨hfirst, hword⟩)
      · exact Or.inr ⟨first :: front, c, word, rfl, hc, hword⟩

/-- The last white-space character of a text takes more than one byte. -/
def EndsWide (text : Bytes) : Prop :=
  ∃ front c word, text = Utf8.encode (front ++ c :: word) ∧ isWhite c = true ∧
    (∀ d ∈ word, isWhite d = false) ∧ 1 < c.utf8Size

/-- The part of a text from one byte after the start of the last white space on. -/
def lastWord (text : Bytes) : Except Fault Bytes :=
  match lastWhite? text with
  | some offset => Utf8.startingAt text (offset + 1)
  | none => .ok text

/-- The last word cannot be cut out exactly if wide white space comes before it. -/
theorem lastWord_fails_iff
    (cs : List Char) :
    (∃ fault, lastWord (Utf8.encode cs) = .error fault) ↔ EndsWide (Utf8.encode cs) := by
  rcases exists_last_white cs with hword | ⟨front, c, word, rfl, hc, hword⟩
  · rw [lastWord, lastWhite?_of_word hword]
    constructor
    · rintro ⟨fault, hfault⟩
      cases hfault
    · rintro ⟨front, c, word, htext, hc, -⟩
      obtain rfl := Utf8.encode_injective htext
      rw [hword c (by simp)] at hc
      cases hc
  · rw [lastWord, lastWhite?_of_isWhite hc hword]
    obtain ⟨b, tail, hbytes, -, -, htail⟩ := Utf8.exists_bytes c
    have hsize : c.utf8Size = tail.length + 1 := by
      rw [← String.length_utf8EncodeChar, hbytes, List.length_cons]
    have hdrop : (Utf8.encode (front ++ c :: word)).drop (Utf8.encode front).length =
        b :: (tail ++ Utf8.encode word) := by
      simp [hbytes]
    dsimp only
    rw [Utf8.startingAt, hdrop]
    dsimp only
    cases tail with
    | nil =>
        rw [List.nil_append, if_pos (Utf8.startsClean_encode word)]
        constructor
        · rintro ⟨fault, hfault⟩
          cases hfault
        · rintro ⟨front', c', word', htext, hc', hword', hwide⟩
          have hlast := lastWhite?_of_isWhite hc' hword' front'
          have hdrop' : (Utf8.encode (front' ++ c' :: word')).drop (Utf8.encode front').length =
              String.utf8EncodeChar c' ++ Utf8.encode word' := by
            simp
          rw [← htext, lastWhite?_of_isWhite hc hword, Option.some.injEq] at hlast
          rw [← htext, ← hlast, hdrop, List.nil_append, ← List.singleton_append, ← hbytes] at hdrop'
          obtain ⟨rfl, -⟩ := Utf8.eq_of_utf8EncodeChar_append hdrop'
          rw [hsize] at hwide
          simp at hwide
    | cons d tail =>
        rw [if_neg (by simp [Utf8.startsClean, htail d])]
        refine ⟨fun _ => ⟨front, c, word, rfl, hc, hword, ?_⟩, fun _ => ⟨_, rfl⟩⟩
        rw [hsize, List.length_cons]
        omega

end Blank
end Uncomment

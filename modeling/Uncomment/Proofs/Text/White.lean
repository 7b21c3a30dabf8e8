import Mathlib.Data.List.DropRight
import Mathlib.Tactic.Common
import Uncomment.Rule

/-!
# Trimming and white texts

What `Blank.trimEndSpaces` cuts off are spaces and tabs, and what it leaves does
not end with one.  A text of white space has no visible byte of the ASCII range, its ink,
while the tokens of the comment rules are made of ink (`Language.isInk_of_mem_start`).
-/

namespace Uncomment

/-- A text that is empty or starts with a blank. -/
def Bytes.StartsBlank (text : Bytes) : Prop :=
  ∀ b, text.head? = some b → Byte.isBlank b = true

/-- A token without blanks starts no text that starts with a blank. -/
theorem Bytes.StartsBlank.eq_nil_of_isPrefix
    {token text : Bytes}
    (h : text.StartsBlank)
    (htoken : ∀ b ∈ token, Byte.isBlank b = false)
    (hpre : token <+: text) :
    token = [] := by
  cases token with
  | nil =>
      rfl
  | cons b more =>
      obtain ⟨rest, rfl⟩ := hpre
      have hsolid := htoken b List.mem_cons_self
      rw [h b rfl] at hsolid
      cases hsolid

namespace Blank

/-- The bytes that are trimmed from the end of a line. -/
def isSlack (b : UInt8) : Bool :=
  b == Byte.space || b == Byte.tab

/-- The bytes of the ASCII range that are not white space. -/
def isInk (b : UInt8) : Bool :=
  b < 0x80 && !isNarrow b

theorem lt_of_isInk
    {b : UInt8}
    (h : isInk b = true) :
    b < 0x80 := by
  rw [isInk, Bool.and_eq_true, decide_eq_true_eq] at h
  exact h.1

theorem lt_of_isNarrow
    {b : UInt8}
    (h : isNarrow b = true) :
    b < 0x80 := by
  simp only [isNarrow, Bool.or_eq_true, beq_iff_eq, Bool.and_eq_true, decide_eq_true_eq] at h
  rcases h with rfl | ⟨-, hle⟩
  · decide
  · exact UInt8.lt_of_le_of_lt hle (by decide)

theorem isSlack_of_isInk
    {b : UInt8}
    (h : isInk b = true) :
    isSlack b = false := by
  by_contra hslack
  rw [Bool.not_eq_false, isSlack, Bool.or_eq_true, beq_iff_eq, beq_iff_eq] at hslack
  rcases hslack with rfl | rfl <;> exact absurd h (by decide)

theorem isBlank_of_isInk
    {b : UInt8}
    (h : isInk b = true) :
    Byte.isBlank b = false := by
  by_contra hblank
  simp only [Bool.not_eq_false, Byte.isBlank, Bool.or_eq_true, beq_iff_eq] at hblank
  rcases hblank with (((rfl | rfl) | rfl) | rfl) | rfl <;> exact absurd h (by decide)

theorem isInk_of_isBlank
    {b : UInt8}
    (h : Byte.isBlank b = true) :
    isInk b = false := by
  by_contra hink
  rw [Bool.not_eq_false] at hink
  rw [isBlank_of_isInk hink] at h
  cases h

theorem isBlank_of_isSlack
    {b : UInt8}
    (h : isSlack b = true) :
    Byte.isBlank b = true := by
  rw [isSlack, Bool.or_eq_true, beq_iff_eq, beq_iff_eq] at h
  rcases h with rfl | rfl <;> rfl

/-- A token without blanks does not reach into the blanks behind a text. -/
theorem isPrefix_of_append_blank
    {token text tail : Bytes}
    (htoken : ∀ b ∈ token, Byte.isBlank b = false)
    (htail : ∀ b ∈ tail, Byte.isBlank b = true)
    (h : token <+: text ++ tail) :
    token <+: text := by
  induction text generalizing token with
  | nil =>
      cases token with
      | nil =>
          exact List.nil_prefix
      | cons b more =>
          have hin : b ∈ tail := h.subset List.mem_cons_self
          have hsolid := htoken b List.mem_cons_self
          rw [htail b hin] at hsolid
          cases hsolid
  | cons first rest ih =>
      cases token with
      | nil =>
          exact List.nil_prefix
      | cons b more =>
          rw [List.cons_append, List.cons_prefix_cons] at h
          rw [List.cons_prefix_cons]
          exact ⟨h.1, ih (fun c hc => htoken c (List.mem_cons_of_mem b hc)) h.2⟩

/-- A text that does not end with a blank does not reach into the blanks behind a text. -/
theorem isPrefix_of_getLast?
    {front text tail : Bytes} {b : UInt8}
    (hlast : front.getLast? = some b)
    (hb : Byte.isBlank b = false)
    (htail : ∀ c ∈ tail, Byte.isBlank c = true)
    (h : front <+: text ++ tail) :
    front <+: text := by
  rcases List.prefix_or_prefix_of_prefix h (List.prefix_append text tail) with hpre | ⟨more, rfl⟩
  · exact hpre
  · cases more with
    | nil =>
        exact (List.append_nil _).symm ▸ List.prefix_rfl
    | cons c others =>
        have hin : b ∈ c :: others := by
          rw [List.getLast?_append_of_ne_nil _ (List.cons_ne_nil c others)] at hlast
          exact List.mem_of_getLast? hlast
        rw [List.prefix_append_right_inj] at h
        rw [htail b (h.subset hin)] at hb
        cases hb

theorem trimEndSpaces_eq_rdropWhile
    (text : Bytes) :
    trimEndSpaces text = text.rdropWhile isSlack := by
  rfl

/-- Trimming goes on to the left only if nothing is left of the right part. -/
theorem trimEndSpaces_append
    (front back : Bytes) :
    trimEndSpaces (front ++ back) =
      if trimEndSpaces back = [] then trimEndSpaces front else front ++ trimEndSpaces back := by
  simp only [trimEndSpaces, List.reverse_append, List.dropWhile_append, List.isEmpty_iff,
    List.reverse_eq_nil_iff]
  split
  · rfl
  · rw [List.reverse_append, List.reverse_reverse]

/-- A text is its trimmed form and a stretch of spaces and tabs. -/
theorem exists_slack
    (text : Bytes) :
    ∃ slack, text = trimEndSpaces text ++ slack ∧ ∀ b ∈ slack, isSlack b = true := by
  refine ⟨text.rtakeWhile isSlack, ?_, fun b hb => List.mem_rtakeWhile_imp hb⟩
  rw [trimEndSpaces_eq_rdropWhile, List.rdropWhile_append_rtakeWhile]

theorem trimEndSpaces_isPrefix
    (text : Bytes) :
    trimEndSpaces text <+: text := by
  rw [trimEndSpaces_eq_rdropWhile]
  exact List.rdropWhile_prefix isSlack text

theorem isSlack_of_getLast?_trimEndSpaces
    {text : Bytes} {b : UInt8}
    (h : (trimEndSpaces text).getLast? = some b) :
    isSlack b = false := by
  have hne : text.rdropWhile isSlack ≠ [] := by
    intro hnil
    rw [trimEndSpaces_eq_rdropWhile, hnil] at h
    cases h
  have hlast := List.rdropWhile_last_not isSlack text hne
  rw [trimEndSpaces_eq_rdropWhile, List.getLast?_eq_some_getLast hne, Option.some.injEq] at h
  rw [h] at hlast
  simpa using hlast

/-- A text that does not end with a space or a tab is trimmed already. -/
theorem trimEndSpaces_eq_self
    {text : Bytes} {b : UInt8}
    (hlast : text.getLast? = some b)
    (hsolid : isSlack b = false) :
    trimEndSpaces text = text := by
  rw [trimEndSpaces_eq_rdropWhile, List.rdropWhile_eq_self_iff]
  intro hne
  rw [List.getLast?_eq_some_getLast hne, Option.some.injEq] at hlast
  rw [hlast]
  simpa using hsolid

/-- Text in front does not take away from what trimming leaves. -/
theorem trimEndSpaces_sublist_append
    (front back : Bytes) :
    (trimEndSpaces back).Sublist (trimEndSpaces (front ++ back)) := by
  rw [trimEndSpaces_append]
  split
  · next h =>
      rw [h]
      exact List.nil_sublist _
  · exact List.sublist_append_right _ _

/-- Trimming leaves a front part that ends with no space or tab. -/
theorem isPrefix_trimEndSpaces_append
    {front back : Bytes} {b : UInt8}
    (hlast : front.getLast? = some b)
    (hsolid : isSlack b = false) :
    front <+: trimEndSpaces (front ++ back) := by
  rw [trimEndSpaces_append]
  split
  · exact (trimEndSpaces_eq_self hlast hsolid).symm ▸ List.prefix_rfl
  · exact List.prefix_append _ _

/-- The bytes after the first one of a white-space character are not ASCII. -/
theorem le_of_whiteWidth
    {b : UInt8} {rest : Bytes} {more : Nat}
    (h : whiteWidth (b :: rest) = more + 1) :
    (b < 0x80 → isNarrow b = true) ∧ ∀ c ∈ rest.take more, 0x80 ≤ c := by
  rw [whiteWidth.eq_def] at h
  dsimp only at h
  split at h
  · next hnarrow =>
      obtain rfl : more = 0 := by omega
      exact ⟨fun _ => hnarrow, by simp⟩
  · next hnarrow =>
      split at h
      · cases h
      · next hascii =>
          refine ⟨fun hlt => absurd hlt hascii, ?_⟩
          cases rest with
          | nil =>
              cases h
          | cons b₂ rest =>
              dsimp only at h
              split at h
              · next hpair =>
                  obtain rfl : more = 1 := by omega
                  simp only [isPair, Bool.and_eq_true, Bool.or_eq_true, beq_iff_eq] at hpair
                  rcases hpair.2 with rfl | rfl <;> simp
              · cases rest with
                | nil =>
                    cases h
                | cons b₃ rest =>
                    dsimp only at h
                    split at h
                    · next htriple =>
                        obtain rfl : more = 2 := by omega
                        simp only [isTriple, Bool.and_eq_true, Bool.or_eq_true, beq_iff_eq,
                          decide_eq_true_eq] at htriple
                        simp only [List.take_succ_cons, List.take_zero, List.mem_cons,
                          List.not_mem_nil, or_false]
                        have hlow : (0x80 : UInt8) ≤ b₂ ∧ (0x80 : UInt8) ≤ b₃ := by
                          rcases htriple with ((⟨⟨-, rfl⟩, rfl⟩ | ⟨⟨-, rfl⟩, h₃⟩) |
                            ⟨⟨-, rfl⟩, rfl⟩) | ⟨⟨-, rfl⟩, rfl⟩
                          · decide
                          · refine ⟨by decide, ?_⟩
                            rcases h₃ with ((⟨h₃, -⟩ | rfl) | rfl) | rfl
                            · exact h₃
                            · decide
                            · decide
                            · decide
                          · decide
                          · decide
                        rintro c (rfl | rfl)
                        · exact hlow.1
                        · exact hlow.2
                    · cases h

theorem leadingFrom_le
    (count skip : Nat) (text : Bytes) :
    leadingFrom count skip text ≤ count + text.length := by
  induction text generalizing count skip with
  | nil =>
      cases skip <;> simp [leadingFrom]
  | cons b rest ih =>
      rw [List.length_cons]
      cases skip with
      | succ skip =>
          have hrest := ih (count + 1) skip
          rw [leadingFrom]
          omega
      | zero =>
          rw [leadingFrom]
          split
          · omega
          · next more _ =>
              have hrest := ih (count + 1) more
              omega

/-- Where all bytes of a text count as white space, its ASCII bytes are white. -/
theorem isNarrow_of_leadingFrom
    {count skip : Nat} {text : Bytes}
    (hskip : ∀ b ∈ text.take skip, 0x80 ≤ b)
    (h : leadingFrom count skip text = count + text.length) :
    ∀ b ∈ text, b < 0x80 → isNarrow b = true := by
  induction text generalizing count skip with
  | nil =>
      simp
  | cons first rest ih =>
      intro b hb hascii
      rw [List.length_cons] at h
      cases skip with
      | succ skip =>
          rw [leadingFrom] at h
          have hfirst : 0x80 ≤ first := hskip first (by simp)
          have hrest := ih (fun c hc => hskip c (by simp [hc]))
            (by omega : leadingFrom (count + 1) skip rest = count + 1 + rest.length)
          rcases List.mem_cons.1 hb with rfl | hb
          · exact absurd hascii (UInt8.not_lt.2 hfirst)
          · exact hrest b hb hascii
      | zero =>
          rw [leadingFrom] at h
          split at h
          · omega
          · next more hwidth =>
              obtain ⟨hfirst, hmore⟩ := le_of_whiteWidth hwidth
              have hrest := ih hmore
                (by omega : leadingFrom (count + 1) more rest = count + 1 + rest.length)
              rcases List.mem_cons.1 hb with rfl | hb
              · exact hfirst hascii
              · exact hrest b hb hascii

/-- A text is white exactly if all its bytes count as white space. -/
theorem isAllWhite_iff
    {text : Bytes} :
    isAllWhite text = true ↔ leading text = text.length := by
  have hle := leadingFrom_le 0 0 text
  rw [isAllWhite, trimStart, List.isEmpty_iff, List.drop_eq_nil_iff]
  unfold leading
  omega

theorem whiteWidth_le
    (text : Bytes) :
    whiteWidth text ≤ text.length := by
  unfold whiteWidth
  repeat' split
  all_goals simp

/-- An ASCII byte behind a text does not belong to the first white-space character of the text. -/
theorem whiteWidth_append
    {b : UInt8}
    (hb : b < 0x80)
    (first : UInt8) (rest back : Bytes) :
    whiteWidth (first :: (rest ++ b :: back)) = whiteWidth (first :: rest) := by
  have hne {c : UInt8} (hc : 0x80 ≤ c) : ¬ b = c := by
    rintro rfl
    exact absurd hb (UInt8.not_lt.2 hc)
  have hpair (c : UInt8) : isPair c b = false := by
    simp [isPair, hne]
  have htriple (c d : UInt8) : isTriple c d b = false ∧ isTriple c b d = false := by
    simp [isTriple, hne, UInt8.not_le.2 hb]
  cases rest with
  | nil =>
      cases back with
      | nil => simp [whiteWidth, hpair]
      | cons second back => simp [whiteWidth, hpair, htriple]
  | cons second rest =>
      cases rest with
      | nil =>
          simp [whiteWidth, htriple]
      | cons third rest =>
          rfl

/-- A white byte behind a text is counted exactly if all of the text is. -/
theorem leadingFrom_append_iff
    {b : UInt8} {text : Bytes}
    (hb : isNarrow b = true)
    (count skip : Nat)
    (hskip : skip ≤ text.length) :
    leadingFrom count skip (text ++ [b]) = count + (text ++ [b]).length ↔
      leadingFrom count skip text = count + text.length := by
  induction text generalizing count skip with
  | nil =>
      obtain rfl : skip = 0 := by simpa using hskip
      simp [leadingFrom, whiteWidth, hb]
  | cons first rest ih =>
      cases skip with
      | succ skip =>
          have hrest := ih (count + 1) skip (by simpa using hskip)
          simp only [List.cons_append, leadingFrom, List.length_cons] at hrest ⊢
          omega
      | zero =>
          have hle := whiteWidth_le (first :: rest)
          simp only [List.cons_append, leadingFrom, whiteWidth_append (lt_of_isNarrow hb)]
          split
          · simp
          · next more hwidth =>
              rw [hwidth, List.length_cons] at hle
              have hrest := ih (count + 1) more (by omega)
              simp only [List.length_cons] at hrest ⊢
              omega

/-- A white byte behind a text does not make it white, nor the other way round. -/
theorem isAllWhite_append
    {b : UInt8}
    (hb : isNarrow b = true)
    (text : Bytes) :
    isAllWhite (text ++ [b]) = isAllWhite text := by
  have h := leadingFrom_append_iff hb 0 0 (Nat.zero_le text.length)
  rw [Bool.eq_iff_iff, isAllWhite_iff, isAllWhite_iff]
  simpa only [leading, Nat.zero_add] using h

theorem isInk_of_isAllWhite
    {text : Bytes}
    (h : isAllWhite text = true) :
    ∀ b ∈ text, isInk b = false := by
  rw [isAllWhite_iff, leading] at h
  have hnarrow := isNarrow_of_leadingFrom (by simp : ∀ b ∈ text.take 0, (0x80 : UInt8) ≤ b)
    (by rw [h, Nat.zero_add])
  intro b hb
  rw [isInk, Bool.and_eq_false_iff]
  by_cases hlow : b < 0x80
  · exact Or.inr (by rw [hnarrow b hb hlow]; rfl)
  · exact Or.inl (decide_eq_false hlow)

/-- A text that is white once it is trimmed has no ink. -/
theorem isInk_of_isAllWhite_trimEndSpaces
    {text : Bytes}
    (h : isAllWhite (trimEndSpaces text) = true) :
    ∀ b ∈ text, isInk b = false := by
  obtain ⟨slack, htext, hslack⟩ := exists_slack text
  intro b hb
  rw [htext] at hb
  rcases List.mem_append.1 hb with hb | hb
  · exact isInk_of_isAllWhite h b hb
  · exact isInk_of_isBlank (isBlank_of_isSlack (hslack b hb))

/-- Ink at the end of a text ends the white space there. -/
theorem trimEnd_append_ink
    (front : Bytes) {b : UInt8}
    (hink : isInk b = true) :
    trimEnd (front ++ [b]) = front ++ [b] := by
  rw [isInk, Bool.and_eq_true, decide_eq_true_eq, Bool.not_eq_true'] at hink
  have hwidth (rest : Bytes) : whiteWidthBack (b :: rest) = 0 := by
    rw [whiteWidthBack.eq_def]
    dsimp only
    rw [hink.2, if_neg (by decide), if_pos hink.1]
  rw [trimEnd]
  simp only [List.reverse_append, List.reverse_cons, List.reverse_nil, List.nil_append,
    List.singleton_append]
  rw [trailingFrom, hwidth]
  simp

theorem trim_append_ink
    (front : Bytes) {b : UInt8}
    (hink : isInk b = true) :
    ∃ kept, trim (front ++ [b]) = kept ++ [b] := by
  have hlt : leading (front ++ [b]) < (front ++ [b]).length := by
    rcases Nat.lt_or_ge (leading (front ++ [b])) (front ++ [b]).length with hlt | hge
    · exact hlt
    · have hle : leading (front ++ [b]) ≤ 0 + (front ++ [b]).length := leadingFrom_le 0 0 _
      have hwhite : isAllWhite (front ++ [b]) = true := isAllWhite_iff.2 (by omega)
      rw [isInk_of_isAllWhite hwhite b (by simp)] at hink
      cases hink
  have hstart : trimStart (front ++ [b]) = front.drop (leading (front ++ [b])) ++ [b] := by
    rw [List.length_append, List.length_singleton] at hlt
    rw [trimStart, List.drop_append_of_le_length (by omega)]
  refine ⟨front.drop (leading (front ++ [b])), ?_⟩
  rw [trim, hstart, trimEnd_append_ink _ hink]

end Blank

namespace Language

/-- Start tokens are made of ink. -/
theorem isInk_of_mem_start
    {language : Language} {rule : Rule}
    (h : rule ∈ language.rules) :
    ∀ b ∈ rule.start, Blank.isInk b = true := by
  have hall : language.rules.all (fun rule => rule.start.all Blank.isInk) = true := by
    cases language <;> decide
  exact List.all_eq_true.1 (List.all_eq_true.1 hall rule h)

/-- Stop tokens are made of ink, and there is some. -/
theorem isInk_of_mem_stop
    {language : Language} {start stop : Bytes}
    (h : .block start stop ∈ language.rules) :
    stop ≠ [] ∧ ∀ b ∈ stop, Blank.isInk b = true := by
  have hall : language.rules.all (fun rule =>
      rule.casesOn (fun _ => true) fun _ stop => !stop.isEmpty && stop.all Blank.isInk) = true := by
    cases language <;> decide
  simpa using List.all_eq_true.1 hall _ h

end Language
end Uncomment

import Uncomment.Proofs.Text.Cut
import Uncomment.Veto.Basic

/-!
# Vetoes of lines that are cut

A pruned line has lost its end.  The vetoes of the languages without block comments
look at what lies before a token, and at the next few bytes: what they keep in the
line they keep in the front part that is left of it (`Veto.keeps_of_append`), because the
part that went away starts with a blank or with a comment.
-/

namespace Uncomment
namespace Veto

/-- What is cut off from a line: it is empty or starts with a blank or with a comment. -/
def IsCut (language : Language) (front back : Bytes) : Prop :=
  back.StartsBlank ∨
    ∃ rule ∈ language.rules, rule.start <+: back ∧
      keeps language (LineFacts.ofLine (front ++ back)) front.length rule.start = .ok false

namespace Site

variable {front back : Bytes} {offset : Nat} {token : Bytes}

theorem previousByte_append
    (hle : offset ≤ front.length) :
    (Site.mk (LineFacts.ofLine (front ++ back)) offset token).previousByte =
      (Site.mk (LineFacts.ofLine front) offset token).previousByte := by
  exact Utf8.byteBefore_append front back hle

theorem inExpansion_append
    (hle : offset ≤ front.length) :
    (Site.mk (LineFacts.ofLine (front ++ back)) offset token).inExpansion =
      (Site.mk (LineFacts.ofLine front) offset token).inExpansion := by
  simp only [inExpansion]
  rw [LineFacts.seenBefore_append (by decide) front back hle,
    LineFacts.countBefore_append (by decide) front back hle,
    LineFacts.countBefore_append (by decide) front back hle]

theorem le_of_isPrefix_drop
    {line : Bytes}
    (hne : token ≠ [])
    (hpre : token <+: line.drop offset) :
    offset + token.length ≤ line.length := by
  have hlen := hpre.length_le
  have hpos := List.length_pos_iff.2 hne
  rw [List.length_drop] at hlen
  omega

/-- A line can be cut where a token stands in it. -/
theorem before_eq
    {line : Bytes}
    (hne : token ≠ [])
    (hclean : Utf8.startsClean token = true)
    (hpre : token <+: line.drop offset) :
    (Site.mk (LineFacts.ofLine line) offset token).before = .ok (line.take offset) := by
  refine (Utf8.upTo_eq_ok_iff _ _ _).2 ⟨Or.inr ⟨?_, ?_⟩, rfl⟩
  · exact Nat.le_of_add_right_le (le_of_isPrefix_drop hne hpre)
  · obtain ⟨rest, hrest⟩ := hpre
    cases token with
    | nil =>
        exact absurd rfl hne
    | cons b more =>
        exact (congrArg Utf8.startsClean hrest).symm.trans hclean

theorem before_append
    (hne : token ≠ [])
    (hclean : Utf8.startsClean token = true)
    (hpre : token <+: front.drop offset) :
    (Site.mk (LineFacts.ofLine (front ++ back)) offset token).before =
      (Site.mk (LineFacts.ofLine front) offset token).before := by
  have hle := le_of_isPrefix_drop hne hpre
  have hboth : token <+: (front ++ back).drop offset := by
    rw [List.drop_append_of_le_length (by omega)]
    exact hpre.trans (List.prefix_append _ _)
  rw [before_eq hne hclean hpre, before_eq hne hclean hboth,
    List.take_append_of_le_length (by omega)]

theorem after_of_append
    {text : Bytes}
    (hle : offset + token.length ≤ front.length)
    (h : (Site.mk (LineFacts.ofLine (front ++ back)) offset token).after = .ok text) :
    (Site.mk (LineFacts.ofLine front) offset token).after =
        .ok (front.drop (offset + token.length)) ∧
      text = front.drop (offset + token.length) ++ back := by
  exact Utf8.startingAt_of_append hle h

/-- The byte after a token in the front part of a line, which may end with the token. -/
theorem nextByte_of_append
    {next : Option UInt8}
    (hle : offset + token.length ≤ front.length)
    (h : (Site.mk (LineFacts.ofLine (front ++ back)) offset token).nextByte = .ok next) :
    (Site.mk (LineFacts.ofLine front) offset token).nextByte = .ok next ∨
      offset + token.length = front.length ∧ next = back.head? ∧
        (Site.mk (LineFacts.ofLine front) offset token).nextByte = .ok none := by
  rw [nextByte] at h
  cases hafter : (Site.mk (LineFacts.ofLine (front ++ back)) offset token).after with
  | error fault =>
      rw [hafter] at h
      cases h
  | ok text =>
      obtain ⟨hafter', rfl⟩ := after_of_append hle hafter
      rw [hafter] at h
      cases h
      rw [nextByte, hafter']
      cases hdrop : front.drop (offset + token.length) with
      | nil =>
          have hge := List.drop_eq_nil_iff.1 hdrop
          exact Or.inr ⟨by omega, rfl, rfl⟩
      | cons b more =>
          exact Or.inl rfl

end Site

variable {front back : Bytes} {offset : Nat} {token : Bytes}

/-- Start tokens do not start inside a character. -/
theorem startsClean_of_mem_rules
    {language : Language} {rule : Rule}
    (h : rule ∈ language.rules) :
    Utf8.startsClean rule.start = true := by
  revert rule
  cases language <;> decide

/-- A text that starts with a start token does not start inside a character. -/
theorem startsClean_of_isPrefix
    {language : Language} {rule : Rule} {text : Bytes}
    (hrule : rule ∈ language.rules)
    (hpre : rule.start <+: text) :
    Utf8.startsClean text = true := by
  have hclean := startsClean_of_mem_rules hrule
  obtain ⟨rest, rfl⟩ := hpre
  cases hstart : rule.start with
  | nil => exact absurd hstart (Language.start_ne_nil hrule)
  | cons b more =>
      rw [hstart] at hclean
      exact hclean

/-- Where no script starts the veto of the language decides. -/
theorem keeps_eq_family
    {language : Language} {facts : LineFacts}
    (h : hasShebang language = false) :
    keeps language facts offset token = family language ⟨facts, offset, token⟩ := by
  rw [keeps, h]
  simp

/-- The start tokens in batch files. -/
theorem mem_starts_batch
    {rule : Rule}
    (h : rule ∈ Language.batch.rules) :
    rule.start = Bytes.ofString "REM" ∨ rule.start = Bytes.ofString "rem" ∨
      rule.start = Bytes.ofString "::" := by
  revert rule
  decide

theorem isAlphanumeric_of_isHexDigit
    {b : UInt8}
    (h : Byte.isHexDigit b = true) :
    Byte.isAlphanumeric b = true := by
  simp only [Byte.isHexDigit, Byte.isAlphanumeric, Byte.isLetter, Bool.or_eq_true,
    Bool.and_eq_true, decide_eq_true_eq] at h ⊢
  rcases h with (hdigit | ⟨hlow, hhigh⟩) | ⟨hlow, hhigh⟩
  · exact Or.inr hdigit
  · exact Or.inl (Or.inl ⟨hlow, UInt8.le_trans hhigh (by decide)⟩)
  · exact Or.inl (Or.inr ⟨hlow, UInt8.le_trans hhigh (by decide)⟩)

/-- A run of digits ends with the front part if no letter or digit comes behind. -/
theorem startsHex_of_append
    {text : Bytes} {count : Nat}
    (hback : ∀ b, back.head? = some b → Byte.isAlphanumeric b = false)
    (h : startsHex (text ++ back) count = true) :
    startsHex text count = true := by
  rw [startsHex, Bool.and_eq_true, Bool.and_eq_true, beq_iff_eq, List.all_eq_true] at h
  obtain ⟨⟨hlen, hall⟩, hnext⟩ := h
  have hle : count ≤ text.length := by
    by_contra hgt
    cases back with
    | nil =>
        rw [List.append_nil, List.length_take] at hlen
        omega
    | cons b more =>
        have hmem : b ∈ (text ++ b :: more).take count := by
          refine List.mem_of_getElem? (?_ : _[text.length]? = some b)
          rw [List.getElem?_take_of_lt (by omega), List.getElem?_append_right (Nat.le_refl _),
            Nat.sub_self, List.getElem?_cons_zero]
        have hword := isAlphanumeric_of_isHexDigit (hall b hmem)
        rw [hback b rfl] at hword
        cases hword
  rw [List.take_append_of_le_length hle] at hlen hall
  rw [List.drop_append_of_le_length hle] at hnext
  rw [startsHex, Bool.and_eq_true, Bool.and_eq_true, beq_iff_eq, List.all_eq_true]
  refine ⟨⟨hlen, hall⟩, ?_⟩
  cases hdrop : text.drop count with
  | nil =>
      rfl
  | cons b more =>
      rwa [hdrop] at hnext

/-- Colours, words, expansions and tests of the front part are there without what is behind. -/
theorem shell_of_append
    (hle : offset + token.length ≤ front.length)
    (hback : ∀ b, back.head? = some b → Byte.isAlphanumeric b = false)
    (h : shell ⟨LineFacts.ofLine (front ++ back), offset, token⟩ = .ok true) :
    shell ⟨LineFacts.ofLine front, offset, token⟩ = .ok true := by
  have hprevious := @Site.previousByte_append front back offset token (by omega)
  have hexpansion := @Site.inExpansion_append front back offset token (by omega)
  have hseen (needle : String) (hneedle : Bytes.ofString needle ≠ []) :=
    LineFacts.seenBefore_append hneedle front back (by omega : offset ≤ front.length)
  rw [shell] at h ⊢
  have hat : (Site.mk (LineFacts.ofLine (front ++ back)) offset token).isAt "#" =
      (Site.mk (LineFacts.ofLine front) offset token).isAt "#" := rfl
  rw [hprevious, hexpansion, hat] at h
  dsimp only at h ⊢
  rw [hseen "[ " (by decide), hseen " ]" (by decide)] at h
  cases hafter : (Site.mk (LineFacts.ofLine (front ++ back)) offset token).after with
  | error fault =>
      rw [hafter] at h
      split at h <;> cases h
  | ok text =>
      obtain ⟨hafter', rfl⟩ := Site.after_of_append hle hafter
      rw [hafter] at h
      rw [hafter']
      simp only [bind, Except.bind] at h ⊢
      split at h
      · cases h
      · next hnot =>
          rw [if_neg hnot]
          split at h
          · next hcolour =>
              rw [isHexColour, Bool.or_eq_true] at hcolour
              have hcolour' : isHexColour (front.drop (offset + token.length)) = true := by
                rw [isHexColour, Bool.or_eq_true]
                exact hcolour.imp (startsHex_of_append hback) (startsHex_of_append hback)
              rw [if_pos hcolour']
              rfl
          · split
            · rfl
            · exact h

theorem python_append
    (hne : token ≠ [])
    (hclean : Utf8.startsClean token = true)
    (hpre : token <+: front.drop offset) :
    python ⟨LineFacts.ofLine (front ++ back), offset, token⟩ =
      python ⟨LineFacts.ofLine front, offset, token⟩ := by
  have hle : offset ≤ front.length :=
    Nat.le_of_add_right_le (Site.le_of_isPrefix_drop hne hpre)
  have hseen (needle : String) (hneedle : Bytes.ofString needle ≠ []) :=
    LineFacts.seenBefore_append hneedle front back hle
  have hcount (needle : String) (hneedle : Bytes.ofString needle ≠ []) :=
    LineFacts.countBefore_append hneedle front back hle
  have hat : (Site.mk (LineFacts.ofLine (front ++ back)) offset token).isAt "#" =
      (Site.mk (LineFacts.ofLine front) offset token).isAt "#" := rfl
  simp only [python, hat]
  rw [Site.before_append hne hclean hpre, hseen "f\"" (by decide), hseen "f'" (by decide),
    hseen "r\"" (by decide), hseen "r'" (by decide), hcount "\"\"\"" (by decide),
    hcount "'''" (by decide), hcount "\"" (by decide), hcount "'" (by decide)]

/-- A token is kept before a byte of a class exactly if one comes after it. -/
theorem followedBy_eq_true_iff
    {mark : String} {accepts : UInt8 → Bool} {line : Bytes} :
    followedBy mark accepts ⟨LineFacts.ofLine line, offset, token⟩ = .ok true ↔
      token = Bytes.ofString mark ∧ Utf8.Boundary line (offset + token.length) ∧
        ((line.drop (offset + token.length)).head?).any accepts = true := by
  have hat : (Site.mk (LineFacts.ofLine line) offset token).isAt mark = true ↔
      token = Bytes.ofString mark := beq_iff_eq
  rw [followedBy, ← hat]
  cases (Site.mk (LineFacts.ofLine line) offset token).isAt mark with
  | false =>
      simp [pure, Except.pure]
  | true =>
      rw [if_neg (by simp), Site.nextByte]
      have hafter := Utf8.startingAt_eq_ok_iff line (offset + token.length)
      cases hcut : (Site.mk (LineFacts.ofLine line) offset token).after with
      | error fault =>
          simp only [bind, Except.bind, reduceCtorEq, false_iff, true_and]
          rintro ⟨hboundary, -⟩
          have hok := (hafter _).2 ⟨hboundary, rfl⟩
          exact absurd (hcut.symm.trans hok) (by simp)
      | ok text =>
          obtain ⟨hboundary, rfl⟩ := (hafter text).1 hcut
          simp [bind, Except.bind, pure, Except.pure, hboundary]

theorem followedBy_of_append
    {mark : String} {accepts : UInt8 → Bool}
    (hle : offset + token.length ≤ front.length)
    (hback : ∀ b, back.head? = some b → accepts b = false)
    (h : followedBy mark accepts ⟨LineFacts.ofLine (front ++ back), offset, token⟩ = .ok true) :
    followedBy mark accepts ⟨LineFacts.ofLine front, offset, token⟩ = .ok true := by
  obtain ⟨htoken, hboundary, hnext⟩ := followedBy_eq_true_iff.1 h
  refine followedBy_eq_true_iff.2 ⟨htoken, Utf8.boundary_of_append hle hboundary, ?_⟩
  rw [List.drop_append_of_le_length hle] at hnext
  cases hdrop : front.drop (offset + token.length) with
  | cons b more =>
      rwa [hdrop] at hnext
  | nil =>
      rw [hdrop, List.nil_append] at hnext
      obtain ⟨b, hb, haccepts⟩ := (Option.any_eq_true _ _).1 hnext
      rw [hback b hb] at haccepts
      cases haccepts

/-- In a batch file tokens are kept behind a word. -/
theorem batch_of_ink
    {line text : Bytes} {b : UInt8}
    (htoken : token = Bytes.ofString "REM" ∨ token = Bytes.ofString "rem" ∨
      token = Bytes.ofString "::")
    (hbefore : (Site.mk (LineFacts.ofLine line) offset token).before = .ok (text ++ [b]))
    (hink : Blank.isInk b = true)
    (hb : b ≠ 0x26 ∧ b ≠ 0x40) :
    batch ⟨LineFacts.ofLine line, offset, token⟩ = .ok true := by
  obtain ⟨kept, hkept⟩ := Blank.trim_append_ink text hink
  have hsuffix (c : UInt8) (hc : b ≠ c) : [c].isSuffixOf (kept ++ [b]) = false := by
    rw [Bool.eq_false_iff, ne_eq, List.isSuffixOf_iff_suffix]
    rintro ⟨front, hfront⟩
    exact hc (List.append_inj_right' hfront rfl |> List.cons.inj |>.1).symm
  rw [batch, hbefore]
  simp only [bind, Except.bind, hkept]
  have hand : (Bytes.ofString "&").isSuffixOf (kept ++ [b]) = false := hsuffix 0x26 hb.1
  have hat : (Bytes.ofString "@").isSuffixOf (kept ++ [b]) = false := hsuffix 0x40 hb.2
  have hempty : (kept ++ [b]).isEmpty = false := by simp
  rw [hand, hat, hempty]
  rcases htoken with rfl | rfl | rfl <;> rfl

/-- In a batch file no comment starts right behind a word. -/
theorem startsBlank_of_word
    (hword : token = Bytes.ofString "REM" ∨ token = Bytes.ofString "rem")
    (hpre : token <+: front.drop offset)
    (hend : offset + token.length = front.length)
    (hcut : IsCut .batch front back) :
    back.StartsBlank := by
  rcases hcut with hblank | ⟨rule, hrule, hstart, hfalse⟩
  · exact hblank
  · have hlast : ∃ text b, front = text ++ [b] ∧ Blank.isInk b = true ∧ b ≠ 0x26 ∧ b ≠ 0x40 := by
      have hfront : front = front.take offset ++ token := by
        have htoken : token = front.drop offset :=
          hpre.eq_of_length (by rw [List.length_drop]; omega)
        conv_lhs => rw [← List.take_append_drop offset front, ← htoken]
      rcases hword with rfl | rfl
      · refine ⟨front.take offset ++ [0x52, 0x45], 0x4D, ?_, by decide⟩
        rw [List.append_assoc]
        exact hfront
      · refine ⟨front.take offset ++ [0x72, 0x65], 0x6D, ?_, by decide⟩
        rw [List.append_assoc]
        exact hfront
    obtain ⟨text, b, rfl, hink, hb⟩ := hlast
    have hstart' : rule.start <+: ((text ++ [b]) ++ back).drop (text ++ [b]).length := by
      rwa [List.drop_left]
    have hbefore := Site.before_eq (Language.start_ne_nil hrule)
      (startsClean_of_mem_rules hrule) hstart'
    rw [List.take_left] at hbefore
    rw [keeps_eq_family rfl, family, batch_of_ink (mem_starts_batch hrule) hbefore hink hb] at hfalse
    cases hfalse

/-- A command that is kept in a batch file is kept without what is behind. -/
theorem batch_of_append
    (htoken : token = Bytes.ofString "REM" ∨ token = Bytes.ofString "rem" ∨
      token = Bytes.ofString "::")
    (hpre : token <+: front.drop offset)
    (hcut : IsCut .batch front back)
    (h : batch ⟨LineFacts.ofLine (front ++ back), offset, token⟩ = .ok true) :
    batch ⟨LineFacts.ofLine front, offset, token⟩ = .ok true := by
  have hne : token ≠ [] := by
    rcases htoken with rfl | rfl | rfl <;> decide
  have hclean : Utf8.startsClean token = true := by
    rcases htoken with rfl | rfl | rfl <;> decide
  have hle := Site.le_of_isPrefix_drop hne hpre
  have hbefore := Site.before_eq hne hclean hpre
  have hbefore' := @Site.before_append front back offset token hne hclean hpre
  rw [batch, hbefore', hbefore] at h
  rw [batch, hbefore]
  simp only [bind, Except.bind] at h ⊢
  have hat (mark : String) : (Site.mk (LineFacts.ofLine (front ++ back)) offset token).isAt mark =
      (Site.mk (LineFacts.ofLine front) offset token).isAt mark := rfl
  simp only [hat] at h
  split at h
  · next hrem =>
      rw [if_pos hrem]
      split at h
      · next hinside =>
          rw [if_pos hinside]
          rfl
      · next hinside =>
          rw [if_neg hinside]
          cases hnext : (Site.mk (LineFacts.ofLine (front ++ back)) offset token).nextByte with
          | error fault =>
              rw [hnext] at h
              cases h
          | ok next =>
              rw [hnext] at h
              rcases Site.nextByte_of_append hle hnext with hsame | ⟨hend, rfl, -⟩
              · rwa [hsame]
              · -- What is behind the word would be a comment, but batch files keep it there.
                have hword : token = Bytes.ofString "REM" ∨ token = Bytes.ofString "rem" := by
                  rw [Bool.or_eq_true] at hrem
                  exact hrem.imp eq_of_beq eq_of_beq
                have hblank := startsBlank_of_word hword hpre hend hcut
                simp only [pure, Except.pure, Except.ok.injEq] at h
                obtain ⟨b, hb, hsolid⟩ := (Option.any_eq_true _ _).1 h
                rw [hblank b hb] at hsolid
                cases hsolid
  · next hrem =>
      rwa [if_neg hrem]

/-- What is cut off starts with a blank or with the first byte of a start token. -/
theorem IsCut.head
    {language : Language}
    (h : IsCut language front back)
    {b : UInt8}
    (hb : back.head? = some b) :
    Byte.isBlank b = true ∨ ∃ rule ∈ language.rules, rule.start.head? = some b := by
  rcases h with hblank | ⟨rule, hrule, hstart, -⟩
  · exact Or.inl (hblank b hb)
  · refine Or.inr ⟨rule, hrule, ?_⟩
    obtain ⟨rest, rfl⟩ := hstart
    cases hrest : rule.start with
    | nil =>
        exact absurd hrest (Language.start_ne_nil hrule)
    | cons c more =>
        rw [hrest] at hb
        exact hb

/-- No class that blanks and first bytes of start tokens lack starts what is cut off. -/
theorem IsCut.head_eq_false
    {language : Language} {accepts : UInt8 → Bool}
    (h : IsCut language front back)
    (hblank : ∀ b, Byte.isBlank b = true → accepts b = false)
    (hstart : ∀ rule ∈ language.rules, (rule.start.head?).any accepts = false) :
    ∀ b, back.head? = some b → accepts b = false := by
  intro b hb
  rcases h.head hb with hb | ⟨rule, hrule, hb⟩
  · exact hblank b hb
  · have hnot := hstart rule hrule
    rwa [hb] at hnot

/-- A class that lacks the five blanks. -/
theorem eq_false_of_isBlank
    {accepts : UInt8 → Bool}
    (h : [0x20, 0x09, 0x0A, 0x0C, 0x0D].any accepts = false) :
    ∀ b, Byte.isBlank b = true → accepts b = false := by
  intro b hb
  simp only [Byte.isBlank, Bool.or_eq_true, beq_iff_eq] at hb
  exact Bool.eq_false_iff.2 (List.any_eq_false.1 h b (by simp; tauto))

/-- A script of which a part is left is still one. -/
theorem isShebang_of_append
    {language : Language}
    (hrules : ∀ rule ∈ language.rules, rule.start = Bytes.ofString "#")
    (hpre : Bytes.ofString "#" <+: front)
    (hcut : IsCut language front back)
    (h : Bytes.ofString "#!" <+: front ++ back) :
    Bytes.ofString "#!" <+: front := by
  have hback : ∀ b, back.head? = some b → (b == 0x21) = false :=
    hcut.head_eq_false (eq_false_of_isBlank (by decide)) fun rule hrule => by
      rw [hrules rule hrule]
      decide
  obtain ⟨rest, rfl⟩ := hpre
  cases rest with
  | nil =>
      obtain ⟨later, hlater⟩ := h
      have hhead : back.head? = some 0x21 := by
        have htail := congrArg (fun text => (text.drop 1).head?) hlater
        exact htail.symm
      have hfalse := hback 0x21 hhead
      cases hfalse
  | cons b more =>
      obtain ⟨later, hlater⟩ := h
      have hb : b = 0x21 := by
        have htail := congrArg (fun text => (text.drop 1).head?) hlater
        exact (Option.some.inj htail).symm
      exact ⟨more, by rw [hb]; rfl⟩

/-- The veto of a language without block comments does not look beyond a cut. -/
theorem family_of_append
    {language : Language} {rule : Rule}
    (hrules : ∀ rule ∈ language.rules, rule.isLine = true)
    (hyaml : language ≠ .yaml)
    (hrule : rule ∈ language.rules)
    (hpre : rule.start <+: front.drop offset)
    (hcut : IsCut language front back)
    (h : family language ⟨LineFacts.ofLine (front ++ back), offset, rule.start⟩ = .ok true) :
    family language ⟨LineFacts.ofLine front, offset, rule.start⟩ = .ok true := by
  have hne := Language.start_ne_nil hrule
  have hclean := startsClean_of_mem_rules hrule
  have hle := Site.le_of_isPrefix_drop hne hpre
  have hprevious := @Site.previousByte_append front back offset rule.start (by omega)
  cases language with
  | yaml =>
      exact absurd rfl hyaml
  | c | java | swift | dart | javaScript | typeScript | go | rust | json | verilog | php
  | powerShell | julia | coffeeScript | hcl | sql | lua | haskell | ocaml | fsharp | pascal | css
  | scss | html | markdown | matlab | prolog =>
      exact absurd hrules (by decide)
  | ruby | r | tcl | hash | toml | ada | vhdl | fortranFree | cobol | rst | unknown =>
      cases h
  | fortran =>
      exact h
  | python =>
      exact (python_append hne hclean hpre).symm.trans h
  | shell | perl =>
      exact shell_of_append hle (hcut.head_eq_false (eq_false_of_isBlank (by decide)) (by decide)) h
  | batch =>
      exact batch_of_append (mem_starts_batch hrule) hpre hcut h
  | latex =>
      simp only [family, Lexer.isEscaped] at h ⊢
      have htake : (LineFacts.ofLine (front ++ back)).line.take offset =
          (LineFacts.ofLine front).line.take offset :=
        List.take_append_of_le_length (by omega)
      rwa [htake] at h
  | assembly =>
      exact followedBy_of_append hle
        (hcut.head_eq_false (eq_false_of_isBlank (by decide)) (by decide)) h
  | erlang | lisp =>
      simp only [family, precededBy] at h ⊢
      rwa [hprevious] at h

/-- Scripts without block comments have the number sign as their only start token. -/
theorem start_of_hasShebang
    {language : Language}
    (hrules : ∀ rule ∈ language.rules, rule.isLine = true)
    (h : hasShebang language = true) :
    ∀ rule ∈ language.rules, rule.start = Bytes.ofString "#" := by
  revert hrules h
  cases language <;> decide

/-- What a language without block comments keeps in a line it keeps in what is left of it. -/
theorem keeps_of_append
    {language : Language} {rule : Rule}
    (hrules : ∀ rule ∈ language.rules, rule.isLine = true)
    (hyaml : language ≠ .yaml)
    (hrule : rule ∈ language.rules)
    (hpre : rule.start <+: front.drop offset)
    (hcut : IsCut language front back)
    (h : keeps language (LineFacts.ofLine (front ++ back)) offset rule.start = .ok true) :
    keeps language (LineFacts.ofLine front) offset rule.start = .ok true := by
  rw [keeps] at h ⊢
  split
  · rfl
  · next hnot =>
      split at h
      · next hshebang =>
          simp only [Site.isAt, Site.isShebang, Bool.and_eq_true, beq_iff_eq,
            List.isPrefixOf_iff_prefix] at hshebang hnot
          obtain ⟨⟨htoken, rfl, hline⟩, hscript⟩ := hshebang
          rw [htoken] at hpre
          have hstarts := start_of_hasShebang hrules hscript
          exact absurd ⟨⟨htoken, rfl, isShebang_of_append hstarts hpre hcut hline⟩, hscript⟩ hnot
      · exact family_of_append hrules hyaml hrule hpre hcut h

end Veto
end Uncomment

import Uncomment.Proofs.Line.FirstRemoval
import Uncomment.Proofs.Line.Front
import Uncomment.Proofs.Line.Stumbles

/-!
# Headings in YAML

A line of YAML that starts with a number sign is kept by the veto if it reads as a heading.
But the veto answers for this one sign.  The signs behind it are asked about like those of
any other line, and the line is cut at the first sign that is bare: in no expansion that is
closed behind it, and in no address (`Line.process_heading`).  So a heading stays whole
exactly if no bare sign follows, and of one that starts with two number signs only the first
is left (`Line.process_heading_of_signs`).
-/

namespace Uncomment

/-- Whether the text of a comment that starts a line is kept as a heading. -/
def Heading.isKept (comment : Bytes) : Bool :=
  (Bytes.ofString "##").isPrefixOf (Blank.trim comment) ||
    (Bytes.ofString "# #").isPrefixOf (Blank.trim comment) || isStructural (Blank.trim comment)

/-- Behind white space and number signs a cursor still stands in code. -/
theorem Cursor.exists_stop_behind
    {dialect : Dialect} {cursor : Cursor} {front back : Bytes}
    (hcode : cursor.span = .code)
    (hrest : cursor.rest = front ++ back)
    (hfront : ∀ b ∈ front, Blank.isInk b = true → b = Byte.hash) :
    ∃ stop ∈ cursor.trail dialect, stop.offset = cursor.offset + front.length ∧
      stop.span = .code := by
  induction front generalizing cursor with
  | nil =>
      exact ⟨cursor, mem_trail_self, rfl, hcode⟩
  | cons b front ih =>
      rw [List.forall_mem_cons] at hfront
      have hnone : cursor.opened? dialect b (front ++ back) = none := by
        rw [Option.eq_none_iff_forall_ne_some]
        rintro ⟨more, span⟩ hopened
        have hopening := Lexer.opening_of_opening? (opening?_of_opened hopened)
        have hmem := hopening.mem_starters
        rw [hfront.1 hopening.isInk] at hmem
        revert hmem
        decide
      rw [List.cons_append] at hrest
      have hstep : cursor.step dialect b (front ++ back) =
          cursor.stepCode dialect b (front ++ back) := if_pos hcode
      rw [stepCode_of_not_opened hnone] at hstep
      have hnextOffset : (cursor.step dialect b (front ++ back)).offset = cursor.offset + 1 := by
        rw [hstep]
        rfl
      obtain ⟨stop, hstop, hoffset, hspan⟩ := @ih (cursor.step dialect b (front ++ back))
        (by rw [hstep]; exact hcode) (by rw [hstep]; rfl) hfront.2
      rw [trail_of_cons hrest]
      refine ⟨stop, List.mem_cons_of_mem _ hstop, ?_, hspan⟩
      rw [hoffset, hnextOffset, List.length_cons]
      omega

namespace Veto

/-- A number sign in the code of a YAML line. -/
def SignAt (line : Bytes) (offset : Nat) : Prop :=
  (line)[offset]? = some Byte.hash ∧
    (SpanTable.ofLine Language.yaml.dialect line).isCode offset = true

/-- A number sign in the code of a YAML line that is in no closed expansion and in no address. -/
structure Bare (line : Bytes) (offset : Nat) : Prop where
  sign : SignAt line offset
  not_expanded : (hashAt line offset).inClosedExpansion = false
  not_address : inAddress (hashAt line offset) = .ok false

instance (line : Bytes) (offset : Nat) :
    Decidable (SignAt line offset) :=
  inferInstanceAs (Decidable (_ ∧ _))

instance (line : Bytes) (offset : Nat) :
    Decidable (Bare line offset) :=
  decidable_of_iff
    (SignAt line offset ∧ (hashAt line offset).inClosedExpansion = false ∧
      inAddress (hashAt line offset) = .ok false)
    ⟨fun h => ⟨h.1, h.2.1, h.2.2⟩, fun h => ⟨h.sign, h.not_expanded, h.not_address⟩⟩

variable {line : Bytes} {offset : Nat}

/-- The number signs in the code of a line are those at which a cursor stops in code. -/
theorem signAt_iff :
    SignAt line offset ↔ ∃ stop ∈ (Cursor.start line).trail Language.yaml.dialect,
      stop.offset = offset ∧ stop.AtHash := by
  constructor
  · rintro ⟨hget, hcode⟩
    obtain ⟨hlt, -⟩ := List.getElem?_eq_some_iff.1 hget
    obtain ⟨stop, hstop, rfl, hspan⟩ :=
      (SpanTable.isCode_ofLine_iff Language.yaml.dialect line (Nat.le_of_lt hlt)).1 hcode
    refine ⟨stop, hstop, rfl, hspan, ?_⟩
    rw [(Cursor.at_of_mem_trail (Cursor.at_start line) hstop).2, List.head?_drop, hget]
  · rintro ⟨stop, hstop, rfl, hspan, hhead⟩
    obtain ⟨hle, hrest⟩ := Cursor.at_of_mem_trail (Cursor.at_start line) hstop
    rw [hrest, List.head?_drop] at hhead
    exact ⟨hhead, (SpanTable.isCode_ofLine_iff _ line hle).2 ⟨stop, hstop, rfl, hspan⟩⟩

/-- Where an address can be looked for the line can be cut. -/
theorem before_of_inAddress
    {found : Bool}
    (h : inAddress (hashAt line offset) = .ok found) :
    (hashAt line offset).before = .ok (line.take offset) := by
  rw [inAddress_eq] at h
  cases hbefore : (hashAt line offset).before with
  | error fault =>
      rw [hbefore] at h
      cases h
  | ok front =>
      exact congrArg Except.ok ((Utf8.upTo_eq_ok_iff _ _ _).1 hbefore).2

/-- A number sign is kept in a closed expansion, in an address, and at the start of a heading. -/
theorem keeps_yaml_of_inAddress
    {found : Bool}
    (h : inAddress (hashAt line offset) = .ok found) :
    keeps .yaml (LineFacts.ofLine line) offset [Byte.hash] =
      .ok ((hashAt line offset).inClosedExpansion || found ||
        (Blank.isAllWhite (line.take offset) && Heading.isKept (line.drop offset))) := by
  have hbefore := before_of_inAddress h
  have hfrom : Utf8.startingAt line offset = .ok (line.drop offset) :=
    (Utf8.startingAt_eq_ok_iff _ _ _).2 ⟨((Utf8.upTo_eq_ok_iff _ _ _).1 hbefore).1, rfl⟩
  rw [keeps_yaml_eq, h, Site.isLeading, hbefore, hfrom]
  cases (hashAt line offset).inClosedExpansion with
  | true => rfl
  | false =>
      cases found with
      | true => rfl
      | false => cases hwhite : Blank.isAllWhite (line.take offset) <;>
          simp [bind, Except.bind, pure, Except.pure, hwhite, Heading.isKept]

/-- A veto that answers has looked for an address, if the number sign is in no expansion. -/
theorem exists_inAddress
    {kept : Bool}
    (hexpanded : (hashAt line offset).inClosedExpansion = false)
    (h : keeps .yaml (LineFacts.ofLine line) offset [Byte.hash] = .ok kept) :
    ∃ found, inAddress (hashAt line offset) = .ok found := by
  rw [keeps_yaml_eq, hexpanded, if_neg (by decide)] at h
  cases hfound : inAddress (hashAt line offset) with
  | error fault =>
      rw [hfound] at h
      cases h
  | ok found =>
      exact ⟨found, rfl⟩

/--
A number sign is not kept if it is in no closed expansion, in no address, and at the start
of no heading.
-/
theorem keeps_yaml_eq_false_iff :
    keeps .yaml (LineFacts.ofLine line) offset [Byte.hash] = .ok false ↔
      (hashAt line offset).inClosedExpansion = false ∧
        inAddress (hashAt line offset) = .ok false ∧
        (Blank.isAllWhite (line.take offset) && Heading.isKept (line.drop offset)) = false := by
  constructor
  · intro h
    have hexpanded : (hashAt line offset).inClosedExpansion = false := by
      by_contra hexpanded
      rw [Bool.not_eq_false] at hexpanded
      rw [keeps_yaml_eq, hexpanded] at h
      cases h
    obtain ⟨found, hfound⟩ := exists_inAddress hexpanded h
    rw [keeps_yaml_of_inAddress hfound, Except.ok.injEq, Bool.or_eq_false_iff,
      Bool.or_eq_false_iff] at h
    exact ⟨hexpanded, h.1.2 ▸ hfound, h.2⟩
  · rintro ⟨hexpanded, haddress, hheading⟩
    rw [keeps_yaml_of_inAddress haddress, hexpanded, hheading]
    rfl

/-- Behind other text a number sign is bare if it is not kept. -/
theorem bare_iff
    (hwhite : Blank.isAllWhite (line.take offset) = false) :
    Bare line offset ↔ SignAt line offset ∧
      keeps .yaml (LineFacts.ofLine line) offset [Byte.hash] = .ok false := by
  rw [keeps_yaml_eq_false_iff]
  constructor
  · rintro ⟨hsign, hexpanded, haddress⟩
    exact ⟨hsign, hexpanded, haddress, by rw [hwhite, Bool.false_and]⟩
  · rintro ⟨hsign, hexpanded, haddress, -⟩
    exact ⟨hsign, hexpanded, haddress⟩

/-- The bytes of a text that has been seen come before the offset. -/
theorem mem_take_of_seenBefore
    {needle : Bytes} {b : UInt8}
    (h : (LineFacts.ofLine line).seenBefore needle offset = true)
    (hb : b ∈ needle) :
    b ∈ line.take offset := by
  rw [LineFacts.seenBefore, LineFacts.positions_ofLine, Option.any_eq_true] at h
  obtain ⟨start, hstart, hend⟩ := h
  rw [decide_eq_true_eq] at hend
  have hpre := Bytes.isPrefix_of_mem_occurrencesFrom (List.mem_of_mem_head? hstart)
  rw [Nat.sub_zero] at hpre
  have hcut := (List.prefix_take_iff.2 ⟨hpre, Nat.le_sub_of_add_le' hend⟩).subset hb
  rw [← List.drop_take] at hcut
  exact List.mem_of_mem_drop hcut

/-- In an address there are letters before the number sign. -/
theorem mem_take_of_inAddress
    (h : inAddress (hashAt line offset) = .ok true) :
    0x68 ∈ line.take offset := by
  have hbefore := before_of_inAddress h
  rw [inAddress_eq, hbefore] at h
  have hword {word : Bytes} (hword : Blank.lastWord (line.take offset) = .ok word) :
      ∀ b ∈ word, b ∈ line.take offset := by
    rw [Blank.lastWord] at hword
    split at hword
    · obtain ⟨-, rfl⟩ := (Utf8.startingAt_eq_ok_iff _ _ _).1 hword
      exact fun b hb => List.mem_of_mem_drop hb
    · cases hword
      exact fun b hb => hb
  cases hlast : Blank.lastWord (line.take offset) with
  | error fault =>
      simp [bind, Except.bind, hlast] at h
  | ok word =>
      have hcontains : Bytes.contains (Bytes.ofString "http") word = true := by
        simpa [bind, Except.bind, pure, Except.pure, hlast] using h
      obtain ⟨found, hfound⟩ := Option.isSome_iff_exists.1 hcontains
      have hpre := (Bytes.find?_eq_some_iff.1 hfound).1
      exact hword hlast _ (List.mem_of_mem_drop (hpre.subset (by decide)))

end Veto

/-- A YAML line is cut at the first number sign of its code that is not kept. -/
theorem Pruning.cut_of_ofLine_yaml
    {line : Bytes} {result : Pruning}
    (h : ofLine .yaml line = .ok result) :
    (result.text = line ∧ ∀ offset, Veto.SignAt line offset →
      Veto.keeps .yaml (LineFacts.ofLine line) offset [Byte.hash] = .ok true) ∨
    ∃ first, Veto.SignAt line first ∧
      Veto.keeps .yaml (LineFacts.ofLine line) first [Byte.hash] = .ok false ∧
      (∀ offset < first, Veto.SignAt line offset →
        Veto.keeps .yaml (LineFacts.ofLine line) offset [Byte.hash] = .ok true) ∧
      result.text = line.take first := by
  have hreading := reading_of_ofLine h
  cases hremovals : result.removals with
  | nil =>
      obtain ⟨htext, hnone⟩ := hreading.eq_of_removals_nil hremovals
      refine Or.inl ⟨htext, fun offset hsign => ?_⟩
      obtain ⟨stop, hstop, rfl, hhash⟩ := Veto.signAt_iff.1 hsign
      rw [keeps_eq_of_atHash hhash, hnone stop hstop]
      rfl
  | cons removal more =>
      obtain ⟨stop, later, hfirst⟩ := hreading.exists_first (Cursor.at_start line) hremovals
      have hcomment := hfirst.comment
      have hrule := (mem_rules_of_commentAt? hcomment).1
      rw [Language.rules_yaml, List.mem_singleton] at hrule
      rw [hrule] at hcomment
      have hhash : stop.AtHash := by
        by_contra hhash
        rw [commentAt?_of_not_atHash hhash] at hcomment
        cases hcomment
      refine Or.inr ⟨stop.offset, Veto.signAt_iff.2 ⟨stop, hfirst.reached, rfl, hhash⟩, ?_, ?_, ?_⟩
      · rw [keeps_eq_of_atHash hhash, hcomment]
        rfl
      · intro offset hlt hsign
        obtain ⟨other, hother, rfl, hat⟩ := Veto.signAt_iff.1 hsign
        rw [hfirst.offset_eq] at hlt
        rw [keeps_eq_of_atHash hat, hfirst.earlier other hother hlt]
        rfl
      · rw [hfirst.left_eq, hfirst.onward.eq_of_line hcomment, hfirst.offset_eq]
        exact List.append_nil _

namespace Line

variable {mode next : Mode} {line lead text : Bytes} {result : LineResult}

/-- A line of YAML is read as code in mode `normal`, and where it ends a block scalar. -/
def ReadsCode (mode : Mode) (line : Bytes) : Prop :=
  mode = .normal ∨ ∃ indent, mode = .blockScalar indent ∧ Blank.indentation line ≤ indent

theorem isAllWhite_of_mem_hash
    (h : Byte.hash ∈ line) :
    Blank.isAllWhite line = false := by
  by_contra hwhite
  rw [Bool.not_eq_false] at hwhite
  have hink := Blank.isInk_of_isAllWhite hwhite _ h
  cases hink

theorem hash_mem_take
    {offset : Nat}
    (hline : line = lead ++ Byte.hash :: text)
    (hlt : lead.length < offset) :
    Byte.hash ∈ line.take offset := by
  obtain ⟨more, hmore⟩ := Nat.exists_eq_add_of_lt hlt
  rw [hline, List.take_append, show offset - lead.length = more + 1 by omega,
    List.take_succ_cons]
  exact List.mem_append_right _ List.mem_cons_self

/-- What becomes of a line that is read as code is what its pruning leaves. -/
theorem exists_pruning_of_readsCode
    {language : Language}
    (hmode : ReadsCode mode line)
    (hwhite : Blank.isAllWhite line = false)
    (h : process language mode line = .ok (result, next)) :
    ∃ pruning, Pruning.ofLine language line = .ok pruning ∧ result = finish line pruning.text := by
  have houtcome := outcome_of_process h
  rcases hmode with rfl | ⟨indent, rfl, hindent⟩
  · cases houtcome with
    | white hother =>
        rw [hwhite] at hother
        cases hother
    | code _ hpruning =>
        exact ⟨_, hpruning, rfl⟩
  · cases houtcome with
    | inScalar hkept =>
        rw [hwhite, Bool.false_or, decide_eq_true_eq] at hkept
        omega
    | afterScalar _ hpruning =>
        exact ⟨_, hpruning, rfl⟩

/-- A line that is cut behind its first number sign is replaced by what comes before the cut. -/
theorem finish_take
    {offset : Nat}
    (hhash : Byte.hash ∈ line.take offset)
    (hlt : offset < line.length) :
    finish line (line.take offset) = .replaced (Blank.trimEndSpaces (line.take offset)) := by
  have hne : line.take offset ≠ line := by
    intro heq
    have hlength := congrArg List.length heq
    rw [List.length_take] at hlength
    omega
  have hwhite : ¬ Blank.isAllWhite (Blank.trimEndSpaces (line.take offset)) = true := by
    intro hwhite
    have hink := Blank.isInk_of_isAllWhite_trimEndSpaces hwhite _ hhash
    cases hink
  rw [finish, if_neg hne]
  exact if_neg hwhite

/--
A YAML line that starts with a heading stays as it is, all its number signs being kept, or it
is cut at a bare one behind the sign of the heading, all earlier ones being kept.
-/
theorem heading_cases
    (hmode : ReadsCode mode line)
    (hline : line = lead ++ Byte.hash :: text)
    (hlead : Blank.isAllWhite lead = true)
    (hkept : Heading.isKept (Byte.hash :: text) = true)
    (h : process .yaml mode line = .ok (result, next)) :
    (result = .unchanged ∧ ∀ offset, Veto.SignAt line offset →
      Veto.keeps .yaml (LineFacts.ofLine line) offset [Byte.hash] = .ok true) ∨
    ∃ first, lead.length < first ∧ Veto.Bare line first ∧
      (∀ offset < first, Veto.SignAt line offset →
        Veto.keeps .yaml (LineFacts.ofLine line) offset [Byte.hash] = .ok true) ∧
      result = .replaced (Blank.trimEndSpaces (line.take first)) := by
  have htake : line.take lead.length = lead := by
    rw [hline, List.take_left]
  have hdrop : line.drop lead.length = Byte.hash :: text := by
    rw [hline, List.drop_left]
  obtain ⟨pruning, hpruning, rfl⟩ := exists_pruning_of_readsCode hmode
    (isAllWhite_of_mem_hash (by rw [hline]; simp)) h
  rcases Pruning.cut_of_ofLine_yaml hpruning with ⟨htext, hall⟩ |
    ⟨first, hsign, hcut, hearlier, htext⟩
  · exact Or.inl ⟨by rw [htext, finish, if_pos rfl], hall⟩
  · obtain ⟨hlength, -⟩ := List.getElem?_eq_some_iff.1 hsign.1
    have hlt : lead.length < first := by
      rcases Nat.lt_trichotomy first lead.length with hlt | rfl | hlt
      · -- The white space before the heading has no number sign.
        have hget := hsign.1
        rw [hline, List.getElem?_append_left hlt] at hget
        rw [isAllWhite_of_mem_hash (List.mem_of_getElem? hget)] at hlead
        cases hlead
      · have hnot := (Veto.keeps_yaml_eq_false_iff.1 hcut).2.2
        rw [htake, hdrop, hlead, hkept] at hnot
        cases hnot
      · exact hlt
    have hhash := hash_mem_take hline hlt
    refine Or.inr ⟨first, hlt, ?_, hearlier, ?_⟩
    · exact (Veto.bare_iff (isAllWhite_of_mem_hash hhash)).2 ⟨hsign, hcut⟩
    · rw [htext]
      exact finish_take hhash hlength

/--
A YAML line that starts with a heading stays as it is exactly if no bare number sign comes
behind the sign of the heading.  Otherwise it is cut at the first one.
-/
theorem process_heading
    (hmode : ReadsCode mode line)
    (hline : line = lead ++ Byte.hash :: text)
    (hlead : Blank.isAllWhite lead = true)
    (hkept : Heading.isKept (Byte.hash :: text) = true)
    (h : process .yaml mode line = .ok (result, next)) :
    (result = .unchanged ↔ ∀ offset, lead.length < offset → ¬ Veto.Bare line offset) ∧
      ∀ first, IsLeast {offset | lead.length < offset ∧ Veto.Bare line offset} first →
        result = .replaced (Blank.trimEndSpaces (line.take first)) := by
  have hbare {offset : Nat} (hlt : lead.length < offset) (hother : Veto.Bare line offset) :
      Veto.keeps .yaml (LineFacts.ofLine line) offset [Byte.hash] ≠ .ok true := by
    have hwhite := isAllWhite_of_mem_hash (hash_mem_take hline hlt)
    rw [((Veto.bare_iff hwhite).1 hother).2]
    decide
  rcases heading_cases hmode hline hlead hkept h with ⟨rfl, hall⟩ |
    ⟨first, hlt, hfirst, hearlier, rfl⟩
  · have hnone (offset : Nat) (hlt : lead.length < offset) : ¬ Veto.Bare line offset :=
      fun hother => hbare hlt hother (hall offset hother.sign)
    exact ⟨iff_of_true rfl hnone, fun first hfirst => absurd hfirst.1.2 (hnone _ hfirst.1.1)⟩
  · refine ⟨iff_of_false (by simp) fun hnone => hnone _ hlt hfirst, fun least hleast => ?_⟩
    have hle : least ≤ first := hleast.2 ⟨hlt, hfirst⟩
    have hge : first ≤ least := by
      by_contra hbefore
      exact hbare hleast.1.1 hleast.1.2
        (hearlier least (Nat.lt_of_not_le hbefore) hleast.1.2.sign)
    rw [Nat.le_antisymm hle hge]

/-- A second number sign cuts a heading, and one in an address does not. -/
theorem process_heading_second_sign :
    process .yaml .normal (Bytes.ofString "## Heading") =
        .ok (.replaced (Bytes.ofString "#"), .normal) ∧
      IsLeast {offset | 0 < offset ∧ Veto.Bare (Bytes.ofString "## Heading") offset} 1 ∧
      LineResult.replaced (Bytes.ofString "#") =
        .replaced (Blank.trimEndSpaces ((Bytes.ofString "## Heading").take 1)) ∧
      process .yaml .normal (Bytes.ofString "# 1. http://a/#b") = .ok (.unchanged, .normal) ∧
      Veto.SignAt (Bytes.ofString "# 1. http://a/#b") 14 ∧
      ¬ Veto.Bare (Bytes.ofString "# 1. http://a/#b") 14 := by
  have hnormal (line : Bytes) : ReadsCode .normal line := Or.inl rfl
  have hcut : process .yaml .normal (Bytes.ofString "## Heading") =
      .ok (.replaced (Bytes.ofString "#"), .normal) := by
    decide +kernel
  have hleast : IsLeast {offset | 0 < offset ∧ Veto.Bare (Bytes.ofString "## Heading") offset} 1 :=
    ⟨⟨Nat.one_pos, by decide +kernel⟩, fun _ hother => hother.1⟩
  have hreplaced := (process_heading (hnormal _)
    (by decide : Bytes.ofString "## Heading" = [] ++ Byte.hash :: Bytes.ofString "# Heading")
    (by decide) (by decide +kernel) hcut).2 1 hleast
  have hwhole : process .yaml .normal (Bytes.ofString "# 1. http://a/#b") =
      .ok (.unchanged, .normal) := by
    decide +kernel
  have hnone := (process_heading (hnormal _)
    (by decide : Bytes.ofString "# 1. http://a/#b" =
      [] ++ Byte.hash :: Bytes.ofString " 1. http://a/#b")
    (by decide) (by decide +kernel) hwhole).1.1 rfl
  exact ⟨hcut, hleast, hreplaced, hwhole, by decide +kernel, hnone 14 (by decide)⟩

/-- Behind white space and a number sign the next number sign is not kept. -/
theorem keeps_ne_of_signs
    {front : Bytes}
    (hline : line = front ++ Byte.hash :: text)
    (hfront : ∀ b ∈ front, Blank.isInk b = true → b = Byte.hash)
    (hhash : Byte.hash ∈ front) :
    Veto.keeps .yaml (LineFacts.ofLine line) front.length [Byte.hash] ≠ .ok true := by
  have htake : line.take front.length = front := by
    rw [hline, List.take_left]
  have hnot {b : UInt8} (hink : Blank.isInk b = true) (hne : b ≠ Byte.hash) : b ∉ front :=
    fun hb => hne (hfront b hb hink)
  have hexpanded : (Veto.hashAt line front.length).inClosedExpansion = false := by
    by_contra hexpanded
    rw [Bool.not_eq_false, Veto.Site.inClosedExpansion, Veto.Site.inExpansion, Bool.and_eq_true,
      Bool.and_eq_true] at hexpanded
    have hdollar := Veto.mem_take_of_seenBefore hexpanded.1.1 List.mem_cons_self
    rw [htake] at hdollar
    exact hnot (by decide) (by decide) hdollar
  intro hkeeps
  obtain ⟨found, hfound⟩ := Veto.exists_inAddress hexpanded hkeeps
  rw [Veto.keeps_yaml_of_inAddress hfound, hexpanded, htake, isAllWhite_of_mem_hash hhash] at hkeeps
  cases found with
  | true =>
      have hletter := Veto.mem_take_of_inAddress hfound
      rw [htake] at hletter
      exact hnot (by decide) (by decide) hletter
  | false =>
      cases hkeeps

/-- Of a heading that starts with two number signs only the first one is left. -/
theorem process_heading_of_signs
    {gap : Bytes}
    (hmode : ReadsCode mode line)
    (hline : line = lead ++ Byte.hash :: (gap ++ Byte.hash :: text))
    (hlead : Blank.isAllWhite lead = true)
    (hgap : ∀ b ∈ gap, b = Byte.space)
    (hkept : Heading.isKept (Byte.hash :: (gap ++ Byte.hash :: text)) = true)
    (h : process .yaml mode line = .ok (result, next)) :
    result = .replaced (lead ++ [Byte.hash]) := by
  have hsplit : line = (lead ++ Byte.hash :: gap) ++ Byte.hash :: text := by
    rw [hline, List.append_assoc, List.cons_append]
  have hfront : ∀ b ∈ lead ++ Byte.hash :: gap, Blank.isInk b = true → b = Byte.hash := by
    intro b hb hink
    rcases List.mem_append.1 hb with hb | hb
    · rw [Blank.isInk_of_isAllWhite hlead b hb] at hink
      cases hink
    · rcases List.mem_cons.1 hb with rfl | hb
      · rfl
      · rw [hgap b hb] at hink
        cases hink
  have hlength : (lead ++ Byte.hash :: gap).length = lead.length + gap.length + 1 := by
    rw [List.length_append, List.length_cons, Nat.add_assoc]
  have hnot := keeps_ne_of_signs hsplit hfront (by simp)
  have hsign : Veto.SignAt line (lead ++ Byte.hash :: gap).length := by
    obtain ⟨stop, hstop, hoffset, hspan⟩ :
        ∃ stop ∈ (Cursor.start line).trail Language.yaml.dialect,
          stop.offset = 0 + (lead ++ Byte.hash :: gap).length ∧ stop.span = .code :=
      Cursor.exists_stop_behind rfl hsplit hfront
    rw [Nat.zero_add] at hoffset
    have hle : (lead ++ Byte.hash :: gap).length ≤ line.length := by
      rw [hsplit]
      exact (List.prefix_append _ _).length_le
    refine ⟨?_, (SpanTable.isCode_ofLine_iff _ line hle).2 ⟨stop, hstop, hoffset, hspan⟩⟩
    rw [← List.head?_drop, hsplit, List.drop_left, List.head?_cons]
  rcases heading_cases hmode hline hlead hkept h with ⟨-, hall⟩ |
    ⟨first, hlt, hbare, hearlier, rfl⟩
  · exact absurd (hall _ hsign) hnot
  · have hge : ¬ first < (lead ++ Byte.hash :: gap).length := by
      intro hbefore
      obtain ⟨more, rfl⟩ := Nat.exists_eq_add_of_lt hlt
      have hget := hbare.sign.1
      rw [hline, List.getElem?_append_right (by omega), Nat.add_assoc, Nat.add_sub_cancel_left,
        List.getElem?_cons_succ, List.getElem?_append_left (by omega)] at hget
      cases hgap _ (List.mem_of_getElem? hget)
    have hle : ¬ (lead ++ Byte.hash :: gap).length < first :=
      fun hbehind => hnot (hearlier _ hbehind hsign)
    have hgapTrimmed : Blank.trimEndSpaces gap = [] := by
      rw [Blank.trimEndSpaces_eq_rdropWhile, List.rdropWhile_eq_nil_iff]
      exact fun b hb => by rw [hgap b hb]; rfl
    rw [show first = (lead ++ Byte.hash :: gap).length by omega, hsplit, List.take_left,
      ← List.singleton_append, ← List.append_assoc, Blank.trimEndSpaces_append, if_pos hgapTrimmed,
      Blank.trimEndSpaces_eq_self List.getLast?_concat (by decide)]

end Line
end Uncomment

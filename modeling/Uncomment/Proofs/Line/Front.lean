import Uncomment.Proofs.Line.Again
import Uncomment.Proofs.Line.Exactness
import Uncomment.Proofs.Line.Shrink
import Uncomment.Proofs.Veto.Front

/-!
# Lines with the same front

Two lines that begin alike are read alike as long as nothing that is looked at reaches
beyond the common front: no start token that may begin there (`Pruning.Decided`), and no
delimiter (`Cursor.step_append`).  So if a comment of the one line starts in the front,
the reading of the other line comes to the same place and has removed the same comments
by then (`Pruning.Reading.fork`).
-/

namespace Uncomment

/-- Where a text has a byte that a token lacks, the token begins within that text or not at all. -/
theorem Bytes.isPrefix_append_of_mem
    {token text : Bytes} {c : UInt8}
    (hmem : c ∈ text)
    (hc : c ∉ token)
    (back : Bytes) :
    token <+: text ++ back ↔ token <+: text := by
  obtain ⟨front, later, rfl⟩ := List.append_of_mem hmem
  rw [List.append_assoc, List.cons_append, isPrefix_of_not_mem hc, isPrefix_of_not_mem hc]

theorem Bytes.find?_append
    {needle text : Bytes} {found : Nat}
    (hle : found + needle.length ≤ text.length)
    (back : Bytes) :
    find? needle (text ++ back) = some found ↔ find? needle text = some found := by
  have hsame {offset : Nat} (hoffset : offset ≤ found) :
      needle <+: (text ++ back).drop offset ↔ needle <+: text.drop offset := by
    rw [List.drop_append_of_le_length (by omega)]
    refine ⟨fun h => ?_, fun h => h.trans (List.prefix_append _ _)⟩
    refine List.prefix_of_prefix_length_le h (List.prefix_append _ _) ?_
    rw [List.length_drop]
    omega
  rw [find?_eq_some_iff, find?_eq_some_iff, hsame (Nat.le_refl _)]
  refine and_congr_right fun _ => forall₂_congr fun earlier hearlier => ?_
  rw [hsame (Nat.le_of_lt hearlier)]

/-- A text with a byte that is not part of a delimiter. -/
def Bytes.Breaks (text : Bytes) : Prop :=
  ∃ c ∈ text, c ≠ Byte.quote ∧ c ≠ Byte.tick

section

variable {dialect : Dialect} {text : Bytes}

/-- Repeated quotation marks begin before a byte that breaks them or not at all. -/
theorem Bytes.Breaks.isPrefix_append
    {token : Bytes}
    (h : Bytes.Breaks text)
    (htoken : ∀ c ∈ token, c = Byte.quote ∨ c = Byte.tick)
    (back : Bytes) :
    token <+: text ++ back ↔ token <+: text := by
  obtain ⟨c, hmem, hquote, htick⟩ := h
  exact isPrefix_append_of_mem hmem (fun hc => (htoken c hc).elim hquote htick) back

/-- What closes before a text that breaks delimiters does not depend on what is behind. -/
theorem Span.closing?_append
    {span : Span}
    (hraw : dialect.rawStrings = false)
    (hspan : span.Possible dialect)
    (h : Bytes.Breaks text)
    (b : UInt8) (back : Bytes) :
    span.closing? b (text ++ back) = span.closing? b text := by
  have hpair (c : UInt8) (hc : c = Byte.quote ∨ c = Byte.tick) :
      [c, c].isPrefixOf (text ++ back) = [c, c].isPrefixOf text := by
    rw [Bool.eq_iff_iff, List.isPrefixOf_iff_prefix, List.isPrefixOf_iff_prefix]
    exact h.isPrefix_append (by simpa using hc) back
  cases span with
  | code | single | double | backtick | regex =>
      simp [closing?, closingTail]
  | tripleDouble =>
      simp only [closing?, closingTail, hpair Byte.quote (Or.inl rfl)]
  | tripleSingle =>
      simp only [closing?, closingTail, hpair Byte.tick (Or.inr rfl)]
  | raw hashes =>
      exact absurd (hraw.symm.trans hspan) (by decide)

/-- What opens before a text that breaks delimiters does not depend on what is behind. -/
theorem Lexer.opening?_append
    {before lastCode : Option UInt8}
    (hnear : dialect.IsNear)
    (h : Bytes.Breaks text)
    (b : UInt8) (back : Bytes) :
    opening? dialect before lastCode b (text ++ back) =
      opening? dialect before lastCode b text := by
  have hne : text ≠ [] := by
    obtain ⟨c, hmem, -⟩ := h
    exact List.ne_nil_of_mem hmem
  have hregex : regexOpens lastCode (text ++ back) = regexOpens lastCode text := by
    unfold regexOpens
    rw [List.head?_append_of_ne_nil _ hne]
  have hpair (hb : b = Byte.quote ∨ b = Byte.tick) : [b, b] <+: text ++ back ↔ [b, b] <+: text :=
    h.isPrefix_append (by simpa using hb) back
  rw [opening?_of_isNear hnear, opening?_of_isNear hnear, hregex]
  by_cases hquote : b = Byte.quote
  · simp only [if_pos hquote, hpair (Or.inl hquote)]
  · by_cases htick : b = Byte.tick
    · simp only [if_pos htick, hpair (Or.inr htick)]
    · simp only [if_neg hquote, if_neg htick]

end

theorem Language.isNear_dialect
    {language : Language}
    (h : language.dialect.single ≠ .charLiteral) :
    language.dialect.IsNear := by
  have hnear : language.dialect.single ≠ .charLiteral ∧ language.dialect.rawStrings = false := by
    revert h
    cases language <;> decide
  exact ⟨hnear.1, hnear.2⟩

namespace Cursor

/-- The cursor in a line that has more text at its end. -/
def extend (cursor : Cursor) (back : Bytes) : Cursor :=
  { cursor with rest := cursor.rest ++ back }

variable {dialect : Dialect} {cursor : Cursor} {front text : Bytes}

/-- A cursor in a line stands in the line with more text at its end. -/
theorem At.extend
    (hat : cursor.At front)
    (back : Bytes) :
    (cursor.extend back).At (front ++ back) := by
  obtain ⟨hle, hrest⟩ := hat
  refine ⟨?_, ?_⟩
  · rw [List.length_append]
    exact Nat.le_add_right_of_le hle
  · rw [Cursor.extend, hrest]
    exact (List.drop_append_of_le_length hle).symm

theorem move_append
    {more : Nat}
    (hmore : more ≤ text.length)
    (b : UInt8) (back : Bytes) :
    cursor.move b (text ++ back) more = (cursor.move b text more).extend back := by
  rw [move, move, extend, lastOf, lastOf, List.take_append_of_le_length hmore,
    List.drop_append_of_le_length hmore]

/--
A step does not depend on what is behind a text if neither the delimiter that opens or
closes there does, nor the length of an escape.
-/
theorem step_append_of_eq
    {b : UInt8} {back : Bytes}
    (hopened : cursor.span = .code →
      cursor.opened? dialect b (text ++ back) = cursor.opened? dialect b text)
    (hescape : cursor.span ≠ .code →
      (b == Byte.backslash && cursor.span.escapes dialect) = true →
      min 1 (text ++ back).length = min 1 text.length)
    (hclosing : cursor.span ≠ .code →
      ¬ (b == Byte.backslash && cursor.span.escapes dialect) = true →
      cursor.span.closing? b (text ++ back) = cursor.span.closing? b text) :
    cursor.step dialect b (text ++ back) = (cursor.step dialect b text).extend back := by
  unfold step
  split
  · next hcode =>
      specialize hopened hcode
      cases htext : cursor.opened? dialect b text with
      | some opened =>
          obtain ⟨more, span⟩ := opened
          have hmore := (Lexer.opening_of_opening? (opening?_of_opened htext)).le
          rw [stepCode_of_opened htext, stepCode_of_opened (hopened.trans htext), move_append hmore]
          rfl
      | none =>
          rw [stepCode_of_not_opened htext, stepCode_of_not_opened (hopened.trans htext),
            move_append (Nat.zero_le _)]
          rfl
  · next hliteral =>
      rw [stepLiteral, stepLiteral]
      split
      · next hbackslash =>
          rw [hescape hliteral hbackslash]
          exact move_append (by omega) b back
      · next hbackslash =>
          rw [hclosing hliteral hbackslash]
          split
          · next more hmore =>
              have hwithin := Span.closing?_le hmore
              rw [move_append hwithin, lastOf, lastOf, List.take_append_of_le_length hwithin]
              rfl
          · exact move_append (Nat.zero_le _) b back

/-- A step before a text that breaks delimiters does not depend on what is behind. -/
theorem step_append
    (hnear : dialect.IsNear)
    (hspan : cursor.span.Possible dialect)
    (h : Bytes.Breaks text)
    (b : UInt8) (back : Bytes) :
    cursor.step dialect b (text ++ back) = (cursor.step dialect b text).extend back := by
  have hpos : 1 ≤ text.length := by
    obtain ⟨c, hmem, -⟩ := h
    exact List.length_pos_of_mem hmem
  refine step_append_of_eq (fun _ => ?_) (fun _ _ => ?_) fun _ _ => ?_
  · rw [opened?, opened?, Lexer.opening?_append hnear h]
  · rw [List.length_append]
    omega
  · exact Span.closing?_append hnear.rawStrings hspan h b back

end Cursor

namespace Pruning

variable {language : Language}

/-- The same rule applies at two places with the same tokens that are kept alike. -/
theorem firstRule?_congr
    {facts facts' : LineFacts} {offset offset' : Nat} {rest rest' : Bytes} {rules : List Rule}
    (hstart : ∀ rule ∈ rules, rule.start <+: rest' ↔ rule.start <+: rest)
    (hkeeps : ∀ rule ∈ rules, rule.start <+: rest →
      Veto.keeps language facts' offset' rule.start =
        Veto.keeps language facts offset rule.start) :
    firstRule? language facts' offset' rest' rules =
      firstRule? language facts offset rest rules := by
  induction rules with
  | nil => rfl
  | cons rule more ih =>
      obtain ⟨hrule, hmore⟩ := List.forall_mem_cons.1 hstart
      obtain ⟨hkept, hlater⟩ := List.forall_mem_cons.1 hkeeps
      rw [firstRule?, firstRule?, ih hmore hlater]
      by_cases hpre : rule.start <+: rest
      · rw [if_pos (List.isPrefixOf_iff_prefix.2 hpre),
          if_pos (List.isPrefixOf_iff_prefix.2 (hrule.2 hpre)), hkept hpre]
      · rw [if_neg (mt List.isPrefixOf_iff_prefix.1 hpre),
          if_neg (mt List.isPrefixOf_iff_prefix.1 (mt hrule.1 hpre))]

/--
Whatever comes behind a text, a start token that begins at the offset ends before a byte
of the text that is no part of a word.
-/
def Decided (language : Language) (front : Bytes) (offset : Nat) : Prop :=
  ∀ back : Bytes, ∀ rule ∈ language.rules, rule.start <+: (front ++ back).drop offset →
    rule.start <+: front.drop offset ∧
      ∃ b ∈ front.drop (offset + rule.start.length), Byte.isAlphanumeric b = false

/-- A byte that is not part of a start token settles how far that token goes. -/
theorem decided_of_mem
    {front back : Bytes} {offset : Nat} {rule : Rule} {c : UInt8}
    (hmem : c ∈ front.drop offset)
    (hnot : c ∉ rule.start)
    (hword : Byte.isAlphanumeric c = false)
    (hstart : rule.start <+: (front ++ back).drop offset) :
    rule.start <+: front.drop offset ∧
      ∃ b ∈ front.drop (offset + rule.start.length), Byte.isAlphanumeric b = false := by
  have hle : offset ≤ front.length := by
    have hpos := List.length_pos_of_mem hmem
    rw [List.length_drop] at hpos
    omega
  rw [List.drop_append_of_le_length hle, Bytes.isPrefix_append_of_mem hmem hnot] at hstart
  refine ⟨hstart, c, ?_, hword⟩
  obtain ⟨later, hlater⟩ := hstart
  rw [← List.drop_drop, ← hlater, List.drop_left]
  rw [← hlater] at hmem
  exact (List.mem_append.1 hmem).resolve_left hnot

/-- A pruning of the end of a line, with what was kept and removed before it. -/
def behind (later : Pruning) (kept : Bytes) (removals : List Removal) : Pruning :=
  ⟨kept ++ later.text, removals ++ later.removals, later.mode⟩

variable {front back back' : Bytes} {cursor : Cursor} {last : Option UInt8}

/-- Before a start token a well-formed line can be cut. -/
theorem valid_take_of_start
    {line : Bytes} {rule : Rule} {offset : Nat}
    (hrule : rule ∈ language.rules)
    (hstart : rule.start <+: line.drop offset)
    (hvalid : Utf8.valid line = true) :
    Utf8.valid (line.take offset) = true := by
  obtain ⟨later, hlater⟩ := hstart
  cases htoken : rule.start with
  | nil => exact absurd htoken (Language.start_ne_nil hrule)
  | cons c more =>
      have hink : Blank.isInk c = true := Language.isInk_of_mem_start hrule c (by simp [htoken])
      rw [htoken, List.cons_append] at hlater
      rw [← List.take_append_drop offset line, ← hlater,
        Utf8.valid_append_cons (Blank.lt_of_isInk hink)] at hvalid
      exact hvalid.1

/-- Whether a comment starts where everything is decided does not depend on what is behind. -/
theorem commentAt?_extend
    (hyaml : language ≠ .yaml)
    (hrust : language ≠ .rust)
    (hat : cursor.At front)
    (hdecided : Decided language front cursor.offset)
    (hvalid : Utf8.valid (front ++ back) = true) :
    commentAt? language (LineFacts.ofLine (front ++ back)) (cursor.extend back) =
      commentAt? language (LineFacts.ofLine front) cursor := by
  have hdrop : (cursor.extend back).rest = (front ++ back).drop cursor.offset :=
    (hat.extend back).2
  have hcut : (front ++ back).take cursor.offset = front.take cursor.offset :=
    List.take_append_of_le_length hat.1
  rw [commentAt?, commentAt?, hdrop, hat.2]
  refine congrArg (ite _ · _) (firstRule?_congr (fun rule hrule => ?_) fun rule hrule hstart => ?_)
  · refine ⟨fun h => (hdecided back rule hrule h).1, fun h => ?_⟩
    rw [List.drop_append_of_le_length hat.1]
    exact h.trans (List.prefix_append _ _)
  · have hboth : rule.start <+: (front ++ back).drop cursor.offset := by
      rw [List.drop_append_of_le_length hat.1]
      exact hstart.trans (List.prefix_append _ _)
    refine Veto.keeps_append hyaml hrust hrule hstart (hdecided back rule hrule hboth).2 ?_ back
    rw [← hcut]
    exact valid_take_of_start hrule hboth hvalid

/--
The prunings of two lines with the same front: alike up to where a comment of the first
starts, and from there on what two readings come to that start from the same place.
-/
inductive Fork
    (language : Language)
    (front back back' : Bytes)
    (removal : Removal) :
    Pruning → Pruning → Prop
  | here {there : Cursor} {last : Option UInt8} {later later' : Pruning} :
      there.At front →
      there.offset = removal.start →
      Reading language (LineFacts.ofLine (front ++ back)) (there.extend back) last later →
      Reading language (LineFacts.ofLine (front ++ back')) (there.extend back') last later' →
      later.removals.head? = some removal →
      Fork language front back back' removal later later'
  | behind {later later' : Pruning} (kept : Bytes) (removals : List Removal) :
      Fork language front back back' removal later later' →
      Fork language front back back' removal (later.behind kept removals)
        (later'.behind kept removals)

namespace Reading

/-- Where no comment starts a step is read. -/
theorem exists_of_commentAt?_none
    {facts : LineFacts} {b : UInt8} {rest : Bytes} {more : Nat} {left : Pruning}
    (h : Reading language facts cursor last left)
    (hrest : cursor.rest = b :: rest)
    (hnone : commentAt? language facts cursor = .ok none)
    (hoffset : (cursor.step language.dialect b rest).offset = cursor.offset + more + 1) :
    ∃ later, left = later.behind (b :: rest.take more) [] ∧
      Reading language facts (cursor.step language.dialect b rest)
        (some (Cursor.lastOf b rest more)) later := by
  cases h with
  | done hnil =>
      rw [hrest] at hnil
      cases hnil
  | cutLine hrule | cutBlock hrule | splice _ hrule =>
      rw [hnone] at hrule
      cases hrule
  | step hrest' _ _ _ hoffset' hlater =>
      obtain ⟨rfl, rfl⟩ := List.cons_eq_cons.1 (hrest.symm.trans hrest')
      obtain rfl := Cursor.width_of_offset (hoffset.symm.trans hoffset')
      exact ⟨_, rfl, hlater⟩

/-- A block comment that starts and stops is spliced out. -/
theorem exists_of_find?
    {facts : LineFacts} {b : UInt8} {rest start stop : Bytes} {found width : Nat}
    {left : Pruning}
    (h : Reading language facts cursor last left)
    (hrest : cursor.rest = b :: rest)
    (hrule : commentAt? language facts cursor = .ok (some (.block start stop)))
    (hfind : Bytes.find? stop (cursor.rest.drop start.length) = some found)
    (hwidth : width = start.length + found + stop.length) :
    ∃ gap later, gap = fuses language last (rest.drop (width - 1)).head? ∧
      left = later.behind (if gap then [Byte.space] else [])
        [⟨cursor.offset, cursor.offset + width, .block start stop, gap⟩] ∧
      Reading language facts (cursor.resume b rest (width - 1))
        (if gap then some Byte.space else last) later := by
  cases h with
  | done hnil =>
      rw [hrest] at hnil
      cases hnil
  | step _ hnone =>
      rw [hrule] at hnone
      cases hnone
  | cutLine hother =>
      rw [hrule] at hother
      cases hother
  | cutBlock hother hnone =>
      rw [hrule] at hother
      cases hother
      rw [hfind] at hnone
      cases hnone
  | splice hrest' hother hfind' hwidth' _ _ _ hgap hlater =>
      rw [hrule] at hother
      cases hother
      rw [hfind] at hfind'
      cases hfind'
      obtain ⟨rfl, rfl⟩ := List.cons_eq_cons.1 (hrest.symm.trans hrest')
      obtain rfl := hwidth.trans hwidth'.symm
      exact ⟨_, _, hgap, rfl, hlater⟩

theorem rest_ne_nil_of_commentAt?
    {facts : LineFacts} {rule : Rule}
    (hrule : commentAt? language facts cursor = .ok (some rule)) :
    cursor.rest ≠ [] := by
  obtain ⟨hmem, hstart⟩ := mem_rules_of_commentAt? hrule
  intro hnil
  rw [hnil, List.prefix_nil] at hstart
  exact Language.start_ne_nil hmem hstart

theorem eq_of_nil
    {facts : LineFacts} {left : Pruning}
    (h : Reading language facts cursor last left)
    (hnil : cursor.rest = []) :
    left = ⟨[], [], .ofSpan language.dialect cursor.span⟩ := by
  cases h with
  | done => rfl
  | step hrest =>
      rw [hnil] at hrest
      cases hrest
  | cutLine hrule | cutBlock hrule | splice _ hrule =>
      exact absurd hnil (rest_ne_nil_of_commentAt? hrule)

theorem eq_of_line
    {facts : LineFacts} {start : Bytes} {left : Pruning}
    (h : Reading language facts cursor last left)
    (hrule : commentAt? language facts cursor = .ok (some (.line start))) :
    left = ⟨[], [.toEnd cursor (.line start)], .normal⟩ := by
  cases h with
  | done hnil =>
      exact absurd hnil (rest_ne_nil_of_commentAt? hrule)
  | step _ hnone =>
      rw [hrule] at hnone
      cases hnone
  | cutLine hother =>
      rw [hrule] at hother
      cases hother
      rfl
  | cutBlock hother | splice _ hother =>
      rw [hrule] at hother
      cases hother

theorem eq_of_open
    {facts : LineFacts} {start stop : Bytes} {left : Pruning}
    (h : Reading language facts cursor last left)
    (hrule : commentAt? language facts cursor = .ok (some (.block start stop)))
    (hfind : Bytes.find? stop (cursor.rest.drop start.length) = none) :
    left = ⟨[], [.toEnd cursor (.block start stop)], .blockComment stop⟩ := by
  cases h with
  | done hnil =>
      exact absurd hnil (rest_ne_nil_of_commentAt? hrule)
  | step _ hnone =>
      rw [hrule] at hnone
      cases hnone
  | cutLine hother =>
      rw [hrule] at hother
      cases hother
  | cutBlock hother =>
      rw [hrule] at hother
      cases hother
      rfl
  | splice _ hother hfound =>
      rw [hrule] at hother
      cases hother
      rw [hfind] at hfound
      cases hfound

/-- A removal that starts where a cursor stands is a comment that starts there. -/
theorem commentAt?_of_head
    {facts : LineFacts} {line : Bytes} {left : Pruning} {removal : Removal}
    (h : Reading language facts cursor last left)
    (hat : cursor.At line)
    (hhead : left.removals.head? = some removal)
    (hstart : removal.start = cursor.offset) :
    commentAt? language facts cursor = .ok (some removal.rule) := by
  cases h with
  | done => cases hhead
  | step hrest _ hmore hstep hoffset hlater =>
      have hnext := Cursor.at_of_move hat hrest hmore hstep hoffset
      have hbehind := (hlater.within hnext removal (List.mem_of_mem_head? hhead)).1
      omega
  | cutLine hrule | cutBlock hrule | splice _ hrule =>
      cases hhead
      exact hrule

theorem exists_unread
    {b : UInt8} {rest : Bytes}
    (hat : cursor.At front)
    (hlt : cursor.offset < front.length)
    (hrest : (cursor.extend back).rest = b :: rest) :
    ∃ text, cursor.rest = b :: text ∧ rest = text ++ back ∧
      text = front.drop (cursor.offset + 1) := by
  have hcons := hat.2.trans (List.drop_eq_getElem_cons hlt)
  rw [Cursor.extend, hcons] at hrest
  obtain ⟨rfl, rfl⟩ := List.cons_eq_cons.1 hrest
  exact ⟨_, hcons, rfl, rfl⟩

theorem unread_extend
    {b : UInt8} {text : Bytes}
    (hunread : cursor.rest = b :: text)
    (back : Bytes) :
    (cursor.extend back).rest = b :: (text ++ back) := by
  rw [Cursor.extend, hunread, List.cons_append]

theorem lt_of_breaks
    {offset : Nat}
    (h : Bytes.Breaks (front.drop offset)) :
    offset < front.length := by
  obtain ⟨c, hmem, -⟩ := h
  have hpos := List.length_pos_of_mem hmem
  rw [List.length_drop] at hpos
  omega

/-- A text breaks delimiters if its end does. -/
theorem breaks_of_le
    {offset later : Nat}
    (hle : offset ≤ later)
    (h : Bytes.Breaks (front.drop later)) :
    Bytes.Breaks (front.drop offset) := by
  obtain ⟨c, hmem, hc⟩ := h
  refine ⟨c, ?_, hc⟩
  obtain ⟨more, rfl⟩ := Nat.exists_eq_add_of_le hle
  rw [← List.drop_drop] at hmem
  exact List.mem_of_mem_drop hmem

section Extend

variable {facts' : LineFacts} {b : UInt8} {rest : Bytes} {left' : Pruning}

/-- A step in the front of a line is made in another line with that front as well. -/
theorem exists_of_step_extend
    {more : Nat}
    (hnear : language.dialect.IsNear)
    (hat : cursor.At front)
    (hspan : cursor.span.Possible language.dialect)
    (hbreaks : Bytes.Breaks (front.drop (cursor.offset + 1)))
    (hrest : (cursor.extend back).rest = b :: rest)
    (hoffset : ((cursor.extend back).step language.dialect b rest).offset =
      (cursor.extend back).offset + more + 1)
    (hnone : commentAt? language facts' (cursor.extend back') = .ok none)
    (h' : Reading language facts' (cursor.extend back') last left') :
    ∃ (next : Cursor) (later' : Pruning), next.At front ∧ next.span.Possible language.dialect ∧
      (cursor.extend back).step language.dialect b rest = next.extend back ∧
      left' = later'.behind (b :: rest.take more) [] ∧
      Reading language facts' (next.extend back') (some (Cursor.lastOf b rest more)) later' := by
  obtain ⟨text, hunread, rfl, rfl⟩ := exists_unread hat (Nat.lt_of_succ_lt (lt_of_breaks hbreaks)) hrest
  obtain ⟨width, hwidth, hnextRest, hnextOffset⟩ :=
    Cursor.exists_step language.dialect cursor b (front.drop (cursor.offset + 1))
  have hstepAt (other : Bytes) :
      (cursor.extend other).step language.dialect b (front.drop (cursor.offset + 1) ++ other) =
        (cursor.step language.dialect b (front.drop (cursor.offset + 1))).extend other :=
    Cursor.step_append hnear hspan hbreaks b other
  have htake (other : Bytes) : (front.drop (cursor.offset + 1) ++ other).take width =
      (front.drop (cursor.offset + 1)).take width :=
    List.take_append_of_le_length hwidth
  have hlast : Cursor.lastOf b (front.drop (cursor.offset + 1) ++ back') width =
      Cursor.lastOf b (front.drop (cursor.offset + 1) ++ back) width := by
    rw [Cursor.lastOf, Cursor.lastOf, htake, htake]
  rw [hstepAt back] at hoffset
  obtain rfl := Cursor.width_of_offset (hnextOffset.symm.trans hoffset)
  obtain ⟨later', rfl, hleft'⟩ := h'.exists_of_commentAt?_none (unread_extend hunread back')
    hnone ((congrArg Cursor.offset (hstepAt back')).trans hnextOffset)
  rw [hstepAt back', hlast] at hleft'
  rw [htake back', ← htake back]
  exact ⟨_, later', Cursor.at_of_move hat hunread hwidth hnextRest hnextOffset,
    Cursor.possible_step hspan b _, hstepAt back, rfl, hleft'⟩

/-- A splice in the front of a line is made in another line with that front as well. -/
theorem exists_of_splice_extend
    {start stop : Bytes} {found width : Nat}
    (hat : cursor.At front)
    (hlt : cursor.offset + width < front.length)
    (hrest : (cursor.extend back).rest = b :: rest)
    (hfind : Bytes.find? stop ((cursor.extend back).rest.drop start.length) = some found)
    (hwidth : width = start.length + found + stop.length)
    (hpos : 0 < width)
    (hrule : commentAt? language facts' (cursor.extend back') = .ok (some (.block start stop)))
    (h' : Reading language facts' (cursor.extend back') last left') :
    ∃ (next : Cursor) (later' : Pruning) (gap : Bool), next.At front ∧ next.span = .code ∧
      (cursor.extend back).resume b rest (width - 1) = next.extend back ∧
      gap = fuses language last ((cursor.extend back).resume b rest (width - 1)).rest.head? ∧
      left' = later'.behind (if gap then [Byte.space] else [])
        [⟨cursor.offset, cursor.offset + width, .block start stop, gap⟩] ∧
      Reading language facts' (next.extend back') (if gap then some Byte.space else last)
        later' := by
  obtain ⟨text, hunread, rfl, htext⟩ := exists_unread hat (by omega) hrest
  have hlength : text.length = front.length - (cursor.offset + 1) := by
    rw [htext, List.length_drop]
  have hunreadLength : cursor.rest.length = text.length + 1 := by
    rw [hunread, List.length_cons]
  have hbody (other : Bytes) : (cursor.extend other).rest.drop start.length =
      cursor.rest.drop start.length ++ other :=
    List.drop_append_of_le_length (by omega)
  have hinner : found + stop.length ≤ (cursor.rest.drop start.length).length := by
    rw [List.length_drop]
    omega
  rw [hbody, Bytes.find?_append hinner] at hfind
  have hresumeAt (other : Bytes) : (cursor.extend other).resume b (text ++ other) (width - 1) =
      (cursor.resume b text (width - 1)).extend other := by
    rw [Cursor.resume, Cursor.move_append (by omega)]
    rfl
  have hhead (other : Bytes) :
      ((cursor.extend other).resume b (text ++ other) (width - 1)).rest.head? =
        (text.drop (width - 1)).head? := by
    rw [hresumeAt]
    refine List.head?_append_of_ne_nil _ ?_
    rw [Cursor.resume, Cursor.move, Ne, List.drop_eq_nil_iff]
    omega
  obtain ⟨gap, later', hgap, rfl, hleft'⟩ := h'.exists_of_find? (unread_extend hunread back')
    hrule (by rwa [hbody, Bytes.find?_append hinner]) hwidth
  rw [hresumeAt back'] at hleft'
  refine ⟨_, later', gap, (at_resume hat hunread hpos (by omega)).1, rfl, hresumeAt back, ?_, rfl,
    hleft'⟩
  rw [hhead, ← hhead back']
  exact hgap

end Extend

/-- Two lines with the same front are read alike up to a comment that starts in the front. -/
theorem fork
    {removal : Removal} {left left' : Pruning}
    (hnear : language.dialect.IsNear)
    (hyaml : language ≠ .yaml)
    (hvalid : Utf8.valid (front ++ back) = true)
    (hvalid' : Utf8.valid (front ++ back') = true)
    (hdecided : ∀ offset < removal.start, Decided language front offset)
    (hbreaks : Bytes.Breaks (front.drop removal.start))
    (hat : cursor.At front)
    (hspan : cursor.span.Possible language.dialect)
    (h : Reading language (LineFacts.ofLine (front ++ back)) (cursor.extend back) last left)
    (h' : Reading language (LineFacts.ofLine (front ++ back')) (cursor.extend back') last left')
    (hmem : removal ∈ left.removals) :
    Fork language front back back' removal left left' := by
  have hrust : language ≠ .rust := by
    rintro rfl
    exact hnear.single rfl
  have hsame {c : Cursor} (hat : c.At front) (hlt : c.offset < removal.start) :
      commentAt? language (LineFacts.ofLine (front ++ back')) (c.extend back') =
        commentAt? language (LineFacts.ofLine (front ++ back)) (c.extend back) := by
    rw [commentAt?_extend hyaml hrust hat (hdecided _ hlt) hvalid,
      commentAt?_extend hyaml hrust hat (hdecided _ hlt) hvalid']
  generalize hstand : cursor.extend back = standing at h
  induction h generalizing cursor left' with
  | done => cases hmem
  | @step standing last b rest more left hrest hnone hmore hstep hoffset hleft ih =>
      subst hstand
      have hbehind := (hleft.within
        (Cursor.at_of_move (hat.extend back) hrest hmore hstep hoffset) removal hmem).1
      have hlt : cursor.offset + 1 ≤ removal.start := by
        change _ = cursor.offset + more + 1 at hoffset
        omega
      obtain ⟨next, later', hnext, hpossible, hsteps, rfl, hleft'⟩ :=
        exists_of_step_extend hnear hat hspan (breaks_of_le hlt hbreaks) hrest hoffset
          ((hsame hat hlt).trans hnone) h'
      exact .behind (b :: rest.take more) [] (ih hnext hpossible hleft' hmem hsteps.symm)
  | cutLine hrule =>
      subst hstand
      obtain rfl := List.mem_singleton.1 hmem
      exact .here hat rfl (.cutLine hrule) h' rfl
  | cutBlock hrule hfind =>
      subst hstand
      obtain rfl := List.mem_singleton.1 hmem
      exact .here hat rfl (.cutBlock hrule hfind) h' rfl
  | @splice standing last b rest start stop found width gap left hrest hrule hfind hwidth hpos
      hle hclean hgap hleft ih =>
      subst hstand
      rcases List.mem_cons.1 hmem with rfl | hlater
      · exact .here hat rfl (.splice hrest hrule hfind hwidth hpos hle hclean hgap hleft) h' rfl
      · obtain ⟨hnext, hnextOffset⟩ := at_resume (hat.extend back) hrest hpos hle
        have hbehind := (hleft.within hnext removal hlater).1
        have hlt : cursor.offset + width ≤ removal.start := by
          change _ = cursor.offset + width at hnextOffset
          omega
        obtain ⟨next, later', gap', hnext, hcode, hresume, hgap', rfl, hleft'⟩ :=
          exists_of_splice_extend hat (Nat.lt_of_le_of_lt hlt (lt_of_breaks hbreaks)) hrest hfind
            hwidth hpos ((hsame hat (by omega)).trans hrule) h'
        obtain rfl := hgap.trans hgap'.symm
        exact .behind (if gap then [Byte.space] else []) [_]
          (ih hnext (hcode ▸ trivial) hleft' hlater hresume.symm)

end Reading

/-- A fork in one step: what the two sides have in common, and what they come to from there. -/
theorem Fork.exists_later
    {removal : Removal} {left left' : Pruning}
    (h : Fork language front back back' removal left left') :
    ∃ (there : Cursor) (last : Option UInt8) (later later' : Pruning) (kept : Bytes)
      (earlier : List Removal),
      there.At front ∧ there.offset = removal.start ∧
      Reading language (LineFacts.ofLine (front ++ back)) (there.extend back) last later ∧
      Reading language (LineFacts.ofLine (front ++ back')) (there.extend back') last later' ∧
      commentAt? language (LineFacts.ofLine (front ++ back)) (there.extend back) =
        .ok (some removal.rule) ∧
      left = later.behind kept earlier ∧ left' = later'.behind kept earlier := by
  induction h with
  | here hat hoffset hlater hlater' hhead =>
      exact ⟨_, _, _, _, [], [], hat, hoffset, hlater, hlater',
        hlater.commentAt?_of_head (hat.extend back) hhead hoffset.symm, rfl, rfl⟩
  | behind kept removals _ ih =>
      obtain ⟨there, last, later, later', read, earlier, hat, hoffset, hlater, hlater', hcomment,
        rfl, rfl⟩ := ih
      refine ⟨there, last, later, later', kept ++ read, removals ++ earlier, hat, hoffset, hlater,
        hlater', hcomment, ?_, ?_⟩ <;> simp only [Pruning.behind, List.append_assoc]

end Pruning

namespace Line

variable {language : Language}

/-- A line from which something is removed is settled. -/
theorem processNormal_of_removals
    {line : Bytes} {pruning : Pruning}
    (hyaml : language ≠ .yaml)
    (hpruning : Pruning.ofLine language line = .ok pruning)
    (hne : pruning.removals ≠ []) :
    processNormal language line = .ok (settle pruning.text, pruning.mode) := by
  have hchanged : pruning.text ≠ line := by
    intro heq
    have hlt := Pruning.length_lt_of_removals hpruning hne
    rw [heq] at hlt
    exact Nat.lt_irrefl _ hlt
  have hwhite : ¬ Blank.isAllWhite line = true := by
    intro hwhite
    obtain ⟨removal, hremoval⟩ := List.exists_mem_of_ne_nil _ hne
    obtain ⟨-, earlier, later, hrules, hstart, -⟩ :=
      (Pruning.reading_of_ofLine hpruning).starts (Cursor.at_start line) removal hremoval
    have hrule : removal.rule ∈ language.rules := by
      rw [hrules]
      exact List.mem_append_right _ List.mem_cons_self
    obtain ⟨b, hb⟩ := List.exists_mem_of_ne_nil _ (Language.start_ne_nil hrule)
    have hink := Blank.isInk_of_isAllWhite hwhite b (List.mem_of_mem_drop (hstart.subset hb))
    rw [Language.isInk_of_mem_start hrule b hb] at hink
    cases hink
  rw [processNormal, if_neg hwhite, hpruning]
  dsimp only
  rw [modeAfter_eq hyaml, finish, if_neg hchanged]
  rfl

/-- Two lines from which something is removed become the same if the same is left of them. -/
theorem process_of_same_left
    {line line' : Bytes} {pruning pruning' : Pruning}
    (hyaml : language ≠ .yaml)
    (hpruning : Pruning.ofLine language line = .ok pruning)
    (hpruning' : Pruning.ofLine language line' = .ok pruning')
    (hne : pruning.removals ≠ [])
    (hne' : pruning'.removals ≠ [])
    (htext : pruning'.text = pruning.text)
    (hmode : pruning'.mode = pruning.mode) :
    ∃ result next, process language .normal line = .ok (result, next) ∧
      process language .normal line' = .ok (result, next) := by
  refine ⟨settle pruning.text, pruning.mode, processNormal_of_removals hyaml hpruning hne, ?_⟩
  rw [← htext, ← hmode]
  exact processNormal_of_removals hyaml hpruning' hne'

end Line
end Uncomment

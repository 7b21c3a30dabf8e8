import Uncomment.Proofs.Line.Front
import Uncomment.Proofs.Strip.Total
import Uncomment.Proofs.Veto.Behind

/-!
# The text of a block comment

What the body of a removed block comment says matters to the vetoes of the tokens behind
the comment, and to nothing else.  Up to the comment two lines that differ only in its body
are read alike, because they have the same front; behind it they are read alike as long as
the same comments start there (`Pruning.Reading.eq_of_shift`), which is so if both bodies
leave the same for the vetoes (`Pruning.commentAt?_behind`).  So the one comment is removed
where the other is, and the same is left of both lines (`Pruning.exists_of_leaves`).
-/

namespace Uncomment

namespace Cursor

/-- The cursor in a line that has more text at its start. -/
def shift (low : Nat) (cursor : Cursor) : Cursor :=
  { cursor with offset := low + cursor.offset }

variable {dialect : Dialect} {cursor : Cursor} {low : Nat}

@[simp] theorem offset_shift :
    (cursor.shift low).offset = low + cursor.offset :=
  rfl

@[simp] theorem rest_shift :
    (cursor.shift low).rest = cursor.rest :=
  rfl

/-- A move does not depend on what is before the text that is read. -/
theorem move_shift
    (b : UInt8) (rest : Bytes) (more : Nat) :
    (cursor.shift low).move b rest more = (cursor.move b rest more).shift low := by
  simp only [move, shift, Nat.add_assoc]

/-- A step does not depend on what is before the text that is read. -/
theorem step_shift
    (b : UInt8) (rest : Bytes) :
    (cursor.shift low).step dialect b rest = (cursor.step dialect b rest).shift low := by
  have hspan : (cursor.shift low).span = cursor.span := rfl
  rw [step, step, hspan]
  split
  · cases hopened : cursor.opened? dialect b rest with
    | some opened =>
        have hopened' : (cursor.shift low).opened? dialect b rest = some opened := hopened
        rw [stepCode_of_opened hopened, stepCode_of_opened hopened', move_shift]
        rfl
    | none =>
        have hopened' : (cursor.shift low).opened? dialect b rest = none := hopened
        rw [stepCode_of_not_opened hopened, stepCode_of_not_opened hopened', move_shift]
        rfl
  · rw [stepLiteral, stepLiteral, hspan]
    split
    · exact move_shift b rest _
    · split
      · rw [move_shift]
        rfl
      · exact move_shift b rest 0

/--
Two cursors before the same text that differ in nothing a dialect looks at: the byte before
matters only to raw strings, and the last byte of code only to regular expressions.
-/
structure Alike (dialect : Dialect) (cursor cursor' : Cursor) : Prop where
  rest : cursor'.rest = cursor.rest
  offset : cursor'.offset = cursor.offset
  span : cursor'.span = cursor.span
  backslashes : cursor'.backslashes = cursor.backslashes
  before : dialect.rawStrings = true → cursor'.before = cursor.before
  lastCode : dialect.regex = true → cursor'.lastCode = cursor.lastCode

namespace Alike

variable {cursor' : Cursor} {b : UInt8} {rest : Bytes}

theorem refl
    (dialect : Dialect) (cursor : Cursor) :
    cursor.Alike dialect cursor :=
  ⟨rfl, rfl, rfl, rfl, fun _ => rfl, fun _ => rfl⟩

theorem opened?_eq
    (h : cursor.Alike dialect cursor') :
    cursor'.opened? dialect b rest = cursor.opened? dialect b rest := by
  have hbefore : (if dialect.rawStrings then Lexer.rawOpening? cursor'.before b rest else none) =
      if dialect.rawStrings then Lexer.rawOpening? cursor.before b rest else none := by
    split
    · next hraw => rw [h.before hraw]
    · rfl
  have hlastCode : (dialect.regex && Lexer.regexOpens cursor'.lastCode rest) =
      (dialect.regex && Lexer.regexOpens cursor.lastCode rest) := by
    cases hregex : dialect.regex with
    | true => rw [h.lastCode hregex]
    | false => rfl
  rw [opened?, opened?, h.backslashes, Lexer.opening?, Lexer.opening?, hbefore, hlastCode]

theorem move
    (h : cursor.Alike dialect cursor')
    (b : UInt8) (rest : Bytes) (more : Nat) :
    (cursor.move b rest more).Alike dialect (cursor'.move b rest more) where
  rest := rfl
  offset := by rw [Cursor.move, Cursor.move, h.offset]
  span := h.span
  backslashes := h.backslashes
  before := fun _ => rfl
  lastCode := h.lastCode

/-- Steps keep cursors alike. -/
theorem step
    (h : cursor.Alike dialect cursor')
    (b : UInt8) (rest : Bytes) :
    (cursor.step dialect b rest).Alike dialect (cursor'.step dialect b rest) := by
  have hmove := h.move b rest
  rw [Cursor.step, Cursor.step, h.span]
  split
  · cases hopened : cursor.opened? dialect b rest with
    | some opened =>
        rw [stepCode_of_opened hopened, stepCode_of_opened (h.opened?_eq.trans hopened)]
        exact { hmove opened.1 with span := rfl, backslashes := rfl }
    | none =>
        rw [stepCode_of_not_opened hopened, stepCode_of_not_opened (h.opened?_eq.trans hopened)]
        refine { hmove 0 with backslashes := ?_, lastCode := fun hregex => ?_ }
        · simp only [h.backslashes]
        · simp only [h.lastCode hregex]
  · rw [stepLiteral, stepLiteral, h.span]
    split
    · exact hmove _
    · split
      · exact { hmove _ with span := rfl, lastCode := fun _ => rfl }
      · exact hmove 0

/-- Jumps keep cursors alike. -/
theorem resume
    (h : cursor.Alike dialect cursor')
    (b : UInt8) (rest : Bytes) (more : Nat) :
    (cursor.resume b rest more).Alike dialect (cursor'.resume b rest more) :=
  { h.move b rest more with span := rfl, backslashes := rfl }

end Alike

end Cursor

/-- The removal of a block comment, by the texts around and between its tokens. -/
def Removal.ofBody (before start body stop : Bytes) (gap : Bool) : Removal :=
  ⟨before.length, (before ++ start ++ body ++ stop).length, .block start stop, gap⟩

namespace Pruning

variable {language : Language} {facts facts' : LineFacts} {low low' : Nat} {text : Bytes}

/-- Whether a comment starts at a cursor does not depend on how the cursor came there. -/
theorem commentAt?_of_alike
    {cursor cursor' : Cursor}
    (h : cursor.Alike language.dialect cursor') :
    commentAt? language facts (cursor'.shift low) =
      commentAt? language facts (cursor.shift low) := by
  have hspan : (cursor'.shift low).span = (cursor.shift low).span := h.span
  rw [commentAt?, commentAt?, hspan, Cursor.offset_shift, Cursor.offset_shift, h.offset,
    Cursor.rest_shift, Cursor.rest_shift, h.rest]

/--
Behind two texts that end with the given bytes a comment at the front of `rest` leaves a
space or not alike.
-/
def FusesAlike (language : Language) (rest : Bytes) (last last' : Option UInt8) : Prop :=
  Solid rest.head? → ∀ next, fuses language last' next = fuses language last next

theorem solid_of_commentAt?
    {cursor : Cursor} {rule : Rule}
    (h : commentAt? language facts cursor = .ok (some rule)) :
    Solid cursor.rest.head? := by
  obtain ⟨hmem, hstart⟩ := mem_rules_of_commentAt? h
  cases htoken : rule.start with
  | nil =>
      exact absurd htoken (Language.start_ne_nil hmem)
  | cons b more =>
      rw [htoken] at hstart
      obtain ⟨rest, hrest⟩ := hstart
      refine ⟨b, by rw [← hrest]; rfl, Blank.isBlank_of_isInk ?_⟩
      exact Language.isInk_of_mem_start hmem b (by rw [htoken]; exact List.mem_cons_self)

namespace Reading

variable {cursor cursor' : Cursor} {last last' : Option UInt8} {left left' : Pruning}

/--
Two readings of the same text are the same if the same comments start in it and the text put
out before it makes no difference to them.
-/
theorem eq_of_shift
    (hsame : ∀ stop : Cursor, stop.At text →
      commentAt? language facts' (stop.shift low') = commentAt? language facts (stop.shift low))
    (hat : cursor.At text)
    (halike : cursor.Alike language.dialect cursor')
    (hlast : FusesAlike language cursor.rest last last')
    (h : Reading language facts (cursor.shift low) last left)
    (h' : Reading language facts' (cursor'.shift low') last' left') :
    left'.text = left.text ∧ left'.mode = left.mode := by
  generalize hstand : cursor.shift low = standing at h
  induction h generalizing cursor cursor' last' left' with
  | done hnil =>
      subst hstand
      rw [h'.eq_of_nil (halike.rest.trans hnil)]
      exact ⟨rfl, congrArg (Mode.ofSpan language.dialect) halike.span⟩
  | @step standing last b rest more left hrest hnone hmore hstep hoffset hleft ih =>
      subst hstand
      have hunread : cursor.rest = b :: rest := hrest
      have hnone' := (commentAt?_of_alike halike).trans ((hsame cursor hat).trans hnone)
      rw [Cursor.step_shift] at hstep hoffset hleft
      rw [Cursor.rest_shift] at hstep
      have hnextOffset : (cursor.step language.dialect b rest).offset =
          cursor.offset + more + 1 := by
        rw [Cursor.offset_shift, Cursor.offset_shift] at hoffset
        omega
      have halikeNext := halike.step b rest
      have hoffset' : ((cursor'.shift low').step language.dialect b rest).offset =
          (cursor'.shift low').offset + more + 1 := by
        rw [Cursor.step_shift, Cursor.offset_shift, Cursor.offset_shift, halikeNext.offset,
          halike.offset, hnextOffset]
        omega
      obtain ⟨later', hlater', hleft'⟩ :=
        h'.exists_of_commentAt?_none (halike.rest.trans hunread) hnone' hoffset'
      rw [Cursor.step_shift] at hleft'
      obtain ⟨htext, hmode⟩ := ih (Cursor.at_of_move hat hunread hmore hstep hnextOffset)
        halikeNext (fun _ _ => rfl) hleft' (Cursor.step_shift b rest).symm
      rw [hlater']
      exact ⟨congrArg (b :: rest.take more ++ ·) htext, hmode⟩
  | cutLine hrule =>
      subst hstand
      rw [h'.eq_of_line ((commentAt?_of_alike halike).trans ((hsame cursor hat).trans hrule))]
      exact ⟨rfl, rfl⟩
  | cutBlock hrule hfind =>
      subst hstand
      have hrule' := (commentAt?_of_alike halike).trans ((hsame cursor hat).trans hrule)
      rw [h'.eq_of_open hrule' (by rwa [Cursor.rest_shift, halike.rest])]
      exact ⟨rfl, rfl⟩
  | @splice standing last b rest start stop found width gap left hrest hrule hfind hwidth hpos
      hle hclean hgap hleft ih =>
      subst hstand
      have hunread : cursor.rest = b :: rest := hrest
      have hrule' := (commentAt?_of_alike halike).trans ((hsame cursor hat).trans hrule)
      -- The comment starts here, so the bytes before count for both readings alike.
      have hsolid := solid_of_commentAt? hrule
      rw [Cursor.rest_shift] at hsolid
      have hboth := hlast hsolid
      obtain ⟨gap', later', hgap', hlater', hleft'⟩ :=
        h'.exists_of_find? (halike.rest.trans hunread) hrule'
          (by rwa [Cursor.rest_shift, halike.rest]) hwidth
      obtain rfl : gap' = gap := hgap'.trans ((hboth _).trans hgap.symm)
      have hresumeAt (c : Cursor) (low : Nat) : (c.shift low).resume b rest (width - 1) =
          (c.resume b rest (width - 1)).shift low := by
        rw [Cursor.resume, Cursor.move_shift]
        rfl
      rw [hresumeAt] at hleft'
      have hlastNext : FusesAlike language (cursor.resume b rest (width - 1)).rest
          (if gap' then some Byte.space else last) (if gap' then some Byte.space else last') := by
        cases gap' with
        | true => exact fun _ _ => rfl
        | false => exact fun _ => hboth
      obtain ⟨htext, hmode⟩ := ih (at_resume hat hunread hpos hle).1 (halike.resume b rest _)
        hlastNext hleft' (hresumeAt cursor low).symm
      rw [hlater']
      exact ⟨congrArg ((if gap' then [Byte.space] else []) ++ ·) htext, hmode⟩

end Reading

variable {language : Language} {before start stop body body' behind : Bytes}

/-- The start tokens of block comments: how they meet the other start tokens. -/
theorem mem_block_start
    {block : Rule}
    (hblock : block ∈ language.rules)
    (hline : block.isLine = false) :
    (∀ c ∈ block.start, Byte.isAlphanumeric c = false ∧ c ≠ Byte.quote ∧ c ≠ Byte.tick) ∧
      (∀ rule ∈ language.rules, rule.start.length ≤ block.start.length ∨
        ∃ c ∈ block.start, c ∉ rule.start) ∧
      ∀ rule ∈ language.rules.takeWhile (· ≠ block),
        ¬ rule.start <+: block.start ∧ ¬ block.start <+: rule.start := by
  revert block
  cases language <;> decide +kernel

/-- Before the start token of a block comment every start token is decided. -/
theorem decided_of_block
    {offset : Nat}
    (hblock : .block start stop ∈ language.rules)
    (hoffset : offset < before.length) :
    Decided language (before ++ start) offset := by
  intro back rule hrule hstart
  obtain ⟨hword, hlength, -⟩ := mem_block_start hblock rfl
  have hdrop : (before ++ start).drop offset = before.drop offset ++ start :=
    List.drop_append_of_le_length (Nat.le_of_lt hoffset)
  rcases hlength rule hrule with hle | ⟨c, hmem, hnot⟩
  · change rule.start.length ≤ start.length at hle
    have hlonger : rule.start.length < ((before ++ start).drop offset).length := by
      rw [hdrop, List.length_append, List.length_drop]
      exact Nat.lt_of_le_of_lt hle (by omega)
    have hpre : rule.start <+: (before ++ start).drop offset := by
      rw [List.drop_append_of_le_length (by rw [List.length_append]; omega)] at hstart
      exact List.prefix_of_prefix_length_le hstart (List.prefix_append _ _) hlonger.le
    obtain ⟨c, hlast⟩ : ∃ c, start.getLast? = some c :=
      ⟨_, List.getLast?_eq_some_getLast (Language.start_ne_nil hblock)⟩
    refine ⟨hpre, c, ?_, (hword c (List.mem_of_getLast? hlast)).1⟩
    refine List.mem_of_getLast? ?_
    rw [← List.drop_drop, List.getLast?_drop, if_neg (Nat.not_le.2 hlonger), hdrop,
      List.getLast?_append, hlast]
    rfl
  · have hin : c ∈ (before ++ start).drop offset := by
      rw [hdrop]
      exact List.mem_append_right _ hmem
    exact decided_of_mem hin hnot (hword c hmem).1 hstart

/-- A rule that comes before all others that begin at a place applies there. -/
theorem firstRule?_of_takeWhile
    {facts : LineFacts} {offset : Nat} {rest : Bytes} {rules : List Rule} {rule : Rule}
    (hmem : rule ∈ rules)
    (hstart : rule.start <+: rest)
    (hkeeps : Veto.keeps language facts offset rule.start = .ok false)
    (hfirst : ∀ other ∈ rules.takeWhile (· ≠ rule), ¬ other.start <+: rest) :
    firstRule? language facts offset rest rules = .ok (some rule) := by
  induction rules with
  | nil => cases hmem
  | cons first more ih =>
      rw [firstRule?]
      by_cases heq : first = rule
      · rw [heq, if_pos (List.isPrefixOf_iff_prefix.2 hstart), hkeeps]
      · have htake : (first :: more).takeWhile (· ≠ rule) = first :: more.takeWhile (· ≠ rule) :=
          List.takeWhile_cons_of_pos (decide_eq_true heq)
        rw [htake, List.forall_mem_cons] at hfirst
        rw [if_neg (mt List.isPrefixOf_iff_prefix.1 hfirst.1)]
        exact ih ((List.mem_cons.1 hmem).resolve_left (Ne.symm heq)) hfirst.2

/-- A block comment starts at its start token if that is not kept. -/
theorem commentAt?_of_block
    {facts : LineFacts} {cursor : Cursor}
    (hblock : .block start stop ∈ language.rules)
    (hspan : cursor.span = .code)
    (hstart : start <+: cursor.rest)
    (hkeeps : Veto.keeps language facts cursor.offset start = .ok false) :
    commentAt? language facts cursor = .ok (some (.block start stop)) := by
  rw [commentAt?, if_pos hspan]
  refine firstRule?_of_takeWhile hblock hstart hkeeps fun other hother hpre => ?_
  obtain ⟨hnot, hnot'⟩ := (mem_block_start hblock rfl).2.2 other hother
  exact (List.prefix_or_prefix_of_prefix hpre hstart).elim hnot hnot'

/-- Behind a block comment reading goes on in what is behind. -/
theorem Reading.exists_behind
    {facts : LineFacts} {cursor : Cursor} {last : Option UInt8} {left : Pruning}
    (h : Reading language facts cursor last left)
    (hrest : cursor.rest = start ++ (body ++ stop ++ behind))
    (hoffset : cursor.offset = before.length)
    (hcomment : commentAt? language facts cursor = .ok (some (.block start stop)))
    (hfind : Bytes.find? stop (body ++ stop) = some body.length) :
    ∃ later,
      left = later.behind (if fuses language last behind.head? then [Byte.space] else [])
        [.ofBody before start body stop (fuses language last behind.head?)] ∧
      Reading language facts
        ((Cursor.mk behind 0 stop.getLast? .code cursor.lastCode 0).shift
          (before ++ start ++ body ++ stop).length)
        (if fuses language last behind.head? then some Byte.space else last) later := by
  have hwidth : (start ++ body ++ stop).length = start.length + body.length + stop.length := by
    rw [List.length_append, List.length_append]
  have hpos := List.length_pos_iff.2 (Language.start_ne_nil (mem_rules_of_commentAt? hcomment).1)
  cases hfirst : cursor.rest with
  | nil => exact absurd hfirst (rest_ne_nil_of_commentAt? hcomment)
  | cons b rest =>
      have hcons : b :: rest = (start ++ body ++ stop) ++ behind := by
        rw [← hfirst, hrest]
        simp
      have hfind' : Bytes.find? stop (cursor.rest.drop start.length) = some body.length := by
        rw [hrest, List.drop_left]
        exact (Bytes.find?_append (by rw [List.length_append]) behind).2 hfind
      obtain ⟨gap, later, hgap, hleft, hlater⟩ :=
        h.exists_of_find? hfirst hcomment hfind' hwidth
      obtain ⟨more, hmore⟩ : ∃ more, (start ++ body ++ stop).length = more + 1 :=
        Nat.exists_eq_succ_of_ne_zero (by change 0 < start.length at hpos; omega)
      rw [hmore, Nat.add_sub_cancel] at hgap hlater
      have hbehind : rest.drop more = behind := by
        rw [← List.drop_succ_cons, hcons, List.drop_left' hmore]
      have hlast : some (Cursor.lastOf b rest more) = stop.getLast? := by
        have hne := (Language.isInk_of_mem_stop (mem_rules_of_commentAt? hcomment).1).1
        rw [← Cursor.getLast?_eq_lastOf, ← List.take_succ_cons, hcons, List.take_left' hmore,
          List.getLast?_append, List.getLast?_eq_some_getLast hne, Option.some_or]
      have hlength : (before ++ start ++ body ++ stop).length = cursor.offset + (more + 1) := by
        rw [List.append_assoc, List.append_assoc, List.length_append, ← List.append_assoc, hmore,
          hoffset]
      have hresume : cursor.resume b rest more =
          (Cursor.mk behind 0 stop.getLast? .code cursor.lastCode 0).shift
            (before ++ start ++ body ++ stop).length := by
        rw [Cursor.resume, Cursor.move, hbehind, hlast, Cursor.shift, hlength]
        rfl
      rw [hbehind] at hgap
      rw [hresume, hgap] at hlater
      rw [hmore, ← hlength, hoffset, hgap] at hleft
      exact ⟨later, hleft, hlater⟩

/-- The body of a block comment is a well-formed text that the stop token ends. -/
structure IsBody (stop body : Bytes) : Prop where
  valid : Utf8.valid body = true
  find? : Bytes.find? stop (body ++ stop) = some body.length

theorem valid_of_block
    (hblock : .block start stop ∈ language.rules) :
    Utf8.valid start = true ∧ Utf8.valid stop = true := by
  have hall : language.rules.all (fun rule =>
      rule.casesOn (fun _ => true) fun start stop => Utf8.valid start && Utf8.valid stop) =
        true := by
    cases language <;> decide
  simpa using List.all_eq_true.1 hall _ hblock

/-- Well-formed texts around and inside a block comment make a well-formed line. -/
theorem valid_line
    (hblock : .block start stop ∈ language.rules)
    (hbefore : Utf8.valid before = true)
    (hbody : Utf8.valid body = true)
    (hbehind : Utf8.valid behind = true) :
    Utf8.valid (before ++ start ++ body ++ stop ++ behind) = true := by
  obtain ⟨hstart, hstop⟩ := valid_of_block hblock
  exact Utf8.valid_append (Utf8.valid_append (Utf8.valid_append
    (Utf8.valid_append hbefore hstart) hbody) hstop) hbehind

theorem ne_yaml_of_block
    (hblock : .block start stop ∈ language.rules) :
    language ≠ .yaml := by
  rintro rfl
  exact absurd hblock (by simp [Language.rules, Rule.ofLine])

/-- Behind two comments that leave the same the same comments start. -/
theorem commentAt?_behind
    {cursor : Cursor}
    (hblock : .block start stop ∈ language.rules)
    (hsingle : language.dialect.single ≠ .charLiteral)
    (hbefore : Utf8.valid before = true)
    (hbody : Utf8.valid body = true)
    (hbody' : Utf8.valid body' = true)
    (hbehind : Utf8.valid behind = true)
    (hkeeps : Veto.keeps language
      (LineFacts.ofLine (before ++ start ++ body' ++ stop ++ behind)) before.length start =
        .ok false)
    (hleaves : Veto.leaves language body = Veto.leaves language body')
    (hat : cursor.At behind) :
    commentAt? language (LineFacts.ofLine (before ++ start ++ body' ++ stop ++ behind))
        (cursor.shift (before ++ start ++ body' ++ stop).length) =
      commentAt? language (LineFacts.ofLine (before ++ start ++ body ++ stop ++ behind))
        (cursor.shift (before ++ start ++ body ++ stop).length) := by
  have hdrop (front : Bytes) :
      (front ++ behind).drop (front.length + cursor.offset) = behind.drop cursor.offset := by
    rw [List.drop_append, List.drop_eq_nil_of_le (by omega), List.nil_append,
      Nat.add_sub_cancel_left]
  have htake (front : Bytes) : (front ++ behind).take (front.length + cursor.offset) =
      front ++ behind.take cursor.offset := by
    rw [List.take_append, List.take_of_length_le (by omega), Nat.add_sub_cancel_left]
  have hkeeps' : Veto.keeps language
      (LineFacts.ofLine (before ++ start ++ (body' ++ stop ++ behind))) before.length start =
        .ok false := by
    rw [← hkeeps]
    simp
  have hsees : Veto.sees language (before ++ start ++ body' ++ stop ++ behind.take cursor.offset) =
      Veto.sees language (before ++ start ++ body ++ stop ++ behind.take cursor.offset) :=
    Veto.sees_behind hblock hsingle hbefore hbody' hbody hkeeps' hleaves.symm
  have hpos (text : Bytes) : 0 < (before ++ start ++ text ++ stop).length + cursor.offset := by
    have hstart : 0 < start.length := List.length_pos_iff.2 (Language.start_ne_nil hblock)
    simp only [List.length_append]
    omega
  rw [commentAt?, commentAt?]
  refine congrArg (ite _ · _) (firstRule?_congr (fun _ _ => Iff.rfl) fun rule hrule hstart => ?_)
  have hplace (text : Bytes) : rule.start <+: (before ++ start ++ text ++ stop ++ behind).drop
      ((before ++ start ++ text ++ stop).length + cursor.offset) := by
    rw [hdrop, ← hat.2]
    exact hstart
  refine Veto.keeps_of_sees ⟨_, hblock, rfl⟩ hsingle hrule (hpos body') (hpos body)
    (hplace body') ?_
    (valid_take_of_start hrule (hplace body') (valid_line hblock hbefore hbody' hbehind))
    (valid_take_of_start hrule (hplace body) (valid_line hblock hbefore hbody hbehind)) ?_
  · rw [Cursor.offset_shift, Cursor.offset_shift, hdrop, hdrop]
  · rw [Cursor.offset_shift, Cursor.offset_shift, htake, htake]
    exact hsees

/-- A comment with another body that leaves the same is removed as well, and leaves the same. -/
theorem exists_of_leaves
    {pruning : Pruning} {removal : Removal}
    (hblock : .block start stop ∈ language.rules)
    (hsingle : language.dialect.single ≠ .charLiteral)
    (hbefore : Utf8.valid before = true)
    (hbody : IsBody stop body)
    (hbody' : IsBody stop body')
    (hbehind : Utf8.valid behind = true)
    (hkeeps : Veto.keeps language
      (LineFacts.ofLine (before ++ start ++ body' ++ stop ++ behind)) before.length start =
        .ok false)
    (hleaves : Veto.leaves language body = Veto.leaves language body')
    (hpruning : ofLine language (before ++ start ++ body ++ stop ++ behind) = .ok pruning)
    (hmem : removal ∈ pruning.removals)
    (hstart : removal.start = before.length)
    (hrule : removal.rule = .block start stop) :
    ∃ pruning' earlier later later' gap,
      ofLine language (before ++ start ++ body' ++ stop ++ behind) = .ok pruning' ∧
      pruning'.text = pruning.text ∧ pruning'.mode = pruning.mode ∧
      pruning.removals = earlier ++ .ofBody before start body stop gap :: later ∧
      pruning'.removals = earlier ++ .ofBody before start body' stop gap :: later' := by
  have hyaml := ne_yaml_of_block hblock
  have hboth := valid_line hblock hbefore hbody.valid hbehind
  have hboth' := valid_line hblock hbefore hbody'.valid hbehind
  obtain ⟨pruning', hpruning'⟩ := ofLine_succeeds hyaml (Utf8.placed_of_valid hboth')
  have hsplit (text : Bytes) : before ++ start ++ text ++ stop ++ behind =
      before ++ start ++ (text ++ stop ++ behind) := by
    simp
  have hreading := reading_of_ofLine hpruning
  have hreading' := reading_of_ofLine hpruning'
  rw [hsplit] at hreading hreading' hboth hboth'
  obtain ⟨hsign, -, -⟩ := mem_block_start hblock rfl
  have hdrop : (before ++ start).drop removal.start = start := by
    rw [hstart, List.drop_left]
  have hbreaks : Bytes.Breaks ((before ++ start).drop removal.start) := by
    obtain ⟨c, hc⟩ := List.exists_mem_of_ne_nil _ (Language.start_ne_nil hblock)
    rw [hdrop]
    exact ⟨c, hc, (hsign c hc).2⟩
  have hfork := hreading.fork (Language.isNear_dialect hsingle) hyaml hboth hboth'
    (fun offset hlt => decided_of_block hblock (hstart ▸ hlt)) hbreaks
    (Cursor.at_start _) trivial hreading' hmem
  obtain ⟨there, last, later, later', kept, earlier, hat, hoffset, hlater, hlater', hcomment,
    rfl, rfl⟩ := hfork.exists_later
  rw [hrule] at hcomment
  have hrest (text : Bytes) :
      (there.extend (text ++ stop ++ behind)).rest = start ++ (text ++ stop ++ behind) := by
    rw [Cursor.extend, hat.2, hoffset, hdrop]
  have hcomment' : commentAt? language
      (LineFacts.ofLine (before ++ start ++ (body' ++ stop ++ behind)))
      (there.extend (body' ++ stop ++ behind)) = .ok (some (.block start stop)) := by
    have hcode : (there.extend (body ++ stop ++ behind)).span = .code :=
      span_eq_code_of_commentAt? hcomment
    refine commentAt?_of_block hblock hcode ?_ ?_
    · rw [hrest]
      exact List.prefix_append _ _
    · rw [← hsplit, show (there.extend (body' ++ stop ++ behind)).offset = before.length from
        hoffset.trans hstart]
      exact hkeeps
  obtain ⟨tail, rfl, htail⟩ :=
    hlater.exists_behind (hrest body) (hoffset.trans hstart) hcomment hbody.find?
  obtain ⟨tail', rfl, htail'⟩ :=
    hlater'.exists_behind (hrest body') (hoffset.trans hstart) hcomment' hbody'.find?
  rw [← hsplit] at htail htail'
  obtain ⟨htext, hmode⟩ := Reading.eq_of_shift
    (fun stop hat => commentAt?_behind hblock hsingle hbefore hbody.valid hbody'.valid hbehind
      hkeeps hleaves hat)
    ⟨Nat.zero_le _, rfl⟩ (.refl _ _) (fun _ _ => rfl) htail htail'
  refine ⟨_, earlier, tail.removals, tail'.removals, _, hpruning', ?_, hmode, rfl, rfl⟩
  simp only [Pruning.behind, htext]

end Pruning
end Uncomment

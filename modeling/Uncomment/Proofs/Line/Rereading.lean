import Uncomment.Proofs.Lexer.Locality
import Uncomment.Proofs.Line.Around

/-!
# Reading a pruned line again

The text that a pruning leaves is read again, possibly without some blanks at its
end.  In a near dialect the cursor then takes the steps that it took in the line
(`Pruning.Reading.retrace`): no delimiter and no start token comes about that was not in
the line (`Pruning.Reading.isPrefix_of_text`), because a space takes the place of a
comment between two bytes that are not blank.  So the line that is left leaves open what
the pruning leaves, block comments apart.

In a local dialect the second pruning also removes nothing, provided that the vetoes keep
what they kept (`Pruning.Reading.reread`).
-/

namespace Uncomment

namespace Mode

/-- What is left open once the comments are gone. -/
def uncommented : Mode → Mode
  | .blockComment _ => .normal
  | mode => mode

/-- Without a comment nothing is forgotten. -/
theorem uncommented_of_ne
    {mode : Mode}
    (h : ∀ stop, mode ≠ .blockComment stop) :
    mode.uncommented = mode := by
  cases mode with
  | blockComment stop => exact absurd rfl (h stop)
  | normal | literal | blockScalar => rfl

@[simp] theorem uncommented_ofSpan
    (dialect : Dialect) (span : Span) :
    (ofSpan dialect span).uncommented = ofSpan dialect span := by
  cases span with
  | backtick =>
      rw [ofSpan]
      split <;> rfl
  | code | single | double | tripleDouble | tripleSingle | regex | raw => rfl

end Mode

theorem Language.isBlank_of_mem_start
    {language : Language} {rule : Rule}
    (h : rule ∈ language.rules) :
    ∀ b ∈ rule.start, Byte.isBlank b = false :=
  fun b hb => Blank.isBlank_of_isInk (Language.isInk_of_mem_start h b hb)

namespace Pruning
namespace Reading

variable {language : Language} {facts : LineFacts} {cursor : Cursor} {last : Option UInt8}
variable {left : Pruning}

/-- Where a blank comes next nothing else comes first in what is left. -/
theorem startsBlank_text
    (h : Reading language facts cursor last left)
    (hblank : cursor.rest.StartsBlank) :
    left.text.StartsBlank := by
  have hcomment {rule : Rule} (hrule : commentAt? language facts cursor = .ok (some rule)) :
      left.text.StartsBlank := by
    obtain ⟨hmem, hstart⟩ := mem_rules_of_commentAt? hrule
    have hnil := hblank.eq_nil_of_isPrefix (Language.isBlank_of_mem_start hmem) hstart
    exact absurd hnil (Language.start_ne_nil hmem)
  cases h with
  | done =>
      intro b hb
      cases hb
  | step hrest =>
      intro b hb
      refine hblank b ?_
      rw [hrest]
      exact hb
  | cutLine hrule | cutBlock hrule =>
      exact hcomment hrule
  | splice _ hrule =>
      exact hcomment hrule

theorem text_eq_nil
    (h : Reading language facts cursor last left)
    (hnil : cursor.rest = []) :
    left.text = [] := by
  cases h with
  | done | cutLine | cutBlock =>
      rfl
  | step hrest | splice hrest =>
      rw [hnil] at hrest
      cases hrest

/--
A token without blanks that starts what is left starts the unread bytes too, if the
first of them is kept or the byte before them is there and not blank.
-/
theorem isPrefix_of_text
    (hhtml : language ≠ .html)
    (hmarkdown : language ≠ .markdown)
    (h : Reading language facts cursor last left)
    (hfirst : commentAt? language facts cursor = .ok none ∨
      ∃ b, last = some b ∧ Byte.isBlank b = false)
    {token : Bytes}
    (htoken : ∀ b ∈ token, Byte.isBlank b = false)
    (hpre : token <+: left.text) :
    token <+: cursor.rest := by
  induction h generalizing token with
  | done =>
      rw [List.prefix_nil.1 hpre]
      exact List.nil_prefix
  | @step cursor last b rest more left hrest _ hmore hstep hoffset hleft ih =>
      have hsplit : b :: rest = b :: rest.take more ++ rest.drop more := by
        rw [List.cons_append, List.take_append_drop]
      rw [hrest, hsplit]
      rcases List.prefix_or_prefix_of_prefix hpre (List.prefix_append _ left.text) with
        hread | ⟨later, rfl⟩
      · exact hread.trans (List.prefix_append _ _)
      · rw [List.prefix_append_right_inj] at hpre ⊢
        rw [← hstep]
        refine ih (Or.inr ⟨_, rfl, ?_⟩) (fun c hc => htoken c (List.mem_append_right _ hc)) hpre
        exact htoken _ (List.mem_append_left _ (Cursor.lastOf_mem b rest more))
  | cutLine | cutBlock =>
      rw [List.prefix_nil.1 hpre]
      exact List.nil_prefix
  | @splice cursor last b rest start stop found width gap left hrest hrule hfind hwidth hpos hle
      hclean hgap hleft ih =>
      have hblank : Bytes.StartsBlank ((if gap then [Byte.space] else []) ++ left.text) := by
        rcases hfirst with hnone | ⟨c, rfl, hc⟩
        · rw [hrule] at hnone
          cases hnone
        · cases gap with
          | true =>
              intro d hd
              cases hd
              rfl
          | false =>
              refine hleft.startsBlank_text fun d hd => ?_
              rw [fuses, if_neg (by simp [hhtml, hmarkdown]), hd] at hgap
              simpa [hc] using hgap
      rw [hblank.eq_nil_of_isPrefix htoken hpre]
      exact List.nil_prefix

/-- If no ink is left then what was open stays open, comments apart. -/
theorem mode_of_isInk
    (h : Reading language facts cursor last left)
    (hink : ∀ b ∈ left.text, Blank.isInk b = false) :
    left.mode.uncommented = .ofSpan language.dialect cursor.span := by
  induction h with
  | done =>
      exact Mode.uncommented_ofSpan _ _
  | @step cursor _ b rest _ _ _ _ _ _ _ _ ih =>
      have hspan := Cursor.span_step_of_isInk language.dialect cursor rest (hink b (by simp))
      rw [ih fun b hb => hink b (List.mem_append_right _ hb), hspan]
  | cutLine hrule | cutBlock hrule =>
      rw [span_eq_code_of_commentAt? hrule]
      rfl
  | splice hrest hrule _ _ _ _ _ _ _ ih =>
      rw [ih fun b hb => hink b (List.mem_append_right _ hb),
        span_eq_code_of_commentAt? hrule]
      rfl

end Reading

/--
A cursor in a line and one in a second line that reads what is left of the first:
they stand in the same span, and what is left from the first cursor on is unread by
the second, up to some blanks at the end.
-/
structure Aligned
    (language : Language)
    (line second : Bytes)
    (cursor again : Cursor)
    (last : Option UInt8)
    (text : Bytes) : Prop where
  /-- The first cursor stands in its line. -/
  here : cursor.At line
  /-- The second cursor stands in its line. -/
  there : again.At second
  /-- Both read the same kind of text. -/
  span_eq : again.span = cursor.span
  /-- The second cursor reads what the first one leaves. -/
  text_eq : ∃ tail, (∀ b ∈ tail, Byte.isBlank b = true) ∧ text = again.rest ++ tail
  /-- The next byte is escaped for both or for none of them, if that matters. -/
  backslashes_eq : again.backslashes = cursor.backslashes ∨
    cursor.span = .code ∧ again.rest.StartsBlank
  /-- Both have read the same last byte of code. -/
  lastCode_eq : again.lastCode = cursor.lastCode
  /-- A backslash that escapes is the last byte that was left. -/
  last_eq : 0 < cursor.backslashes → last = some Byte.backslash
  /-- In a literal no backslash in code counts. -/
  backslashes_of_literal : cursor.span ≠ .code → cursor.backslashes = 0
  /-- Nothing is added before the cursor. -/
  offset_le : again.offset ≤ cursor.offset
  /-- Without block comments nothing goes away before the cursor. -/
  offset_eq : (∀ rule ∈ language.rules, rule.isLine = true) → again.rest ≠ [] →
    again.offset = cursor.offset

namespace Aligned

theorem take_eq_of_isPrefix
    {rest other : Bytes} {more : Nat}
    (hmore : more ≤ rest.length)
    (hpre : rest.take more <+: other) :
    other.take more = rest.take more := by
  rw [List.prefix_iff_eq_take.1 hpre, List.length_take, Nat.min_eq_left hmore]

variable {language : Language} {line second : Bytes} {cursor again : Cursor}
variable {last : Option UInt8} {text : Bytes} {b : UInt8} {rest other : Bytes} {more : Nat}

theorem take_isPrefix
    (h : Aligned language line second cursor again last (b :: rest.take more ++ text))
    (hagain : again.rest = b :: other)
    (hsolid : ∀ c ∈ rest.take more, Byte.isBlank c = false) :
    rest.take more <+: other := by
  obtain ⟨tail, htail, htext⟩ := h.text_eq
  rw [hagain, List.cons_append, List.cons_append, List.cons.injEq] at htext
  refine Blank.isPrefix_of_append_blank hsolid htail ?_
  rw [← htext.2]
  exact List.prefix_append _ _

theorem move
    {next next' : Cursor} {last' : Option UInt8}
    (h : Aligned language line second cursor again last (b :: rest.take more ++ text))
    (hrest : cursor.rest = b :: rest)
    (hagain : again.rest = b :: other)
    (hmore : more ≤ rest.length)
    (hpre : rest.take more <+: other)
    (hnext : next.rest = rest.drop more)
    (hoffset : next.offset = cursor.offset + more + 1)
    (hnext' : next'.rest = other.drop more)
    (hoffset' : next'.offset = again.offset + more + 1)
    (hspan : next'.span = next.span)
    (hlastCode : next'.lastCode = next.lastCode)
    (hbackslashes : next'.backslashes = next.backslashes)
    (hlast : 0 < next.backslashes → last' = some Byte.backslash)
    (hliteral : next.span ≠ .code → next.backslashes = 0) :
    Aligned language line second next next' last' text := by
  have hlen : (rest.take more).length = more := by
    rw [List.length_take]
    omega
  obtain ⟨later, rfl⟩ := hpre
  have hdrop : (rest.take more ++ later).drop more = later := by
    rw [List.drop_append_of_le_length (by omega), List.drop_eq_nil_of_le (by omega),
      List.nil_append]
  have hmore' : more ≤ (rest.take more ++ later).length := by
    rw [List.length_append]
    omega
  obtain ⟨tail, htail, htext⟩ := h.text_eq
  rw [hagain, List.cons_append, List.cons_append, List.cons.injEq, List.append_assoc,
    List.append_cancel_left_eq] at htext
  exact {
    here := Cursor.at_of_move h.here hrest hmore hnext hoffset
    there := Cursor.at_of_move h.there hagain hmore' hnext' hoffset'
    span_eq := hspan
    text_eq := ⟨tail, htail, by rw [hnext', hdrop, htext.2]⟩
    backslashes_eq := Or.inl hbackslashes
    lastCode_eq := hlastCode
    last_eq := hlast
    backslashes_of_literal := hliteral
    offset_le := by
      have hle := h.offset_le
      omega
    offset_eq := by
      intro hrules _
      have heq := h.offset_eq hrules (by rw [hagain]; exact List.cons_ne_nil _ _)
      omega }

/-- In a literal both cursors count the same backslashes. -/
theorem backslashes_eq_of_literal
    (h : Aligned language line second cursor again last text)
    (hliteral : cursor.span ≠ .code) :
    again.backslashes = cursor.backslashes := by
  rcases h.backslashes_eq with heq | ⟨hcode, -⟩
  · exact heq
  · exact absurd hcode hliteral

/-- Before a byte that is not blank both cursors count the same backslashes. -/
theorem backslashes_eq_of_isBlank
    (h : Aligned language line second cursor again last text)
    (hagain : again.rest = b :: other)
    (hb : Byte.isBlank b = false) :
    again.backslashes = cursor.backslashes := by
  rcases h.backslashes_eq with heq | ⟨-, hblank⟩
  · exact heq
  · rw [hblank b (by rw [hagain]; rfl)] at hb
    cases hb

/-- Two cursors in code that read the same byte open the same literal, if any. -/
theorem opened?_eq
    (h : Aligned language line second cursor again last (b :: rest.take more ++ text))
    (hnear : language.dialect.IsNear)
    (hagain : again.rest = b :: other)
    (hoffset : (cursor.stepCode language.dialect b rest).offset = cursor.offset + more + 1)
    (hback : ∀ token : Bytes, (∀ c ∈ token, Byte.isBlank c = false) →
      token <+: b :: other → token <+: b :: rest)
    (hregex : language.dialect.regex = true → b = Byte.slash →
      Lexer.regexOpens cursor.lastCode other = Lexer.regexOpens cursor.lastCode rest) :
    again.opened? language.dialect b other = cursor.opened? language.dialect b rest := by
  cases hb : Byte.isBlank b with
  | true =>
      have hink := Blank.isInk_of_isBlank hb
      rw [Cursor.opened?_of_isInk hink, Cursor.opened?_of_isInk hink]
  | false =>
      rw [Cursor.opened?, Cursor.opened?, h.backslashes_eq_of_isBlank hagain hb]
      split
      · rfl
      · next hescaped =>
          rw [h.lastCode_eq]
          refine Lexer.opening?_of_agree hnear (fun width span hopening => ?_) hback hregex
          have hopened : cursor.opened? language.dialect b rest = some (width, span) := by
            rw [Cursor.opened?, if_neg hescaped, hopening]
          rw [Cursor.stepCode_of_opened hopened] at hoffset
          obtain rfl : width = more := Cursor.width_of_offset hoffset
          refine h.take_isPrefix hagain fun c hc => ?_
          exact Lexer.isBlank_of_opening? hnear hopening c (List.mem_cons_of_mem b hc)

theorem stepCode
    (h : Aligned language line second cursor again last (b :: rest.take more ++ text))
    (hnear : language.dialect.IsNear)
    (hcode : cursor.span = .code)
    (hrest : cursor.rest = b :: rest)
    (hagain : again.rest = b :: other)
    (hmore : more ≤ rest.length)
    (hoffset : (cursor.stepCode language.dialect b rest).offset = cursor.offset + more + 1)
    (hback : ∀ token : Bytes, (∀ c ∈ token, Byte.isBlank c = false) →
      token <+: b :: other → token <+: b :: rest)
    (hregex : language.dialect.regex = true → b = Byte.slash →
      Lexer.regexOpens cursor.lastCode other = Lexer.regexOpens cursor.lastCode rest) :
    Aligned language line second (cursor.stepCode language.dialect b rest)
      (again.stepCode language.dialect b other) (some (Cursor.lastOf b rest more)) text := by
  have hsame := h.opened?_eq hnear hagain hoffset hback hregex
  cases hopened : cursor.opened? language.dialect b rest with
  | none =>
      rw [Cursor.stepCode_of_not_opened hopened] at hoffset ⊢
      rw [Cursor.stepCode_of_not_opened (hsame.trans hopened)]
      obtain rfl : 0 = more := Cursor.width_of_offset hoffset
      have hcount : (if b == Byte.backslash then again.backslashes + 1 else 0) =
          if b == Byte.backslash then cursor.backslashes + 1 else 0 := by
        split
        · next hb =>
            rw [h.backslashes_eq_of_isBlank hagain (by rw [eq_of_beq hb]; rfl)]
        · rfl
      have hlastCode : (if Byte.isBlank b then again.lastCode else some b) =
          if Byte.isBlank b then cursor.lastCode else some b := by
        rw [h.lastCode_eq]
      refine h.move hrest hagain hmore List.nil_prefix rfl rfl rfl rfl h.span_eq hlastCode hcount
        ?_ ?_
      · intro hpos
        dsimp only at hpos
        split at hpos
        · next hb =>
            rw [← eq_of_beq hb]
            rfl
        · cases hpos
      · intro hliteral
        exact absurd hcode hliteral
  | some delimiter =>
      obtain ⟨width, span⟩ := delimiter
      rw [Cursor.stepCode_of_opened hopened] at hoffset ⊢
      rw [Cursor.stepCode_of_opened (hsame.trans hopened)]
      obtain rfl : width = more := Cursor.width_of_offset hoffset
      have hsolid := Lexer.isBlank_of_opening? hnear (Cursor.opening?_of_opened hopened)
      have hpre := h.take_isPrefix hagain fun c hc => hsolid c (List.mem_cons_of_mem b hc)
      exact h.move hrest hagain hmore hpre rfl rfl rfl rfl rfl h.lastCode_eq rfl
        (fun hpos => by cases hpos) (fun _ => rfl)

/-- Two cursors in a literal that read an escape stay aligned. -/
theorem escape
    (h : Aligned language line second cursor again last
      (b :: rest.take (min 1 rest.length) ++ text))
    (hliteral : cursor.span ≠ .code)
    (hrest : cursor.rest = b :: rest)
    (hagain : again.rest = b :: other)
    (hnil : rest = [] → text = []) :
    Aligned language line second (cursor.move b rest (min 1 rest.length))
      (again.move b other (min 1 other.length))
      (some (Cursor.lastOf b rest (min 1 rest.length))) text := by
  have hquiet := h.backslashes_of_literal hliteral
  have hbackslashes := h.backslashes_eq_of_literal hliteral
  obtain ⟨tail, htail, htext⟩ := h.text_eq
  rw [hagain, List.cons_append, List.cons_append, List.cons.injEq] at htext
  have hmove (width : Nat) (hwidth : width = min 1 rest.length)
      (hother : width = min 1 other.length) (hpre : rest.take width <+: other) :
      Aligned language line second (cursor.move b rest (min 1 rest.length))
        (again.move b other (min 1 other.length))
        (some (Cursor.lastOf b rest (min 1 rest.length))) text := by
    rw [← hwidth] at h ⊢
    rw [← hother]
    refine h.move hrest hagain (by omega) hpre rfl rfl rfl rfl h.span_eq h.lastCode_eq hbackslashes
      (fun hpos => ?_) (fun _ => hquiet)
    have hzero : cursor.backslashes = 0 := hquiet
    have hpos' : 0 < cursor.backslashes := hpos
    omega
  cases other with
  | cons c later =>
      cases rest with
      | nil =>
          rw [hnil rfl] at htext
          cases htext.2
      | cons d more =>
          have hd : d = c := by
            have hcons : d :: text = c :: later ++ tail := by simpa using htext.2
            exact (List.cons.inj hcons).1
          exact hmove 1 (by simp) (by simp) (by simp [hd])
  | nil =>
      cases rest with
      | nil =>
          exact hmove 0 rfl rfl List.nil_prefix
      | cons d more =>
          -- The escaped byte was a blank at the end of the line, and went away.
          have hblank : d :: text = tail := by simpa using htext.2
          exact {
            here := Cursor.at_of_move h.here hrest (by simp) rfl rfl
            there := Cursor.at_of_move h.there hagain (by simp) rfl rfl
            span_eq := h.span_eq
            text_eq := ⟨text, fun c hc => htail c (hblank ▸ List.mem_cons_of_mem d hc), rfl⟩
            backslashes_eq := Or.inl hbackslashes
            lastCode_eq := h.lastCode_eq
            last_eq := by
              intro hpos
              have hpos' : 0 < cursor.backslashes := hpos
              omega
            backslashes_of_literal := fun _ => hquiet
            offset_le := by
              have hle := h.offset_le
              simp only [Cursor.move, List.length_nil, List.length_cons]
              omega
            offset_eq := fun _ hne => absurd rfl hne }

theorem stepLiteral
    (h : Aligned language line second cursor again last (b :: rest.take more ++ text))
    (hliteral : cursor.span ≠ .code)
    (hrest : cursor.rest = b :: rest)
    (hagain : again.rest = b :: other)
    (hmore : more ≤ rest.length)
    (hoffset : (cursor.stepLiteral language.dialect b rest).offset = cursor.offset + more + 1)
    (hback : ∀ token : Bytes, (∀ c ∈ token, Byte.isBlank c = false) →
      token <+: b :: other → token <+: b :: rest)
    (hnil : rest = [] → text = []) :
    Aligned language line second (cursor.stepLiteral language.dialect b rest)
      (again.stepLiteral language.dialect b other) (some (Cursor.lastOf b rest more)) text := by
  have hquiet := h.backslashes_of_literal hliteral
  have hbackslashes := h.backslashes_eq_of_literal hliteral
  have hlast (hpos : 0 < cursor.backslashes) :
      some (Cursor.lastOf b rest more) = some Byte.backslash := by
    omega
  by_cases hescape : (b == Byte.backslash && cursor.span.escapes language.dialect) = true
  · rw [Cursor.stepLiteral, if_pos hescape] at hoffset ⊢
    rw [Cursor.stepLiteral, h.span_eq, if_pos hescape]
    obtain rfl : min 1 rest.length = more := Cursor.width_of_offset hoffset
    exact h.escape hliteral hrest hagain hnil
  · rw [Cursor.stepLiteral, if_neg hescape] at hoffset ⊢
    rw [Cursor.stepLiteral, h.span_eq, if_neg hescape]
    have hwidth (width : Nat) (hclosing : cursor.span.closing? b rest = some width) :
        width = more := by
      rw [hclosing] at hoffset
      exact Cursor.width_of_offset hoffset
    have hforth (width : Nat) (hclosing : cursor.span.closing? b rest = some width) :
        rest.take width <+: other := by
      have hink := Span.isInk_of_closing? hclosing
      obtain rfl := hwidth width hclosing
      exact h.take_isPrefix hagain fun c hc =>
        Blank.isBlank_of_isInk (hink c (List.mem_cons_of_mem b hc))
    rw [Span.closing?_of_agree hforth hback]
    cases hclosing : cursor.span.closing? b rest with
    | some width =>
        have hpre := hforth width hclosing
        obtain rfl := hwidth width hclosing
        have hlastCode : some (Cursor.lastOf b other width) = some (Cursor.lastOf b rest width) := by
          rw [Cursor.lastOf, Cursor.lastOf, take_eq_of_isPrefix hmore hpre]
        exact h.move hrest hagain hmore hpre rfl rfl rfl rfl rfl hlastCode hbackslashes hlast
          (fun _ => hquiet)
    | none =>
        rw [hclosing] at hoffset
        obtain rfl : 0 = more := Cursor.width_of_offset hoffset
        exact h.move hrest hagain hmore List.nil_prefix rfl rfl rfl rfl h.span_eq h.lastCode_eq
          hbackslashes hlast (fun _ => hquiet)

/-- Two cursors that read the same byte stay aligned. -/
theorem step
    (h : Aligned language line second cursor again last (b :: rest.take more ++ text))
    (hnear : language.dialect.IsNear)
    (hrest : cursor.rest = b :: rest)
    (hagain : again.rest = b :: other)
    (hmore : more ≤ rest.length)
    (hoffset : (cursor.step language.dialect b rest).offset = cursor.offset + more + 1)
    (hback : ∀ token : Bytes, (∀ c ∈ token, Byte.isBlank c = false) →
      token <+: b :: other → token <+: b :: rest)
    (hregex : language.dialect.regex = true → cursor.span = .code → b = Byte.slash →
      Lexer.regexOpens cursor.lastCode other = Lexer.regexOpens cursor.lastCode rest)
    (hnil : rest = [] → text = []) :
    Aligned language line second (cursor.step language.dialect b rest)
      (again.step language.dialect b other) (some (Cursor.lastOf b rest more)) text := by
  by_cases hcode : cursor.span = .code
  · rw [Cursor.step, if_pos hcode] at hoffset ⊢
    rw [Cursor.step, h.span_eq, if_pos hcode]
    exact h.stepCode hnear hcode hrest hagain hmore hoffset hback fun hdialect hslash =>
      hregex hdialect hcode hslash
  · rw [Cursor.step, if_neg hcode] at hoffset ⊢
    rw [Cursor.step, h.span_eq, if_neg hcode]
    exact h.stepLiteral hcode hrest hagain hmore hoffset hback hnil

/-- What the second cursor reads starts with a token that is left. -/
theorem isPrefix_of_text
    {token : Bytes}
    (h : Aligned language line second cursor again last text)
    (htoken : ∀ b ∈ token, Byte.isBlank b = false)
    (hpre : token <+: text) :
    token <+: again.rest := by
  obtain ⟨tail, htail, rfl⟩ := h.text_eq
  exact Blank.isPrefix_of_append_blank htoken htail hpre

theorem rest_eq_nil
    (h : Aligned language line second cursor again last []) :
    again.rest = [] := by
  obtain ⟨tail, -, htext⟩ := h.text_eq
  exact (List.append_eq_nil_iff.1 htext.symm).1

/-- Behind a spliced comment the second cursor has read the space in its place. -/
theorem resume_gap
    {width : Nat} {rule : Rule}
    (h : Aligned language line second cursor again last (Byte.space :: text))
    (hcode : cursor.span = .code)
    (hrest : cursor.rest = b :: rest)
    (hagain : again.rest = Byte.space :: other)
    (hpos : 0 < width)
    (hle : width ≤ cursor.rest.length)
    (hmem : rule ∈ language.rules)
    (hblock : rule.isLine = false) :
    Aligned language line second (cursor.resume b rest (width - 1))
      (again.step language.dialect Byte.space other) (some Byte.space) text := by
  obtain ⟨hhere, hoffset⟩ := Reading.at_resume h.here hrest hpos hle
  obtain ⟨tail, htail, htext⟩ := h.text_eq
  rw [hagain, List.cons_append, List.cons.injEq] at htext
  have hstep : again.step language.dialect Byte.space other =
      { again.move Byte.space other 0 with lastCode := again.lastCode, backslashes := 0 } := by
    rw [Cursor.step, h.span_eq, if_pos hcode,
      Cursor.stepCode_of_not_opened (Cursor.opened?_of_isInk rfl)]
    rfl
  rw [hstep]
  exact {
    here := hhere
    there := Cursor.at_of_move h.there hagain (Nat.zero_le _) rfl rfl
    span_eq := h.span_eq.trans hcode
    text_eq := ⟨tail, htail, htext.2⟩
    backslashes_eq := Or.inl rfl
    lastCode_eq := h.lastCode_eq
    last_eq := fun hlt => by cases hlt
    backslashes_of_literal := fun _ => rfl
    offset_le := by
      have hle' := h.offset_le
      have hmove : (again.move Byte.space other 0).offset = again.offset + 0 + 1 := rfl
      dsimp only
      omega
    offset_eq := by
      intro hrules
      rw [hrules rule hmem] at hblock
      cases hblock }

/-- Behind a spliced comment without a space in its place the second cursor stands still. -/
theorem resume
    {width : Nat} {rule : Rule}
    (h : Aligned language line second cursor again last text)
    (hcode : cursor.span = .code)
    (hrest : cursor.rest = b :: rest)
    (hpos : 0 < width)
    (hle : width ≤ cursor.rest.length)
    (hmem : rule ∈ language.rules)
    (hblock : rule.isLine = false)
    (hblank : last = some Byte.backslash → text.StartsBlank) :
    Aligned language line second (cursor.resume b rest (width - 1)) again last text := by
  obtain ⟨hhere, hoffset⟩ := Reading.at_resume h.here hrest hpos hle
  obtain ⟨tail, htail, htext⟩ := h.text_eq
  exact {
    here := hhere
    there := h.there
    span_eq := h.span_eq.trans hcode
    text_eq := ⟨tail, htail, htext⟩
    backslashes_eq := by
      rcases h.backslashes_eq with heq | ⟨-, hstarts⟩
      · rcases Nat.eq_zero_or_pos cursor.backslashes with hzero | hpos
        · exact Or.inl (heq.trans hzero)
        · refine Or.inr ⟨rfl, fun c hc => hblank (h.last_eq hpos) c ?_⟩
          rw [htext, List.head?_append, hc]
          rfl
      · exact Or.inr ⟨rfl, hstarts⟩
    lastCode_eq := h.lastCode_eq
    last_eq := fun hlt => by cases hlt
    backslashes_of_literal := fun _ => rfl
    offset_le := by
      have hle' := h.offset_le
      omega
    offset_eq := by
      intro hrules
      rw [hrules rule hmem] at hblock
      cases hblock }

end Aligned

/-- The vetoes keep in a second line what they kept where it was left of the line. -/
def KeepsAgain (language : Language) (facts : LineFacts) (line second : Bytes) : Prop :=
  ∀ cursor again last left, Reading language facts cursor last left →
    Aligned language line second cursor again last left.text →
    cursor.span = .code →
    commentAt? language facts cursor = .ok none →
    ∀ rule ∈ language.rules, rule.start <+: cursor.rest → rule.start <+: again.rest →
      Veto.keeps language (LineFacts.ofLine second) again.offset rule.start = .ok true

/-- A slash of code is left together with a slash or an asterisk behind it, where slashes
may open regular expressions. -/
def LeavesSlashes (language : Language) (facts : LineFacts) (line : Bytes) : Prop :=
  language.dialect.regex = true →
    ∀ cursor last left, Reading language facts cursor last left →
      cursor.At line →
      cursor.span = .code →
      commentAt? language facts cursor = .ok none →
      ∀ c ∈ [Byte.slash, 0x2A], [Byte.slash, c] <+: cursor.rest → [Byte.slash, c] <+: left.text

/-- Without regular expressions nothing is asked about slashes. -/
theorem leavesSlashes_of_isLocal
    {language : Language}
    (hlocal : language.dialect.IsLocal)
    (facts : LineFacts) (line : Bytes) :
    LeavesSlashes language facts line := by
  intro hregex
  rw [hlocal.regex] at hregex
  cases hregex

/--
What a cursor comes across that reads what is left of a line: it stops before blanks or
where the cursor in the line has passed without a comment, and it ends in what the line
leaves open.
-/
structure Retraced
    (language : Language)
    (facts : LineFacts)
    (line second : Bytes)
    (again : Cursor)
    (mode : Mode) : Prop where
  /-- Every stop is before a blank or aligned with a stop in the line. -/
  stops : ∀ stop ∈ again.trail language.dialect, stop.rest.StartsBlank ∨
    ∃ cursor last left, Reading language facts cursor last left ∧
      Aligned language line second cursor stop last left.text ∧
      commentAt? language facts cursor = .ok none
  /-- The last stop is in the span that the line leaves open, comments apart. -/
  mode_eq : ∃ final, (again.trail language.dialect).getLast? = some final ∧
    mode.uncommented = .ofSpan language.dialect final.span

/-- A cursor whose next stop retraces the line does so itself. -/
theorem Retraced.of_step
    {language : Language} {facts : LineFacts} {line second : Bytes} {again : Cursor} {mode : Mode}
    {b : UInt8} {other : Bytes}
    (h : Retraced language facts line second (again.step language.dialect b other) mode)
    (hagain : again.rest = b :: other)
    (hhere : again.rest.StartsBlank ∨
      ∃ cursor last left, Reading language facts cursor last left ∧
        Aligned language line second cursor again last left.text ∧
        commentAt? language facts cursor = .ok none) :
    Retraced language facts line second again mode := by
  have htrail := @Cursor.trail_of_cons language.dialect again b other hagain
  obtain ⟨final, hfinal, hmode⟩ := h.mode_eq
  refine ⟨?_, final, ?_, hmode⟩
  · rw [htrail, List.forall_mem_cons]
    exact ⟨hhere, h.stops⟩
  · rw [htrail, Cursor.getLast?_cons_trail, hfinal]

namespace Reading

variable {language : Language} {facts : LineFacts} {line second : Bytes}
variable {cursor again : Cursor} {last : Option UInt8} {left : Pruning}

theorem retrace_of_rest_nil
    (h : Reading language facts cursor last left)
    (haligned : Aligned language line second cursor again last left.text)
    (hnil : again.rest = []) :
    Retraced language facts line second again left.mode := by
  have htrail := @Cursor.trail_of_nil language.dialect again hnil
  obtain ⟨tail, htail, htext⟩ := haligned.text_eq
  rw [hnil, List.nil_append] at htext
  refine ⟨?_, again, ?_, ?_⟩
  · rw [htrail, List.forall_mem_singleton]
    refine Or.inl fun b hb => ?_
    rw [hnil] at hb
    cases hb
  · rw [htrail]
    rfl
  · rw [haligned.span_eq]
    exact h.mode_of_isInk fun b hb => Blank.isInk_of_isBlank (htail b (htext ▸ hb))

/-- What stands at the second cursor stands at the first one, where no comment starts. -/
theorem isPrefix_of_aligned
    (hhtml : language ≠ .html)
    (hmarkdown : language ≠ .markdown)
    (h : Reading language facts cursor last left)
    (hnone : commentAt? language facts cursor = .ok none)
    (haligned : Aligned language line second cursor again last left.text)
    {token : Bytes}
    (htoken : ∀ b ∈ token, Byte.isBlank b = false)
    (hpre : token <+: again.rest) :
    token <+: cursor.rest := by
  obtain ⟨tail, -, htext⟩ := haligned.text_eq
  refine h.isPrefix_of_text hhtml hmarkdown (Or.inl hnone) htoken ?_
  rw [htext]
  exact hpre.trans (List.prefix_append _ _)

/-- A cursor that reads what is left of a line takes the steps that were taken in the line. -/
theorem retrace
    (hnear : language.dialect.IsNear)
    (hhtml : language ≠ .html)
    (hmarkdown : language ≠ .markdown)
    (hslashes : LeavesSlashes language facts line)
    (h : Reading language facts cursor last left)
    (haligned : Aligned language line second cursor again last left.text) :
    Retraced language facts line second again left.mode := by
  induction h generalizing again with
  | done hrest =>
      exact retrace_of_rest_nil (.done hrest : Reading language facts _ _ _) haligned
        haligned.rest_eq_nil
  | cutLine hrule =>
      exact retrace_of_rest_nil (.cutLine hrule) haligned haligned.rest_eq_nil
  | cutBlock hrule hfind =>
      exact retrace_of_rest_nil (.cutBlock hrule hfind) haligned haligned.rest_eq_nil
  | @step cursor last b rest more left hrest hnone hmore hstep hoffset hleft ih =>
      have hreading : Reading language facts cursor last
          ⟨b :: rest.take more ++ left.text, left.removals, left.mode⟩ :=
        .step hrest hnone hmore hstep hoffset hleft
      cases hagain : again.rest with
      | nil =>
          exact retrace_of_rest_nil hreading haligned hagain
      | cons c other =>
          obtain rfl : b = c := by
            obtain ⟨tail, -, htext⟩ := haligned.text_eq
            rw [hagain] at htext
            exact (List.cons.inj htext).1
          have hback (token : Bytes) (htoken : ∀ c ∈ token, Byte.isBlank c = false)
              (hpre : token <+: b :: other) : token <+: b :: rest := by
            rw [← hrest]
            rw [← hagain] at hpre
            exact hreading.isPrefix_of_aligned hhtml hmarkdown hnone haligned htoken hpre
          have hregex (hdialect : language.dialect.regex = true) (hcode : cursor.span = .code)
              (hb : b = Byte.slash) :
              Lexer.regexOpens cursor.lastCode other = Lexer.regexOpens cursor.lastCode rest := by
            subst hb
            have hpair (c : UInt8) (text : Bytes) :
                text.head? = some c ↔ [Byte.slash, c] <+: Byte.slash :: text := by
              cases text <;> simp [List.cons_prefix_cons, eq_comm]
            have hsolid (c : UInt8) (hc : c ∈ [Byte.slash, 0x2A]) :
                ∀ d ∈ [Byte.slash, c], Byte.isBlank d = false := by
              simp only [List.mem_cons, List.not_mem_nil, or_false] at hc
              obtain rfl | rfl := hc <;> simp [Byte.isBlank, Byte.slash]
            refine Lexer.regexOpens_of_agree cursor.lastCode (fun c hc hhead => ?_)
              fun c hc hhead => ?_
            · rw [hpair, ← hrest] at hhead
              have hleft := hslashes hdialect cursor last _ hreading haligned.here hcode hnone c hc
                hhead
              rw [hpair, ← hagain]
              exact haligned.isPrefix_of_text (hsolid c hc) hleft
            · rw [hpair] at hhead ⊢
              exact hback _ (hsolid c hc) hhead
          have hnil (h : rest = []) : left.text = [] := by
            have hend : (cursor.step language.dialect b rest).rest = [] := by
              rw [hstep, h, List.drop_nil]
            exact hleft.text_eq_nil hend
          have haligned' := haligned.step hnear hrest hagain hmore hoffset hback hregex hnil
          exact (ih haligned').of_step hagain
            (Or.inr ⟨cursor, last, _, hreading, haligned, hnone⟩)
  | @splice cursor last b rest start stop found width gap left hrest hrule hfind hwidth hpos hle
      hclean hgap hleft ih =>
      have hcode := span_eq_code_of_commentAt? hrule
      have hmem := (mem_rules_of_commentAt? hrule).1
      cases gap with
      | false =>
          refine ih (haligned.resume hcode hrest hpos hle hmem rfl ?_)
          rintro rfl
          refine hleft.startsBlank_text fun d hd => ?_
          rw [fuses, if_neg (by simp [hhtml, hmarkdown]), hd] at hgap
          have hsolid : Byte.isBlank Byte.backslash = false := rfl
          simpa [hsolid] using hgap
      | true =>
          cases hagain : again.rest with
          | nil =>
              exact retrace_of_rest_nil
                (.splice hrest hrule hfind hwidth hpos hle hclean hgap hleft) haligned hagain
          | cons c other =>
              obtain rfl : Byte.space = c := by
                obtain ⟨tail, -, htext⟩ := haligned.text_eq
                rw [hagain] at htext
                exact (List.cons.inj htext).1
              have haligned' := haligned.resume_gap hcode hrest hagain hpos hle hmem rfl
              refine (ih haligned').of_step hagain (Or.inl fun d hd => ?_)
              rw [hagain] at hd
              cases hd
              rfl

/-- What is left is not pruned a second time. -/
theorem reread
    (hlocal : language.dialect.IsLocal)
    (hhtml : language ≠ .html)
    (hmarkdown : language ≠ .markdown)
    (hkeeps : KeepsAgain language facts line second)
    (h : Reading language facts cursor last left)
    (haligned : Aligned language line second cursor again last left.text)
    (kept : Bytes) :
    fromCursor language (LineFacts.ofLine second) again kept [] =
      .ok ⟨kept.reverse ++ again.rest, [], left.mode.uncommented⟩ := by
  obtain ⟨hstops, final, hfinal, hmode⟩ :=
    h.retrace hlocal.isNear hhtml hmarkdown (leavesSlashes_of_isLocal hlocal facts line) haligned
  rw [hmode]
  refine fromCursor_of_trail (fun stop hstop => commentAt?_eq_none ?_) hfinal kept []
  intro hcode rule hmem hstart
  have hsolid := Language.isBlank_of_mem_start hmem
  rcases hstops stop hstop with hblank | ⟨cursor, last, left, hreading, haligned', hnone⟩
  · exact absurd (hblank.eq_nil_of_isPrefix hsolid hstart) (Language.start_ne_nil hmem)
  · rw [haligned'.span_eq] at hcode
    have hhere := hreading.isPrefix_of_aligned hhtml hmarkdown hnone haligned' hsolid hstart
    exact hkeeps cursor stop last left hreading haligned' hcode hnone rule hmem hhere hstart

end Reading
end Pruning
end Uncomment

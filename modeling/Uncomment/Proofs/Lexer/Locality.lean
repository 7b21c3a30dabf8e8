import Uncomment.Proofs.Lexer.Step
import Uncomment.Proofs.Text.White

/-!
# Reading depends on what comes next

In most dialects a delimiter is recognised by its own bytes.  Character literals,
raw strings and regular expressions are the exceptions: whether one opens depends
on text farther to the right, or on the code before it.  A dialect without them is
`Dialect.IsLocal`.  A dialect with regular expressions, but without the other two, is
still `Dialect.IsNear`: for a slash only the last byte of code and the next byte count.

A cursor of a near dialect that reads a different text takes the same step as long
as the delimiters agree: `Lexer.opening?_of_agree` for what opens and
`Span.closing?_of_agree` for what closes.
-/

namespace Uncomment

/-- A dialect in which delimiters are recognised by their own bytes. -/
structure Dialect.IsLocal (dialect : Dialect) : Prop where
  single : dialect.single ≠ .charLiteral
  rawStrings : dialect.rawStrings = false
  regex : dialect.regex = false

/-- A dialect in which delimiters other than slashes are recognised by their own bytes. -/
structure Dialect.IsNear (dialect : Dialect) : Prop where
  single : dialect.single ≠ .charLiteral
  rawStrings : dialect.rawStrings = false

theorem Dialect.IsLocal.isNear
    {dialect : Dialect}
    (h : dialect.IsLocal) :
    dialect.IsNear :=
  ⟨h.single, h.rawStrings⟩

namespace Span

theorem isInk_of_mem_closingTail
    {span : Span} {first b : UInt8} {tail : Bytes}
    (h : span.closingTail = some (first, tail))
    (hb : b ∈ first :: tail) :
    Blank.isInk b = true := by
  have hink : [Byte.tick, Byte.quote, Byte.backtick, Byte.slash, Byte.hash].all
      Blank.isInk = true := by
    decide
  have hmem : b ∈ [Byte.tick, Byte.quote, Byte.backtick, Byte.slash, Byte.hash] := by
    cases span <;> simp only [closingTail, Option.some.injEq, Prod.mk.injEq, reduceCtorEq] at h
    all_goals
      obtain ⟨rfl, rfl⟩ := h
      simp only [List.mem_cons, List.mem_replicate, List.not_mem_nil, or_false] at hb ⊢
      tauto
  exact List.all_eq_true.1 hink b hmem

theorem isInk_of_closing?
    {span : Span} {b : UInt8} {rest : Bytes} {more : Nat}
    (h : span.closing? b rest = some more) :
    ∀ c ∈ b :: rest.take more, Blank.isInk c = true := by
  obtain ⟨tail, hspan, hpre, rfl⟩ := closing?_eq_some_iff.1 h
  rw [← List.prefix_iff_eq_take.1 hpre]
  exact fun c hc => isInk_of_mem_closingTail hspan hc

/--
A literal closes in the same way before another text that has the bytes of the
delimiter, and does not close before one whose tokens stand in the text as well.
-/
theorem closing?_of_agree
    {span : Span} {b : UInt8} {rest other : Bytes}
    (hforth : ∀ more, span.closing? b rest = some more → rest.take more <+: other)
    (hback : ∀ token : Bytes, (∀ c ∈ token, Byte.isBlank c = false) →
      token <+: b :: other → token <+: b :: rest) :
    span.closing? b other = span.closing? b rest := by
  cases hclosing : span.closing? b rest with
  | some more =>
      obtain ⟨tail, hspan, hpre, rfl⟩ := closing?_eq_some_iff.1 hclosing
      have hother := hforth _ hclosing
      rw [← List.prefix_iff_eq_take.1 hpre] at hother
      exact closing?_eq_some_iff.2 ⟨tail, hspan, hother, rfl⟩
  | none =>
      rw [Option.eq_none_iff_forall_ne_some]
      intro more hmore
      obtain ⟨tail, hspan, hpre, -⟩ := closing?_eq_some_iff.1 hmore
      have hrest : b :: tail <+: b :: rest := by
        refine hback _ ?_ (List.cons_prefix_cons.2 ⟨rfl, hpre⟩)
        exact fun c hc => Blank.isBlank_of_isInk (isInk_of_mem_closingTail hspan hc)
      rw [List.cons_prefix_cons] at hrest
      rw [closing?_eq_some_iff.2 ⟨tail, hspan, hrest.2, rfl⟩] at hclosing
      cases hclosing

end Span

namespace Lexer

theorem Opening.isInk
    {dialect : Dialect} {before lastCode : Option UInt8} {b : UInt8} {rest : Bytes}
    {more : Nat} {span : Span}
    (h : Opening dialect before lastCode b rest more span) :
    Blank.isInk b = true := by
  have hink : [0x62, 0x72, Byte.quote, Byte.tick, Byte.backtick, Byte.slash].all
      Blank.isInk = true := by
    decide
  exact List.all_eq_true.1 hink b h.mem_starters

/--
Whether a slash opens a regular expression depends on the next byte only by whether that
is a slash or an asterisk.
-/
theorem regexOpens_of_agree
    {rest other : Bytes}
    (lastCode : Option UInt8)
    (hforth : ∀ c ∈ [Byte.slash, 0x2A], rest.head? = some c → other.head? = some c)
    (hback : ∀ c ∈ [Byte.slash, 0x2A], other.head? = some c → rest.head? = some c) :
    regexOpens lastCode other = regexOpens lastCode rest := by
  have hsame (c : UInt8) (hc : c ∈ [Byte.slash, 0x2A]) :
      (other.head? == some c) = (rest.head? == some c) := by
    rw [Bool.eq_iff_iff, beq_iff_eq, beq_iff_eq]
    exact ⟨hback c hc, hforth c hc⟩
  unfold regexOpens
  rw [hsame Byte.slash (by simp), hsame 0x2A (by simp)]

/-- Before a slash or an asterisk a slash opens no regular expression. -/
theorem regexOpens_of_mem
    {c : UInt8} {rest : Bytes}
    (lastCode : Option UInt8)
    (hc : c ∈ [Byte.slash, 0x2A]) :
    regexOpens lastCode (c :: rest) = false := by
  have hhead : ((c :: rest).head? == some Byte.slash || (c :: rest).head? == some 0x2A) = true := by
    rcases List.mem_cons.1 hc with rfl | hc
    · rfl
    · rw [List.mem_singleton.1 hc]
      rfl
  unfold regexOpens
  rw [if_pos hhead]

/-- The delimiters of a near dialect: a quotation mark, three of them, or a slash. -/
theorem opening?_of_isNear
    {dialect : Dialect} {before lastCode : Option UInt8} {b : UInt8} {rest : Bytes}
    (hnear : dialect.IsNear) :
    opening? dialect before lastCode b rest =
      if b = Byte.quote then
        if dialect.tripleDouble = true ∧ [b, b] <+: rest then some (2, .tripleDouble)
        else if dialect.double = true then some (0, .double)
        else none
      else if b = Byte.tick then
        if dialect.tripleSingle = true ∧ [b, b] <+: rest then some (2, .tripleSingle)
        else if dialect.single = .string then some (0, .single)
        else none
      else if b = Byte.backtick ∧ dialect.backtick = true then some (0, .backtick)
      else if b = Byte.slash ∧ dialect.regex = true ∧ regexOpens lastCode rest = true then
        some (0, .regex)
      else none := by
  obtain ⟨hsingle, hraw⟩ := hnear
  rw [opening?, hraw]
  simp only [Bool.false_eq_true, if_false, beq_iff_eq, Bool.and_eq_true,
    List.isPrefixOf_iff_prefix]
  split
  · next hb =>
      rw [hb]
  · split
    · next hb =>
        rw [hb]
        split
        · rfl
        · cases hd : dialect.single with
          | off => rfl
          | string => rfl
          | charLiteral => exact absurd hd hsingle
    · split
      · next hb =>
          have hslash : Byte.backtick ≠ Byte.slash := by decide
          simp [hb, hslash]
      · next hb =>
          simp only [hb, false_and, if_false]
          split
          · next hslash =>
              simp [hslash]
          · next hslash =>
              simp [hslash]

/-- An opening delimiter of a near dialect has no blanks. -/
theorem isBlank_of_opening?
    {dialect : Dialect} {before lastCode : Option UInt8} {b : UInt8} {rest : Bytes}
    {more : Nat} {span : Span}
    (hnear : dialect.IsNear)
    (h : opening? dialect before lastCode b rest = some (more, span)) :
    ∀ c ∈ b :: rest.take more, Byte.isBlank c = false := by
  have hb : Byte.isBlank b = false := Blank.isBlank_of_isInk (opening_of_opening? h).isInk
  have htake : rest.take more = [] ∨ rest.take more = [b, b] := by
    rw [opening?_of_isNear hnear] at h
    repeat' split at h
    all_goals cases h
    all_goals
      first
        | exact Or.inl List.take_zero
        | next htriple => exact Or.inr (List.prefix_iff_eq_take.1 htriple.2).symm
  intro c hc
  rcases htake with htake | htake <;> rw [htake] at hc <;> simp only [List.mem_cons,
    List.not_mem_nil, or_false, or_self] at hc <;> rw [hc] <;> exact hb

/--
In a near dialect the same literal opens before another text that has the bytes of
the delimiter and whose tokens stand in the text as well, if the two texts agree on
whether a slash opens a regular expression.
-/
theorem opening?_of_agree
    {dialect : Dialect} {before lastCode before' lastCode' : Option UInt8} {b : UInt8}
    {rest other : Bytes}
    (hnear : dialect.IsNear)
    (hforth : ∀ more span, opening? dialect before lastCode b rest = some (more, span) →
      rest.take more <+: other)
    (hback : ∀ token : Bytes, (∀ c ∈ token, Byte.isBlank c = false) →
      token <+: b :: other → token <+: b :: rest)
    (hregex : dialect.regex = true → b = Byte.slash →
      regexOpens lastCode' other = regexOpens lastCode rest) :
    opening? dialect before' lastCode' b other = opening? dialect before lastCode b rest := by
  simp only [opening?_of_isNear hnear] at hforth ⊢
  have hpair (hb : Byte.isBlank b = false) (h : [b, b] <+: other) : [b, b] <+: rest := by
    have hthree : [b, b, b] <+: b :: rest :=
      hback _ (by simpa using hb) (List.cons_prefix_cons.2 ⟨rfl, h⟩)
    exact (List.cons_prefix_cons.1 hthree).2
  by_cases hquote : b = Byte.quote
  · subst hquote
    simp only [if_true] at hforth ⊢
    by_cases htriple : dialect.tripleDouble = true ∧ [Byte.quote, Byte.quote] <+: rest
    · have hother := hforth 2 .tripleDouble (by rw [if_pos htriple])
      have htake := List.prefix_iff_eq_take.1 htriple.2
      rw [if_pos htriple, if_pos ⟨htriple.1, htake ▸ hother⟩]
    · rw [if_neg htriple, if_neg]
      exact fun h => htriple ⟨h.1, hpair (by decide) h.2⟩
  · by_cases htick : b = Byte.tick
    · subst htick
      simp only [if_neg hquote, if_true] at hforth ⊢
      by_cases htriple : dialect.tripleSingle = true ∧ [Byte.tick, Byte.tick] <+: rest
      · have hother := hforth 2 .tripleSingle (by rw [if_pos htriple])
        have htake := List.prefix_iff_eq_take.1 htriple.2
        rw [if_pos htriple, if_pos ⟨htriple.1, htake ▸ hother⟩]
      · rw [if_neg htriple, if_neg]
        exact fun h => htriple ⟨h.1, hpair (by decide) h.2⟩
    · simp only [if_neg hquote, if_neg htick]
      by_cases hslash : dialect.regex = true ∧ b = Byte.slash
      · rw [hregex hslash.1 hslash.2]
      · have hnone (opens : Bool) :
            ¬(b = Byte.slash ∧ dialect.regex = true ∧ opens = true) :=
          fun h => hslash ⟨h.2.1, h.1⟩
        rw [if_neg (hnone _), if_neg (hnone _)]

end Lexer

namespace Cursor

/-- The literal that a cursor in code opens at its next byte, which may be escaped. -/
def opened? (dialect : Dialect) (cursor : Cursor) (b : UInt8) (rest : Bytes) :
    Option (Nat × Span) :=
  if cursor.backslashes % 2 == 1 then none
  else Lexer.opening? dialect cursor.before cursor.lastCode b rest

variable {dialect : Dialect} {cursor : Cursor} {b : UInt8} {rest : Bytes}

theorem stepCode_of_opened
    {more : Nat} {span : Span}
    (h : cursor.opened? dialect b rest = some (more, span)) :
    cursor.stepCode dialect b rest =
      { cursor.move b rest more with span := span, backslashes := 0 } := by
  rw [opened?] at h
  rw [stepCode, h]

theorem stepCode_of_not_opened
    (h : cursor.opened? dialect b rest = none) :
    cursor.stepCode dialect b rest =
      { cursor.move b rest 0 with
          lastCode := if Byte.isBlank b then cursor.lastCode else some b
          backslashes := if b == Byte.backslash then cursor.backslashes + 1 else 0 } := by
  rw [opened?] at h
  rw [stepCode, h]

theorem opening?_of_opened
    {more : Nat} {span : Span}
    (h : cursor.opened? dialect b rest = some (more, span)) :
    Lexer.opening? dialect cursor.before cursor.lastCode b rest = some (more, span) := by
  rw [opened?] at h
  split at h
  · cases h
  · exact h

/-- Only at ink a cursor opens something. -/
theorem opened?_of_isInk
    (hb : Blank.isInk b = false) :
    cursor.opened? dialect b rest = none := by
  rw [Option.eq_none_iff_forall_ne_some]
  rintro ⟨more, span⟩ hopened
  rw [(Lexer.opening_of_opening? (opening?_of_opened hopened)).isInk] at hb
  cases hb

/-- Only at ink a literal opens or closes. -/
theorem span_step_of_isInk
    (dialect : Dialect) (cursor : Cursor) {b : UInt8} (rest : Bytes)
    (hb : Blank.isInk b = false) :
    (cursor.step dialect b rest).span = cursor.span := by
  rw [step]
  split
  · rw [stepCode_of_not_opened (opened?_of_isInk hb)]
    rfl
  · rw [stepLiteral]
    split
    · rfl
    · split
      · next hclosing =>
          rw [Span.isInk_of_closing? hclosing b List.mem_cons_self] at hb
          cases hb
      · rfl

/-- Where no ink comes a cursor stays in its span. -/
theorem span_of_mem_trail_of_isInk
    {stop : Cursor}
    (hink : ∀ b ∈ cursor.rest, Blank.isInk b = false)
    (h : stop ∈ cursor.trail dialect) :
    stop.span = cursor.span := by
  fun_induction trail dialect cursor with
  | case1 cursor hrest =>
      rw [List.mem_singleton.1 h]
  | case2 cursor b rest hrest ih =>
      rw [hrest, List.forall_mem_cons] at hink
      obtain ⟨more, -, hstep, -⟩ := exists_step dialect cursor b rest
      rcases List.mem_cons.1 h with rfl | h
      · rfl
      · rw [← span_step_of_isInk dialect cursor rest hink.1]
        refine ih (fun c hc => hink.2 c ?_) h
        rw [hstep] at hc
        exact List.mem_of_mem_drop hc

end Cursor
end Uncomment

import Uncomment.Proofs.Lexer.Closing
import Uncomment.Proofs.Lexer.Table
import Uncomment.Proofs.Text.Divide

/-!
# What a literal encloses

A text can be put into a literal in two ways.  Where a backslash escapes, one is written
before each backslash and each delimiter (`Lexer.escape`); where none does, the text stands
as it is and must not hold the closing delimiter.  Either way the literal is read up to the
closing delimiter behind the text, and no byte of it is code
(`Lexer.readsLiteral_of_enclosed`).

Inside a literal a cursor stops where the search for the closing delimiter goes
(`Cursor.exists_trail_of_findCloseFrom`), so it is enough to follow that search through the
text (`Lexer.findCloseFrom_escape`, `Lexer.findCloseFrom_verbatim`).
-/

namespace Uncomment

namespace Span

variable {dialect : Dialect} {span : Span} {first : UInt8} {tail : Bytes}

theorem ne_backslash_of_closingTail
    (h : span.closingTail = some (first, tail)) :
    first ≠ Byte.backslash := by
  cases span <;> cases h <;> decide

/-- Where no backslash escapes, the byte that starts a closing delimiter does not come again. -/
theorem notMem_tail_of_closingTail
    (hescapes : span.escapes dialect = false)
    (h : span.closingTail = some (first, tail)) :
    first ∉ tail := by
  cases span with
  | raw hashes =>
      cases h
      intro hmem
      exact absurd (List.eq_of_mem_replicate hmem) (by decide)
  | backtick =>
      cases h
      exact List.not_mem_nil
  | code =>
      cases h
  | single | double | regex | tripleDouble | tripleSingle =>
      cases hescapes

end Span

namespace Lexer

variable {dialect : Dialect} {span : Span} {first q : UInt8} {tail : Bytes}

/-- A text with a backslash before each backslash and each `q`. -/
def escape (q : UInt8) : Bytes → Bytes
  | [] => []
  | b :: rest =>
      if b = Byte.backslash ∨ b = q then Byte.backslash :: b :: escape q rest
      else b :: escape q rest

/-- The search for the end of a literal passes over a text that is escaped. -/
theorem findCloseFrom_escape
    (hescapes : span.escapes dialect = true)
    (hspan : span.closingTail = some (q, []))
    (offset : Nat) (content behind : Bytes) :
    findCloseFrom dialect span offset 0 (escape q content ++ q :: behind) =
      some (offset + (escape q content).length + 1) := by
  induction content generalizing offset with
  | nil =>
      have hclosing : span.closing? q behind = some 0 :=
        Span.closing?_eq_some_iff.2 ⟨[], hspan, List.nil_prefix, rfl⟩
      have hq : (q == Byte.backslash) = false :=
        beq_eq_false_iff_ne.2 (Span.ne_backslash_of_closingTail hspan)
      simp only [escape, List.nil_append, findCloseFrom, hq, Bool.false_and, hclosing]
      rfl
  | cons b rest ih =>
      rw [escape]
      split
      · simp only [List.cons_append, findCloseFrom, hescapes, beq_self_eq_true, Bool.and_self,
          if_true, ih, List.length_cons]
        congr 1
        omega
      · next hplain =>
          rw [not_or] at hplain
          have hclosing : span.closing? b (escape q rest ++ q :: behind) = none := by
            rw [Option.eq_none_iff_forall_ne_some]
            intro more hmore
            obtain ⟨_, hother, -⟩ := Span.closing?_eq_some_iff.1 hmore
            rw [hspan] at hother
            cases hother
            exact hplain.2 rfl
          simp only [List.cons_append, findCloseFrom, beq_eq_false_iff_ne.2 hplain.1,
            Bool.false_and, hclosing, Bool.false_eq_true, if_false, ih, List.length_cons]
          congr 1
          omega

/-- The search for the end of a literal passes over a text without the closing delimiter. -/
theorem findCloseFrom_verbatim
    (hescapes : span.escapes dialect = false)
    (hspan : span.closingTail = some (first, tail))
    {content : Bytes}
    (hcontent : ¬ first :: tail <:+: content)
    (offset : Nat) (behind : Bytes) :
    findCloseFrom dialect span offset 0 (content ++ first :: tail ++ behind) =
      some (offset + content.length + tail.length + 1) := by
  induction content generalizing offset with
  | nil =>
      have hclosing : span.closing? first (tail ++ behind) = some tail.length :=
        Span.closing?_eq_some_iff.2 ⟨tail, hspan, List.prefix_append _ _, rfl⟩
      simp only [List.nil_append, List.cons_append, findCloseFrom, hescapes, Bool.and_false,
        hclosing]
      rfl
  | cons b rest ih =>
      have hrest : ¬ first :: tail <:+: rest :=
        fun h => hcontent (h.trans (List.suffix_cons b rest).isInfix)
      -- A delimiter that begins at `b` would end in the text, since its first byte is no other one.
      have hclosing : span.closing? b (rest ++ first :: tail ++ behind) = none := by
        rw [Option.eq_none_iff_forall_ne_some]
        intro more hmore
        obtain ⟨_, hother, hpre, -⟩ := Span.closing?_eq_some_iff.1 hmore
        rw [hspan] at hother
        cases hother
        rw [List.append_assoc, List.cons_append,
          Bytes.isPrefix_of_not_mem (Span.notMem_tail_of_closingTail hescapes hspan)] at hpre
        exact hcontent (List.cons_prefix_cons.2 ⟨rfl, hpre⟩).isInfix
      simp only [List.cons_append, findCloseFrom, hescapes, Bool.and_false, Bool.false_eq_true,
        if_false, hclosing]
      rw [ih hrest, List.length_cons]
      congr 1
      omega

/-- An opening delimiter is one byte if its literal is closed by one byte and has escapes. -/
theorem Opening.eq_zero
    {before lastCode : Option UInt8} {b : UInt8} {rest : Bytes} {more : Nat}
    (h : Opening dialect before lastCode b rest more span)
    (hescapes : span.escapes dialect = true)
    (hspan : span.closingTail = some (q, [])) :
    more = 0 := by
  cases h with
  | raw =>
      cases hescapes
  | tripleDouble | tripleSingle =>
      cases hspan
  | double | single | backtick | regex =>
      rfl

end Lexer

namespace Cursor

variable {dialect : Dialect} {cursor here stop : Cursor}

/-- A trail goes on from each of its stops. -/
theorem mem_trail_of_le
    (hhere : here ∈ cursor.trail dialect)
    (hstop : stop ∈ cursor.trail dialect)
    (hle : here.offset ≤ stop.offset) :
    stop ∈ here.trail dialect := by
  fun_induction trail dialect cursor with
  | case1 cursor hrest =>
      obtain rfl := List.mem_singleton.1 hhere
      obtain rfl := List.mem_singleton.1 hstop
      exact mem_trail_self
  | case2 cursor b rest hrest ih =>
      rcases List.mem_cons.1 hhere with rfl | hhere
      · rw [trail_of_cons hrest]
        exact hstop
      · rcases List.mem_cons.1 hstop with rfl | hstop
        · obtain ⟨more, -, -, hoffset⟩ := exists_step dialect stop b rest
          have hafter := le_of_mem_trail hhere
          omega
        · exact ih hhere hstop

/-- A step in code that does not stay in code opens the literal in which it ends. -/
theorem exists_opened_of_ne
    {b : UInt8} {rest : Bytes}
    (hcode : cursor.span = .code)
    (hnext : (cursor.step dialect b rest).span ≠ .code) :
    ∃ more, cursor.opened? dialect b rest = some (more, (cursor.step dialect b rest).span) ∧
      (cursor.step dialect b rest).rest = rest.drop more ∧
      (cursor.step dialect b rest).offset = cursor.offset + more + 1 := by
  rw [step, if_pos hcode] at hnext ⊢
  cases hopened : cursor.opened? dialect b rest with
  | none =>
      rw [stepCode_of_not_opened hopened] at hnext
      exact absurd hcode hnext
  | some delimiter =>
      obtain ⟨more, span⟩ := delimiter
      rw [stepCode_of_opened hopened]
      exact ⟨more, rfl, rfl, rfl⟩

/--
A step inside a literal stays there, and the search for the closing delimiter goes on from
the next stop, or it closes the literal, and the search ends at the next stop.
-/
theorem step_of_literal
    {b : UInt8} {rest : Bytes}
    (hspan : cursor.span ≠ .code)
    (hrest : cursor.rest = b :: rest) :
    (cursor.step dialect b rest).span = cursor.span ∧
        Lexer.findCloseFrom dialect cursor.span cursor.offset 0 cursor.rest =
          Lexer.findCloseFrom dialect cursor.span (cursor.step dialect b rest).offset 0
            (cursor.step dialect b rest).rest ∨
      (cursor.step dialect b rest).span = .code ∧
        Lexer.findCloseFrom dialect cursor.span cursor.offset 0 cursor.rest =
          some (cursor.step dialect b rest).offset := by
  rw [hrest, Lexer.findCloseFrom, step, if_neg hspan, stepLiteral]
  by_cases hescape : (b == Byte.backslash && cursor.span.escapes dialect) = true
  · refine Or.inl ?_
    rw [if_pos hescape, if_pos hescape]
    refine ⟨rfl, ?_⟩
    cases rest with
    | nil =>
        rfl
    | cons c more =>
        rw [Lexer.findCloseFrom, show min 1 (c :: more).length = 1 from Nat.min_eq_left (by simp)]
        rfl
  · rw [if_neg hescape, if_neg hescape]
    cases hclosing : cursor.span.closing? b rest with
    | none => exact Or.inl ⟨rfl, rfl⟩
    | some more => exact Or.inr ⟨rfl, rfl⟩

/--
From inside a literal a cursor stops inside it until the search for the closing delimiter
comes to an end, and goes on in code there.
-/
theorem exists_trail_of_findCloseFrom
    {close : Nat}
    (hspan : cursor.span ≠ .code)
    (h : Lexer.findCloseFrom dialect cursor.span cursor.offset 0 cursor.rest = some close) :
    ∃ (inside : List Cursor) (next : Cursor),
      cursor.trail dialect = cursor :: inside ++ next.trail dialect ∧
      (∀ stop ∈ cursor :: inside, stop.span ≠ .code) ∧
      next.span = .code ∧ next.offset = close := by
  fun_induction trail dialect cursor with
  | case1 cursor hrest =>
      rw [hrest] at h
      cases h
  | case2 cursor b rest hrest ih =>
      rcases step_of_literal hspan hrest with ⟨hstay, hsearch⟩ | ⟨hcode, hsearch⟩
      · rw [hsearch, ← hstay] at h
        obtain ⟨inside, next, htrail, hinside, hcode, hoffset⟩ := ih (hstay ▸ hspan) h
        refine ⟨cursor.step dialect b rest :: inside, next, ?_, ?_, hcode, hoffset⟩
        · rw [htrail]
          rfl
        · exact List.forall_mem_cons.2 ⟨hspan, hinside⟩
      · rw [hsearch, Option.some.injEq] at h
        exact ⟨[], _, rfl, List.forall_mem_singleton.2 hspan, hcode, h⟩

/-- From inside a literal without a closing delimiter a cursor stays in it. -/
theorem span_of_findCloseFrom_eq_none
    (hspan : cursor.span ≠ .code)
    (h : Lexer.findCloseFrom dialect cursor.span cursor.offset 0 cursor.rest = none)
    (hstop : stop ∈ cursor.trail dialect) :
    stop.span = cursor.span := by
  fun_induction trail dialect cursor with
  | case1 cursor hrest =>
      rw [List.mem_singleton.1 hstop]
  | case2 cursor b rest hrest ih =>
      rcases step_of_literal hspan hrest with ⟨hstay, hsearch⟩ | ⟨hcode, hsearch⟩
      · rcases List.mem_cons.1 hstop with rfl | hstop
        · rfl
        · rw [hsearch, ← hstay] at h
          exact (ih (hstay ▸ hspan) h hstop).trans hstay
      · rw [hsearch] at h
        cases h

/--
A cursor in code reads a literal up to an offset: until there it stops inside the literal
only, and goes on in code.  In the table of a line in which the cursor stops, no byte of the
literal is code, the first one of the opening delimiter apart.
-/
structure ReadsLiteral (dialect : Dialect) (cursor : Cursor) (close : Nat) : Prop where
  trail : ∃ (inside : List Cursor) (next : Cursor),
    cursor.trail dialect = cursor :: inside ++ next.trail dialect ∧
    inside ≠ [] ∧ (∀ stop ∈ inside, stop.span ≠ .code) ∧
    next.span = .code ∧ next.offset = close
  table : ∀ line, cursor ∈ (start line).trail dialect →
    ∀ offset, cursor.offset < offset → offset < close →
      (SpanTable.ofLine dialect line).isCode offset = false

/-- A literal is read up to where the search for its closing delimiter comes to an end. -/
theorem readsLiteral_of_findCloseFrom
    {b : UInt8} {rest : Bytes} {close : Nat}
    (hrest : cursor.rest = b :: rest)
    (hnext : (cursor.step dialect b rest).span ≠ .code)
    (h : Lexer.findCloseFrom dialect (cursor.step dialect b rest).span
      (cursor.step dialect b rest).offset 0 (cursor.step dialect b rest).rest = some close) :
    cursor.ReadsLiteral dialect close := by
  obtain ⟨inside, next, htrail, hinside, hcode, hoffset⟩ :=
    exists_trail_of_findCloseFrom hnext h
  have hwhole : cursor.trail dialect =
      cursor :: (cursor.step dialect b rest :: inside) ++ next.trail dialect := by
    rw [trail_of_cons hrest, htrail]
    rfl
  refine ⟨⟨_, next, hwhole, List.cons_ne_nil _ _, hinside, hcode, hoffset⟩, ?_⟩
  intro line hcursor offset hlow hhigh
  have hmem : next ∈ cursor.trail dialect := by
    rw [hwhole]
    exact List.mem_append_right _ mem_trail_self
  have hend := (at_of_mem_trail (at_of_mem_trail (at_start line) hcursor) hmem).1
  rw [← Bool.not_eq_true, SpanTable.isCode_ofLine_iff dialect line (by omega)]
  rintro ⟨stop, hstop, rfl, hspan⟩
  have hlater := mem_trail_of_le hcursor hstop (Nat.le_of_lt hlow)
  rw [hwhole] at hlater
  rcases List.mem_append.1 hlater with hlater | hlater
  · rcases List.mem_cons.1 hlater with rfl | hlater
    · exact Nat.lt_irrefl _ hlow
    · exact hinside stop hlater hspan
  · have hle := le_of_mem_trail hlater
    omega

end Cursor

namespace Lexer

/--
A literal that opens where a cursor stands in code is read up to the closing delimiter
behind the text that was put into it: behind a text that is escaped, if the literal has
escapes and a delimiter of one byte, and behind a text without the closing delimiter, if it
has none.
-/
theorem readsLiteral_of_enclosed
    {dialect : Dialect} {here : Cursor} {b : UInt8} {rest : Bytes} {span : Span}
    (hcode : here.span = .code)
    (hrest : here.rest = b :: rest)
    (hopens : (here.step dialect b rest).span = span) :
    (∀ q content behind, span.escapes dialect = true → span.closingTail = some (q, []) →
      rest = escape q content ++ q :: behind →
      here.ReadsLiteral dialect (here.offset + 1 + (escape q content).length + 1)) ∧
    (∀ first tail content behind, span.escapes dialect = false →
      span.closingTail = some (first, tail) →
      (here.step dialect b rest).rest = content ++ first :: tail ++ behind →
      ¬ first :: tail <:+: content →
      here.ReadsLiteral dialect
        ((here.step dialect b rest).offset + content.length + tail.length + 1)) := by
  have hliteral {first : UInt8} {tail : Bytes} (hspan : span.closingTail = some (first, tail)) :
      (here.step dialect b rest).span ≠ .code := by
    rw [hopens]
    rintro rfl
    cases hspan
  constructor
  · intro q content behind hescapes hspan hcontent
    obtain ⟨more, hopened, hunread, hoffset⟩ :=
      Cursor.exists_opened_of_ne hcode (hliteral hspan)
    rw [hopens] at hopened
    obtain rfl :=
      (opening_of_opening? (Cursor.opening?_of_opened hopened)).eq_zero hescapes hspan
    refine Cursor.readsLiteral_of_findCloseFrom hrest (hliteral hspan) ?_
    rw [hopens, hoffset, hunread, List.drop_zero, hcontent]
    exact findCloseFrom_escape hescapes hspan _ content behind
  · intro first tail content behind hescapes hspan hbehind hcontent
    refine Cursor.readsLiteral_of_findCloseFrom hrest (hliteral hspan) ?_
    rw [hopens, hbehind]
    exact findCloseFrom_verbatim hescapes hspan hcontent _ behind

/-- Escapes in quotation marks, and quotation marks and a backslash in a raw string. -/
theorem readsLiteral_of_enclosed_quotes :
    escape Byte.quote (Bytes.ofString "a\"\\") = Bytes.ofString "a\\\"\\\\" ∧
      (Cursor.start (Byte.quote :: Bytes.ofString "a\\\"\\\\\"# b")).ReadsLiteral
        Dialect.plain 7 ∧
      ¬ Bytes.ofString "\"#" <:+: Bytes.ofString "\"a\" // \\" ∧
      (Cursor.start (0x62 :: Bytes.ofString "r#\"\"a\" // \\\"# // b")).ReadsLiteral
        Language.rust.dialect 14 := by
  have hescape : escape Byte.quote (Bytes.ofString "a\"\\") = Bytes.ofString "a\\\"\\\\" := by
    decide
  have hcontent : ¬ Bytes.ofString "\"#" <:+: Bytes.ofString "\"a\" // \\" := by
    decide +kernel
  have hquote : ((Cursor.start (Byte.quote :: Bytes.ofString "a\\\"\\\\\"# b")).step Dialect.plain
      Byte.quote (Bytes.ofString "a\\\"\\\\\"# b")).span = .double := by
    decide +kernel
  have hraw : ((Cursor.start (0x62 :: Bytes.ofString "r#\"\"a\" // \\\"# // b")).step
      Language.rust.dialect 0x62 (Bytes.ofString "r#\"\"a\" // \\\"# // b")).span = .raw 1 := by
    decide +kernel
  have hread := (readsLiteral_of_enclosed rfl rfl hquote).1 Byte.quote (Bytes.ofString "a\"\\")
    (Bytes.ofString "# b") rfl rfl (by decide)
  have hreadRaw := (readsLiteral_of_enclosed rfl rfl hraw).2 Byte.quote [Byte.hash]
    (Bytes.ofString "\"a\" // \\") (Bytes.ofString " // b") rfl rfl (by decide +kernel) hcontent
  rw [hescape] at hread
  exact ⟨hescape, hread, hcontent, hreadRaw⟩

end Lexer
end Uncomment

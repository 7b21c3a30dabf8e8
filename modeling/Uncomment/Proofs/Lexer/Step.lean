import Mathlib.Tactic.Common
import Uncomment.Lexer.Cursor

/-!
# What a step of a cursor reads

A step reads the first unread byte and some of the bytes after it, never more
than there are.  So a cursor that starts at the front of a line always stands at
the offset it reports (`Cursor.At`), and so do the stops of its trail.

`Lexer.Opening` says once which delimiters open which literals; everything that
is needed about `Lexer.opening?` is read off from it.
-/

namespace Uncomment

namespace Span

/-- A closing delimiter is the one of its span and lies within the unread bytes. -/
theorem closing?_eq_some_iff
    {span : Span} {b : UInt8} {rest : Bytes} {more : Nat} :
    span.closing? b rest = some more ↔
      ∃ tail, span.closingTail = some (b, tail) ∧ tail <+: rest ∧ more = tail.length := by
  unfold closing?
  cases hspan : span.closingTail with
  | none =>
      simp
  | some delimiter =>
      obtain ⟨first, tail⟩ := delimiter
      dsimp only
      split
      · next hcond =>
          rw [Bool.and_eq_true, beq_iff_eq, List.isPrefixOf_iff_prefix] at hcond
          obtain ⟨rfl, hpre⟩ := hcond
          constructor
          · rintro ⟨rfl⟩
            exact ⟨tail, rfl, hpre, rfl⟩
          · rintro ⟨_, ⟨rfl⟩, -, rfl⟩
            rfl
      · next hcond =>
          rw [Bool.and_eq_true, beq_iff_eq, List.isPrefixOf_iff_prefix] at hcond
          constructor
          · intro h
            cases h
          · rintro ⟨_, ⟨rfl⟩, hpre, -⟩
            exact absurd ⟨rfl, hpre⟩ hcond

theorem closing?_le
    {span : Span} {b : UInt8} {rest : Bytes} {more : Nat}
    (h : span.closing? b rest = some more) :
    more ≤ rest.length := by
  obtain ⟨tail, -, hpre, rfl⟩ := closing?_eq_some_iff.1 h
  exact hpre.length_le

end Span

namespace Lexer

/--
The delimiters that open a literal at `b` before `rest`: the number of bytes of
`rest` that belong to the delimiter, and the span of the literal.
-/
inductive Opening
    (dialect : Dialect)
    (before lastCode : Option UInt8) :
    UInt8 → Bytes → Nat → Span → Prop
  | raw {b : UInt8} {rest : Bytes} {more hashes : Nat} :
      dialect.rawStrings = true →
      rawOpening? before b rest = some (more, hashes) →
      Opening dialect before lastCode b rest more (.raw hashes)
  | tripleDouble {rest : Bytes} :
      dialect.tripleDouble = true →
      [Byte.quote, Byte.quote] <+: rest →
      Opening dialect before lastCode Byte.quote rest 2 .tripleDouble
  | double {rest : Bytes} :
      dialect.double = true →
      Opening dialect before lastCode Byte.quote rest 0 .double
  | tripleSingle {rest : Bytes} :
      dialect.tripleSingle = true →
      [Byte.tick, Byte.tick] <+: rest →
      Opening dialect before lastCode Byte.tick rest 2 .tripleSingle
  | single {rest : Bytes} :
      dialect.single ≠ .off →
      Opening dialect before lastCode Byte.tick rest 0 .single
  | backtick {rest : Bytes} :
      dialect.backtick = true →
      Opening dialect before lastCode Byte.backtick rest 0 .backtick
  | regex {rest : Bytes} :
      dialect.regex = true →
      regexOpens lastCode rest = true →
      Opening dialect before lastCode Byte.slash rest 0 .regex

theorem opening_of_opening?
    {dialect : Dialect} {before lastCode : Option UInt8} {b : UInt8} {rest : Bytes}
    {more : Nat} {span : Span}
    (h : opening? dialect before lastCode b rest = some (more, span)) :
    Opening dialect before lastCode b rest more span := by
  unfold opening? at h
  split at h
  · next hashes hraw =>
      split at hraw
      · next hdialect =>
          cases h
          exact .raw hdialect hraw
      · cases hraw
  · split at h
    · next hb =>
        obtain rfl := eq_of_beq hb
        split at h
        · next htriple =>
            rw [Bool.and_eq_true, List.isPrefixOf_iff_prefix] at htriple
            cases h
            exact .tripleDouble htriple.1 htriple.2
        · split at h
          · next hdouble =>
              cases h
              exact .double hdouble
          · cases h
    · split at h
      · next hb =>
          obtain rfl := eq_of_beq hb
          split at h
          · next htriple =>
              rw [Bool.and_eq_true, List.isPrefixOf_iff_prefix] at htriple
              cases h
              exact .tripleSingle htriple.1 htriple.2
          · split at h
            · cases h
            · next hsingle =>
                cases h
                exact .single (by rw [hsingle]; decide)
            · next hsingle =>
                split at h
                · cases h
                  exact .single (by rw [hsingle]; decide)
                · cases h
      · split at h
        · next hb =>
            obtain rfl := eq_of_beq hb
            split at h
            · next hbacktick =>
                cases h
                exact .backtick hbacktick
            · cases h
        · split at h
          · next hb =>
              obtain rfl := eq_of_beq hb
              split at h
              · next hregex =>
                  rw [Bool.and_eq_true] at hregex
                  cases h
                  exact .regex hregex.1 hregex.2
              · cases h
          · cases h

/-- A raw string starts with the letter `b` or `r`, and its delimiter is unread. -/
theorem rawOpening?_spec
    {before : Option UInt8} {b : UInt8} {rest : Bytes} {more hashes : Nat}
    (h : rawOpening? before b rest = some (more, hashes)) :
    (b = 0x62 ∨ b = 0x72) ∧ more ≤ rest.length := by
  have hquote (text : Bytes) (count : Nat)
      (hq : ((text.drop count).head? == some Byte.quote) = true) :
      count + 1 ≤ text.length := by
    by_contra hlen
    rw [List.drop_eq_nil_of_le (by omega)] at hq
    cases hq
  unfold rawOpening? at h
  split at h
  · cases h
  · dsimp only at h
    by_cases hb : b == 0x62
    · simp only [hb, if_true] at h
      cases rest with
      | nil =>
          cases h
      | cons r tail =>
          dsimp only at h
          split at h
          · next hcond =>
              rw [Bool.and_eq_true] at hcond
              have hlen := hquote tail _ hcond.2
              simp only [Option.some.injEq, Prod.mk.injEq] at h
              refine ⟨Or.inl (eq_of_beq hb), ?_⟩
              rw [List.length_cons]
              omega
          · cases h
    · simp only [hb, Bool.false_eq_true, if_false] at h
      split at h
      · next hcond =>
          rw [Bool.and_eq_true] at hcond
          have hlen := hquote rest _ hcond.2
          simp only [Option.some.injEq, Prod.mk.injEq] at h
          exact ⟨Or.inr (eq_of_beq hcond.1), by omega⟩
      · cases h

namespace Opening

variable {dialect : Dialect} {before lastCode : Option UInt8} {b : UInt8} {rest : Bytes}
variable {more : Nat} {span : Span}

theorem le
    (h : Opening dialect before lastCode b rest more span) :
    more ≤ rest.length := by
  cases h with
  | raw _ hraw => exact (rawOpening?_spec hraw).2
  | tripleDouble _ hpre => exact hpre.length_le
  | tripleSingle _ hpre => exact hpre.length_le
  | double | single | backtick | regex => exact Nat.zero_le _

/-- The bytes with which an opening delimiter may start. -/
theorem mem_starters
    (h : Opening dialect before lastCode b rest more span) :
    b ∈ [0x62, 0x72, Byte.quote, Byte.tick, Byte.backtick, Byte.slash] := by
  cases h with
  | raw _ hraw => rcases (rawOpening?_spec hraw).1 with rfl | rfl <;> simp
  | tripleDouble | tripleSingle | double | single | backtick | regex => simp

end Opening
end Lexer

namespace Cursor

theorem getLast?_eq_lastOf
    (b : UInt8) (rest : Bytes) (more : Nat) :
    (b :: rest.take more).getLast? = some (lastOf b rest more) := by
  rw [List.getLast?_cons, lastOf]

theorem lastOf_mem
    (b : UInt8) (rest : Bytes) (more : Nat) :
    lastOf b rest more ∈ b :: rest.take more := by
  exact List.mem_of_getLast? (getLast?_eq_lastOf b rest more)

theorem getElem?_eq_lastOf
    {rest : Bytes} {more : Nat}
    (b : UInt8)
    (hmore : more ≤ rest.length) :
    (b :: rest)[more]? = some (lastOf b rest more) := by
  rw [lastOf, List.getLast?_take]
  cases more with
  | zero => simp
  | succ more => simp [List.getElem?_eq_getElem (by omega : more < rest.length)]

/-- A cursor that stands where it says in a line. -/
def At (line : Bytes) (cursor : Cursor) : Prop :=
  cursor.offset ≤ line.length ∧ cursor.rest = line.drop cursor.offset

theorem at_start
    (line : Bytes) :
    (start line).At line := by
  exact ⟨Nat.zero_le _, rfl⟩

/-- The offset tells how far a cursor has moved. -/
theorem width_of_offset
    {cursor : Cursor} {width more : Nat}
    (h : cursor.offset + width + 1 = cursor.offset + more + 1) :
    width = more := by
  omega

theorem at_of_move
    {line : Bytes} {cursor next : Cursor} {b : UInt8} {rest : Bytes} {more : Nat}
    (hat : cursor.At line)
    (hrest : cursor.rest = b :: rest)
    (hmore : more ≤ rest.length)
    (hnext : next.rest = rest.drop more)
    (hoffset : next.offset = cursor.offset + more + 1) :
    next.At line := by
  obtain ⟨hle, hdrop⟩ := hat
  have hcons : line.drop cursor.offset = b :: rest := hdrop.symm.trans hrest
  have hlen : line.length - cursor.offset = rest.length + 1 := by
    rw [← List.length_drop, hcons, List.length_cons]
  refine ⟨by omega, ?_⟩
  calc
    next.rest = (b :: rest).drop (more + 1) := by
      rw [hnext, List.drop_succ_cons]
    _ = (line.drop cursor.offset).drop (more + 1) := by
      rw [hcons]
    _ = line.drop next.offset := by
      rw [List.drop_drop, hoffset, Nat.add_assoc]

/-- A step moves past the first unread byte and `more` bytes after it. -/
theorem exists_move
    (dialect : Dialect) (cursor : Cursor) (b : UInt8) (rest : Bytes) :
    ∃ more, more ≤ rest.length ∧
      (cursor.step dialect b rest).rest = rest.drop more ∧
      (cursor.step dialect b rest).offset = cursor.offset + more + 1 ∧
      (cursor.step dialect b rest).before = some (lastOf b rest more) := by
  unfold step
  split
  · unfold stepCode
    dsimp only
    split
    · next more span hopened =>
        split at hopened
        · cases hopened
        · exact ⟨more, (Lexer.opening_of_opening? hopened).le, rfl, rfl, rfl⟩
    · exact ⟨0, Nat.zero_le _, rfl, rfl, rfl⟩
  · unfold stepLiteral
    split
    · exact ⟨min 1 rest.length, by omega, rfl, rfl, rfl⟩
    · split
      · next more hclosing =>
          exact ⟨more, Span.closing?_le hclosing, rfl, rfl, rfl⟩
      · exact ⟨0, Nat.zero_le _, rfl, rfl, rfl⟩

/-- A step reads the first unread byte and `more` bytes after it. -/
theorem exists_step
    (dialect : Dialect) (cursor : Cursor) (b : UInt8) (rest : Bytes) :
    ∃ more, more ≤ rest.length ∧
      (cursor.step dialect b rest).rest = rest.drop more ∧
      (cursor.step dialect b rest).offset = cursor.offset + more + 1 := by
  obtain ⟨more, hmore, hrest, hoffset, -⟩ := exists_move dialect cursor b rest
  exact ⟨more, hmore, hrest, hoffset⟩

section

variable {dialect : Dialect} {cursor stop : Cursor}

theorem trail_of_nil
    (hrest : cursor.rest = []) :
    cursor.trail dialect = [cursor] := by
  rw [trail]
  split
  · rfl
  · next h =>
      rw [hrest] at h
      cases h

theorem trail_of_cons
    {b : UInt8} {rest : Bytes}
    (hrest : cursor.rest = b :: rest) :
    cursor.trail dialect = cursor :: (cursor.step dialect b rest).trail dialect := by
  rw [trail]
  split
  · next h =>
      rw [hrest] at h
      cases h
  · next h =>
      rw [hrest] at h
      cases h
      rfl

theorem mem_trail_self :
    cursor ∈ cursor.trail dialect := by
  rw [trail]
  split <;> simp

theorem exists_getLast?_trail
    (dialect : Dialect) (cursor : Cursor) :
    ∃ final, (cursor.trail dialect).getLast? = some final := by
  have hne : cursor.trail dialect ≠ [] := List.ne_nil_of_mem mem_trail_self
  exact ⟨_, List.getLast?_eq_some_getLast hne⟩

theorem getLast?_cons_trail
    (dialect : Dialect) (earlier cursor : Cursor) :
    (earlier :: cursor.trail dialect).getLast? = (cursor.trail dialect).getLast? := by
  obtain ⟨final, hfinal⟩ := exists_getLast?_trail dialect cursor
  rw [List.getLast?_cons, hfinal]
  rfl

/-- A trail goes from left to right. -/
theorem le_of_mem_trail
    (h : stop ∈ cursor.trail dialect) :
    cursor.offset ≤ stop.offset := by
  fun_induction trail dialect cursor with
  | case1 cursor hrest =>
      obtain rfl := List.mem_singleton.1 h
      exact Nat.le_refl _
  | case2 cursor b rest hrest ih =>
      obtain ⟨more, -, -, hoffset⟩ := exists_step dialect cursor b rest
      rcases List.mem_cons.1 h with rfl | h
      · exact Nat.le_refl _
      · have hle := ih h
        omega

theorem at_of_mem_trail
    {line : Bytes}
    (hat : cursor.At line)
    (h : stop ∈ cursor.trail dialect) :
    stop.At line := by
  fun_induction trail dialect cursor with
  | case1 cursor hrest =>
      obtain rfl := List.mem_singleton.1 h
      exact hat
  | case2 cursor b rest hrest ih =>
      obtain ⟨more, hmore, hstep, hoffset⟩ := exists_step dialect cursor b rest
      rcases List.mem_cons.1 h with rfl | h
      · exact hat
      · exact ih (at_of_move hat hrest hmore hstep hoffset) h

end

end Cursor
end Uncomment

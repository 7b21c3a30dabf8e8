import Uncomment.Lexer.Table
import Uncomment.Proofs.Lexer.Locality

/-!
# Span tables and cursors agree

A span table lists a span for every byte of a line, a cursor stops only at some of them.
Between two stops the cursor reads a delimiter or an escape, and of these bytes only the
first can be code (`SpanTable.exists_stretch`).  So the table says `code` at exactly those
offsets where the cursor stops in code (`SpanTable.isCode_ofLine_iff`), at each stop it tells
the span of the stop (`SpanTable.spanAt_of_mem_trail`), and its last entry is the span of the
last one (`SpanTable.atEnd_ofLine`).
-/

namespace Uncomment

theorem Lexer.Opening.ne_code
    {dialect : Dialect} {before lastCode : Option UInt8} {b : UInt8} {rest : Bytes}
    {more : Nat} {span : Span}
    (h : Opening dialect before lastCode b rest more span) :
    span ≠ .code := by
  cases h with
  | raw | tripleDouble | double | tripleSingle | single | backtick | regex =>
      simp

namespace Cursor

theorem exists_trail_eq_cons
    (dialect : Dialect) (cursor : Cursor) :
    ∃ more, cursor.trail dialect = cursor :: more := by
  cases hrest : cursor.rest with
  | nil => exact ⟨[], trail_of_nil hrest⟩
  | cons b rest => exact ⟨_, trail_of_cons hrest⟩

/-- A step from code into code reads one byte. -/
theorem offset_step_of_code
    {dialect : Dialect} {cursor : Cursor} {b : UInt8} {rest : Bytes}
    (hcode : cursor.span = .code)
    (hnext : (cursor.step dialect b rest).span = .code) :
    (cursor.step dialect b rest).offset = cursor.offset + 1 := by
  rw [step, if_pos hcode] at hnext ⊢
  cases hopened : cursor.opened? dialect b rest with
  | none =>
      rw [stepCode_of_not_opened hopened]
      rfl
  | some delimiter =>
      rw [stepCode_of_opened hopened] at hnext
      exact absurd hnext (Lexer.opening_of_opening? (opening?_of_opened hopened)).ne_code

end Cursor

namespace SpanTable

variable {dialect : Dialect} {cursor : Cursor}

/--
The spans of the bytes that a step reads: that of the cursor, and for the other bytes
those of a literal.
-/
theorem exists_stretch
    (dialect : Dialect) (cursor : Cursor) (b : UInt8) (rest : Bytes) :
    ∃ more inner, more ≤ rest.length ∧
      (cursor.step dialect b rest).rest = rest.drop more ∧
      (cursor.step dialect b rest).offset = cursor.offset + more + 1 ∧
      stretch cursor (cursor.step dialect b rest) = cursor.span :: inner ∧
      inner.length = more ∧
      .code ∉ inner := by
  obtain ⟨more, hmore, hrest, hoffset⟩ := Cursor.exists_step dialect cursor b rest
  have hwidth : (cursor.step dialect b rest).offset - cursor.offset = more + 1 := by
    omega
  by_cases hcode : cursor.span = .code
  · by_cases hnext : (cursor.step dialect b rest).span = .code
    · have hone := Cursor.offset_step_of_code hcode hnext
      obtain rfl : more = 0 := by omega
      refine ⟨0, [], hmore, hrest, hoffset, ?_, rfl, List.not_mem_nil⟩
      rw [stretch, hwidth, if_neg (fun h => h.2 hnext)]
      rfl
    · refine ⟨more, List.replicate more (cursor.step dialect b rest).span, hmore, hrest, hoffset,
        ?_, List.length_replicate, ?_⟩
      · rw [stretch, hwidth, if_pos ⟨hcode, hnext⟩, hcode]
        rfl
      · exact fun hmem => hnext (List.eq_of_mem_replicate hmem).symm
  · refine ⟨more, List.replicate more cursor.span, hmore, hrest, hoffset, ?_,
      List.length_replicate, ?_⟩
    · rw [stretch, hwidth, if_neg (fun h => hcode h.1)]
      rfl
    · exact fun hmem => hcode (List.eq_of_mem_replicate hmem).symm

/-- The spans along a trail start with those of the first step. -/
theorem along_trail_of_cons
    {b : UInt8} {rest : Bytes}
    (hrest : cursor.rest = b :: rest) :
    along (cursor.trail dialect) =
      stretch cursor (cursor.step dialect b rest) ++
        along ((cursor.step dialect b rest).trail dialect) := by
  obtain ⟨later, hlater⟩ := Cursor.exists_trail_eq_cons dialect (cursor.step dialect b rest)
  rw [Cursor.trail_of_cons hrest, hlater, along]

/-- There is a span for every unread byte, and one more. -/
theorem length_along_trail
    (dialect : Dialect) (cursor : Cursor) :
    (along (cursor.trail dialect)).length = cursor.rest.length + 1 := by
  fun_induction Cursor.trail dialect cursor with
  | case1 cursor hrest =>
      rw [hrest]
      rfl
  | case2 cursor b rest hrest ih =>
      obtain ⟨more, inner, hmore, hnext, -, hstretch, hinner, -⟩ :=
        exists_stretch dialect cursor b rest
      rw [← Cursor.trail_of_cons hrest, along_trail_of_cons hrest, hstretch, hrest,
        List.length_append, ih, hnext]
      simp only [List.length_cons, List.length_drop, hinner]
      omega

theorem getLast?_along_trail
    (dialect : Dialect) (cursor : Cursor) :
    (along (cursor.trail dialect)).getLast? =
      (cursor.trail dialect).getLast?.map Cursor.span := by
  fun_induction Cursor.trail dialect cursor with
  | case1 cursor hrest =>
      rfl
  | case2 cursor b rest hrest ih =>
      obtain ⟨final, hfinal⟩ :=
        Cursor.exists_getLast?_trail dialect (cursor.step dialect b rest)
      rw [Cursor.getLast?_cons_trail, ← Cursor.trail_of_cons hrest, along_trail_of_cons hrest,
        List.getLast?_append, ih, hfinal]
      rfl

/-- The spans along a trail are code where the trail stops in code. -/
theorem getElem?_along_trail_iff
    (dialect : Dialect) (cursor : Cursor) (index : Nat) :
    (along (cursor.trail dialect))[index]? = some .code ↔
      ∃ stop ∈ cursor.trail dialect, stop.offset = cursor.offset + index ∧
        stop.span = .code := by
  fun_induction Cursor.trail dialect cursor generalizing index with
  | case1 cursor hrest =>
      cases index with
      | zero => simp [along]
      | succ index => simp [along]
  | case2 cursor b rest hrest ih =>
      obtain ⟨more, inner, -, -, hoffset, hstretch, hinner, hliteral⟩ :=
        exists_stretch dialect cursor b rest
      rw [← Cursor.trail_of_cons hrest, along_trail_of_cons hrest, hstretch,
        Cursor.trail_of_cons hrest, List.exists_mem_cons_iff]
      cases index with
      | zero =>
          have hlater : ¬ ∃ stop ∈ (cursor.step dialect b rest).trail dialect,
              stop.offset = cursor.offset + 0 ∧ stop.span = .code := by
            rintro ⟨stop, hstop, hhere, -⟩
            have hle := Cursor.le_of_mem_trail hstop
            omega
          rw [or_iff_left hlater]
          simp
      | succ index =>
          have hother : ¬ (cursor.offset = cursor.offset + (index + 1) ∧ cursor.span = .code) := by
            omega
          rw [or_iff_right hother, List.cons_append, List.getElem?_cons_succ]
          rcases Nat.lt_or_ge index more with hlt | hge
          · -- The byte belongs to a delimiter or an escape.
            rw [List.getElem?_append_left (by omega)]
            constructor
            · intro hget
              exact absurd (List.mem_of_getElem? hget) hliteral
            · rintro ⟨stop, hstop, hhere, -⟩
              have hle := Cursor.le_of_mem_trail hstop
              omega
          · rw [List.getElem?_append_right (by omega), hinner, ih (index - more), hoffset]
            have hsame : cursor.offset + more + 1 + (index - more) =
                cursor.offset + (index + 1) := by
              omega
            rw [hsame]

/-- The spans along a trail are at each stop the span of the stop. -/
theorem getElem?_along_trail_of_mem
    {stop : Cursor}
    (hstop : stop ∈ cursor.trail dialect) :
    (along (cursor.trail dialect))[stop.offset - cursor.offset]? = some stop.span := by
  fun_induction Cursor.trail dialect cursor with
  | case1 cursor hrest =>
      obtain rfl := List.mem_singleton.1 hstop
      rw [Nat.sub_self]
      rfl
  | case2 cursor b rest hrest ih =>
      obtain ⟨more, inner, -, -, hoffset, hstretch, hinner, -⟩ :=
        exists_stretch dialect cursor b rest
      rw [← Cursor.trail_of_cons hrest, along_trail_of_cons hrest, hstretch]
      rcases List.mem_cons.1 hstop with rfl | hstop
      · rw [Nat.sub_self]
        rfl
      · have hle := Cursor.le_of_mem_trail hstop
        have hindex : stop.offset - cursor.offset =
            stop.offset - (cursor.step dialect b rest).offset + (more + 1) := by
          omega
        rw [hindex, List.getElem?_append_right (by rw [List.length_cons]; omega),
          List.length_cons, hinner, Nat.add_sub_cancel]
        exact ih hstop

theorem length_spans_ofLine
    (dialect : Dialect) (line : Bytes) :
    (ofLine dialect line).spans.length = line.length + 1 := by
  exact length_along_trail dialect (Cursor.start line)

/-- At a stop of the cursor the table tells its span. -/
theorem spanAt_of_mem_trail
    {line : Bytes} {stop : Cursor}
    (hstop : stop ∈ (Cursor.start line).trail dialect) :
    (ofLine dialect line).spanAt stop.offset = stop.span := by
  rw [spanAt, ofLine]
  exact congrArg (Option.getD · _) (getElem?_along_trail_of_mem hstop)

/-- From its last entry on a table tells what is open at the end. -/
theorem spanAt_of_le
    {table : SpanTable} {offset : Nat}
    (hle : table.spans.length ≤ offset + 1) :
    table.spanAt offset = table.atEnd := by
  rw [spanAt]
  rcases Nat.eq_or_lt_of_le hle with hlast | hbehind
  · rw [atEnd, List.getLast?_eq_getElem?, hlast, Nat.add_sub_cancel]
    cases (table.spans)[offset]? <;> rfl
  · rw [List.getElem?_eq_none (by omega), Option.getD_none]

/-- A byte of a line is code in the table if a cursor stops at it in code. -/
theorem isCode_ofLine_iff
    (dialect : Dialect) (line : Bytes) {offset : Nat}
    (hoffset : offset ≤ line.length) :
    (ofLine dialect line).isCode offset = true ↔
      ∃ stop ∈ (Cursor.start line).trail dialect, stop.offset = offset ∧ stop.span = .code := by
  have hlen : (along ((Cursor.start line).trail dialect)).length = line.length + 1 :=
    length_spans_ofLine dialect line
  have hiff := getElem?_along_trail_iff dialect (Cursor.start line) offset
  rw [show (Cursor.start line).offset + offset = offset from Nat.zero_add offset] at hiff
  rw [← hiff, isCode, beq_iff_eq, spanAt, ofLine]
  dsimp only
  rw [List.getElem?_eq_getElem (by omega), Option.getD_some, Option.some.injEq]

/-- What is open at the end of a line is the span of the last stop. -/
theorem atEnd_ofLine
    {dialect : Dialect} {line : Bytes} {final : Cursor}
    (hfinal : ((Cursor.start line).trail dialect).getLast? = some final) :
    (ofLine dialect line).atEnd = final.span := by
  rw [atEnd, ofLine, getLast?_along_trail, hfinal]
  rfl

end SpanTable
end Uncomment

import Mathlib.Data.List.Chain
import Uncomment.Proofs.Lexer.Table
import Uncomment.Proofs.Line.Around

/-!
# Scanning comes to an end

Two loops read a line.  The scanner goes from step to step and fills the span table; the
pruning of the line takes the same steps and jumps over block comments.

Each pass of either loop leads to the right within the line (`Cursor.Progresses`), so there
are no more of them than the line has bytes.  The scanner stops at the end of the line, and
the table it has filled tells for each byte what the cursor has read there
(`SpanTable.Records`).  The main statement is `Pruning.scanning_ends`.
-/

namespace Uncomment

namespace Cursor

/-- A step of a cursor, which it only takes before the end of its line. -/
inductive Steps (dialect : Dialect) : Cursor → Cursor → Prop
  | step {cursor : Cursor} {b : UInt8} {rest : Bytes} :
      cursor.rest = b :: rest →
      Steps dialect cursor (cursor.step dialect b rest)

/--
A relation that leads a cursor to the right within its line: at least one byte is read, and
none behind the end.  From the start of the line it is followed no more often than there are
bytes.
-/
structure Progresses (line : Bytes) (leads : Cursor → Cursor → Prop) : Prop where
  forward : ∀ cursor next, cursor.At line → leads cursor next →
    cursor.offset < next.offset ∧ next.At line
  bounded : ∀ stops, (start line :: stops).IsChain leads → stops.length ≤ line.length

variable {dialect : Dialect} {line : Bytes} {cursor : Cursor}

/-- Whatever leads to the right within a line comes to an end. -/
theorem progresses_of_forward
    {leads : Cursor → Cursor → Prop}
    (hforward : ∀ cursor next, cursor.At line → leads cursor next →
      cursor.offset < next.offset ∧ next.At line) :
    Progresses line leads := by
  have hchain (stops : List Cursor) : ∀ cursor, cursor.At line →
      (cursor :: stops).IsChain leads → cursor.offset + stops.length ≤ line.length := by
    induction stops with
    | nil =>
        exact fun cursor hat _ => hat.1
    | cons next stops ih =>
        intro cursor hat hchain
        obtain ⟨hlead, hlater⟩ := List.isChain_cons_cons.1 hchain
        obtain ⟨hlt, hnext⟩ := hforward cursor next hat hlead
        have hle := ih next hnext hlater
        rw [List.length_cons]
        omega
  refine ⟨hforward, fun stops hstops => ?_⟩
  have hle := hchain stops (start line) (at_start line) hstops
  rwa [show (start line).offset = 0 from rfl, Nat.zero_add] at hle

/-- A step leads to the right within the line. -/
theorem progresses_steps
    (dialect : Dialect) (line : Bytes) :
    Progresses line (Steps dialect) := by
  refine progresses_of_forward ?_
  rintro _ _ hat ⟨hrest⟩
  obtain ⟨more, hmore, hstep, hoffset⟩ := exists_step dialect _ _ _
  exact ⟨by omega, at_of_move hat hrest hmore hstep hoffset⟩

theorem isChain_trail
    (dialect : Dialect) (cursor : Cursor) :
    (cursor.trail dialect).IsChain (Steps dialect) := by
  fun_induction trail dialect cursor with
  | case1 cursor hrest =>
      exact .singleton cursor
  | case2 cursor b rest hrest ih =>
      obtain ⟨more, hmore⟩ := exists_trail_eq_cons dialect (cursor.step dialect b rest)
      rw [hmore] at ih ⊢
      exact .cons_cons (.step hrest) ih

theorem rest_eq_nil_of_getLast?
    {final : Cursor}
    (hfinal : (cursor.trail dialect).getLast? = some final) :
    final.rest = [] := by
  fun_induction trail dialect cursor with
  | case1 cursor hrest =>
      cases hfinal
      exact hrest
  | case2 cursor b rest hrest ih =>
      rw [getLast?_cons_trail] at hfinal
      exact ih hfinal

end Cursor

namespace SpanTable

/--
A table that tells for each byte of a line what a cursor with the given stops has read there:
whether it has stopped there in code, the span in which it has stopped, and from the end of
the line on the span in which it is left.
-/
structure Records (table : SpanTable) (line : Bytes) (stops : List Cursor) : Prop where
  length_spans : table.spans.length = line.length + 1
  isCode_iff : ∀ offset < line.length,
    (table.isCode offset = true ↔ ∃ stop ∈ stops, stop.offset = offset ∧ stop.span = .code)
  spanAt_stop : ∀ stop ∈ stops, table.spanAt stop.offset = stop.span
  exists_final : ∃ final, stops.getLast? = some final ∧ final.offset = line.length ∧
    table.atEnd = final.span ∧ ∀ offset, line.length ≤ offset → table.spanAt offset = final.span

/-- The table of a line records the trail of its cursor. -/
theorem records_ofLine
    (dialect : Dialect) (line : Bytes) :
    (ofLine dialect line).Records line ((Cursor.start line).trail dialect) := by
  have hlength := length_spans_ofLine dialect line
  obtain ⟨final, hfinal⟩ := Cursor.exists_getLast?_trail dialect (Cursor.start line)
  have hat := Cursor.at_of_mem_trail (Cursor.at_start line) (List.mem_of_getLast? hfinal)
  have hend : line.length ≤ final.offset := by
    rw [← List.drop_eq_nil_iff, ← hat.2]
    exact Cursor.rest_eq_nil_of_getLast? hfinal
  have hopen := atEnd_ofLine hfinal
  exact {
    length_spans := hlength
    isCode_iff := fun offset hlt => isCode_ofLine_iff dialect line (Nat.le_of_lt hlt)
    spanAt_stop := fun stop hstop => spanAt_of_mem_trail hstop
    exists_final := by
      refine ⟨final, hfinal, Nat.le_antisymm hat.1 hend, hopen, fun offset hle => ?_⟩
      rw [spanAt_of_le (by omega), hopen] }

end SpanTable

namespace Pruning

variable {language : Language} {facts : LineFacts}

/--
A pass with which the pruning of a line goes on: a step is kept where no comment starts, or a
block comment that ends is left out, if the line can be cut where this is done.
-/
inductive Pass (language : Language) (facts : LineFacts) : Cursor → Cursor → Prop
  | keep {cursor : Cursor} {b : UInt8} {rest : Bytes} :
      cursor.rest = b :: rest →
      commentAt? language facts cursor = .ok none →
      Pass language facts cursor (cursor.step language.dialect b rest)
  | leaveOut {cursor next : Cursor} {b : UInt8} {rest start stop : Bytes} {found : Nat} :
      cursor.rest = b :: rest →
      commentAt? language facts cursor = .ok (some (.block start stop)) →
      Bytes.find? stop (cursor.rest.drop start.length) = some found →
      next = cursor.resume b rest (start.length + found + stop.length - 1) →
      (∀ text ∈ [cursor.rest, cursor.rest.drop start.length, next.rest],
        Utf8.checkClean text = .ok ()) →
      Pass language facts cursor next

/-- Every pass leads to the right within the line. -/
theorem progresses_pass
    (language : Language) (facts : LineFacts) (line : Bytes) :
    Cursor.Progresses line (Pass language facts) := by
  refine Cursor.progresses_of_forward fun cursor next hat hpass => ?_
  cases hpass with
  | keep hrest _ =>
      exact (Cursor.progresses_steps language.dialect line).forward _ _ hat (.step hrest)
  | leaveOut hrest hrule hfind hnext _ =>
      subst hnext
      obtain ⟨hpos, hle⟩ := width_of_find? hrule hfind
      obtain ⟨hafter, hoffset⟩ := Reading.at_resume hat hrest hpos hle
      exact ⟨by omega, hafter⟩

/-- Where a block comment starts, the one pass leaves it out. -/
theorem pass_iff_of_block
    {cursor next : Cursor} {b : UInt8} {rest start stop : Bytes}
    (hrest : cursor.rest = b :: rest)
    (hrule : commentAt? language facts cursor = .ok (some (.block start stop))) :
    Pass language facts cursor next ↔
      ∃ found, Bytes.find? stop ((b :: rest).drop start.length) = some found ∧
        next = cursor.resume b rest (start.length + found + stop.length - 1) ∧
        ∀ text ∈ [b :: rest, (b :: rest).drop start.length, next.rest],
          Utf8.checkClean text = .ok () := by
  rw [← hrest]
  constructor
  · rintro (⟨-, hnone⟩ | ⟨hrest', hrule', hfind, hnext, hclean⟩)
    · rw [hrule] at hnone
      cases hnone
    · rw [hrest] at hrest'
      rw [hrule] at hrule'
      cases hrest'
      cases hrule'
      exact ⟨_, hfind, hnext, hclean⟩
  · rintro ⟨found, hfind, hnext, hclean⟩
    exact .leaveOut hrest hrule hfind hnext hclean

/--
What pruning comes to at a cursor where it ends: no pass leads on from there, and unless
pruning stumbles, just what has been kept so far is left.
-/
structure EndsWith
    (language : Language)
    (facts : LineFacts)
    (cursor : Cursor)
    (kept : Bytes)
    (result : Except Fault Pruning) : Prop where
  not_pass : ∀ next, ¬ Pass language facts cursor next
  text_eq : ∀ pruning, result = .ok pruning → pruning.text = kept.reverse

/-- From a cursor pruning goes on with a pass, or it ends. -/
theorem fromCursor_cases
    (language : Language) (facts : LineFacts) (cursor : Cursor) (kept : Bytes)
    (removals : List Removal) :
    (∃ next kept' removals', Pass language facts cursor next ∧
      fromCursor language facts cursor kept removals =
        fromCursor language facts next kept' removals') ∨
    EndsWith language facts cursor kept (fromCursor language facts cursor kept removals) := by
  fun_cases fromCursor language facts cursor kept removals with
  | case1 hrest =>
      refine Or.inr ⟨?_, by rintro _ ⟨⟩; rfl⟩
      rintro _ (⟨hrest', -⟩ | ⟨hrest', -, -, -, -⟩) <;>
        simp [hrest] at hrest'
  | case2 b rest hrest fault hfault =>
      refine Or.inr ⟨?_, nofun⟩
      rintro _ (⟨-, hrule⟩ | ⟨-, hrule, -, -, -⟩) <;>
        simp [hfault] at hrule
  | case3 b rest hrest hnone =>
      exact Or.inl ⟨_, _, _, .keep hrest hnone, rfl⟩
  | case4 b rest hrest rule hrule fault hfault =>
      refine Or.inr ⟨?_, nofun⟩
      rintro _ (⟨-, hnone⟩ | ⟨-, -, -, -, hclean⟩)
      · simp [hrule] at hnone
      · simp [hrest, hfault] at hclean
  | case5 b rest hrest hclean start hrule =>
      refine Or.inr ⟨?_, by rintro _ ⟨⟩; rfl⟩
      rintro _ (⟨-, hrule'⟩ | ⟨-, hrule', -, -, -⟩) <;>
        simp [hrule] at hrule'
  | case6 b rest hrest hclean start stop body fault hfault hrule =>
      refine Or.inr ⟨fun next hpass => ?_, nofun⟩
      obtain ⟨found, -, -, hclean'⟩ := (pass_iff_of_block hrest hrule).1 hpass
      have hbody : Utf8.checkClean body = .ok () := hclean' _ (by simp [body])
      simp [hfault] at hbody
  | case7 b rest hrest hclean start stop body hbody hfind hrule =>
      refine Or.inr ⟨fun next hpass => ?_, by rintro _ ⟨⟩; rfl⟩
      obtain ⟨found, hfound, -, -⟩ := (pass_iff_of_block hrest hrule).1 hpass
      simp [body, hfound] at hfind
  | case8 b rest hrest hclean start stop body hbody found hfind width after fault hfault hrule =>
      refine Or.inr ⟨fun next hpass => ?_, nofun⟩
      obtain ⟨found', hfound, rfl, hclean'⟩ := (pass_iff_of_block hrest hrule).1 hpass
      cases hfind.symm.trans hfound
      have hafter : Utf8.checkClean after.rest = .ok () := hclean' _ (by simp [after, width])
      simp [hfault] at hafter
  | case9 b rest hrest hclean start stop body hbody found hfind width after hafter gap hrule =>
      refine Or.inl ⟨_, _, _, (pass_iff_of_block hrest hrule).2 ⟨found, hfind, rfl, ?_⟩, rfl⟩
      simpa using ⟨hclean, hbody, hafter⟩

/-- The passes with which a line is pruned from a cursor on, up to where pruning ends. -/
inductive Run (language : Language) (facts : LineFacts) :
    Cursor → Bytes → List Removal → List Cursor → Prop
  | stop {cursor : Cursor} {kept : Bytes} {removals : List Removal} :
      EndsWith language facts cursor kept (fromCursor language facts cursor kept removals) →
      Run language facts cursor kept removals []
  | pass {cursor next : Cursor} {kept kept' : Bytes} {removals removals' : List Removal}
      {stops : List Cursor} :
      Pass language facts cursor next →
      fromCursor language facts cursor kept removals =
        fromCursor language facts next kept' removals' →
      Run language facts next kept' removals' stops →
      Run language facts cursor kept removals (next :: stops)

theorem Run.isChain
    {cursor : Cursor} {kept : Bytes} {removals : List Removal} {stops : List Cursor}
    (hrun : Run language facts cursor kept removals stops) :
    (cursor :: stops).IsChain (Pass language facts) := by
  induction hrun with
  | stop _ =>
      exact .singleton _
  | pass hpass _ _ ih =>
      exact .cons_cons hpass ih

/-- Within a line every run comes to an end. -/
theorem exists_run
    {line : Bytes} {cursor : Cursor}
    (hat : cursor.At line) (kept : Bytes) (removals : List Removal) :
    ∃ stops, Run language facts cursor kept removals stops := by
  -- What is left of the line behind the cursor gets shorter with each pass.
  induction hleft : line.length - cursor.offset using Nat.strong_induction_on
    generalizing cursor kept removals with
  | _ left ih =>
      obtain ⟨next, kept', removals', hpass, heq⟩ | hends :=
        fromCursor_cases language facts cursor kept removals
      · obtain ⟨hlt, hnext⟩ := (progresses_pass language facts line).forward _ _ hat hpass
        have hle := hnext.1
        obtain ⟨stops, hrun⟩ :=
          ih (line.length - next.offset) (by omega) hnext kept' removals' rfl
        exact ⟨next :: stops, .pass hpass heq hrun⟩
      · exact ⟨[], .stop hends⟩

/--
The scanner steps from the start of a line to its end, and the pruning of the line passes
from the start to where it ends.  Both get ahead by at least one byte each time and never
past the end, so neither goes on for longer than there are bytes.  The span table has one
span more than the line has bytes, and it tells where the scanner has stopped in code, in
which span it has stopped, and in which span it is left.
-/
theorem scanning_ends
    (dialect : Dialect) (line : Bytes) :
    (Cursor.Progresses line (Cursor.Steps dialect) ∧
      ((Cursor.start line).trail dialect).IsChain (Cursor.Steps dialect)) ∧
    (∀ language,
      Cursor.Progresses line (Pass language (LineFacts.ofLine line)) ∧
      ∃ stops, Run language (LineFacts.ofLine line) (Cursor.start line) [] [] stops ∧
        stops.length ≤ line.length) ∧
    (SpanTable.ofLine dialect line).Records line ((Cursor.start line).trail dialect) := by
  refine ⟨⟨Cursor.progresses_steps dialect line, Cursor.isChain_trail dialect _⟩,
    fun language => ?_, SpanTable.records_ofLine dialect line⟩
  have hpass := progresses_pass language (LineFacts.ofLine line) line
  obtain ⟨stops, hrun⟩ := exists_run (Cursor.at_start line) [] []
  exact ⟨hpass, stops, hrun, hpass.bounded stops hrun.isChain⟩

end Pruning
end Uncomment

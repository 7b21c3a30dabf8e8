import Uncomment.Line.Pruning
import Uncomment.Proofs.Lexer.Step
import Uncomment.Proofs.Text.Search

/-!
# Readings

`Pruning.fromCursor` removes comments with accumulators and checks.  A
`Pruning.Reading` says the same as a derivation: from where a cursor stands, with
the last byte put out so far, a certain pruning of the unread bytes comes about.
Four things can happen at an unread byte, and later proofs about pruned lines go
by cases on them:

* no comment starts, and one step is read and kept (`step`);
* a line comment starts, and the rest goes away (`cutLine`);
* a block comment starts that does not stop in the line (`cutBlock`);
* a block comment is spliced out, and reading goes on behind it (`splice`).

The main statement is `Pruning.exists_reading`: every pruning that is computed has a
reading.  Where no comment starts at any stop of the trail nothing is removed
(`Pruning.fromCursor_of_trail`).
-/

namespace Uncomment
namespace Pruning

/-- No rule applies exactly if every rule whose start token is there is kept. -/
theorem firstRule?_eq_none_iff
    {language : Language} {facts : LineFacts} {offset : Nat} {rest : Bytes}
    {rules : List Rule} :
    firstRule? language facts offset rest rules = .ok none ↔
      ∀ rule ∈ rules, rule.start <+: rest →
        Veto.keeps language facts offset rule.start = .ok true := by
  induction rules with
  | nil =>
      simp [firstRule?]
  | cons rule more ih =>
      rw [firstRule?]
      by_cases hpre : rule.start <+: rest
      · rw [if_pos (List.isPrefixOf_iff_prefix.2 hpre)]
        cases hkeeps : Veto.keeps language facts offset rule.start with
        | error fault => simp [hkeeps, hpre]
        | ok kept => cases kept <;> simp [hkeeps, hpre, ih]
      · rw [if_neg (by rwa [List.isPrefixOf_iff_prefix]), ih]
        simp [hpre]

/-- The rule that applies is the first one whose start token is there and is not kept. -/
theorem exists_of_firstRule?_eq_some
    {language : Language} {facts : LineFacts} {offset : Nat} {rest : Bytes}
    {rules : List Rule} {rule : Rule}
    (h : firstRule? language facts offset rest rules = .ok (some rule)) :
    ∃ earlier later, rules = earlier ++ rule :: later ∧
      rule.start <+: rest ∧
      Veto.keeps language facts offset rule.start = .ok false ∧
      ∀ other ∈ earlier, other.start <+: rest →
        Veto.keeps language facts offset other.start = .ok true := by
  induction rules with
  | nil =>
      simp [firstRule?] at h
  | cons first more ih =>
      rw [firstRule?] at h
      -- A first rule that is passed over joins the earlier ones.
      have hskip
          (hrest : firstRule? language facts offset rest more = .ok (some rule))
          (hfirst : first.start <+: rest →
            Veto.keeps language facts offset first.start = .ok true) :
          ∃ earlier later, first :: more = earlier ++ rule :: later ∧
            rule.start <+: rest ∧
            Veto.keeps language facts offset rule.start = .ok false ∧
            ∀ other ∈ earlier, other.start <+: rest →
              Veto.keeps language facts offset other.start = .ok true := by
        obtain ⟨earlier, later, hrules, hpre, hkeeps, hearlier⟩ := ih hrest
        refine ⟨first :: earlier, later, by rw [hrules]; rfl, hpre, hkeeps, ?_⟩
        intro other hother
        rcases List.mem_cons.1 hother with rfl | hother
        · exact hfirst
        · exact hearlier other hother
      split at h
      · next hpre =>
          rw [List.isPrefixOf_iff_prefix] at hpre
          split at h
          · cases h
          · next hkeeps => exact hskip h fun _ => hkeeps
          · next hkeeps =>
              cases h
              exact ⟨[], more, rfl, hpre, hkeeps, by simp⟩
      · next hpre =>
          rw [List.isPrefixOf_iff_prefix] at hpre
          exact hskip h fun hstart => absurd hstart hpre

theorem span_eq_code_of_commentAt?
    {language : Language} {facts : LineFacts} {cursor : Cursor} {rule : Rule}
    (h : commentAt? language facts cursor = .ok (some rule)) :
    cursor.span = .code := by
  unfold commentAt? at h
  split at h
  · next hcode => exact hcode
  · cases h

/-- The comment that starts at a cursor follows a rule of the language. -/
theorem mem_rules_of_commentAt?
    {language : Language} {facts : LineFacts} {cursor : Cursor} {rule : Rule}
    (h : commentAt? language facts cursor = .ok (some rule)) :
    rule ∈ language.rules ∧ rule.start <+: cursor.rest := by
  rw [commentAt?, if_pos (span_eq_code_of_commentAt? h)] at h
  obtain ⟨earlier, later, hrules, hpre, -⟩ := exists_of_firstRule?_eq_some h
  exact ⟨by simp [hrules], hpre⟩

theorem width_of_find?
    {language : Language} {facts : LineFacts} {cursor : Cursor} {start stop : Bytes} {found : Nat}
    (hrule : commentAt? language facts cursor = .ok (some (.block start stop)))
    (hfind : Bytes.find? stop (cursor.rest.drop start.length) = some found) :
    0 < start.length + found + stop.length ∧
      start.length + found + stop.length ≤ cursor.rest.length := by
  obtain ⟨hmem, hstart⟩ := mem_rules_of_commentAt? hrule
  have hpos : 0 < start.length := List.length_pos_iff.2 (Language.start_ne_nil hmem)
  have hle : start.length ≤ cursor.rest.length := hstart.length_le
  have hlen := Bytes.find?_add_length_le hfind
  rw [List.length_drop] at hlen
  omega

/--
What comes about from where a cursor stands, the last byte put out being given:
the text that is kept of the unread bytes, the removals among them, and the mode.
-/
inductive Reading
    (language : Language)
    (facts : LineFacts) :
    Cursor → Option UInt8 → Pruning → Prop
  | done {cursor : Cursor} {last : Option UInt8} :
      cursor.rest = [] →
      Reading language facts cursor last
        ⟨[], [], .ofSpan language.dialect cursor.span⟩
  | step {cursor : Cursor} {last : Option UInt8} {b : UInt8} {rest : Bytes} {more : Nat}
      {left : Pruning} :
      cursor.rest = b :: rest →
      commentAt? language facts cursor = .ok none →
      more ≤ rest.length →
      (cursor.step language.dialect b rest).rest = rest.drop more →
      (cursor.step language.dialect b rest).offset = cursor.offset + more + 1 →
      Reading language facts (cursor.step language.dialect b rest)
        (some (Cursor.lastOf b rest more)) left →
      Reading language facts cursor last
        ⟨b :: rest.take more ++ left.text, left.removals, left.mode⟩
  | cutLine {cursor : Cursor} {last : Option UInt8} {start : Bytes} :
      commentAt? language facts cursor = .ok (some (.line start)) →
      Reading language facts cursor last ⟨[], [.toEnd cursor (.line start)], .normal⟩
  | cutBlock {cursor : Cursor} {last : Option UInt8} {start stop : Bytes} :
      commentAt? language facts cursor = .ok (some (.block start stop)) →
      Bytes.find? stop (cursor.rest.drop start.length) = none →
      Reading language facts cursor last
        ⟨[], [.toEnd cursor (.block start stop)], .blockComment stop⟩
  | splice {cursor : Cursor} {last : Option UInt8} {b : UInt8} {rest start stop : Bytes}
      {found width : Nat} {gap : Bool} {left : Pruning} :
      cursor.rest = b :: rest →
      commentAt? language facts cursor = .ok (some (.block start stop)) →
      Bytes.find? stop (cursor.rest.drop start.length) = some found →
      width = start.length + found + stop.length →
      0 < width →
      width ≤ cursor.rest.length →
      Utf8.startsClean (cursor.resume b rest (width - 1)).rest = true →
      gap = fuses language last (cursor.resume b rest (width - 1)).rest.head? →
      Reading language facts (cursor.resume b rest (width - 1))
        (if gap then some Byte.space else last) left →
      Reading language facts cursor last
        ⟨(if gap then [Byte.space] else []) ++ left.text,
          ⟨cursor.offset, cursor.offset + width, .block start stop, gap⟩ :: left.removals,
          left.mode⟩

/-- Every pruning that is computed from a cursor on has a reading. -/
theorem exists_reading
    {language : Language} {facts : LineFacts} {cursor : Cursor} {kept : Bytes}
    {removals : List Removal} {result : Pruning}
    (h : fromCursor language facts cursor kept removals = .ok result) :
    ∃ left, Reading language facts cursor kept.head? left ∧
      result = ⟨kept.reverse ++ left.text, removals.reverse ++ left.removals, left.mode⟩ := by
  fun_induction fromCursor language facts cursor kept removals with
  | case1 cursor kept removals hrest =>
      cases h
      exact ⟨_, .done hrest, by simp⟩
  | case2 | case4 | case6 | case8 =>
      cases h
  | case3 cursor kept removals b rest hrest hnone next read ih =>
      obtain ⟨more, hmore, hstep, hoffset⟩ :=
        Cursor.exists_step language.dialect cursor b rest
      have hread : read = b :: rest.take more := by
        have hwidth : next.offset - cursor.offset = more + 1 := by
          rw [hoffset]
          omega
        rw [show read = (b :: rest).take (next.offset - cursor.offset) from rfl, hwidth,
          List.take_succ_cons]
      have hlast : (read.reverse ++ kept).head? = some (Cursor.lastOf b rest more) := by
        rw [hread, Cursor.lastOf]
        cases htake : (rest.take more).getLast? <;>
          simp [List.head?_append, htake]
      obtain ⟨left, hleft, rfl⟩ := ih h
      rw [hlast] at hleft
      refine ⟨_, .step hrest hnone hmore hstep hoffset hleft, ?_⟩
      simp [hread]
  | case5 cursor kept removals b rest hrest hclean start hrule =>
      cases h
      exact ⟨_, .cutLine hrule, by simp⟩
  | case7 cursor kept removals b rest hrest hclean start stop body hbody hfind hrule =>
      cases h
      rw [show body = cursor.rest.drop start.length by rw [hrest]] at hfind
      exact ⟨_, .cutBlock hrule hfind, by simp⟩
  | case9 cursor kept removals b rest hrest hclean start stop body hbody found hfind width
      next hnext gap hrule removal ih =>
      simp only [dite_eq_ite] at ih
      obtain ⟨left, hleft, rfl⟩ := ih h
      rw [show body = cursor.rest.drop start.length by rw [hrest]] at hfind
      have hclean' : Utf8.startsClean next.rest = true := by
        unfold Utf8.checkClean at hnext
        split at hnext
        · assumption
        · cases hnext
      have hlast : (if gap then Byte.space :: kept else kept).head? =
          if gap then some Byte.space else kept.head? := by
        split <;> rfl
      rw [hlast] at hleft
      obtain ⟨hpos, hwidth⟩ := width_of_find? hrule hfind
      have hreading : Reading language facts cursor kept.head?
          ⟨(if gap then [Byte.space] else []) ++ left.text, removal :: left.removals, left.mode⟩ :=
        .splice hrest hrule hfind rfl hpos hwidth hclean' rfl hleft
      refine ⟨_, hreading, ?_⟩
      have htext : (if gap then Byte.space :: kept else kept).reverse =
          kept.reverse ++ if gap then [Byte.space] else [] := by
        split <;> simp
      simp [htext]

/-- Every pruning of a line has a reading from its start. -/
theorem reading_of_ofLine
    {language : Language} {line : Bytes} {result : Pruning}
    (h : ofLine language line = .ok result) :
    Reading language (LineFacts.ofLine line) (Cursor.start line) none result := by
  obtain ⟨left, hleft, rfl⟩ := exists_reading h
  simpa using hleft

/-- A comment starts at no stop where every start token is kept. -/
theorem commentAt?_eq_none
    {language : Language} {facts : LineFacts} {cursor : Cursor}
    (h : cursor.span = .code → ∀ rule ∈ language.rules, rule.start <+: cursor.rest →
      Veto.keeps language facts cursor.offset rule.start = .ok true) :
    commentAt? language facts cursor = .ok none := by
  rw [commentAt?]
  split
  · next hcode => exact firstRule?_eq_none_iff.2 (h hcode)
  · rfl

/-- Where no comment starts at any stop of a cursor the unread bytes are kept. -/
theorem fromCursor_of_trail
    {language : Language} {facts : LineFacts} {cursor final : Cursor}
    (hnone : ∀ stop ∈ cursor.trail language.dialect, commentAt? language facts stop = .ok none)
    (hfinal : (cursor.trail language.dialect).getLast? = some final)
    (kept : Bytes) (removals : List Removal) :
    fromCursor language facts cursor kept removals =
      .ok ⟨kept.reverse ++ cursor.rest, removals.reverse,
        .ofSpan language.dialect final.span⟩ := by
  have hhere := hnone cursor Cursor.mem_trail_self
  fun_induction fromCursor language facts cursor kept removals with
  | case1 cursor kept removals hrest =>
      rw [Cursor.trail_of_nil hrest, List.getLast?_singleton, Option.some.injEq] at hfinal
      rw [hrest, List.append_nil, hfinal]
  | case3 cursor kept removals b rest hrest _ next read ih =>
      rw [Cursor.trail_of_cons hrest] at hnone hfinal
      rw [Cursor.getLast?_cons_trail] at hfinal
      have hnext := (List.forall_mem_cons.1 hnone).2
      obtain ⟨more, -, hstep, hoffset⟩ := Cursor.exists_step language.dialect cursor b rest
      have hread : read = b :: rest.take more := by
        simp only [read, next, hoffset]
        rw [show cursor.offset + more + 1 - cursor.offset = more + 1 by omega, List.take_succ_cons]
      rw [ih hnext hfinal (hnext next Cursor.mem_trail_self),
        show next.rest = rest.drop more from hstep, hread, hrest]
      simp
  | case2 | case4 | case5 | case6 | case7 | case8 | case9 =>
      simp_all

end Pruning
end Uncomment

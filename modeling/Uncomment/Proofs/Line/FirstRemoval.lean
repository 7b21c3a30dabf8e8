import Mathlib.Order.Bounds.Basic
import Uncomment.Proofs.Lexer.Table
import Uncomment.Proofs.Line.Exactness
import Uncomment.Proofs.Line.Settled

/-!
# The first comment of a line

`Veto.isProtected` answers for any offset of a line, from its span table.  A pruning asks
only where its cursor stops.  Up to the first comment the two agree: that comment starts
at the least offset at which a start token is not protected, and if there is none the line
stays as it is (`Pruning.first_removal_isLeast`).

Up to there the cursor of the pruning takes the same steps as the cursor that fills the
table, which knows nothing about comments (`Pruning.Reading.IsFirst`).
-/

namespace Uncomment
namespace Pruning

/-- A start token that begins at an offset of a line and is not protected there. -/
def Exposed (language : Language) (line : Bytes) (offset : Nat) (rule : Rule) : Prop :=
  rule.start <+: line.drop offset ∧
    Veto.isProtected language line offset rule.start = .ok false

/-- The first rule of a language whose start token is exposed at an offset. -/
def FirstExposed (language : Language) (line : Bytes) (offset : Nat) (rule : Rule) : Prop :=
  ∃ earlier later, language.rules = earlier ++ rule :: later ∧
    Exposed language line offset rule ∧
    ∀ other ∈ earlier, ¬ Exposed language line offset other

variable {language : Language} {line : Bytes}

/-- A start token is exposed if a cursor stops at it in code and the vetoes do not keep it. -/
theorem exposed_iff
    {offset : Nat} {rule : Rule}
    (hrule : rule ∈ language.rules) :
    Exposed language line offset rule ↔
      rule.start <+: line.drop offset ∧
        (∃ stop ∈ (Cursor.start line).trail language.dialect,
          stop.offset = offset ∧ stop.span = .code) ∧
        Veto.keeps language (LineFacts.ofLine line) offset rule.start = .ok false := by
  refine and_congr_right fun hstart => ?_
  have hoffset : offset ≤ line.length := by
    have hle := Veto.Site.le_of_isPrefix_drop (Language.start_ne_nil hrule) hstart
    omega
  rw [← SpanTable.isCode_ofLine_iff language.dialect line hoffset, Veto.isProtected]
  split
  · next hcode =>
      exact (and_iff_right hcode).symm
  · next hcode =>
      constructor
      · intro h
        cases h
      · rintro ⟨h, -⟩
        exact absurd h hcode

theorem not_exposed_of_commentAt?
    {offset : Nat} {rule : Rule}
    (hrule : rule ∈ language.rules)
    (hnone : ∀ stop ∈ (Cursor.start line).trail language.dialect, stop.offset = offset →
      commentAt? language (LineFacts.ofLine line) stop = .ok none) :
    ¬ Exposed language line offset rule := by
  rw [exposed_iff hrule]
  rintro ⟨hstart, ⟨stop, hstop, rfl, hcode⟩, hkeeps⟩
  have hat := Cursor.at_of_mem_trail (Cursor.at_start line) hstop
  rw [← hat.2] at hstart
  rw [keeps_of_commentAt? (hnone stop hstop rfl) hcode hrule hstart] at hkeeps
  cases hkeeps

/-- The rule of the comment at a stop is the first one that is exposed there. -/
theorem firstExposed_of_commentAt?
    {stop : Cursor} {rule : Rule}
    (hstop : stop ∈ (Cursor.start line).trail language.dialect)
    (h : commentAt? language (LineFacts.ofLine line) stop = .ok (some rule)) :
    FirstExposed language line stop.offset rule := by
  have hat := Cursor.at_of_mem_trail (Cursor.at_start line) hstop
  have hcode := span_eq_code_of_commentAt? h
  obtain ⟨earlier, later, hrules, hstart, hkeeps, hearlier⟩ := applies_of_commentAt? hat h
  refine ⟨earlier, later, hrules, ?_, fun other hother hexposed => ?_⟩
  · exact (exposed_iff (by simp [hrules])).2 ⟨hstart, ⟨stop, hstop, rfl, hcode⟩, hkeeps⟩
  · have hmem : other ∈ language.rules := by
      rw [hrules]
      exact List.mem_append_left _ hother
    obtain ⟨hstart', -, hkeeps'⟩ := (exposed_iff hmem).1 hexposed
    rw [hearlier other hother hstart'] at hkeeps'
    cases hkeeps'

namespace Reading

variable {facts : LineFacts} {cursor : Cursor} {last : Option UInt8} {left : Pruning}

theorem commentAt?_of_rest_nil
    (hrest : cursor.rest = []) :
    commentAt? language facts cursor = .ok none := by
  refine commentAt?_eq_none fun _ rule hrule hstart => ?_
  rw [hrest, List.prefix_nil] at hstart
  exact absurd hstart (Language.start_ne_nil hrule)

/-- A reading that removes nothing keeps all bytes and comes across no comment. -/
theorem eq_of_removals_nil
    (h : Reading language facts cursor last left)
    (hnil : left.removals = []) :
    left.text = cursor.rest ∧
      ∀ stop ∈ cursor.trail language.dialect, commentAt? language facts stop = .ok none := by
  induction h with
  | done hrest =>
      rw [Cursor.trail_of_nil hrest]
      exact ⟨hrest.symm, List.forall_mem_singleton.2 (commentAt?_of_rest_nil hrest)⟩
  | step hrest hnone hmore hstep _ _ ih =>
      obtain ⟨htext, hlater⟩ := ih hnil
      rw [Cursor.trail_of_cons hrest, List.forall_mem_cons]
      refine ⟨?_, hnone, hlater⟩
      dsimp only
      rw [htext, hstep, hrest, List.cons_append, List.take_append_drop]
  | cutLine | cutBlock | splice =>
      cases hnil

/--
A stop of the trail at which the first comment of a reading starts: the stops before it have
none, the bytes up to it are kept, and from there on the reading goes on.
-/
structure IsFirst
    (language : Language)
    (facts : LineFacts)
    (line : Bytes)
    (cursor : Cursor)
    (last : Option UInt8)
    (left : Pruning)
    (removal : Removal)
    (stop : Cursor)
    (later : Pruning) : Prop where
  reached : stop ∈ cursor.trail language.dialect
  offset_eq : stop.offset = removal.start
  comment : commentAt? language facts stop = .ok (some removal.rule)
  earlier : ∀ other ∈ cursor.trail language.dialect, other.offset < removal.start →
    commentAt? language facts other = .ok none
  left_eq : left = ⟨(line.take removal.start).drop cursor.offset ++ later.text, later.removals,
    later.mode⟩
  onward : Reading language facts stop
    (((line.take removal.start).drop cursor.offset).getLast?.or last) later

/-- A reading that removes something has a first comment. -/
theorem exists_first
    {removal : Removal} {more : List Removal}
    (h : Reading language facts cursor last left)
    (hat : cursor.At line)
    (hremovals : left.removals = removal :: more) :
    ∃ stop later, IsFirst language facts line cursor last left removal stop later := by
  have hhere {here : Cursor} {last : Option UInt8} {left : Pruning}
      (hrule : commentAt? language facts here = .ok (some removal.rule))
      (hstart : here.offset = removal.start)
      (hleft : Reading language facts here last left) :
      IsFirst language facts line here last left removal here left := by
    have hnil : (line.take removal.start).drop here.offset = [] :=
      List.drop_eq_nil_of_le (by rw [List.length_take]; omega)
    refine ⟨Cursor.mem_trail_self, hstart, hrule, fun other hother hlt => ?_, ?_, ?_⟩
    · have hle := Cursor.le_of_mem_trail hother
      omega
    · rw [hnil]
      rfl
    · rwa [hnil]
  induction h with
  | done =>
      cases hremovals
  | @step cursor last b rest width left hrest hnone hmore hstep hoffset hleft ih =>
      have hnext := Cursor.at_of_move hat hrest hmore hstep hoffset
      obtain ⟨stop, later, hfirst⟩ := ih hnext hremovals
      have hbounds := hleft.within hnext removal (by rw [hremovals]; exact List.mem_cons_self)
      have hcut : (line.take removal.start).drop cursor.offset = b :: rest.take width ++
          (line.take removal.start).drop (cursor.step language.dialect b rest).offset := by
        have hsplit := @leave_of_le cursor.offset (cursor.step language.dialect b rest).offset []
          (line.take removal.start) (by omega) (by rw [List.length_take]; omega) (by simp)
        rwa [List.take_take, Nat.min_eq_left hbounds.1,
          take_drop_of_move hat hrest hoffset] at hsplit
      refine ⟨stop, later, ?_, hfirst.offset_eq, hfirst.comment, ?_, ?_, ?_⟩
      · rw [Cursor.trail_of_cons hrest]
        exact List.mem_cons_of_mem _ hfirst.reached
      · rw [Cursor.trail_of_cons hrest, List.forall_mem_cons]
        exact ⟨fun _ => hnone, hfirst.earlier⟩
      · rw [hfirst.left_eq, hcut, List.append_assoc]
      · have honward := hfirst.onward
        rwa [hcut, List.getLast?_append, Option.or_assoc, Cursor.getLast?_eq_lastOf,
          Option.some_or]
  | cutLine hrule =>
      cases hremovals
      exact ⟨_, _, hhere hrule rfl (.cutLine hrule)⟩
  | cutBlock hrule hfind =>
      cases hremovals
      exact ⟨_, _, hhere hrule rfl (.cutBlock hrule hfind)⟩
  | splice hrest hrule hfind hwidth hpos hle hclean hgap hleft =>
      cases hremovals
      exact ⟨_, _, hhere hrule rfl (.splice hrest hrule hfind hwidth hpos hle hclean hgap hleft)⟩

end Reading

/--
If a start token is exposed anywhere in a line, the first removal starts at the least
offset at which one is, and follows the first rule that is exposed there.  Otherwise
nothing is removed and the line stays as it is.
-/
theorem first_removal_isLeast
    {result : Pruning}
    (h : ofLine language line = .ok result) :
    (∀ offset, ∀ rule ∈ language.rules, Exposed language line offset rule →
      ∃ removal more, result.removals = removal :: more ∧
        IsLeast {least | ∃ rule ∈ language.rules, Exposed language line least rule}
          removal.start ∧
        FirstExposed language line removal.start removal.rule) ∧
    ((∀ offset, ∀ rule ∈ language.rules, ¬ Exposed language line offset rule) →
      result.removals = [] ∧ result.text = line) := by
  have hreading := reading_of_ofLine h
  cases hremovals : result.removals with
  | nil =>
      obtain ⟨htext, hnone⟩ := hreading.eq_of_removals_nil hremovals
      refine ⟨fun offset rule hrule hexposed => ?_, fun _ => ⟨rfl, htext⟩⟩
      exact absurd hexposed (not_exposed_of_commentAt? hrule fun stop hstop _ => hnone stop hstop)
  | cons removal more =>
      obtain ⟨stop, later, hstop⟩ := hreading.exists_first (Cursor.at_start line) hremovals
      have hfirst := firstExposed_of_commentAt? hstop.reached hstop.comment
      rw [hstop.offset_eq] at hfirst
      obtain ⟨earlier, later, hrules, hexposed, -⟩ := id hfirst
      have hmem : removal.rule ∈ language.rules := by
        simp [hrules]
      constructor
      · intro _ _ _ _
        refine ⟨removal, more, rfl, ⟨⟨_, hmem, hexposed⟩, ?_⟩, hfirst⟩
        rintro offset ⟨rule, hrule, hother⟩
        by_contra hlt
        refine not_exposed_of_commentAt? hrule (fun other hother hhere => ?_) hother
        exact hstop.earlier other hother (by omega)
      · intro hnone
        exact absurd hexposed (hnone _ _ hmem)

/-- The first comment of a line stands behind two slashes in a string. -/
theorem first_removal_isLeast_c :
    ofLine .c (Bytes.ofString "a(\"//\"); /* b */ c // d") =
        .ok ⟨Bytes.ofString "a(\"//\");  c ",
          [⟨9, 16, .ofBlock "/*" "*/", false⟩, ⟨19, 23, .ofLine "//", false⟩], .normal⟩ ∧
      Exposed .c (Bytes.ofString "a(\"//\"); /* b */ c // d") 19 (.ofLine "//") ∧
      IsLeast {least | ∃ rule ∈ Language.c.rules,
        Exposed .c (Bytes.ofString "a(\"//\"); /* b */ c // d") least rule} 9 ∧
      FirstExposed .c (Bytes.ofString "a(\"//\"); /* b */ c // d") 9 (.ofBlock "/*" "*/") := by
  have hresult : ofLine .c (Bytes.ofString "a(\"//\"); /* b */ c // d") =
      .ok ⟨Bytes.ofString "a(\"//\");  c ",
        [⟨9, 16, .ofBlock "/*" "*/", false⟩, ⟨19, 23, .ofLine "//", false⟩], .normal⟩ := by
    decide +kernel
  have hexposed :
      Exposed .c (Bytes.ofString "a(\"//\"); /* b */ c // d") 19 (.ofLine "//") :=
    ⟨by decide +kernel, by decide +kernel⟩
  obtain ⟨removal, more, hremovals, hleast, hfirst⟩ :=
    (first_removal_isLeast hresult).1 19 (.ofLine "//") (by decide) hexposed
  cases hremovals
  exact ⟨hresult, hexposed, hleast, hfirst⟩

end Pruning
end Uncomment

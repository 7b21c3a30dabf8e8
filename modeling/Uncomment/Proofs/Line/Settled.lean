import Uncomment.Proofs.Line.Rereading
import Uncomment.Proofs.Veto.Cut

/-!
# Languages whose pruned lines are settled

In a settled language a line that has been pruned is not pruned again, also if it
loses some blanks at its end (`Pruning.Settles`).  Two groups of languages are
settled:

* those without block comments, YAML apart (`Pruning.settles_of_isLine`): what is
  left of a line is its front part, and their vetoes look to the left;
* nine languages with block comments (`Pruning.settles_of_mem`) that have no veto, or
  one that only looks at the byte behind the token.
-/

namespace Uncomment

/-- The languages with block comments that settle. -/
def Language.settled : List Language :=
  [.powerShell, .julia, .coffeeScript, .hcl, .sql, .lua, .pascal, .matlab, .prolog]

namespace Pruning

/-- A pruned line, possibly without some blanks at its end, has nothing more to prune. -/
def Settles (language : Language) : Prop :=
  ∀ line second tail result,
    ofLine language line = .ok result →
    result.text = second ++ tail →
    (∀ b ∈ tail, Byte.isBlank b = true) →
    ofLine language second = .ok ⟨second, [], result.mode.uncommented⟩

/-- Two cursors at the start of a line and of what is left of it. -/
theorem aligned_start
    (language : Language) {line second tail text : Bytes}
    (htext : text = second ++ tail)
    (htail : ∀ b ∈ tail, Byte.isBlank b = true) :
    Aligned language line second (Cursor.start line) (Cursor.start second) none text :=
  { here := Cursor.at_start line
    there := Cursor.at_start second
    span_eq := rfl
    text_eq := ⟨tail, htail, htext⟩
    backslashes_eq := Or.inl rfl
    lastCode_eq := rfl
    last_eq := fun hlt => by cases hlt
    backslashes_of_literal := fun _ => rfl
    offset_le := Nat.le_refl _
    offset_eq := fun _ _ => rfl }

/-- A language settles if its vetoes keep again what they have kept. -/
theorem settles_of_keepsAgain
    {language : Language}
    (hlocal : language.dialect.IsLocal)
    (hhtml : language ≠ .html)
    (hmarkdown : language ≠ .markdown)
    (hkeeps : ∀ line second tail result, ofLine language line = .ok result →
      result.text = second ++ tail →
      (∀ b ∈ tail, Byte.isBlank b = true) →
      KeepsAgain language (LineFacts.ofLine line) line second) :
    Settles language := by
  intro line second tail result hresult htext htail
  have hagain := hkeeps line second tail result hresult htext htail
  have haligned := @aligned_start language line second tail result.text htext htail
  exact (reading_of_ofLine hresult).reread hlocal hhtml hmarkdown hagain haligned []

/-- At a stop where no comment starts every start token is kept. -/
theorem keeps_of_commentAt?
    {language : Language} {facts : LineFacts} {cursor : Cursor} {rule : Rule}
    (h : commentAt? language facts cursor = .ok none)
    (hcode : cursor.span = .code)
    (hrule : rule ∈ language.rules)
    (hstart : rule.start <+: cursor.rest) :
    Veto.keeps language facts cursor.offset rule.start = .ok true := by
  rw [commentAt?, if_pos hcode] at h
  exact firstRule?_eq_none_iff.1 h rule hrule hstart

/-- Without block comments a front part is left, and the rest starts with a comment. -/
theorem Reading.exists_cut
    {language : Language} {facts : LineFacts} {cursor : Cursor} {last : Option UInt8}
    {left : Pruning}
    (hrules : ∀ rule ∈ language.rules, rule.isLine = true)
    (h : Reading language facts cursor last left) :
    ∃ cut, cursor.rest = left.text ++ cut ∧
      (cut = [] ∨ ∃ rule ∈ language.rules, rule.start <+: cut ∧
        Veto.keeps language facts (cursor.offset + left.text.length) rule.start = .ok false) := by
  induction h with
  | done hrest =>
      exact ⟨[], hrest, Or.inl rfl⟩
  | @step cursor last b rest more left hrest _ hmore hstep hoffset _ ih =>
      obtain ⟨cut, hcut, hkeeps⟩ := ih
      refine ⟨cut, ?_, ?_⟩
      · rw [hstep] at hcut
        rw [hrest, List.cons_append, List.cons_append, List.append_assoc, ← hcut,
          List.take_append_drop]
      · have hlen : cursor.offset + (b :: rest.take more ++ left.text).length =
            (cursor.step language.dialect b rest).offset + left.text.length := by
          rw [hoffset, List.length_append, List.length_cons, List.length_take,
            Nat.min_eq_left hmore]
          omega
        dsimp only
        rwa [hlen]
  | @cutLine cursor last start hrule =>
      obtain ⟨hmem, hstart⟩ := mem_rules_of_commentAt? hrule
      refine ⟨cursor.rest, rfl, Or.inr ⟨_, hmem, hstart, ?_⟩⟩
      rw [commentAt?, if_pos (span_eq_code_of_commentAt? hrule)] at hrule
      obtain ⟨_, _, _, _, hkeeps, _⟩ := exists_of_firstRule?_eq_some hrule
      exact hkeeps
  | cutBlock hrule | splice _ hrule =>
      have hline := hrules _ (mem_rules_of_commentAt? hrule).1
      cases hline

theorem isLocal_of_isLine
    {language : Language}
    (hrules : ∀ rule ∈ language.rules, rule.isLine = true) :
    language.dialect.IsLocal := by
  have hlocal : language.dialect.single ≠ .charLiteral ∧ language.dialect.rawStrings = false ∧
      language.dialect.regex = false := by
    revert hrules
    cases language <;> decide
  exact ⟨hlocal.1, hlocal.2.1, hlocal.2.2⟩

/-- Languages without block comments settle, YAML apart. -/
theorem settles_of_isLine
    {language : Language}
    (hrules : ∀ rule ∈ language.rules, rule.isLine = true)
    (hyaml : language ≠ .yaml) :
    Settles language := by
  have hne (other : Language) (hother : ¬ ∀ rule ∈ other.rules, rule.isLine = true) :
      language ≠ other := by
    rintro rfl
    exact hother hrules
  refine settles_of_keepsAgain (isLocal_of_isLine hrules) (hne .html (by decide))
    (hne .markdown (by decide)) ?_
  intro line second tail result hresult htext htail
  obtain ⟨cut, hline, hcut⟩ := (reading_of_ofLine hresult).exists_cut hrules
  have hline' : line = second ++ (tail ++ cut) := by
    rw [← List.append_assoc, ← htext]
    exact hline
  have hback : Veto.IsCut language second (tail ++ cut) := by
    cases tail with
    | cons b more =>
        refine Or.inl fun c hc => ?_
        obtain rfl : b = c := Option.some.inj hc
        exact htail b List.mem_cons_self
    | nil =>
        rw [List.append_nil] at htext
        rcases hcut with rfl | ⟨rule, hrule, hstart, hkeeps⟩
        · exact Or.inl fun c hc => by cases hc
        · refine Or.inr ⟨rule, hrule, hstart, ?_⟩
          rw [← hline', ← htext]
          simpa [Cursor.start] using hkeeps
  intro cursor again last left _ haligned hcode hnone rule hrule hstart hagain
  have hkeeps := keeps_of_commentAt? hnone hcode hrule hstart
  have hrest : again.rest ≠ [] := by
    intro hnil
    rw [hnil, List.prefix_nil] at hagain
    exact Language.start_ne_nil hrule hagain
  rw [← haligned.offset_eq hrules hrest, hline'] at hkeeps
  rw [haligned.there.2] at hagain
  exact Veto.keeps_of_append hrules hyaml hrule hagain hback hkeeps

/-- A start token that a veto never keeps is not left. -/
theorem keepsAgain_of_keeps_ne
    {language : Language}
    (hkeeps : ∀ line offset, ∀ rule ∈ language.rules, ∃ other ∈ language.rules,
      other.start <+: rule.start ∧
        Veto.keeps language (LineFacts.ofLine line) offset other.start = .ok false)
    (line second : Bytes) :
    KeepsAgain language (LineFacts.ofLine line) line second := by
  intro cursor again last left _ _ hcode hnone rule hrule hstart _
  obtain ⟨other, hother, hshort, hfalse⟩ := hkeeps line cursor.offset rule hrule
  rw [keeps_of_commentAt? hnone hcode hother (hshort.trans hstart)] at hfalse
  cases hfalse

/-- A kept byte of code that opens nothing is left together with the byte after it, if that
starts no comment. -/
theorem Reading.two_isPrefix_text
    {language : Language} {facts : LineFacts} {cursor : Cursor} {last : Option UInt8}
    {left : Pruning} {b c : UInt8} {rest : Bytes}
    (h : Reading language facts cursor last left)
    (hcode : cursor.span = .code)
    (hnone : commentAt? language facts cursor = .ok none)
    (hrest : cursor.rest = b :: c :: rest)
    (hopened : cursor.opened? language.dialect b (c :: rest) = none)
    (hnot : ∀ next : Cursor, next.rest = c :: rest → next.offset = cursor.offset + 1 →
      ∀ rule, commentAt? language facts next ≠ .ok (some rule)) :
    [b, c] <+: left.text := by
  cases h with
  | done hnil =>
      rw [hrest] at hnil
      cases hnil
  | @step _ _ b' rest' more left hcons _ hmore hstep hoffset hleft =>
      rw [hrest] at hcons
      obtain ⟨rfl, rfl⟩ := List.cons.inj hcons
      have hwidth := hoffset
      rw [Cursor.step, if_pos hcode, Cursor.stepCode_of_not_opened hopened] at hwidth
      obtain rfl : 0 = more := Cursor.width_of_offset hwidth
      refine List.cons_prefix_cons.2 ⟨rfl, ?_⟩
      cases hleft with
      | done hnil =>
          rw [hstep] at hnil
          cases hnil
      | step hnext =>
          rw [hstep] at hnext
          rw [(List.cons.inj hnext).1]
          exact ⟨_, rfl⟩
      | cutLine hrule | cutBlock hrule | splice _ hrule =>
          exact absurd hrule (hnot _ hstep hoffset _)
  | cutLine hrule | cutBlock hrule | splice _ hrule =>
      rw [hnone] at hrule
      cases hrule

/-- The same for a byte that opens nothing in any dialect, before one that starts no comment. -/
theorem Reading.two_isPrefix_text_of_head
    {language : Language} {facts : LineFacts} {cursor : Cursor} {last : Option UInt8}
    {left : Pruning} {b c : UInt8} {rest : Bytes}
    (h : Reading language facts cursor last left)
    (hcode : cursor.span = .code)
    (hnone : commentAt? language facts cursor = .ok none)
    (hrest : cursor.rest = b :: c :: rest)
    (hb : b ∉ [0x62, 0x72, Byte.quote, Byte.tick, Byte.backtick, Byte.slash])
    (hc : ∀ rule ∈ language.rules, rule.start.head? ≠ some c) :
    [b, c] <+: left.text := by
  refine h.two_isPrefix_text hcode hnone hrest ?_ ?_
  · rw [Option.eq_none_iff_forall_ne_some]
    rintro ⟨width, span⟩ hopened
    exact hb (Lexer.opening_of_opening? (Cursor.opening?_of_opened hopened)).mem_starters
  · intro next hnext _ rule hrule
    obtain ⟨hmem, later, hlater⟩ := mem_rules_of_commentAt? hrule
    refine hc rule hmem ?_
    rw [hnext] at hlater
    cases hstart : rule.start with
    | nil =>
        exact absurd hstart (Language.start_ne_nil hmem)
    | cons d more =>
        rw [hstart] at hlater
        rw [List.head?_cons, (List.cons.inj hlater).1]

/-- In Julia the line that names an interpreter is kept again. -/
theorem keepsAgain_julia
    (line second : Bytes) :
    KeepsAgain .julia (LineFacts.ofLine line) line second := by
  intro cursor again last left hreading haligned hcode hnone rule hrule hstart _
  have hkeeps := keeps_of_commentAt? hnone hcode hrule hstart
  rw [Veto.keeps] at hkeeps ⊢
  split at hkeeps
  · next hshebang =>
      simp only [Veto.Site.isAt, Veto.Site.isShebang, Bool.and_eq_true, beq_iff_eq,
        List.isPrefixOf_iff_prefix] at hshebang
      obtain ⟨⟨htoken, hzero, rest, hline⟩, -⟩ := hshebang
      have hrest : cursor.rest = Byte.hash :: 0x21 :: rest := by
        rw [haligned.here.2, hzero, List.drop_zero]
        exact hline.symm
      have hleft := hreading.two_isPrefix_text_of_head hcode hnone hrest (by decide) (by decide)
      have hagain := haligned.isPrefix_of_text (by simp [Byte.isBlank, Byte.hash]) hleft
      have hfirst : again.offset = 0 := by
        have hle := haligned.offset_le
        omega
      rw [haligned.there.2, hfirst, List.drop_zero] at hagain
      rw [if_pos]
      simp only [Veto.Site.isAt, Veto.Site.isShebang, Bool.and_eq_true, beq_iff_eq,
        List.isPrefixOf_iff_prefix]
      exact ⟨⟨htoken, hfirst, hagain⟩, rfl⟩
  · cases hkeeps

/-- In Pascal a brace before a dollar sign is kept again. -/
theorem keepsAgain_pascal
    (line second : Bytes) :
    KeepsAgain .pascal (LineFacts.ofLine line) line second := by
  intro cursor again last left hreading haligned hcode hnone rule hrule hstart _
  have hkeeps := keeps_of_commentAt? hnone hcode hrule hstart
  rw [Veto.keeps_eq_family rfl, Veto.family] at hkeeps ⊢
  obtain ⟨htoken, hboundary, hnext⟩ := Veto.followedBy_eq_true_iff.1 hkeeps
  have hrest : ∃ rest, cursor.rest = Byte.openBrace :: 0x24 :: rest := by
    obtain ⟨rest, hrest⟩ := hstart
    rw [htoken] at hrest hnext
    rw [← List.drop_drop, ← haligned.here.2, ← hrest] at hnext
    cases rest with
    | nil =>
        cases hnext
    | cons b more =>
        obtain rfl : b = 0x24 := eq_of_beq hnext
        exact ⟨more, hrest.symm⟩
  obtain ⟨rest, hrest⟩ := hrest
  have hleft := hreading.two_isPrefix_text_of_head hcode hnone hrest (by decide) (by decide)
  obtain ⟨later, hagain⟩ :=
    haligned.isPrefix_of_text (by simp [Byte.isBlank, Byte.openBrace]) hleft
  have hafter : second.drop (again.offset + rule.start.length) = 0x24 :: later := by
    rw [← List.drop_drop, ← haligned.there.2, ← hagain, htoken]
    rfl
  refine Veto.followedBy_eq_true_iff.2 ⟨htoken, Or.inr ⟨?_, ?_⟩, ?_⟩
  · by_contra hgt
    rw [List.drop_eq_nil_of_le (by omega)] at hafter
    cases hafter
  · rw [hafter]
    rfl
  · rw [hafter]
    rfl

/-- Nine languages with block comments settle. -/
theorem settles_of_mem
    {language : Language}
    (h : language ∈ Language.settled) :
    Settles language := by
  have hlocal : language.dialect.single ≠ .charLiteral ∧ language.dialect.rawStrings = false ∧
      language.dialect.regex = false ∧ language ≠ .html ∧ language ≠ .markdown := by
    revert h
    cases language <;> decide
  refine settles_of_keepsAgain ⟨hlocal.1, hlocal.2.1, hlocal.2.2.1⟩ hlocal.2.2.2.1
    hlocal.2.2.2.2 fun line second _ _ _ _ _ => ?_
  simp only [Language.settled, List.mem_cons, List.not_mem_nil, or_false] at h
  rcases h with rfl | rfl | rfl | rfl | rfl | rfl | rfl | rfl | rfl
  case inr.inl => exact keepsAgain_julia line second
  case inr.inr.inr.inr.inr.inr.inl => exact keepsAgain_pascal line second
  case inr.inr.inl =>
    refine keepsAgain_of_keeps_ne (fun line offset rule hrule => ?_) line second
    refine ⟨.ofLine "#", by decide, ?_, ?_⟩
    · revert rule
      decide
    · rw [Veto.keeps_eq_family rfl]
      rfl
  all_goals
    exact keepsAgain_of_keeps_ne (fun line offset rule hrule =>
      ⟨rule, hrule, List.prefix_rfl, Veto.keeps_eq_family rfl⟩) line second

end Pruning
end Uncomment

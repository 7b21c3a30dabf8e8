import Uncomment.Proofs.Line.BlockComment
import Uncomment.Proofs.Line.FirstRemoval

/-!
# Reading on behind a block comment

A cursor that has jumped over a block comment still knows what came before it: where it
stands, the last byte of code, and the text that has been put out.  In a language whose veto
keeps nothing (`Veto.IsIdle`) none of this makes a difference, and what comes behind the
first comment is pruned as if it were a line of its own (`Pruning.ofLine_eq_afresh`).  So
pruning a line in one go comes to the same as removing its first comment and starting over
with the rest.
-/

namespace Uncomment

namespace Veto

/-- A veto that keeps no token anywhere. -/
def IsIdle (language : Language) : Prop :=
  ∀ line offset token, keeps language (LineFacts.ofLine line) offset token = .ok false

/-- The languages with block comments whose vetoes are idle. -/
def idlers : List Language :=
  [.sql, .lua, .ocaml, .fsharp, .matlab, .prolog, .hcl, .powerShell]

/-- In all other languages with block comments there is a token that is kept. -/
theorem isIdle_and_block_iff
    {language : Language} :
    IsIdle language ∧ (∃ rule ∈ language.rules, rule.isLine = false) ↔ language ∈ idlers := by
  constructor
  · rintro ⟨hidle, hblock⟩
    have hkept (line token : String) (offset : Nat)
        (hkeeps : keeps language (LineFacts.ofLine (Bytes.ofString line)) offset
          (Bytes.ofString token) = .ok true) : language ∈ idlers := by
      rw [hidle] at hkeeps
      cases hkeeps
    cases language with
    | sql | lua | ocaml | fsharp | matlab | prolog | hcl | powerShell =>
        decide
    | c | java | swift | dart | javaScript | typeScript | go | rust | json | verilog | php =>
        exact hkept "if (" "//" 4 (by decide +kernel)
    | css | scss =>
        exact hkept "url(" "/*" 4 (by decide +kernel)
    | html | markdown =>
        exact hkept "<![CDATA[" "<!--" 9 (by decide +kernel)
    | haskell =>
        exact hkept "--|" "--" 0 (by decide +kernel)
    | pascal =>
        exact hkept "\x7b$" "\x7b" 0 (by decide +kernel)
    | julia =>
        exact hkept "#!" "#" 0 (by decide +kernel)
    | coffeeScript =>
        exact hkept "####" "###" 0 (by decide +kernel)
    | python | ruby | shell | perl | r | tcl | hash | toml | yaml | unknown | batch | ada | vhdl
    | latex | erlang | assembly | fortran | fortranFree | lisp | cobol | rst =>
        revert hblock
        decide
  · intro hmem
    have hall : ∀ other ∈ idlers, hasShebang other = false ∧
        (∃ rule ∈ other.rules, rule.isLine = false) := by
      decide
    obtain ⟨hshebang, hblock⟩ := hall language hmem
    refine ⟨fun line offset token => ?_, hblock⟩
    rw [keeps, hshebang, Bool.and_false]
    simp only [idlers, List.mem_cons, List.not_mem_nil, or_false] at hmem
    rcases hmem with rfl | rfl | rfl | rfl | rfl | rfl | rfl | rfl <;> rfl

end Veto

namespace Pruning

variable {language : Language} {line : Bytes}

/-- In the languages with an idle veto nothing that was read before makes a difference. -/
theorem of_mem_idlers
    (h : language ∈ Veto.idlers) :
    language.dialect.rawStrings = false ∧ language.dialect.regex = false ∧
      language ≠ .yaml ∧ language ≠ .html ∧ language ≠ .markdown := by
  revert language
  decide

/-- With an idle veto the same comments start in a text wherever it stands. -/
theorem commentAt?_of_isIdle
    {line' : Bytes} {low low' : Nat}
    (hidle : Veto.IsIdle language)
    (stop : Cursor) :
    commentAt? language (LineFacts.ofLine line') (stop.shift low') =
      commentAt? language (LineFacts.ofLine line) (stop.shift low) := by
  rw [commentAt?, commentAt?]
  refine congrArg (ite _ · _) (firstRule?_congr (fun _ _ => Iff.rfl) fun rule _ _ => ?_)
  rw [hidle, hidle]

/-- A block comment that is closed in the line has its stop token behind its start token. -/
theorem exists_find?_of_not_open
    {there : Cursor} {removal : Removal} {start stop : Bytes}
    (hat : there.At line)
    (hoffset : there.offset = removal.start)
    (hrule : removal.rule = .block start stop)
    (hclosed : ¬ removal.Open line stop) :
    ∃ found, Bytes.find? stop (there.rest.drop start.length) = some found := by
  refine Option.ne_none_iff_exists'.1 fun hnone => hclosed ⟨start, hrule, fun offset hle hpre => ?_⟩
  obtain ⟨extra, rfl⟩ := Nat.exists_eq_add_of_le hle
  refine Bytes.find?_eq_none_iff.1 hnone extra ?_
  rwa [hat.2, List.drop_drop, List.drop_drop, hoffset, ← Nat.add_assoc]

/-- Behind a block comment no further comment leaves a space because of the text before it. -/
theorem fusesAlike_of_gap
    {rest : Bytes} {last : Option UInt8} {gap : Bool}
    (hgap : gap = fuses language last rest.head?) :
    FusesAlike language rest (if gap then some Byte.space else last) none := by
  intro hsolid next
  rw [Bool.eq_iff_iff, fuses_iff, fuses_iff]
  constructor
  · rintro ⟨-, -, ⟨c, hc, -⟩, -⟩
    cases hc
  · rintro ⟨hhtml, hmarkdown, hlast, -⟩
    cases gap with
    | true =>
        obtain ⟨c, hc, hblank⟩ := hlast
        cases hc
        cases hblank
    | false =>
        exact absurd (hgap.trans (fuses_iff.2 ⟨hhtml, hmarkdown, hlast, hsolid⟩)) (by decide)

/-- From a block comment that stops in the line reading goes on as in a line of its own. -/
theorem Reading.exists_afresh
    {there : Cursor} {last : Option UInt8} {left : Pruning} {removal : Removal}
    {start stop : Bytes} {found : Nat}
    (hidle : Veto.IsIdle language)
    (hmem : language ∈ Veto.idlers)
    (hplaced : Utf8.Placed line)
    (h : Reading language (LineFacts.ofLine line) there last left)
    (hat : there.At line)
    (hcomment : commentAt? language (LineFacts.ofLine line) there =
      .ok (some (.block start stop)))
    (hfind : Bytes.find? stop (there.rest.drop start.length) = some found)
    (hhead : left.removals.head? = some removal) :
    ∃ later, ofLine language (line.drop removal.stop) = .ok later ∧
      removal.gap = fuses language last (line)[removal.stop]? ∧
      left.text = removal.filler ++ later.text ∧ left.mode = later.mode := by
  obtain ⟨hraw, hregex, hyaml, -⟩ := of_mem_idlers hmem
  obtain ⟨hpos, hle⟩ := width_of_find? hcomment hfind
  cases hrest : there.rest with
  | nil =>
      exact absurd hrest (rest_ne_nil_of_commentAt? hcomment)
  | cons b rest =>
      obtain ⟨gap, behind, hgap, rfl, hbehind⟩ := h.exists_of_find? hrest hcomment hfind rfl
      obtain rfl := Option.some.inj hhead
      obtain ⟨hresume, hoffset⟩ := at_resume hat hrest hpos hle
      generalize start.length + found + stop.length = width at *
      have hunread : (there.resume b rest (width - 1)).rest = line.drop (there.offset + width) := by
        rw [hresume.2, hoffset]
      have hsuffix : line.drop (there.offset + width) <:+: line :=
        (List.drop_suffix _ line).isInfix
      obtain ⟨later, hlater⟩ := ofLine_succeeds hyaml (hplaced.of_isInfix hsuffix)
      have halike : Cursor.Alike language.dialect
          { there.resume b rest (width - 1) with offset := 0 }
          (Cursor.start (line.drop (there.offset + width))) :=
        { rest := hunread.symm
          offset := rfl
          span := rfl
          backslashes := rfl
          before := fun h => absurd (hraw.symm.trans h) (by decide)
          lastCode := fun h => absurd (hregex.symm.trans h) (by decide) }
      obtain ⟨htext, hmode⟩ := eq_of_shift (fun stop _ => commentAt?_of_isIdle hidle stop)
        ⟨Nat.zero_le _, rfl⟩ halike (fusesAlike_of_gap hgap) hbehind (reading_of_ofLine hlater)
      refine ⟨later, hlater, ?_, ?_, hmode.symm⟩
      · rw [← List.head?_drop, ← hunread]
        exact hgap
      · rw [htext]
        rfl

/--
With an idle veto a line whose first comment is a block comment that stops in the line is
pruned as if what comes behind that comment were a line of its own: the text before the
comment, a space if two bytes would be glued together otherwise, and what is left of the rest.
-/
theorem ofLine_eq_afresh
    (hidle : Veto.IsIdle language)
    (hblock : ∃ rule ∈ language.rules, rule.isLine = false)
    (hvalid : Utf8.valid line = true) :
    ∃ result, ofLine language line = .ok result ∧
      ∀ removal more start stop,
        result.removals = removal :: more →
        removal.rule = .block start stop →
        ¬ removal.Open line stop →
        ∃ later, ofLine language (line.drop removal.stop) = .ok later ∧
          (removal.gap = true ↔
            Solid (line.take removal.start).getLast? ∧ Solid (line)[removal.stop]?) ∧
          result.text = line.take removal.start ++ removal.filler ++ later.text ∧
          result.mode = later.mode := by
  have hmem := Veto.isIdle_and_block_iff.1 ⟨hidle, hblock⟩
  obtain ⟨-, -, hyaml, hhtml, hmarkdown⟩ := of_mem_idlers hmem
  have hplaced := Utf8.placed_of_valid hvalid
  obtain ⟨result, hresult⟩ := ofLine_succeeds hyaml hplaced
  refine ⟨result, hresult, fun removal more start stop hremovals hrule hclosed => ?_⟩
  obtain ⟨there, left, hfirst⟩ :=
    (reading_of_ofLine hresult).exists_first (Cursor.at_start line) hremovals
  have hat := Cursor.at_of_mem_trail (Cursor.at_start line) hfirst.reached
  have hcut : (line.take removal.start).drop (Cursor.start line).offset =
      line.take removal.start := List.drop_zero
  have hcomment := hfirst.comment
  have honward := hfirst.onward
  have hleft := hfirst.left_eq
  rw [hrule] at hcomment
  rw [hcut, Option.or_none] at honward
  rw [hcut] at hleft
  have hhead : left.removals.head? = some removal := by
    rw [hleft] at hremovals
    exact congrArg List.head? hremovals
  obtain ⟨found, hfind⟩ := exists_find?_of_not_open hat hfirst.offset_eq hrule hclosed
  obtain ⟨later, hlater, hgap, htext, hmode⟩ :=
    honward.exists_afresh hidle hmem hplaced hat hcomment hfind hhead
  refine ⟨later, hlater, ?_, ?_, ?_⟩
  · rw [hgap, fuses_iff, and_iff_right hhtml, and_iff_right hmarkdown]
  · rw [hleft, htext, List.append_assoc]
  · rw [hleft, hmode]

/-- Three comments of a line: the second one stands right before the third one. -/
theorem ofLine_eq_afresh_sql :
    Veto.IsIdle .sql ∧
      ofLine .sql (Bytes.ofString "a/* b */c /* d *//* e */f -- g") =
        .ok ⟨Bytes.ofString "a c f ", [⟨1, 8, .ofBlock "/*" "*/", true⟩,
          ⟨10, 17, .ofBlock "/*" "*/", false⟩, ⟨17, 24, .ofBlock "/*" "*/", false⟩,
          ⟨26, 30, .ofLine "--", false⟩], .normal⟩ ∧
      ofLine .sql (Bytes.ofString "c /* d *//* e */f -- g") =
        .ok ⟨Bytes.ofString "c f ", [⟨2, 9, .ofBlock "/*" "*/", false⟩,
          ⟨9, 16, .ofBlock "/*" "*/", false⟩, ⟨18, 22, .ofLine "--", false⟩], .normal⟩ ∧
      Bytes.ofString "a c f " = (Bytes.ofString "a/* b */c /* d *//* e */f -- g").take 1 ++
        [Byte.space] ++ Bytes.ofString "c f " := by
  have hidle : Veto.IsIdle .sql := (Veto.isIdle_and_block_iff.2 (by decide)).1
  have hline : ofLine .sql (Bytes.ofString "a/* b */c /* d *//* e */f -- g") =
      .ok ⟨Bytes.ofString "a c f ", [⟨1, 8, .ofBlock "/*" "*/", true⟩,
        ⟨10, 17, .ofBlock "/*" "*/", false⟩, ⟨17, 24, .ofBlock "/*" "*/", false⟩,
        ⟨26, 30, .ofLine "--", false⟩], .normal⟩ := by
    decide +kernel
  have hrest : ofLine .sql (Bytes.ofString "c /* d *//* e */f -- g") =
      .ok ⟨Bytes.ofString "c f ", [⟨2, 9, .ofBlock "/*" "*/", false⟩,
        ⟨9, 16, .ofBlock "/*" "*/", false⟩, ⟨18, 22, .ofLine "--", false⟩], .normal⟩ := by
    decide +kernel
  have hclosed : ¬ Removal.Open (Bytes.ofString "a/* b */c /* d *//* e */f -- g")
      ⟨1, 8, .ofBlock "/*" "*/", true⟩ (Bytes.ofString "*/") := by
    rintro ⟨start, hstart, hnone⟩
    cases hstart
    exact hnone 6 (by decide) (by decide +kernel)
  obtain ⟨result, hresult, hfirst⟩ := ofLine_eq_afresh hidle ⟨_, List.mem_cons_self, rfl⟩
    (by decide +kernel : Utf8.valid (Bytes.ofString "a/* b */c /* d *//* e */f -- g") = true)
  rw [hline] at hresult
  cases hresult
  obtain ⟨later, hlater, -, htext, -⟩ := hfirst _ _ _ _ rfl rfl hclosed
  have hdrop : (Bytes.ofString "a/* b */c /* d *//* e */f -- g").drop 8 =
      Bytes.ofString "c /* d *//* e */f -- g" := by
    decide +kernel
  change ofLine .sql ((Bytes.ofString "a/* b */c /* d *//* e */f -- g").drop 8) = _ at hlater
  rw [hdrop, hrest] at hlater
  cases hlater
  exact ⟨hidle, hline, hrest, htext⟩

end Pruning
end Uncomment

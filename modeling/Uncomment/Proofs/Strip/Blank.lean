import Uncomment.Proofs.Line.Shrink
import Uncomment.Proofs.Strip.Rows

/-!
# Blank lines

A line of white space is kept as it is, unless it lies inside a block comment, where
it goes away with the comment (`Line.result_of_isAllWhite`).  No other line becomes
one: what a line is replaced by has a character that is not white
(`Line.exists_pruned_of_replaced`).

So the white rows of a stripped text are the white rows of the text that were met
outside block comments (`Strip.Run.filter_isAllWhite`).
-/

namespace Uncomment

namespace Line

variable {language : Language} {mode next : Mode} {line : Bytes} {result : LineResult}

/-- A line that holds a token of ink is not white. -/
theorem not_isAllWhite_of_mem
    {b : UInt8}
    (hb : b ∈ line)
    (hink : Blank.isInk b = true) :
    ¬ Blank.isAllWhite line = true := by
  intro hwhite
  rw [Blank.isInk_of_isAllWhite hwhite b hb] at hink
  cases hink

/-- A white line is dropped inside a block comment and unchanged elsewhere. -/
theorem result_of_isAllWhite
    (hmode : mode.Possible language)
    (hwhite : Blank.isAllWhite line = true)
    (h : process language mode line = .ok (result, next)) :
    result = if mode.isComment then .dropped else .unchanged := by
  cases outcome_of_process h with
  | white | inComment | inLiteral | inScalar =>
      rfl
  | code hsolid =>
      rw [hwhite] at hsolid
      cases hsolid
  | afterScalar hsolid =>
      rw [hwhite] at hsolid
      cases hsolid
  | @afterComment stop _ found _ hfind =>
      obtain ⟨start, hrule⟩ := hmode
      obtain ⟨hne, hink⟩ := Language.isInk_of_mem_stop hrule
      obtain ⟨b, hb⟩ := List.exists_mem_of_ne_nil stop hne
      have hmem : b ∈ line :=
        List.mem_of_mem_drop ((Bytes.find?_eq_some_iff.1 hfind).1.subset hb)
      exact absurd hwhite (not_isAllWhite_of_mem hmem (hink b hb))
  | afterLiteral hclose =>
      obtain ⟨-, -, b, hlast, hink⟩ := Lexer.exists_ink_of_findClose hclose
      have hmem : b ∈ line := List.mem_of_mem_take (List.mem_of_getLast? hlast)
      exact absurd hwhite (not_isAllWhite_of_mem hmem hink)

/-- Inside a block comment no line stays as it is. -/
theorem ne_unchanged_of_isComment
    (hcomment : mode.isComment = true)
    (h : process language mode line = .ok (result, next)) :
    result ≠ .unchanged := by
  cases outcome_of_process h with
  | white | code | inLiteral | afterLiteral | inScalar | afterScalar =>
      cases hcomment
  | inComment =>
      simp
  | @afterComment _ _ _ pruning =>
      rcases settle_cases pruning.text with hsettle | ⟨hsettle, -⟩ <;> rw [hsettle] <;> simp

end Line

namespace Strip

theorem isAllWhite_of_splitReturn
    {row line : Bytes} {hasReturn : Bool}
    (hsplit : splitReturn row = (line, hasReturn)) :
    Blank.isAllWhite row = Blank.isAllWhite line := by
  rw [eq_of_splitReturn hsplit]
  cases hasReturn with
  | true => exact Blank.isAllWhite_append rfl line
  | false => rw [if_neg (by simp), List.append_nil]

/-- The rows of a text, each with the mode in which it is met. -/
def met (language : Language) : Mode → List Bytes → List (Mode × Bytes)
  | _, [] => []
  | mode, row :: more =>
      (mode, row) :: met language (Line.feed language mode (splitReturn row).1).2 more

/-- The white rows among those that were met outside block comments. -/
def keptBlanks (steps : List (Mode × Bytes)) : List Bytes :=
  (steps.filter fun step => !step.1.isComment && Blank.isAllWhite step.2).map Prod.snd

/-- A row that is met first stands before the rows after it, if it is kept as a blank one. -/
theorem keptBlanks_met_cons
    {language : Language} {mode next : Mode} {row line : Bytes} {hasReturn : Bool}
    {result : LineResult}
    (hsplit : splitReturn row = (line, hasReturn))
    (hprocess : Line.process language mode line = .ok (result, next))
    (more : List Bytes) :
    keptBlanks (met language mode (row :: more)) =
      if mode.isComment = false ∧ Blank.isAllWhite line = true then
        row :: keptBlanks (met language next more)
      else keptBlanks (met language next more) := by
  have hfeed : (Line.feed language mode line).2 = next := by
    rw [Line.feed, hprocess]
  rw [met, hsplit, hfeed, keptBlanks, List.filter_cons]
  simp only [Bool.and_eq_true, Bool.not_eq_true', isAllWhite_of_splitReturn hsplit]
  split <;> rfl

/-- The white rows that a run puts out are those that it met outside block comments. -/
theorem Run.filter_isAllWhite
    {language : Language} {mode : Mode} {rows outs : List Bytes}
    (h : Run language mode rows outs)
    (hmode : mode.Possible language) :
    outs.filter Blank.isAllWhite = keptBlanks (met language mode rows) := by
  induction h with
  | done =>
      rfl
  | @keep mode next row line out hasReturn result rows outs hsplit hprocess hemit _ ih =>
      have hmore := ih (Line.possible_of_process hmode hprocess)
      have hresult (hwhite : Blank.isAllWhite line = true) :=
        Line.result_of_isAllWhite hmode hwhite hprocess
      rw [keptBlanks_met_cons hsplit hprocess, List.filter_cons, hmore]
      cases result with
      | unchanged =>
          have hcomment : mode.isComment = false := by
            rw [← Bool.not_eq_true]
            exact fun hcomment => Line.ne_unchanged_of_isComment hcomment hprocess rfl
          cases hemit
          simp [isAllWhite_of_splitReturn hsplit, hcomment]
      | replaced text =>
          obtain ⟨_, -, -, htext⟩ := Line.exists_pruned_of_replaced hmode hprocess
          have hout : Blank.isAllWhite out = false := by
            cases hasReturn with
            | true =>
                cases hemit
                exact (Blank.isAllWhite_append rfl text).trans htext
            | false =>
                cases hemit
                exact htext
          have hline : ¬ Blank.isAllWhite line = true := by
            intro hwhite
            have hcases := hresult hwhite
            split at hcases <;> cases hcases
          simp [hout, hline]
      | dropped =>
          cases hemit
  | @drop mode next row line hasReturn rows outs hsplit hprocess _ ih =>
      rw [keptBlanks_met_cons hsplit hprocess, ih (Line.possible_of_process hmode hprocess), if_neg]
      rintro ⟨hcomment, hwhite⟩
      have hcases := Line.result_of_isAllWhite hmode hwhite hprocess
      rw [hcomment] at hcases
      cases hcases

end Strip

/--
Blank lines are kept outside block comments and go away inside them; a line is
replaced by a shorter one that is not blank and has no spaces or tabs at its end.  So
the blank rows of a stripped text are, in order and byte for byte, the blank rows of
the text that were met outside block comments.
-/
theorem blank_rows_kept
    (language : Language) :
    (∀ mode next line result, mode.Reachable language →
      Line.process language mode line = .ok (result, next) →
        (Blank.isAllWhite line = true →
          result = if mode.isComment then .dropped else .unchanged) ∧
        (∀ text, result = .replaced text →
          Blank.isAllWhite text = false ∧ text.getLast? ≠ some Byte.space ∧
            text.getLast? ≠ some Byte.tab ∧ text.length < line.length) ∧
        (mode.isComment = true → result ≠ .unchanged) ∧
        (mode.isComment = false → result = .dropped → Blank.isAllWhite line = false)) ∧
    ∀ text outs, Strip.rows language text = .ok outs →
      outs.filter Blank.isAllWhite =
        Strip.keptBlanks (Strip.met language .normal (Bytes.lines text)) := by
  constructor
  · intro mode next line result hreachable hprocess
    have hmode := Line.possible_of_reachable hreachable
    refine ⟨fun hwhite => Line.result_of_isAllWhite hmode hwhite hprocess, ?_,
      fun hcomment => Line.ne_unchanged_of_isComment hcomment hprocess, ?_⟩
    · rintro text rfl
      have hlt := Line.length_lt_of_replaced hmode hprocess
      obtain ⟨left, -, rfl, hsolid⟩ := Line.exists_pruned_of_replaced hmode hprocess
      have hlast {b : UInt8} (hb : Blank.isSlack b = true) :
          (Blank.trimEndSpaces left).getLast? ≠ some b := by
        intro hget
        rw [Blank.isSlack_of_getLast?_trimEndSpaces hget] at hb
        cases hb
      exact ⟨hsolid, hlast rfl, hlast rfl, hlt⟩
    · rintro hcomment rfl
      rw [← Bool.not_eq_true]
      intro hwhite
      have hcases := Line.result_of_isAllWhite hmode hwhite hprocess
      rw [hcomment] at hcases
      cases hcases
  · intro text outs hrows
    obtain ⟨left, hrun, rfl⟩ := Strip.exists_run hrows
    exact hrun.filter_isAllWhite trivial

/-- In C the blank line of a comment goes away, and those before and after it are kept. -/
theorem blank_rows_kept_c :
    (Mode.blockComment (Bytes.ofString "*/")).Reachable .c ∧
      Line.process .c (.blockComment (Bytes.ofString "*/")) (Bytes.ofString "*/ x \t") =
        .ok (.replaced (Bytes.ofString " x"), .normal) ∧
      (Bytes.ofString " x").getLast? ≠ some Byte.tab ∧
      Strip.rows .c (Bytes.ofString "\t\r\n/*\n \n*/ x // y\n") =
        .ok (["\t\r", " x", ""].map Bytes.ofString) ∧
      (["\t\r", " x", ""].map Bytes.ofString).filter Blank.isAllWhite =
        Strip.keptBlanks
          (Strip.met .c .normal (Bytes.lines (Bytes.ofString "\t\r\n/*\n \n*/ x // y\n"))) := by
  have hreachable : (Mode.blockComment (Bytes.ofString "*/")).Reachable .c := by
    have hopen : Line.process .c .normal (Bytes.ofString "/*") =
        .ok (.dropped, .blockComment (Bytes.ofString "*/")) := by
      decide +kernel
    exact .next .start hopen
  have hprocess : Line.process .c (.blockComment (Bytes.ofString "*/")) (Bytes.ofString "*/ x \t") =
      .ok (.replaced (Bytes.ofString " x"), .normal) := by
    decide +kernel
  have hrows : Strip.rows .c (Bytes.ofString "\t\r\n/*\n \n*/ x // y\n") =
      .ok (["\t\r", " x", ""].map Bytes.ofString) := by
    decide +kernel
  obtain ⟨hlines, htexts⟩ := blank_rows_kept .c
  obtain ⟨-, hreplaced, -⟩ := hlines _ _ _ _ hreachable hprocess
  exact ⟨hreachable, hprocess, (hreplaced _ rfl).2.2.1, hrows, htexts _ _ hrows⟩

end Uncomment

import Uncomment.Proofs.Line.Outcome
import Uncomment.Proofs.Line.Reading

/-!
# Modes that come about

Which modes a line can leave depends on the literals of the dialect and on the block
comments of the language.  A cursor only stands in literals that its dialect opens
(`Span.Possible`), and so an engine that starts in mode `normal` is only ever in modes
that its language allows (`Mode.Possible`), whatever lines it is fed.

The invariant goes from a step of the cursor to a reading, from there to one line
(`Line.possible_of_process`), and by induction to all lines (`Line.possible_of_mem_feedAll`).
-/

namespace Uncomment

/-- The spans that a dialect can open, and code. -/
def Span.Possible (dialect : Dialect) : Span → Prop
  | .code => True
  | .single => dialect.single ≠ .off
  | .double => dialect.double = true
  | .backtick => dialect.backtick = true
  | .tripleDouble => dialect.tripleDouble = true
  | .tripleSingle => dialect.tripleSingle = true
  | .regex => dialect.regex = true
  | .raw _ => dialect.rawStrings = true

/--
The modes that a language allows: a block comment waits for the stop token of one of
its rules, a literal of several lines is one of its dialect, and block scalars are
those of YAML.
-/
def Mode.Possible (language : Language) : Mode → Prop
  | .normal => True
  | .blockComment stop => ∃ start, .block start stop ∈ language.rules
  | .literal .tripleDouble => language.dialect.tripleDouble = true
  | .literal .tripleSingle => language.dialect.tripleSingle = true
  | .literal .template =>
      language.dialect.backtick = true ∧ language.dialect.multilineBacktick = true
  | .blockScalar _ => language = .yaml

/-- Whether a block comment is open. -/
def Mode.isComment : Mode → Bool
  | .blockComment _ => true
  | .normal | .literal _ | .blockScalar _ => false

/-- The modes that come about when lines are processed one after the other. -/
inductive Mode.Reachable (language : Language) : Mode → Prop
  | start :
      Reachable language .normal
  | next {mode next : Mode} {line : Bytes} {result : LineResult} :
      Reachable language mode →
      Line.process language mode line = .ok (result, next) →
      Reachable language next

/-- What opens is a literal of the dialect. -/
theorem Lexer.Opening.possible
    {dialect : Dialect} {before lastCode : Option UInt8} {b : UInt8} {rest : Bytes}
    {more : Nat} {span : Span}
    (h : Opening dialect before lastCode b rest more span) :
    span.Possible dialect := by
  cases h with
  | raw hdialect | tripleDouble hdialect | double hdialect | tripleSingle hdialect
  | single hdialect | backtick hdialect | regex hdialect =>
      exact hdialect

/-- A step leads from a span of the dialect to one of the dialect. -/
theorem Cursor.possible_step
    {dialect : Dialect} {cursor : Cursor}
    (hspan : cursor.span.Possible dialect)
    (b : UInt8) (rest : Bytes) :
    (cursor.step dialect b rest).span.Possible dialect := by
  unfold step
  split
  · unfold stepCode
    dsimp only
    split
    · next more span hopened =>
        split at hopened
        · cases hopened
        · exact (Lexer.opening_of_opening? hopened).possible
    · exact hspan
  · unfold stepLiteral
    split
    · exact hspan
    · split
      · exact trivial
      · exact hspan

theorem Cursor.possible_of_mem_trail
    {dialect : Dialect} {cursor stop : Cursor}
    (hspan : cursor.span.Possible dialect)
    (h : stop ∈ cursor.trail dialect) :
    stop.span.Possible dialect := by
  fun_induction trail dialect cursor with
  | case1 cursor hrest =>
      rwa [List.mem_singleton.1 h]
  | case2 cursor b rest hrest ih =>
      rcases List.mem_cons.1 h with rfl | h
      · exact hspan
      · exact ih (possible_step hspan b rest) h

namespace Mode

variable {language : Language}

theorem possible_ofSpan
    {span : Span}
    (hspan : span.Possible language.dialect) :
    (ofSpan language.dialect span).Possible language := by
  cases span with
  | tripleDouble | tripleSingle =>
      exact hspan
  | backtick =>
      rw [ofSpan]
      split
      · next hmultiline => exact ⟨hspan, hmultiline⟩
      · exact trivial
  | code | single | double | regex | raw =>
      exact trivial

theorem ofSpan_ne_blockScalar
    (dialect : Dialect) (span : Span) (indent : Nat) :
    ofSpan dialect span ≠ .blockScalar indent := by
  rw [ofSpan.eq_def]
  split <;> try split
  all_goals simp

/-- Without literals of several lines only comments and block scalars go on in the next line. -/
theorem Possible.eq_normal_of_ne
    {mode : Mode}
    (h : mode.Possible language)
    (hcomment : ∀ stop, mode ≠ .blockComment stop)
    (hscalar : ∀ indent, mode ≠ .blockScalar indent)
    (hdouble : language.dialect.tripleDouble = false)
    (hsingle : language.dialect.tripleSingle = false)
    (htemplate : ¬(language.dialect.backtick = true ∧ language.dialect.multilineBacktick = true)) :
    mode = .normal := by
  cases mode with
  | normal =>
      rfl
  | blockComment stop =>
      exact absurd rfl (hcomment stop)
  | literal kind =>
      cases kind with
      | tripleDouble => exact absurd (hdouble.symm.trans h) (by decide)
      | tripleSingle => exact absurd (hsingle.symm.trans h) (by decide)
      | template => exact absurd h htemplate
  | blockScalar indent =>
      exact absurd rfl (hscalar indent)

/-- A language without constructs of several lines allows one mode only. -/
theorem Possible.eq_normal
    {mode : Mode}
    (h : mode.Possible language)
    (hrules : ∀ rule ∈ language.rules, rule.isLine = true)
    (hdouble : language.dialect.tripleDouble = false)
    (hsingle : language.dialect.tripleSingle = false)
    (htemplate : ¬(language.dialect.backtick = true ∧ language.dialect.multilineBacktick = true))
    (hyaml : language ≠ .yaml) :
    mode = .normal := by
  refine h.eq_normal_of_ne ?_ ?_ hdouble hsingle htemplate
  · rintro stop rfl
    obtain ⟨start, hrule⟩ := h
    cases hrules _ hrule
  · rintro indent rfl
    exact hyaml h

end Mode

/-- A reading that starts in a span of the dialect leaves a mode of the language. -/
theorem Pruning.Reading.possible
    {language : Language} {facts : LineFacts} {cursor : Cursor} {last : Option UInt8}
    {left : Pruning}
    (h : Reading language facts cursor last left)
    (hspan : cursor.span.Possible language.dialect) :
    left.mode.Possible language := by
  induction h with
  | done =>
      exact Mode.possible_ofSpan hspan
  | @step cursor _ b rest _ _ _ _ _ _ _ _ ih =>
      exact ih (Cursor.possible_step hspan b rest)
  | cutLine =>
      exact trivial
  | cutBlock hrule =>
      exact ⟨_, (mem_rules_of_commentAt? hrule).1⟩
  | splice _ _ _ _ _ _ _ _ _ ih =>
      exact ih trivial

namespace Line

variable {language : Language}

/-- Code leaves a mode of the language. -/
theorem possible_of_ofLine
    {code : Bytes} {pruning : Pruning}
    (h : Pruning.ofLine language code = .ok pruning) :
    pruning.mode.Possible language := by
  exact (Pruning.reading_of_ofLine h).possible trivial

/-- Only YAML opens block scalars after code. -/
theorem possible_modeAfter
    {line : Bytes} {pruning : Pruning}
    (h : pruning.mode.Possible language) :
    (modeAfter language line pruning).Possible language := by
  unfold modeAfter
  split
  · next hscalar => exact hscalar.1
  · exact h

/-- A line leads from a mode of the language to one of the language. -/
theorem possible_of_process
    {mode next : Mode} {line : Bytes} {result : LineResult}
    (hmode : mode.Possible language)
    (h : process language mode line = .ok (result, next)) :
    next.Possible language := by
  cases outcome_of_process h with
  | white | inComment | inLiteral | inScalar =>
      exact hmode
  | code _ hpruning | afterScalar _ hpruning | afterComment _ _ hpruning =>
      exact possible_modeAfter (possible_of_ofLine hpruning)
  | afterLiteral _ _ hpruning =>
      exact possible_of_ofLine hpruning

/-- Every mode that comes about is one of the language. -/
theorem possible_of_reachable
    {mode : Mode}
    (h : mode.Reachable language) :
    mode.Possible language := by
  induction h with
  | start =>
      exact trivial
  | next _ hprocess ih =>
      exact possible_of_process ih hprocess

/-- A line that ends in a fault leaves mode `normal`, which every language allows. -/
theorem possible_feed
    {mode : Mode}
    (hmode : mode.Possible language)
    (line : Bytes) :
    (feed language mode line).2.Possible language := by
  unfold feed
  split
  · next hprocess => exact possible_of_process hmode hprocess
  · exact trivial

/-- All modes after lines are modes of the language if the first one is. -/
theorem possible_of_mem_feedAll
    {mode : Mode} {lines : List Bytes}
    (hmode : mode.Possible language) :
    ∀ step ∈ feedAll language mode lines, step.2.Possible language := by
  induction lines generalizing mode with
  | nil =>
      simp [feedAll]
  | cons line more ih =>
      have hnext := possible_feed hmode line
      rw [feedAll, List.forall_mem_cons]
      exact ⟨hnext, ih hnext⟩

/--
Whatever lines are fed from mode `normal` on, each of them leaves a mode that the
language allows.  In a language whose comments end with their lines, without literals
of several lines and without block scalars, that is always `normal`.
-/
theorem mode_of_mem_feedAll
    (language : Language)
    (lines : List Bytes) :
    (∀ step ∈ feedAll language .normal lines, step.2.Possible language) ∧
      ((∀ rule ∈ language.rules, rule.isLine = true) →
        language.dialect.tripleDouble = false →
        language.dialect.tripleSingle = false →
        ¬(language.dialect.backtick = true ∧ language.dialect.multilineBacktick = true) →
        language ≠ .yaml →
        ∀ step ∈ feedAll language .normal lines, step.2 = .normal) := by
  have hstart : Mode.normal.Possible language := trivial
  constructor
  · exact possible_of_mem_feedAll hstart
  · intro hrules hdouble hsingle htemplate hyaml step hstep
    have hpossible := possible_of_mem_feedAll hstart step hstep
    exact hpossible.eq_normal hrules hdouble hsingle htemplate hyaml

/-- A shell script stays in mode `normal` after lines with open quotation marks. -/
theorem mode_of_mem_feedAll_shell :
    (∀ rule ∈ Language.shell.rules, rule.isLine = true) ∧
      Language.shell.dialect.tripleDouble = false ∧
      Language.shell.dialect.tripleSingle = false ∧
      ¬(Language.shell.dialect.backtick = true ∧
        Language.shell.dialect.multilineBacktick = true) ∧
      Language.shell ≠ .yaml ∧
      ∀ step ∈ feedAll .shell .normal
        [Bytes.ofString "a='b # c", Bytes.ofString "`d # e", Bytes.ofString "\"\"\" # f"],
        step.2 = .normal := by
  refine ⟨by decide, rfl, rfl, by decide, by decide, ?_⟩
  exact (mode_of_mem_feedAll .shell _).2 (by decide) rfl rfl (by decide) (by decide)

end Line
end Uncomment

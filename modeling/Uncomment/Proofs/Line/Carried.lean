import Uncomment.Proofs.Lexer.Table
import Uncomment.Proofs.Line.Again
import Uncomment.Proofs.Line.Shrink
import Uncomment.Proofs.Veto.Header

/-!
# What is carried to the next line

The mode after a line comes from a cursor that jumped over the comments of the line.  It
is also the mode in which a reader ends who sees only the line that is put out, and knows
nothing about comments (`Line.mode_eq_ofSpan_atEnd`).

In a near dialect that reader retraces the steps of the cursor (`Pruning.Reading.retrace`),
also where slashes open regular expressions (`Pruning.leavesSlashes`).  The dialects with
character literals or raw strings have no literals of several lines, so both readers end
with nothing open.
-/

namespace Uncomment

/-- The languages with regular expressions have the comments and the veto of the C family. -/
theorem Language.cFamily_of_regex
    {language : Language}
    (h : language.dialect.regex = true) :
    .ofLine "//" ∈ language.rules ∧
      (∀ rule ∈ language.rules,
        rule.start = Bytes.ofString "//" ∨ rule.start = Bytes.ofString "/*") ∧
      ∀ facts offset token,
        Veto.keeps language facts offset token = Veto.cFamily false ⟨facts, offset, token⟩ := by
  cases language with
  | javaScript | typeScript =>
      exact ⟨by decide, by decide, fun _ _ _ => Veto.keeps_eq_family rfl⟩
  | _ =>
      cases h

namespace Pruning

variable {language : Language}

/-- Where slashes may open regular expressions, two of them in code are both kept. -/
theorem leavesSlashes
    (language : Language) (line : Bytes) :
    LeavesSlashes language (LineFacts.ofLine line) line := by
  intro hregex cursor last left hreading hat hcode hnone c hc hpre
  obtain ⟨hline, htokens, hkeeps⟩ := Language.cFamily_of_regex hregex
  obtain ⟨later, hlater⟩ := hpre
  refine hreading.two_isPrefix_text hcode hnone hlater.symm ?_ ?_
  · -- Before a slash or an asterisk no regular expression opens.
    rw [Option.eq_none_iff_forall_ne_some]
    rintro ⟨width, span⟩ hopened
    cases Lexer.opening_of_opening? (Cursor.opening?_of_opened hopened) with
    | raw _ hraw =>
        have hb := (Lexer.rawOpening?_spec hraw).1
        revert hb
        decide
    | regex _ hopens =>
        rw [Lexer.regexOpens_of_mem _ hc] at hopens
        cases hopens
  · -- A comment that starts with the second byte starts with a slash.
    intro next hnext hoffset rule hrule
    obtain ⟨hmem, hstart⟩ := mem_rules_of_commentAt? hrule
    have htoken := htokens rule hmem
    have hslash : Byte.slash = c := by
      rw [hnext] at hstart
      rcases htoken with htoken | htoken <;> rw [htoken] at hstart
      all_goals exact (List.cons_prefix_cons.1 hstart).1
    subst hslash
    have hboth : (Rule.ofLine "//").start <+: cursor.rest := ⟨later, hlater⟩
    have hkept := keeps_of_commentAt? hnone hcode hline hboth
    rw [hkeeps] at hkept
    rw [hat.2] at hboth
    have hagain := Veto.cFamily_succ hboth rfl htoken hkept
    rw [commentAt?, if_pos (span_eq_code_of_commentAt? hrule)] at hrule
    obtain ⟨_, _, _, _, hfalse, _⟩ := exists_of_firstRule?_eq_some hrule
    rw [hkeeps, hoffset, hagain] at hfalse
    cases hfalse

/-- A dialect is near, or it has no literals of several lines. -/
theorem isNear_or_single
    (language : Language) :
    language.dialect.IsNear ∨
      language.dialect.tripleDouble = false ∧ language.dialect.tripleSingle = false ∧
        ¬(language.dialect.backtick = true ∧ language.dialect.multilineBacktick = true) := by
  have hcases : language.dialect.single ≠ .charLiteral ∧ language.dialect.rawStrings = false ∨
      language.dialect.tripleDouble = false ∧ language.dialect.tripleSingle = false ∧
        ¬(language.dialect.backtick = true ∧ language.dialect.multilineBacktick = true) := by
    cases language <;> decide
  exact hcases.imp_left fun h => ⟨h.1, h.2⟩

/-- Without literals of several lines nothing but a comment is left open. -/
theorem uncommented_eq_normal
    {mode : Mode}
    (h : mode.Possible language)
    (hscalar : ∀ indent, mode ≠ .blockScalar indent)
    (hdouble : language.dialect.tripleDouble = false)
    (hsingle : language.dialect.tripleSingle = false)
    (htemplate : ¬(language.dialect.backtick = true ∧ language.dialect.multilineBacktick = true)) :
    mode.uncommented = .normal := by
  cases mode with
  | blockComment stop =>
      rfl
  | normal | literal | blockScalar =>
      exact h.eq_normal_of_ne (by simp) hscalar hdouble hsingle htemplate

/-- What a pruning leaves open is open at the end of what it leaves, comments apart. -/
theorem uncommented_eq_ofSpan_atEnd
    (hhtml : language ≠ .html)
    (hmarkdown : language ≠ .markdown)
    {line second tail : Bytes} {result : Pruning}
    (h : ofLine language line = .ok result)
    (htext : result.text = second ++ tail)
    (htail : ∀ b ∈ tail, Byte.isBlank b = true) :
    result.mode.uncommented =
      .ofSpan language.dialect (SpanTable.ofLine language.dialect second).atEnd := by
  have hreading := reading_of_ofLine h
  rcases isNear_or_single language with hnear | ⟨hdouble, hsingle, htemplate⟩
  · obtain ⟨-, final, hfinal, hmode⟩ :=
      hreading.retrace hnear hhtml hmarkdown (leavesSlashes language line)
        (aligned_start language htext htail)
    rw [SpanTable.atEnd_ofLine hfinal, hmode]
  · obtain ⟨final, hfinal⟩ :=
      Cursor.exists_getLast?_trail language.dialect (Cursor.start second)
    have hstart : (Cursor.start second).span.Possible language.dialect := trivial
    have hspan := Cursor.possible_of_mem_trail hstart (List.mem_of_getLast? hfinal)
    rw [SpanTable.atEnd_ofLine hfinal]
    calc
      result.mode.uncommented = .normal :=
        uncommented_eq_normal (hreading.possible trivial) hreading.mode_ne_blockScalar hdouble
          hsingle htemplate
      _ = (Mode.ofSpan language.dialect final.span).uncommented :=
        (uncommented_eq_normal (Mode.possible_ofSpan hspan) (Mode.ofSpan_ne_blockScalar _ _)
          hdouble hsingle htemplate).symm
      _ = .ofSpan language.dialect final.span :=
        Mode.uncommented_ofSpan _ _

end Pruning

namespace Line

/-- What is put out for a line is what was left of it, up to spaces and tabs at the end. -/
theorem exists_tail_of_emitted
    {line left emitted : Bytes}
    (h : finish line left = .unchanged ∧ emitted = line ∨ finish line left = .replaced emitted) :
    ∃ tail, left = emitted ++ tail ∧ ∀ b ∈ tail, Byte.isBlank b = true := by
  have hsettled (hsettle : settle left = .replaced emitted) :
      ∃ tail, left = emitted ++ tail ∧ ∀ b ∈ tail, Byte.isBlank b = true := by
    obtain ⟨rfl, -⟩ := settle_eq_replaced_iff.1 hsettle
    obtain ⟨slack, hleft, hslack⟩ := Blank.exists_slack left
    exact ⟨slack, hleft, fun b hb => Blank.isBlank_of_isSlack (hslack b hb)⟩
  rcases finish_cases line left with ⟨hunchanged, rfl⟩ | hsettle
  · rcases h with ⟨-, rfl⟩ | hreplaced
    · exact ⟨[], (List.append_nil _).symm, by simp⟩
    · rw [hunchanged] at hreplaced
      cases hreplaced
  · rw [hsettle] at h
    rcases h with ⟨hunchanged, -⟩ | hreplaced
    · exact absurd hunchanged (settle_ne_unchanged left)
    · exact hsettled hreplaced

/-- A line that opens no block scalar leaves the mode of its pruning. -/
theorem modeAfter_of_ne_blockScalar
    {language : Language} {line : Bytes} {pruning : Pruning}
    (h : ∀ indent, modeAfter language line pruning ≠ .blockScalar indent) :
    modeAfter language line pruning = pruning.mode := by
  unfold modeAfter at h ⊢
  split
  · next hscalar =>
      rw [if_pos hscalar] at h
      exact absurd rfl (h _)
  · rfl

/--
In a language other than HTML and Markdown a line that is processed in mode `normal` and
put out, changed or not, leaves the mode of the span that is open at the end of what is
put out, unless a block comment or a block scalar goes on.
-/
theorem mode_eq_ofSpan_atEnd
    {language : Language} {line emitted : Bytes} {result : LineResult} {next : Mode}
    (hhtml : language ≠ .html)
    (hmarkdown : language ≠ .markdown)
    (hprocess : process language .normal line = .ok (result, next))
    (hemitted : result = .unchanged ∧ emitted = line ∨ result = .replaced emitted)
    (hcomment : ∀ stop, next ≠ .blockComment stop)
    (hscalar : ∀ indent, next ≠ .blockScalar indent) :
    next = .ofSpan language.dialect (SpanTable.ofLine language.dialect emitted).atEnd := by
  cases outcome_of_process hprocess with
  | white hwhite =>
      obtain rfl : emitted = line := by
        rcases hemitted with ⟨-, hsame⟩ | hreplaced
        · exact hsame
        · cases hreplaced
      obtain ⟨final, hfinal⟩ :=
        Cursor.exists_getLast?_trail language.dialect (Cursor.start emitted)
      have hspan := Cursor.span_of_mem_trail_of_isInk (Blank.isInk_of_isAllWhite hwhite)
        (List.mem_of_getLast? hfinal)
      rw [SpanTable.atEnd_ofLine hfinal, hspan]
      rfl
  | code hwhite hpruning =>
      obtain ⟨tail, htext, htail⟩ := exists_tail_of_emitted hemitted
      rw [modeAfter_of_ne_blockScalar hscalar] at hcomment ⊢
      rw [← Pruning.uncommented_eq_ofSpan_atEnd hhtml hmarkdown hpruning htext htail,
        Mode.uncommented_of_ne hcomment]

/--
A comment goes away before a template, and a space goes away at the end of the line inside
the template: the template is open in what is put out.
-/
theorem mode_eq_ofSpan_atEnd_template :
    Language.javaScript ≠ .html ∧
      Language.javaScript ≠ .markdown ∧
      process .javaScript .normal (Bytes.ofString "x = /* a */ `b // ") =
        .ok (.replaced (Bytes.ofString "x =  `b //"), .literal .template) ∧
      (∀ stop, Mode.literal .template ≠ .blockComment stop) ∧
      (∀ indent, Mode.literal .template ≠ .blockScalar indent) ∧
      Mode.literal .template = .ofSpan Language.javaScript.dialect
        (SpanTable.ofLine Language.javaScript.dialect (Bytes.ofString "x =  `b //")).atEnd := by
  have hprocess : process .javaScript .normal (Bytes.ofString "x = /* a */ `b // ") =
      .ok (.replaced (Bytes.ofString "x =  `b //"), .literal .template) := by
    decide +kernel
  refine ⟨by decide, by decide, hprocess, by simp, by simp, ?_⟩
  exact mode_eq_ofSpan_atEnd (by decide) (by decide) hprocess (Or.inr rfl) (by simp) (by simp)

end Line
end Uncomment

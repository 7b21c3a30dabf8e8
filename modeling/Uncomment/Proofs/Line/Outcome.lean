import Mathlib.Tactic.Common
import Uncomment.Line.Process

/-!
# Outcomes of lines

`Line.Outcome` says once what can become of a line in each mode, and which mode
comes next; proofs about lines go by cases on it.  Whenever code is read, the
pruning of that code decides: what is left of the line is its head, if the line
starts in a literal, and what the pruning leaves (`Line.settle`).

The main statement is `Line.outcome_of_process`: what `Line.process` answers is an
outcome.
-/

namespace Uncomment
namespace Line

/-- What becomes of a line that does not stay as it is. -/
def settle (left : Bytes) : LineResult :=
  if Blank.isAllWhite (Blank.trimEndSpaces left) then .dropped
  else .replaced (Blank.trimEndSpaces left)

/-- A line stays as it is if nothing goes away. -/
theorem finish_cases
    (line left : Bytes) :
    finish line left = .unchanged ∧ left = line ∨ finish line left = settle left := by
  rw [finish]
  split
  · next h => exact Or.inl ⟨rfl, h⟩
  · exact Or.inr rfl

/-- A line that does not stay as it is is replaced or, if only white space is left, dropped. -/
theorem settle_cases
    (left : Bytes) :
    settle left = .replaced (Blank.trimEndSpaces left) ∨
      settle left = .dropped ∧ Blank.isAllWhite (Blank.trimEndSpaces left) = true := by
  rw [settle]
  split
  · next h => exact Or.inr ⟨rfl, h⟩
  · exact Or.inl rfl

theorem settle_ne_unchanged
    (left : Bytes) :
    settle left ≠ .unchanged := by
  intro h
  rcases settle_cases left with hreplaced | ⟨hdropped, -⟩
  · rw [h] at hreplaced
    cases hreplaced
  · rw [h] at hdropped
    cases hdropped

/-- The outcomes of a line in a mode, with the mode after it. -/
inductive Outcome (language : Language) : Mode → Bytes → LineResult → Mode → Prop
  | white {line : Bytes} :
      Blank.isAllWhite line = true →
      Outcome language .normal line .unchanged .normal
  | code {line : Bytes} {pruning : Pruning} :
      Blank.isAllWhite line = false →
      Pruning.ofLine language line = .ok pruning →
      Outcome language .normal line (finish line pruning.text) (modeAfter language line pruning)
  | inComment {stop line : Bytes} :
      Bytes.find? stop line = none →
      Outcome language (.blockComment stop) line .dropped (.blockComment stop)
  | afterComment {stop line : Bytes} {found : Nat} {pruning : Pruning} :
      Bytes.find? stop line = some found →
      Utf8.Boundary line (found + stop.length) →
      Pruning.ofLine language (line.drop (found + stop.length)) = .ok pruning →
      Outcome language (.blockComment stop) line (settle pruning.text)
        (modeAfter language line pruning)
  | inLiteral {kind : LongLiteral} {line : Bytes} :
      Lexer.findClose language.dialect kind.span line = none →
      Outcome language (.literal kind) line .unchanged (.literal kind)
  | afterLiteral {kind : LongLiteral} {line : Bytes} {close : Nat} {pruning : Pruning} :
      Lexer.findClose language.dialect kind.span line = some close →
      Utf8.Boundary line close →
      Pruning.ofLine language (line.drop close) = .ok pruning →
      Outcome language (.literal kind) line (finish line (line.take close ++ pruning.text))
        pruning.mode
  | inScalar {indent : Nat} {line : Bytes} :
      (Blank.isAllWhite line || indent < Blank.indentation line) = true →
      Outcome language (.blockScalar indent) line .unchanged (.blockScalar indent)
  | afterScalar {indent : Nat} {line : Bytes} {pruning : Pruning} :
      (Blank.isAllWhite line || indent < Blank.indentation line) = false →
      Pruning.ofLine language line = .ok pruning →
      Outcome language (.blockScalar indent) line (finish line pruning.text)
        (modeAfter language line pruning)

theorem outcome_of_processComment
    {language : Language} {stop line : Bytes} {result : LineResult} {next : Mode}
    (h : processComment language stop line = .ok (result, next)) :
    Outcome language (.blockComment stop) line result next := by
  rw [processComment] at h
  split at h
  · next hfind =>
      cases h
      exact .inComment hfind
  · next found hfind =>
      split at h
      · cases h
      · next code hcode =>
          obtain ⟨hboundary, rfl⟩ := (Utf8.startingAt_eq_ok_iff _ _ _).1 hcode
          split at h
          · cases h
          · next pruning hpruning =>
              have houtcome := Outcome.afterComment hfind hboundary hpruning
              by_cases hnil : pruning.text = []
              · have hfinish : finish [] pruning.text = .unchanged := if_pos hnil
                have hdropped : settle pruning.text = .dropped := by
                  rw [hnil]
                  decide
                rw [hfinish] at h
                cases h
                rwa [hdropped] at houtcome
              · have hfinish : finish [] pruning.text = settle pruning.text := if_neg hnil
                cases hsettle : settle pruning.text with
                | unchanged =>
                    exact absurd hsettle (settle_ne_unchanged _)
                | replaced text =>
                    rw [hfinish, hsettle] at h
                    cases h
                    rwa [hsettle] at houtcome
                | dropped =>
                    rw [hfinish, hsettle] at h
                    cases h
                    rwa [hsettle] at houtcome

theorem outcome_of_processLiteral
    {language : Language} {kind : LongLiteral} {line : Bytes} {result : LineResult} {next : Mode}
    (h : processLiteral language kind line = .ok (result, next)) :
    Outcome language (.literal kind) line result next := by
  rw [processLiteral] at h
  split at h
  · next hclose =>
      cases h
      exact .inLiteral hclose
  · next close hclose =>
      split at h
      · cases h
      · next code hcode =>
          obtain ⟨hboundary, rfl⟩ := (Utf8.startingAt_eq_ok_iff _ _ _).1 hcode
          split at h
          · cases h
          · next pruning hpruning =>
              have houtcome := Outcome.afterLiteral hclose hboundary hpruning
              split at h
              · next htext =>
                  cases h
                  rwa [htext, List.take_append_drop, finish, if_pos rfl] at houtcome
              · cases h
                exact houtcome

/-- What is answered for a line is an outcome. -/
theorem outcome_of_process
    {language : Language} {mode next : Mode} {line : Bytes} {result : LineResult}
    (h : process language mode line = .ok (result, next)) :
    Outcome language mode line result next := by
  cases mode with
  | normal =>
      rw [process, processNormal] at h
      split at h
      · next hwhite =>
          cases h
          exact .white hwhite
      · next hwhite =>
          split at h
          · cases h
          · next pruning hpruning =>
              cases h
              exact .code (by simpa using hwhite) hpruning
  | blockComment stop =>
      exact outcome_of_processComment h
  | literal kind =>
      exact outcome_of_processLiteral h
  | blockScalar indent =>
      rw [process] at h
      split at h
      · next hkept =>
          cases h
          exact .inScalar hkept
      · next hkept =>
          rw [Bool.not_eq_true] at hkept
          rw [processNormal, if_neg (by simp_all)] at h
          split at h
          · cases h
          · next pruning hpruning =>
              cases h
              exact .afterScalar hkept hpruning

/-- The outcomes of lines start with that of the first one. -/
theorem feedAll_of_process
    {language : Language} {mode next : Mode} {line : Bytes} {result : LineResult}
    (hprocess : process language mode line = .ok (result, next))
    (more : List Bytes) :
    feedAll language mode (line :: more) = (.ok result, next) :: feedAll language next more := by
  rw [feedAll, feed, hprocess]

end Line
end Uncomment

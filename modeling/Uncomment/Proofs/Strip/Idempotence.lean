import Uncomment.Proofs.Strip.Again
import Uncomment.Proofs.Strip.Total

/-!
# Which languages are stripped once and for all

A language without block comments, YAML apart, has every text stripped in one go:
`strip` gives a result, and all lines of the result are unchanged when they are
processed afresh (`strip_idempotent_of_isLine`).

Of the other languages exactly those of `Language.settled` have this property
(`strip_idempotent_iff_mem_settled`).  The rest of them have vetoes or literals that
look at text which the same pass removes; `Language.unsettling` has a text for each of
them that a second pass strips further.
-/

namespace Uncomment

/-- Without block comments, and outside YAML, one pass leaves nothing to a second one. -/
theorem strip_idempotent_of_isLine
    {language : Language} {text : Bytes}
    (hrules : ∀ rule ∈ language.rules, rule.isLine = true)
    (hyaml : language ≠ .yaml)
    (hvalid : Utf8.valid text = true) :
    ∃ once, strip language text = .ok once ∧
      (∀ step ∈ Line.feedAll language .normal
          ((Bytes.lines once).map fun row => (Strip.splitReturn row).1),
        step.1 = .ok .unchanged) ∧
      strip language once = .ok once := by
  obtain ⟨once, honce⟩ := strip_succeeds hyaml hvalid
  have hsettles : Pruning.Settles language := Pruning.settles_of_isLine hrules hyaml
  exact ⟨once, honce, strip_again hsettles hyaml honce⟩

/-- A Python text loses two comments, one of them behind a docstring, and then stays as it is. -/
theorem strip_idempotent_of_isLine_python :
    (∀ rule ∈ Language.python.rules, rule.isLine = true) ∧ Language.python ≠ .yaml ∧
      Utf8.valid (Bytes.ofString "s = '''a # b\r\n# c''' # d \r\n# e\nt = 1") = true ∧
      strip .python (Bytes.ofString "s = '''a # b\r\n# c''' # d \r\n# e\nt = 1") =
        .ok (Bytes.ofString "s = '''a # b\r\n# c'''\r\nt = 1") ∧
      ∃ once, strip .python (Bytes.ofString "s = '''a # b\r\n# c''' # d \r\n# e\nt = 1") =
          .ok once ∧
        (∀ step ∈ Line.feedAll .python .normal
            ((Bytes.lines once).map fun row => (Strip.splitReturn row).1),
          step.1 = .ok .unchanged) ∧
        strip .python once = .ok once :=
  ⟨by decide, by decide, by decide +kernel, by decide +kernel,
    strip_idempotent_of_isLine (by decide) (by decide) (by decide +kernel)⟩

/-- The languages without block comments, YAML apart. -/
example :
    (Language.all.filter fun language =>
      language.rules.all Rule.isLine && language != .yaml) =
      [.python, .ruby, .shell, .perl, .r, .tcl, .batch, .hash, .toml, .ada, .vhdl, .latex,
       .erlang, .assembly, .fortran, .fortranFree, .lisp, .cobol, .rst, .unknown] := by
  decide

/-- A text that a second pass strips further, for the languages where there is one. -/
def Language.unsettling : Language → String
  -- The veto finds its mark in a comment that the same pass removes.
  | .css | .scss => "/* url( */ a /* b */"
  | .html | .markdown => "<!-- <![CDATA[ --> <!-- x -->"
  -- Two ticks become a literal once the comment between them is gone.
  | .haskell => "' \x7b- c -\x7d'\\--'"
  | .ocaml | .fsharp => "' (* c *)'\\(*'"
  -- The sign that made the first one structural is removed as a comment of its own.
  | .yaml => "## Heading"
  -- The semicolon lifts the veto of the condition only if it comes last before the token.
  | _ => "if (x) y; /* c */ // z"

/-- Stripping is not idempotent in the languages with block comments that do not settle. -/
theorem strip_unsettling
    {language : Language}
    (hblock : (∃ rule ∈ language.rules, rule.isLine = false) ∨ language = .yaml)
    (hnot : language ∉ Language.settled) :
    Utf8.valid (Bytes.ofString language.unsettling) = true ∧
      ∃ once, strip language (Bytes.ofString language.unsettling) = .ok once ∧
        strip language once ≠ .ok once := by
  have htwice : Utf8.valid (Bytes.ofString language.unsettling) = true ∧
      (strip language (Bytes.ofString language.unsettling)).toBool = true ∧
      (strip language (Bytes.ofString language.unsettling) >>= strip language) ≠
        strip language (Bytes.ofString language.unsettling) := by
    revert hblock hnot
    cases language <;> decide +kernel
  obtain ⟨hvalid, hok, htwice⟩ := htwice
  refine ⟨hvalid, ?_⟩
  cases honce : strip language (Bytes.ofString language.unsettling) with
  | error fault =>
      rw [honce] at hok
      cases hok
  | ok once =>
      rw [honce] at htwice
      exact ⟨once, rfl, htwice⟩

/-- Among the languages with block comments, and YAML, stripping is idempotent exactly in
the settled ones. -/
theorem strip_idempotent_iff_mem_settled
    {language : Language}
    (hblock : (∃ rule ∈ language.rules, rule.isLine = false) ∨ language = .yaml) :
    (∀ text once, Utf8.valid text = true → strip language text = .ok once →
      strip language once = .ok once) ↔ language ∈ Language.settled := by
  constructor
  · intro hidempotent
    by_contra hnot
    obtain ⟨hvalid, once, honce, htwice⟩ := strip_unsettling hblock hnot
    exact htwice (hidempotent _ once hvalid honce)
  · intro hsettled text once _ honce
    have hyaml : language ≠ .yaml := by
      rintro rfl
      revert hsettled
      decide
    exact (strip_again (Pruning.settles_of_mem hsettled) hyaml honce).2

/-- Lua settles, C does not. -/
theorem strip_idempotent_iff_mem_settled_lua_c :
    (∀ text once, Utf8.valid text = true → strip .lua text = .ok once →
        strip .lua once = .ok once) ∧
      ¬ ∀ text once, Utf8.valid text = true → strip .c text = .ok once →
        strip .c once = .ok once :=
  ⟨(strip_idempotent_iff_mem_settled (Or.inl (by decide))).2 (by decide),
    fun h => absurd ((strip_idempotent_iff_mem_settled (Or.inl (by decide))).1 h) (by decide)⟩

end Uncomment

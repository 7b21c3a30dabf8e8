import Uncomment.Proofs.Checked.Strip
import Uncomment.Proofs.Line.Stumbles

/-!
# When stripping ends in a fault

A fault comes from one place only: the cut behind the last white space before a number
sign in YAML.  `strip_fails_iff` says for which texts it comes about: rows are processed
one after the other, and the first line whose code makes the cursor stumble ends it.
-/

namespace Uncomment

namespace Strip

variable {language : Language} {mode found : Mode} {rows : List Bytes} {line : Bytes}

/-- The lines that are processed, each with the mode it is processed in. -/
inductive Reaches (language : Language) : Mode → List Bytes → Mode → Bytes → Prop
  | here {mode : Mode} {row : Bytes} {rows : List Bytes} :
      Reaches language mode (row :: rows) mode (splitReturn row).1
  | later {mode next found : Mode} {row line : Bytes} {rows : List Bytes} {result : LineResult} :
      Line.process language mode (splitReturn row).1 = .ok (result, next) →
      Reaches language next rows found line →
      Reaches language mode (row :: rows) found line

/-- Lines are processed up to the first one that cannot be. -/
theorem rowsFrom_fails_iff
    (language : Language) (mode : Mode) (out rows : List Bytes) :
    Fails (rowsFrom language mode out rows) ↔
      ∃ found line, Reaches language mode rows found line ∧
        Fails (Line.process language found line) := by
  induction rows generalizing mode out with
  | nil =>
      constructor
      · intro hfails
        exact absurd hfails (Fails.not_ok _)
      · rintro ⟨found, line, hreaches, -⟩
        cases hreaches
  | cons row rows ih =>
      rw [rowsFrom]
      dsimp only
      cases hprocess : Line.process language mode (splitReturn row).1 with
      | error fault =>
          exact ⟨fun _ => ⟨mode, _, .here, fault, hprocess⟩, fun _ => .error fault⟩
      | ok step =>
          have hrest : (∃ found line, Reaches language step.2 rows found line ∧
                Fails (Line.process language found line)) ↔
              ∃ found line, Reaches language mode (row :: rows) found line ∧
                Fails (Line.process language found line) := by
            constructor
            · rintro ⟨found, line, hreaches, hfails⟩
              exact ⟨found, line, .later hprocess hreaches, hfails⟩
            · rintro ⟨found, line, hreaches, hfails⟩
              cases hreaches with
              | here =>
                  exact absurd ⟨step, hprocess⟩ hfails.not_succeeds
              | later hprocess' hreaches =>
                  rw [hprocess] at hprocess'
                  cases hprocess'
                  exact ⟨found, line, hreaches, hfails⟩
          rw [← hrest]
          dsimp only
          split
          · exact ih step.2 _
          · exact ih step.2 out

/-- A mode in which a line is processed is one of the language. -/
theorem Reaches.possible
    (h : Reaches language mode rows found line)
    (hmode : mode.Possible language) :
    found.Possible language := by
  induction h with
  | here =>
      exact hmode
  | later hprocess _ ih =>
      exact ih (Line.possible_of_process hmode hprocess)

/-- In rows of characters the lines are lines of characters. -/
theorem Reaches.exists_encode
    {css : List (List Char)}
    (h : Reaches language mode rows found line)
    (hrows : rows = css.map Utf8.encode) :
    ∃ as, line = Utf8.encode as := by
  induction h generalizing css with
  | here =>
      obtain ⟨cs, css, rfl, rfl, rfl⟩ := List.map_eq_cons_iff.1 hrows.symm
      obtain ⟨as, has, -⟩ := exists_of_splitReturn_encode (Prod.eta _).symm
      exact ⟨as, has⟩
  | later _ _ ih =>
      obtain ⟨cs, css, rfl, rfl, rfl⟩ := List.map_eq_cons_iff.1 hrows.symm
      exact ih rfl

end Strip

/--
Every read and cut that stripping a text takes succeeds, apart from the cut behind the last
white space before a number sign; and stripping fails exactly if the language is YAML and the
cursor stumbles in the code of a line that is reached.
-/
theorem strip_fails_iff
    (language : Language)
    (text : String) :
    Checked.strip language (Bytes.ofString text) =
        (strip language (Bytes.ofString text)).mapError (fun _ => Checked.Place.address) ∧
      ((∃ fault, strip language (Bytes.ofString text) = .error fault) ↔
        language = .yaml ∧
          ∃ mode line code stop,
            Strip.Reaches language .normal (Bytes.lines (Bytes.ofString text)) mode line ∧
              Line.code? language mode line = some code ∧ Veto.Stumbles code stop) := by
  have htext : Bytes.ofString text = Utf8.encode text.toList := rfl
  rw [htext]
  refine ⟨Checked.strip_agrees language text.toList, ?_⟩
  by_cases hyaml : language = .yaml
  · subst hyaml
    refine Fails.map_iff.trans ((Strip.rowsFrom_fails_iff _ _ _ _).trans ?_)
    obtain ⟨css, hcss, -⟩ := Strip.exists_lines_encode text.toList
    have hline {mode : Mode} {line : Bytes}
        (hreaches : Strip.Reaches .yaml .normal (Bytes.lines (Utf8.encode text.toList)) mode line) :
        Fails (Line.process .yaml mode line) ↔
          ∃ code stop, Line.code? .yaml mode line = some code ∧ Veto.Stumbles code stop := by
      obtain ⟨as, rfl⟩ := hreaches.exists_encode hcss
      exact Line.process_fails_iff (hreaches.possible trivial) as
    constructor
    · rintro ⟨mode, line, hreaches, hfails⟩
      obtain ⟨code, stop, hcode, hstumbles⟩ := (hline hreaches).1 hfails
      exact ⟨rfl, mode, line, code, stop, hreaches, hcode, hstumbles⟩
    · rintro ⟨-, mode, line, code, stop, hreaches, hcode, hstumbles⟩
      exact ⟨mode, line, hreaches, (hline hreaches).2 ⟨code, stop, hcode, hstumbles⟩⟩
  · constructor
    · intro hfails
      exact absurd (strip_succeeds_of_placed hyaml (Utf8.placed_encode text.toList))
        (Fails.not_succeeds hfails)
    · rintro ⟨rfl, -⟩
      exact absurd rfl hyaml

/-- An ideographic space before a word with a number sign makes the second line fail. -/
theorem strip_fails_iff_wide_space :
    ∃ fault, strip .yaml (Bytes.ofString "a: 1 # b\nc:\u3000d#e") = .error fault := by
  have hlines : Bytes.lines (Bytes.ofString "a: 1 # b\nc:\u3000d#e") =
      [Bytes.ofString "a: 1 # b", Bytes.ofString "c:\u3000d#e"] := by
    decide +kernel
  have hfirst : Line.process .yaml .normal (Strip.splitReturn (Bytes.ofString "a: 1 # b")).1 =
      .ok (.replaced (Bytes.ofString "a: 1"), .normal) := by
    decide +kernel
  have hwide : Blank.EndsWide (Bytes.ofString "c:\u3000d") :=
    ⟨"c:".toList, '\u3000', ['d'], by decide +kernel, by decide,
      List.forall_mem_singleton.2 (by decide), by decide⟩
  let stop : Cursor := ⟨Bytes.ofString "#e", 6, some 0x64, .code, some 0x64, 0⟩
  refine (strip_fails_iff .yaml _).2.2
    ⟨rfl, .normal, Bytes.ofString "c:\u3000d#e", Bytes.ofString "c:\u3000d#e", stop, ?_, ?_, ?_⟩
  · rw [hlines]
    exact .later hfirst .here
  · decide +kernel
  · exact ⟨by decide +kernel, by decide, by decide +kernel, by decide +kernel, hwide⟩

end Uncomment

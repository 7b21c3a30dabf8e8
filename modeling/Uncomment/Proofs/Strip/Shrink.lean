import Uncomment.Proofs.Line.Thinning
import Uncomment.Proofs.Line.Unmarked
import Uncomment.Proofs.Strip.Again

/-!
# Stripped texts are shorter and thinner

A row goes away, stays as it is or is replaced by a shorter and thinner one.  Each row is
counted with the line feed behind it, so one that goes away takes at least one byte with
it: unless all rows stay as they are, fewer bytes are put out
(`Strip.Run.eq_or_length_lt`), and the characters that are put out are those of the text,
some of them left out and spaces added (`Strip.Run.exists_thinned`).
-/

namespace Uncomment

namespace Strip

variable {language : Language} {mode next : Mode}

/-- The rows of a text, each with a line feed behind it. -/
def closedRows (rows : List Bytes) : Bytes :=
  rows.flatMap (· ++ [Byte.lineFeed])

theorem length_unlines
    {rows : List Bytes}
    (hne : rows ≠ []) :
    (Bytes.unlines rows).length + 1 = (closedRows rows).length := by
  rw [closedRows, ← Utf8.intercalate_append_sep Byte.lineFeed hne, List.length_append]
  rfl

/-- Whether every line of some rows is unchanged. -/
def AllUnchanged (language : Language) (mode : Mode) (rows : List Bytes) : Prop :=
  ∀ step ∈ Line.feedAll language mode (rows.map fun row => (splitReturn row).1),
    step.1 = .ok .unchanged

theorem allUnchanged_cons_iff
    {row line : Bytes} {hasReturn : Bool} {rows : List Bytes} {result : LineResult}
    (hsplit : splitReturn row = (line, hasReturn))
    (hprocess : Line.process language mode line = .ok (result, next)) :
    AllUnchanged language mode (row :: rows) ↔
      result = .unchanged ∧ AllUnchanged language next rows := by
  simp [AllUnchanged, Line.feedAll_of_process hprocess, hsplit]

theorem length_lt_of_emit
    {row line text out : Bytes} {hasReturn : Bool}
    (hmode : mode.Possible language)
    (hsplit : splitReturn row = (line, hasReturn))
    (hprocess : Line.process language mode line = .ok (.replaced text, next))
    (hemit : emit row hasReturn (.replaced text) = some out) :
    out.length < row.length := by
  have hlt := Line.length_lt_of_replaced hmode hprocess
  rw [eq_of_splitReturn hsplit]
  cases hasReturn with
  | true =>
      cases hemit
      simpa using hlt
  | false =>
      cases hemit
      simpa using hlt

/-- A run leaves all rows as they are, or puts out fewer bytes. -/
theorem Run.eq_or_length_lt
    {rows outs : List Bytes}
    (h : Run language mode rows outs)
    (hmode : mode.Possible language) :
    AllUnchanged language mode rows ∧ outs = rows ∨
      ¬ AllUnchanged language mode rows ∧
        (closedRows outs).length < (closedRows rows).length := by
  induction h with
  | done =>
      exact Or.inl ⟨by simp [AllUnchanged, Line.feedAll], rfl⟩
  | @keep mode next row line out hasReturn result rows outs hsplit hprocess hemit _ ih =>
      have hmore := ih (Line.possible_of_process hmode hprocess)
      rw [allUnchanged_cons_iff hsplit hprocess]
      simp only [closedRows, List.flatMap_cons, List.length_append] at hmore ⊢
      cases result with
      | unchanged =>
          cases hemit
          rcases hmore with ⟨hall, rfl⟩ | ⟨hnot, hlt⟩
          · exact Or.inl ⟨⟨rfl, hall⟩, rfl⟩
          · exact Or.inr ⟨fun hall => hnot hall.2, by omega⟩
      | replaced text =>
          have hlt := length_lt_of_emit hmode hsplit hprocess hemit
          refine Or.inr ⟨by simp, ?_⟩
          rcases hmore with ⟨-, rfl⟩ | ⟨-, hless⟩ <;> omega
      | dropped =>
          cases hemit
  | @drop mode next row line hasReturn rows outs hsplit hprocess _ ih =>
      have hmore := ih (Line.possible_of_process hmode hprocess)
      rw [allUnchanged_cons_iff hsplit hprocess]
      refine Or.inr ⟨by simp, ?_⟩
      simp only [closedRows, List.flatMap_cons, List.length_append, List.length_singleton] at hmore ⊢
      rcases hmore with ⟨-, rfl⟩ | ⟨-, hless⟩ <;> omega

/-- The line of a row of characters is a line of characters. -/
theorem exists_of_splitReturn_encode
    {cs : List Char} {line : Bytes} {hasReturn : Bool}
    (hsplit : splitReturn (Utf8.encode cs) = (line, hasReturn)) :
    ∃ as, line = Utf8.encode as ∧ cs = as ++ if hasReturn then ['\r'] else [] := by
  have hrow := eq_of_splitReturn hsplit
  cases hasReturn with
  | true =>
      obtain ⟨as, bs, rfl, rfl, hbs⟩ := Utf8.exists_of_encode_eq_append hrow rfl
      obtain rfl : bs = ['\r'] := Utf8.encode_injective hbs
      exact ⟨as, rfl, rfl⟩
  | false =>
      exact ⟨cs, by simpa using hrow.symm, by simp⟩

/-- The rows of a text of characters are rows of characters. -/
theorem exists_lines_encode
    (cs : List Char) :
    ∃ css : List (List Char), Bytes.lines (Utf8.encode cs) = css.map Utf8.encode ∧
      ['\n'].intercalate css = cs := by
  exact Utf8.exists_of_unlines_eq_encode (Bytes.lines_ne_nil _) (Bytes.unlines_lines _)

/-- What is put out for a row of characters are characters, thinner than the row. -/
theorem exists_thinned_of_emit
    {cs : List Char} {line out : Bytes} {hasReturn : Bool} {result : LineResult}
    (hmode : mode.Possible language)
    (hsplit : splitReturn (Utf8.encode cs) = (line, hasReturn))
    (hprocess : Line.process language mode line = .ok (result, next))
    (hemit : emit (Utf8.encode cs) hasReturn result = some out) :
    ∃ ds, out = Utf8.encode ds ∧ Utf8.Thins ds cs := by
  cases result with
  | unchanged =>
      cases hemit
      exact ⟨cs, rfl, .refl cs⟩
  | replaced text =>
      obtain ⟨as, rfl, rfl⟩ := exists_of_splitReturn_encode hsplit
      obtain ⟨ds, rfl, hthins⟩ := Line.exists_thinned_of_replaced hmode hprocess
      cases hasReturn with
      | true =>
          cases hemit
          exact ⟨ds ++ ['\r'], by rw [if_pos rfl, Utf8.encode_append]; rfl, hthins.append (.refl _)⟩
      | false =>
          cases hemit
          exact ⟨ds, by simp, by simpa using hthins⟩
  | dropped =>
      cases hemit

/-- The characters that a run puts out are thinner than those of the rows. -/
theorem Run.exists_thinned
    {rows outs : List Bytes} {css : List (List Char)}
    (h : Run language mode rows outs)
    (hmode : mode.Possible language)
    (hrows : rows = css.map Utf8.encode) :
    ∃ dss : List (List Char), outs = dss.map Utf8.encode ∧
      Utf8.Thins (dss.flatMap (· ++ ['\n'])) (css.flatMap (· ++ ['\n'])) := by
  induction h generalizing css with
  | done =>
      exact ⟨[], rfl, .of_sublist (List.nil_sublist _)⟩
  | keep hsplit hprocess hemit _ ih =>
      obtain ⟨cs, css, rfl, rfl, rfl⟩ := List.map_eq_cons_iff.1 hrows.symm
      obtain ⟨ds, rfl, hds⟩ := exists_thinned_of_emit hmode hsplit hprocess hemit
      obtain ⟨dss, rfl, hdss⟩ := ih (Line.possible_of_process hmode hprocess) rfl
      refine ⟨ds :: dss, rfl, ?_⟩
      rw [List.flatMap_cons, List.flatMap_cons]
      exact (hds.append (.refl _)).append hdss
  | drop hsplit hprocess _ ih =>
      obtain ⟨cs, css, rfl, rfl, rfl⟩ := List.map_eq_cons_iff.1 hrows.symm
      obtain ⟨dss, rfl, hdss⟩ := ih (Line.possible_of_process hmode hprocess) rfl
      refine ⟨dss, rfl, hdss.trans (.of_sublist ?_)⟩
      rw [List.flatMap_cons]
      exact List.sublist_append_right _ _

end Strip

/-- A text that has lines in which something changes is stripped to a shorter one. -/
theorem Strip.Run.length_unlines_lt
    {language : Language} {text : Bytes} {outs : List Bytes}
    (h : Run language .normal (Bytes.lines text) outs)
    (hchanged : ¬ AllUnchanged language .normal (Bytes.lines text)) :
    (Bytes.unlines outs).length < text.length := by
  have hlt := ((h.eq_or_length_lt trivial).resolve_left fun hsame => hchanged hsame.1).2
  rw [← length_unlines (Bytes.lines_ne_nil text), Bytes.unlines_lines] at hlt
  cases outs with
  | nil =>
      -- Only a text without any byte has none to lose, and its line is unchanged.
      refine List.length_pos_iff.2 ?_
      rintro rfl
      refine hchanged fun step hstep => ?_
      rw [List.mem_singleton.1 hstep]
      rfl
  | cons first others =>
      rw [← length_unlines (List.cons_ne_nil first others)] at hlt
      omega

/-- The characters that a text is stripped to are thinner than its own. -/
theorem Strip.Run.exists_thinned_unlines
    {language : Language} {cs : List Char} {outs : List Bytes}
    (h : Run language .normal (Bytes.lines (Utf8.encode cs)) outs) :
    ∃ ds, Bytes.unlines outs = Utf8.encode ds ∧ Utf8.Thins ds cs := by
  obtain ⟨css, hcss, rfl⟩ := exists_lines_encode cs
  obtain ⟨dss, rfl, hthins⟩ := h.exists_thinned trivial hcss
  refine ⟨['\n'].intercalate dss, (Utf8.encode_intercalate dss).symm, ?_⟩
  cases dss with
  | nil =>
      exact .of_sublist (List.nil_sublist _)
  | cons first others =>
      have hne : css ≠ [] := by
        rintro rfl
        exact Bytes.lines_ne_nil _ hcss
      rw [← Utf8.intercalate_append_sep _ hne,
        ← Utf8.intercalate_append_sep _ (List.cons_ne_nil first others)] at hthins
      exact hthins.of_append_right

/--
Stripping neither adds to a text nor makes anything up.  A text is stripped to itself
exactly if all its lines are unchanged, and to a shorter one otherwise; what is left are,
spaces apart, some of its characters in their order.  A text in which no start token of
the language stands is stripped to itself.
-/
theorem strip_shrinks
    (language : Language)
    (text : String) :
    (∀ out, strip language (Bytes.ofString text) = .ok out →
      (out = Bytes.ofString text ↔
        Strip.AllUnchanged language .normal (Bytes.lines (Bytes.ofString text))) ∧
      (out ≠ Bytes.ofString text → out.length < (Bytes.ofString text).length) ∧
      ∃ left : String, out = Bytes.ofString left ∧ Utf8.Thins left.toList text.toList) ∧
    (language.Unmarked (Bytes.ofString text) →
      strip language (Bytes.ofString text) = .ok (Bytes.ofString text)) := by
  constructor
  · intro out hout
    have hsame (hall : Strip.AllUnchanged language .normal
        (Bytes.lines (Bytes.ofString text))) : out = Bytes.ofString text := by
      rw [strip_of_unchanged hall] at hout
      exact (Except.ok.inj hout).symm
    obtain ⟨outs, hrun, rfl⟩ := Strip.exists_run_of_strip hout
    have hlt := hrun.length_unlines_lt
    refine ⟨⟨fun heq => ?_, hsame⟩, fun hne => hlt fun hall => hne (hsame hall), ?_⟩
    · by_contra hchanged
      exact Nat.lt_irrefl _ (heq ▸ hlt hchanged)
    · obtain ⟨ds, hds, hthins⟩ := @Strip.Run.exists_thinned_unlines _ text.toList _ hrun
      refine ⟨String.ofList ds, ?_, ?_⟩
      · rw [hds, Bytes.ofString, String.toList_ofList, Utf8.encode]
      · rwa [String.toList_ofList]
  · intro hunmarked
    have hplaced : Utf8.Placed (Bytes.ofString text) := Utf8.placed_encode text.toList
    have hlines (line : Bytes) (hline : line ∈ (Bytes.lines (Bytes.ofString text)).map
        fun row => (Strip.splitReturn row).1) : line <:+: Bytes.ofString text := by
      obtain ⟨row, hrow, rfl⟩ := List.mem_map.1 hline
      exact (Strip.splitReturn_isPrefix row).isInfix.trans (Bytes.isInfix_of_mem_lines hrow).2
    refine strip_of_unchanged (Line.unchanged_of_unmarked ?_ ?_ rfl)
    · exact fun line hline => hplaced.of_isInfix (hlines line hline)
    · exact fun line hline => hunmarked.of_isInfix (hlines line hline)

/-- In Rust a raw string is kept, a block comment leaves a space and two lines go away. -/
theorem strip_shrinks_rust :
    strip .rust (Bytes.ofString "// é\nlet a/* ß */= r#\"//\"#; // →\n/*\n*/") =
        .ok (Bytes.ofString "let a = r#\"//\"#;") ∧
      (Bytes.ofString "let a = r#\"//\"#;").length <
        (Bytes.ofString "// é\nlet a/* ß */= r#\"//\"#; // →\n/*\n*/").length ∧
      Language.rust.Unmarked (Bytes.ofString "'/' \n 'é") ∧
      strip .rust (Bytes.ofString "'/' \n 'é") = .ok (Bytes.ofString "'/' \n 'é") := by
  have hstrip : strip .rust (Bytes.ofString "// é\nlet a/* ß */= r#\"//\"#; // →\n/*\n*/") =
      .ok (Bytes.ofString "let a = r#\"//\"#;") := by
    decide +kernel
  have hunmarked : Language.rust.Unmarked (Bytes.ofString "'/' \n 'é") := by
    unfold Language.Unmarked
    decide +kernel
  obtain ⟨-, hlt, -⟩ := (strip_shrinks .rust _).1 _ hstrip
  exact ⟨hstrip, hlt (by decide), hunmarked, (strip_shrinks .rust _).2 hunmarked⟩

end Uncomment

import Uncomment.Proofs.Strip.Again

/-!
# Line endings

`crlf` puts a carriage return before every line feed.  A line is stripped without the
carriage return at its end, so a text with such line endings is stripped to what the text
without them is stripped to, with carriage returns again
(`Strip.Run.withReturns`).

There is one exception (`strip_crlf`).  The line feed between two lines goes away with the
later one, but the carriage return belongs to the earlier one.  If the last line of a text
goes away and one before it stays, a carriage return without a line feed is left at the
end.
-/

namespace Uncomment

namespace Bytes

/-- A text with a carriage return before every line feed. -/
def crlf (text : Bytes) : Bytes :=
  text.flatMap fun b => if b == Byte.lineFeed then [Byte.carriageReturn, b] else [b]

/-- Rows with a carriage return at the end of each but the last. -/
def withReturns : List Bytes → List Bytes
  | [] => []
  | [row] => [row]
  | row :: next :: more => (row ++ [Byte.carriageReturn]) :: withReturns (next :: more)

theorem crlf_append
    (front back : Bytes) :
    crlf (front ++ back) = crlf front ++ crlf back := by
  exact List.flatMap_append

/-- Without line feeds a text stays as it is. -/
theorem crlf_of_notMem
    {text : Bytes}
    (h : Byte.lineFeed ∉ text) :
    crlf text = text := by
  induction text with
  | nil =>
      rfl
  | cons b rest ih =>
      rw [List.mem_cons, not_or] at h
      have hb : (b == Byte.lineFeed) = false := by
        rw [beq_eq_false_iff_ne]
        exact fun heq => h.1 heq.symm
      rw [crlf, List.flatMap_cons, hb]
      exact congrArg (b :: ·) (ih h.2)

theorem unlines_cons
    {rows : List Bytes}
    (row : Bytes)
    (hne : rows ≠ []) :
    unlines (row :: rows) = row ++ [Byte.lineFeed] ++ unlines rows := by
  exact List.intercalate_cons_of_ne_nil hne

theorem withReturns_ne_nil
    {rows : List Bytes}
    (hne : rows ≠ []) :
    withReturns rows ≠ [] := by
  cases rows with
  | nil => exact absurd rfl hne
  | cons row more => cases more <;> simp [withReturns]

theorem withReturns_cons
    {rows : List Bytes}
    (row : Bytes)
    (hne : rows ≠ []) :
    withReturns (row :: rows) = (row ++ [Byte.carriageReturn]) :: withReturns rows := by
  cases rows with
  | nil => exact absurd rfl hne
  | cons next more => rfl

theorem lineFeed_notMem_withReturns
    {rows : List Bytes}
    (hrows : ∀ row ∈ rows, Byte.lineFeed ∉ row) :
    ∀ row ∈ withReturns rows, Byte.lineFeed ∉ row := by
  induction rows with
  | nil =>
      exact hrows
  | cons row more ih =>
      by_cases hne : more = []
      · subst hne
        exact hrows
      · rw [List.forall_mem_cons] at hrows
        rw [withReturns_cons row hne, List.forall_mem_cons]
        refine ⟨fun hmem => ?_, ih hrows.2⟩
        rcases List.mem_append.1 hmem with hmem | hmem
        · exact hrows.1 hmem
        · cases List.mem_singleton.1 hmem

/-- Rows with carriage returns are put together to a text with carriage returns. -/
theorem unlines_withReturns
    {rows : List Bytes}
    (hrows : ∀ row ∈ rows, Byte.lineFeed ∉ row) :
    unlines (withReturns rows) = crlf (unlines rows) := by
  induction rows with
  | nil =>
      rfl
  | cons row more ih =>
      rw [List.forall_mem_cons] at hrows
      by_cases hne : more = []
      · subst hne
        have hsingle : unlines [row] = row := List.intercalate_singleton
        rw [withReturns, hsingle, crlf_of_notMem hrows.1]
      · calc
          unlines (withReturns (row :: more)) =
              row ++ [Byte.carriageReturn] ++ [Byte.lineFeed] ++ unlines (withReturns more) := by
            rw [withReturns_cons row hne, unlines_cons _ (withReturns_ne_nil hne)]
          _ = crlf row ++ crlf [Byte.lineFeed] ++ crlf (unlines more) := by
            rw [ih hrows.2, crlf_of_notMem hrows.1, List.append_assoc row]
            rfl
          _ = crlf (unlines (row :: more)) := by
            rw [unlines_cons row hne, crlf_append, crlf_append]

/-- With carriage returns at the ends of all rows there is one more at the end. -/
theorem unlines_map_return
    {rows : List Bytes}
    (hne : rows ≠ []) :
    unlines (rows.map (· ++ [Byte.carriageReturn])) =
      unlines (withReturns rows) ++ [Byte.carriageReturn] := by
  induction rows with
  | nil =>
      exact absurd rfl hne
  | cons row more ih =>
      by_cases hmore : more = []
      · subst hmore
        simp [withReturns, unlines]
      · have hmap : more.map (· ++ [Byte.carriageReturn]) ≠ [] := by simpa using hmore
        rw [List.map_cons, unlines_cons _ hmap, ih hmore, withReturns_cons row hmore,
          unlines_cons _ (withReturns_ne_nil hmore), List.append_assoc _ _ [Byte.carriageReturn]]

/-- The lines of a text get carriage returns with the text. -/
theorem lines_crlf
    (text : Bytes) :
    lines (crlf text) = withReturns (lines text) := by
  have hrows : ∀ row ∈ lines text, Byte.lineFeed ∉ row :=
    fun row hrow => (isInfix_of_mem_lines hrow).1
  calc
    lines (crlf text) = lines (unlines (withReturns (lines text))) := by
      rw [unlines_withReturns hrows, unlines_lines]
    _ = withReturns (lines text) :=
      lines_unlines (withReturns_ne_nil (lines_ne_nil text)) (lineFeed_notMem_withReturns hrows)

end Bytes

namespace Strip

variable {language : Language} {mode next : Mode} {row : Bytes} {rows outs : List Bytes}

/-- The last of some lines goes away. -/
def LastDropped (language : Language) (mode : Mode) (lines : List Bytes) : Prop :=
  ∃ next, (Line.feedAll language mode lines).getLast? = some (.ok .dropped, next)

/-- The last of some lines goes away, and one before it stays. -/
def EndsDropped (language : Language) (mode : Mode) (lines : List Bytes) : Prop :=
  LastDropped language mode lines ∧
    ∃ step ∈ Line.feedAll language mode lines, step.1 ≠ .ok .dropped

/-- The last line goes away if it is the only one and does, or if it does among the others. -/
theorem lastDropped_cons_iff
    {line : Bytes} {result : LineResult}
    (hprocess : Line.process language mode line = .ok (result, next))
    (more : List Bytes) :
    LastDropped language mode (line :: more) ↔
      more = [] ∧ result = .dropped ∨ LastDropped language next more := by
  rw [LastDropped, Line.feedAll_of_process hprocess]
  cases more with
  | nil =>
      simp [LastDropped, Line.feedAll]
  | cons other others =>
      rw [LastDropped, Line.feedAll, List.getLast?_cons_cons]
      simp

theorem splitReturn_of_notMem
    (h : Byte.carriageReturn ∉ row) :
    splitReturn row = (row, false) := by
  rw [splitReturn, if_neg]
  exact fun hlast => h (List.mem_of_getLast? hlast)

/-- A row with a carriage return is put out with it. -/
theorem emit_append
    {result : LineResult} {out : Bytes}
    (h : emit row false result = some out) :
    emit (row ++ [Byte.carriageReturn]) true result = some (out ++ [Byte.carriageReturn]) := by
  cases result with
  | unchanged | replaced =>
      cases h
      rfl
  | dropped =>
      cases h

/--
Rows with carriage returns at the ends of all but the last have the run of the rows
without, and all that is put out has carriage returns, but not the last row.
-/
theorem Run.withReturns
    (h : Run language mode rows outs)
    (hreturn : ∀ row ∈ rows, Byte.carriageReturn ∉ row) :
    LastDropped language mode rows ∧
        Run language mode (Bytes.withReturns rows) (outs.map (· ++ [Byte.carriageReturn])) ∨
      ¬ LastDropped language mode rows ∧ (rows ≠ [] → outs ≠ []) ∧
        Run language mode (Bytes.withReturns rows) (Bytes.withReturns outs) := by
  induction h with
  | done =>
      refine Or.inr ⟨?_, fun hne => absurd rfl hne, .done⟩
      simp [LastDropped, Line.feedAll]
  | @keep mode next row line out hasReturn result rows outs hsplit hprocess hemit hrun ih =>
      rw [List.forall_mem_cons] at hreturn
      rw [splitReturn_of_notMem hreturn.1] at hsplit
      cases hsplit
      rw [lastDropped_cons_iff hprocess]
      by_cases hne : rows = []
      · subst hne
        cases hrun
        refine Or.inr ⟨?_, by simp, .keep (splitReturn_of_notMem hreturn.1) hprocess hemit .done⟩
        rintro (⟨-, rfl⟩ | hlast)
        · cases hemit
        · simp [LastDropped, Line.feedAll] at hlast
      · rw [Bytes.withReturns_cons row hne]
        have hkeep {lefts : List Bytes} (hlefts : Run language next (Bytes.withReturns rows) lefts) :=
          Run.keep (splitReturn_append row) hprocess (emit_append hemit) hlefts
        rcases ih hreturn.2 with ⟨hlast, hrun'⟩ | ⟨hlast, houts, hrun'⟩
        · exact Or.inl ⟨Or.inr hlast, hkeep hrun'⟩
        · rw [Bytes.withReturns_cons out (houts hne)]
          exact Or.inr ⟨by simp [hne, hlast], by simp, hkeep hrun'⟩
  | @drop mode next row line hasReturn rows outs hsplit hprocess hrun ih =>
      rw [List.forall_mem_cons] at hreturn
      rw [splitReturn_of_notMem hreturn.1] at hsplit
      cases hsplit
      rw [lastDropped_cons_iff hprocess]
      by_cases hne : rows = []
      · subst hne
        cases hrun
        refine Or.inl ⟨Or.inl ⟨rfl, rfl⟩, ?_⟩
        exact .drop (splitReturn_of_notMem hreturn.1) hprocess .done
      · rw [Bytes.withReturns_cons row hne]
        have hdrop {lefts : List Bytes} (hlefts : Run language next (Bytes.withReturns rows) lefts) :=
          Run.drop (splitReturn_append row) hprocess hlefts
        rcases ih hreturn.2 with ⟨hlast, hrun'⟩ | ⟨hlast, houts, hrun'⟩
        · exact Or.inl ⟨Or.inr hlast, hdrop hrun'⟩
        · exact Or.inr ⟨by simp [hne, hlast], fun _ => houts hne, hdrop hrun'⟩

/-- Nothing is put out exactly if all lines go away. -/
theorem Run.eq_nil_iff
    (h : Run language mode rows outs)
    (hreturn : ∀ row ∈ rows, Byte.carriageReturn ∉ row) :
    outs = [] ↔ ∀ step ∈ Line.feedAll language mode rows, step.1 = .ok .dropped := by
  induction h with
  | done =>
      simp [Line.feedAll]
  | keep hsplit hprocess hemit =>
      rw [List.forall_mem_cons] at hreturn
      rw [splitReturn_of_notMem hreturn.1] at hsplit
      cases hsplit
      rw [Line.feedAll_of_process hprocess, List.forall_mem_cons]
      constructor
      · intro hnil
        cases hnil
      · rintro ⟨hdropped, -⟩
        cases hdropped
        cases hemit
  | drop hsplit hprocess _ ih =>
      rw [List.forall_mem_cons] at hreturn
      rw [splitReturn_of_notMem hreturn.1] at hsplit
      cases hsplit
      rw [Line.feedAll_of_process hprocess, List.forall_mem_cons, ih hreturn.2]
      exact (and_iff_right rfl).symm

end Strip

/--
A text without carriage returns that is stripped is also stripped with a carriage return
before every line feed.  What is left gets the same carriage returns, unless the last line
goes away and one before it stays: then there is one more at the end.
-/
theorem strip_crlf
    {language : Language} {text out : Bytes}
    (hreturn : Byte.carriageReturn ∉ text)
    (h : strip language text = .ok out) :
    (strip language (Bytes.crlf text) = .ok (Bytes.crlf out) ↔
      ¬ Strip.EndsDropped language .normal (Bytes.lines text)) ∧
    (Strip.EndsDropped language .normal (Bytes.lines text) →
      strip language (Bytes.crlf text) = .ok (Bytes.crlf out ++ [Byte.carriageReturn])) := by
  obtain ⟨outs, hrun, rfl⟩ := Strip.exists_run_of_strip h
  have hrows : ∀ row ∈ Bytes.lines text, Byte.carriageReturn ∉ row :=
    fun row hrow hmem => hreturn ((Bytes.isInfix_of_mem_lines hrow).2.mem hmem)
  have houts : Bytes.unlines (Bytes.withReturns outs) = Bytes.crlf (Bytes.unlines outs) :=
    Bytes.unlines_withReturns
      (hrun.lineFeed_notMem fun row hrow => (Bytes.isInfix_of_mem_lines hrow).1)
  have hnil := hrun.eq_nil_iff hrows
  have hstrip {lefts : List Bytes}
      (hlefts : Strip.Run language .normal (Bytes.withReturns (Bytes.lines text)) lefts) :
      strip language (Bytes.crlf text) = .ok (Bytes.unlines lefts) := by
    rw [← Bytes.lines_crlf] at hlefts
    exact Strip.strip_of_run hlefts
  rcases hrun.withReturns hrows with ⟨hlast, hrun'⟩ | ⟨hlast, -, hrun'⟩
  · by_cases hempty : outs = []
    · subst hempty
      have hends : ¬ Strip.EndsDropped language .normal (Bytes.lines text) := by
        rintro ⟨-, step, hstep, hkept⟩
        exact hkept (hnil.1 rfl step hstep)
      exact ⟨iff_of_true (hstrip hrun') hends, fun h => absurd h hends⟩
    · have hends : Strip.EndsDropped language .normal (Bytes.lines text) := by
        refine ⟨hlast, ?_⟩
        by_contra hnone
        push Not at hnone
        exact hempty (hnil.2 hnone)
      have hmore := hstrip hrun'
      rw [Bytes.unlines_map_return hempty, houts] at hmore
      refine ⟨iff_of_false ?_ (not_not_intro hends), fun _ => hmore⟩
      rw [hmore, Except.ok.injEq]
      simp
  · have hends : ¬ Strip.EndsDropped language .normal (Bytes.lines text) := fun h => hlast h.1
    rw [← houts]
    exact ⟨iff_of_true (hstrip hrun') hends, fun h => absurd h hends⟩

/--
A comment in the last line goes away and leaves a carriage return behind; with a line feed
at the end of the text it does not.
-/
theorem strip_crlf_python :
    Byte.carriageReturn ∉ Bytes.ofString "x = 1 # c\n# gone" ∧
      strip .python (Bytes.ofString "x = 1 # c\n# gone") = .ok (Bytes.ofString "x = 1") ∧
      Strip.EndsDropped .python .normal (Bytes.lines (Bytes.ofString "x = 1 # c\n# gone")) ∧
      strip .python (Bytes.crlf (Bytes.ofString "x = 1 # c\n# gone")) =
        .ok (Bytes.crlf (Bytes.ofString "x = 1") ++ [Byte.carriageReturn]) ∧
      Byte.carriageReturn ∉ Bytes.ofString "x = 1 # c\n# gone\n" ∧
      strip .python (Bytes.ofString "x = 1 # c\n# gone\n") = .ok (Bytes.ofString "x = 1\n") ∧
      ¬ Strip.EndsDropped .python .normal
        (Bytes.lines (Bytes.ofString "x = 1 # c\n# gone\n")) ∧
      strip .python (Bytes.crlf (Bytes.ofString "x = 1 # c\n# gone\n")) =
        .ok (Bytes.crlf (Bytes.ofString "x = 1\n")) := by
  have hopen : strip .python (Bytes.ofString "x = 1 # c\n# gone") =
      .ok (Bytes.ofString "x = 1") := by
    decide +kernel
  have hclosed : strip .python (Bytes.ofString "x = 1 # c\n# gone\n") =
      .ok (Bytes.ofString "x = 1\n") := by
    decide +kernel
  have hdropped : Line.feedAll .python .normal
      (Bytes.lines (Bytes.ofString "x = 1 # c\n# gone")) =
        [(.ok (.replaced (Bytes.ofString "x = 1")), .normal), (.ok .dropped, .normal)] := by
    decide +kernel
  have hempty : Line.feedAll .python .normal
      (Bytes.lines (Bytes.ofString "x = 1 # c\n# gone\n")) =
        [(.ok (.replaced (Bytes.ofString "x = 1")), .normal), (.ok .dropped, .normal),
          (.ok .unchanged, .normal)] := by
    decide +kernel
  have hends : Strip.EndsDropped .python .normal
      (Bytes.lines (Bytes.ofString "x = 1 # c\n# gone")) := by
    rw [Strip.EndsDropped, Strip.LastDropped, hdropped]
    exact ⟨⟨_, rfl⟩, _, List.mem_cons_self, by simp⟩
  have hstays : ¬ Strip.EndsDropped .python .normal
      (Bytes.lines (Bytes.ofString "x = 1 # c\n# gone\n")) := by
    rw [Strip.EndsDropped, Strip.LastDropped, hempty]
    simp
  refine ⟨by decide, hopen, hends, ?_, by decide, hclosed, hstays, ?_⟩
  · exact (strip_crlf (by decide) hopen).2 hends
  · exact (strip_crlf (by decide) hclosed).1.2 hstays

end Uncomment

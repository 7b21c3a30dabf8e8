import Uncomment.Proofs.Gate.Decision
import Uncomment.Proofs.Strip.Shrink

/-!
# Stripped contents at the gate

A stripped content is no larger than before, and each of its lines is no longer than the
line that it comes from (`Strip.Run.forall₂_length_le`): a line is put out for every row that
does not go away (`Strip.remaining`), with the carriage return of the row.  Its characters
are some of those that were there, and spaces.

So what passes the gate passes it again once it is stripped, with one exception: a zero byte
beyond the bytes that are searched may have moved forward (`stripped_passes`).
-/

namespace Uncomment

/-- A zero byte in a text of characters that have become fewer was there before. -/
theorem Utf8.Thins.zero_mem
    {cs ds : List Char}
    (h : Thins ds cs)
    (hzero : 0 ∈ encode ds) :
    0 ∈ encode cs := by
  obtain ⟨c, hc, hbyte⟩ := List.mem_flatMap.1 hzero
  obtain ⟨hbytes, hcode⟩ := utf8EncodeChar_eq_singleton hbyte (by decide)
  have hspace : c ≠ ' ' := by
    rintro rfl
    cases hcode
  have hmem : c ∈ cs := by
    have hleft := h.subset (List.mem_filter.2 ⟨hc, bne_iff_ne.2 hspace⟩)
    exact (List.mem_filter.1 hleft).1
  exact List.mem_flatMap.2 ⟨c, hmem, hbyte⟩

namespace Strip

variable {language : Language} {mode next : Mode} {rows outs : List Bytes}

/-- The rows of a text that do not go away, from a mode on. -/
def remaining (language : Language) : Mode → List Bytes → List Bytes
  | _, [] => []
  | mode, row :: more =>
      let step := Line.feed language mode (splitReturn row).1
      if step.1 = .ok .dropped then remaining language step.2 more
      else row :: remaining language step.2 more

theorem remaining_cons
    {row line : Bytes} {hasReturn : Bool} {result : LineResult}
    (hsplit : splitReturn row = (line, hasReturn))
    (hprocess : Line.process language mode line = .ok (result, next))
    (more : List Bytes) :
    remaining language mode (row :: more) =
      if result = .dropped then remaining language next more
      else row :: remaining language next more := by
  have hfeed : Line.feed language mode line = (.ok result, next) := by
    rw [Line.feed, hprocess]
  rw [remaining, hsplit, hfeed]
  simp only [Except.ok.injEq]

/-- What remains of some rows are some of them, in their order. -/
theorem remaining_sublist
    (language : Language) (mode : Mode) (rows : List Bytes) :
    (remaining language mode rows).Sublist rows := by
  induction rows generalizing mode with
  | nil => exact List.Sublist.refl _
  | cons row more ih =>
      rw [remaining]
      split
      · exact (ih _).cons row
      · exact (ih _).cons_cons row

theorem length_le_of_emit
    {row line out : Bytes} {hasReturn : Bool} {result : LineResult}
    (hmode : mode.Possible language)
    (hsplit : splitReturn row = (line, hasReturn))
    (hprocess : Line.process language mode line = .ok (result, next))
    (hemit : emit row hasReturn result = some out) :
    out.length ≤ row.length := by
  cases result with
  | unchanged =>
      cases hemit
      exact Nat.le_refl _
  | replaced text =>
      exact Nat.le_of_lt (length_lt_of_emit hmode hsplit hprocess hemit)
  | dropped =>
      cases hemit

/-- Every row that is put out is no longer than the one it comes from. -/
theorem Run.forall₂_length_le
    (h : Run language mode rows outs)
    (hmode : mode.Possible language) :
    List.Forall₂ (fun out row => out.length ≤ row.length) outs (remaining language mode rows) := by
  induction h with
  | done =>
      exact .nil
  | @keep mode next row line out hasReturn result rows outs hsplit hprocess hemit _ ih =>
      have hkept : result ≠ .dropped := by
        rintro rfl
        cases hemit
      rw [remaining_cons hsplit hprocess, if_neg hkept]
      exact .cons (length_le_of_emit hmode hsplit hprocess hemit)
        (ih (Line.possible_of_process hmode hprocess))
  | drop hsplit hprocess _ ih =>
      rw [remaining_cons hsplit hprocess, if_pos rfl]
      exact ih (Line.possible_of_process hmode hprocess)

/-- A text is stripped to one that is no longer. -/
theorem Run.length_unlines_le
    {text : Bytes}
    (h : Run language .normal (Bytes.lines text) outs) :
    (Bytes.unlines outs).length ≤ text.length := by
  by_cases hsame : AllUnchanged language .normal (Bytes.lines text)
  · have hstrip := strip_of_run h
    rw [strip_of_unchanged hsame] at hstrip
    rw [Except.ok.inj hstrip]
  · exact Nat.le_of_lt (h.length_unlines_lt hsame)

/-- The lines of a stripped text are the rows that were put out, if there are any. -/
theorem Run.splitOn_unlines
    {text : Bytes}
    (h : Run language .normal (Bytes.lines text) outs)
    (hne : outs ≠ []) :
    (Bytes.unlines outs).splitOn Byte.lineFeed = outs := by
  rw [← Bytes.lines_eq_splitOn]
  exact Bytes.lines_unlines hne
    (h.lineFeed_notMem fun row hrow => (Bytes.isInfix_of_mem_lines hrow).1)

end Strip

namespace Gate

variable {language : Language} {limits : Limits} {text out : Bytes}

/-- A content that passes stays within the limits if its size and its lines do not grow. -/
theorem check_of_no_growth
    (h : check limits false text = none)
    (hlength : out.length ≤ text.length)
    (hrows : ∀ line ∈ out.splitOn Byte.lineFeed,
      line = [] ∨ ∃ row ∈ text.splitOn Byte.lineFeed, line.length ≤ row.length) :
    IsBinary out ∧ check limits false out = some .binary ∨
      ¬ IsBinary out ∧ check limits false out = none := by
  simp only [check_eq_iff] at h ⊢
  cases h with
  | passes hsmall _ hshort =>
      have hsize : ¬ IsTooLarge limits false out := by
        rintro ⟨-, hlarge⟩
        exact hsmall ⟨rfl, Nat.lt_of_lt_of_le hlarge hlength⟩
      by_cases hbinary : IsBinary out
      · exact Or.inl ⟨hbinary, .binary hsize hbinary⟩
      · refine Or.inr ⟨hbinary, .passes hsize hbinary (Or.inr fun line hline => ?_)⟩
        have hwithin := hshort.resolve_left (by simp)
        rcases hrows line hline with rfl | ⟨row, hrow, hle⟩
        · exact Nat.zero_le _
        · exact hle.trans (hwithin row hrow)

end Gate

/--
A content that passes the gate passes it again once it is stripped, or is found to be binary
by a zero byte that has moved forward; without a zero byte it passes.  Each line of a stripped
content, its carriage return included, is no longer than the one of the rows that remain from
which it comes; if none remains, nothing is left.
-/
theorem stripped_passes
    {language : Language} {text out : Bytes}
    (h : strip language text = .ok out) :
    (∀ limits, Gate.check limits false text = none →
      (Gate.check limits false out = none ∨
        0 ∈ out.take 512 ∧ Gate.check limits false out = some .binary) ∧
      (0 ∉ text → Gate.check limits false out = none)) ∧
    (Strip.remaining language .normal (text.splitOn Byte.lineFeed) = [] ∧ out = [] ∨
      List.Forall₂ (fun line row => line.length ≤ row.length) (out.splitOn Byte.lineFeed)
        (Strip.remaining language .normal (text.splitOn Byte.lineFeed))) := by
  obtain ⟨outs, hrun, rfl⟩ := Strip.exists_run_of_strip h
  have hlength := hrun.length_unlines_le
  have hlines := hrun.forall₂_length_le trivial
  rw [← Bytes.lines_eq_splitOn text]
  have hrows : Strip.remaining language .normal (Bytes.lines text) = [] ∧ outs = [] ∨
      List.Forall₂ (fun line row => line.length ≤ row.length)
        ((Bytes.unlines outs).splitOn Byte.lineFeed)
        (Strip.remaining language .normal (Bytes.lines text)) := by
    by_cases hne : outs = []
    · subst hne
      exact Or.inl ⟨List.forall₂_nil_left_iff.1 hlines, rfl⟩
    · rw [hrun.splitOn_unlines hne]
      exact Or.inr hlines
  refine ⟨fun limits hpass => ?_, hrows.imp_left fun hnil => ⟨hnil.1, by rw [hnil.2]; rfl⟩⟩
  obtain ⟨source, rfl⟩ := Gate.exists_ofString_of_check hpass
  obtain ⟨ds, hds, hthins⟩ := @Strip.Run.exists_thinned_unlines _ source.toList _ hrun
  have hstring : ∃ left : String, Bytes.ofString left = Bytes.unlines outs := by
    rw [← Utf8.valid_iff_exists_ofString, Utf8.valid_iff_exists_encode]
    exact ⟨ds, hds.symm⟩
  have hwithin : ∀ line ∈ (Bytes.unlines outs).splitOn Byte.lineFeed, line = [] ∨
      ∃ row ∈ (Bytes.ofString source).splitOn Byte.lineFeed, line.length ≤ row.length := by
    intro line hline
    rcases hrows with ⟨-, rfl⟩ | hforall
    · exact Or.inl (List.mem_singleton.1 hline)
    · obtain ⟨⟨index, hlt⟩, rfl⟩ := List.mem_iff_get.1 hline
      have hlt' := hlt
      rw [hforall.length_eq] at hlt'
      have hrow := (Strip.remaining_sublist language .normal _).subset (List.getElem_mem hlt')
      rw [← Bytes.lines_eq_splitOn (Bytes.ofString source)]
      exact Or.inr ⟨_, hrow, hforall.get hlt hlt'⟩
  rcases Gate.check_of_no_growth hpass hlength hwithin with ⟨hbinary, hcheck⟩ | ⟨-, hcheck⟩
  · have hzero := hbinary.resolve_right (not_not.2 hstring)
    refine ⟨Or.inr ⟨hzero, hcheck⟩, fun hnone => absurd (hthins.zero_mem ?_) hnone⟩
    rw [← hds]
    exact List.mem_of_mem_take hzero
  · exact ⟨Or.inl hcheck, fun _ => hcheck⟩

/--
In C a comment and a line go away, and the carriage return stays.  A zero byte beyond those
that are searched moves forward with its text, which is found to be binary then.
-/
theorem stripped_passes_zero_byte :
    strip .c (Bytes.ofString "a/* b */c // d\r\n// e\nf") = .ok (Bytes.ofString "a c\r\nf") ∧
      Gate.check ⟨30, 20⟩ false (Bytes.ofString "a/* b */c // d\r\n// e\nf") = none ∧
      Gate.check ⟨30, 20⟩ false (Bytes.ofString "a c\r\nf") = none ∧
      List.Forall₂ (fun line row => line.length ≤ row.length)
        ((Bytes.ofString "a c\r\nf").splitOn Byte.lineFeed)
        (["a/* b */c // d\r", "f"].map Bytes.ofString) ∧
      strip .c (Bytes.ofString "/*" ++ List.replicate 512 0x61 ++ Bytes.ofString "*/x\x00") =
        .ok (Bytes.ofString "x\x00") ∧
      Gate.check {} false
        (Bytes.ofString "/*" ++ List.replicate 512 0x61 ++ Bytes.ofString "*/x\x00") = none ∧
      (Gate.check {} false (Bytes.ofString "x\x00") = none ∨
        0 ∈ (Bytes.ofString "x\x00").take 512 ∧
          Gate.check {} false (Bytes.ofString "x\x00") = some .binary) := by
  have hstrip : strip .c (Bytes.ofString "a/* b */c // d\r\n// e\nf") =
      .ok (Bytes.ofString "a c\r\nf") := by
    decide +kernel
  have hpass : Gate.check ⟨30, 20⟩ false (Bytes.ofString "a/* b */c // d\r\n// e\nf") = none := by
    decide +kernel
  have hremaining : Strip.remaining .c .normal
      ((Bytes.ofString "a/* b */c // d\r\n// e\nf").splitOn Byte.lineFeed) =
        ["a/* b */c // d\r", "f"].map Bytes.ofString := by
    decide +kernel
  have hzero : strip .c (Bytes.ofString "/*" ++ List.replicate 512 0x61 ++
      Bytes.ofString "*/x\x00") = .ok (Bytes.ofString "x\x00") := by
    decide +kernel
  have hlong : Gate.check {} false (Bytes.ofString "/*" ++ List.replicate 512 0x61 ++
      Bytes.ofString "*/x\x00") = none := by
    decide +kernel
  obtain ⟨hgate, hlines⟩ := stripped_passes hstrip
  rw [hremaining] at hlines
  exact ⟨hstrip, hpass, (hgate _ hpass).2 (by decide), hlines.resolve_left (by simp), hzero,
    hlong, ((stripped_passes hzero).1 _ hlong).1⟩

end Uncomment

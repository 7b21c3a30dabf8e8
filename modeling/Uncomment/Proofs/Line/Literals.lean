import Uncomment.Proofs.Lexer.Closing
import Uncomment.Proofs.Line.Exactness
import Uncomment.Proofs.Line.Outcome
import Uncomment.Proofs.Strip.Rows

/-!
# Literals are kept

The bytes that are read inside literals are not comments, whatever they look
like.  `Line.literalOffsets` lists the offsets at which a line is read inside a
literal: where the cursor of a pruning stands in a literal, and, in a line that
starts in one, everything up to the closing delimiter.

Every such byte comes out again, in order, with one exception
(`Line.literals_sublist_emit`): a line from which a comment was removed loses the
spaces and tabs at its end, also if they lie in a literal that goes on in the next
line (`Line.trailing_blanks_of_template_lost`).
-/

namespace Uncomment

namespace Bytes

/-- The bytes of a text at the given offsets. -/
def select (text : Bytes) (offsets : List Nat) : Bytes :=
  offsets.filterMap (text[·]?)

/-- What is selected at increasing offsets stands in the text in the same order. -/
theorem select_sublist_drop
    {text : Bytes} {offsets : List Nat} {low : Nat}
    (hsorted : offsets.Pairwise (· < ·))
    (hlow : ∀ offset ∈ offsets, low ≤ offset) :
    (select text offsets).Sublist (text.drop low) := by
  induction offsets generalizing low with
  | nil =>
      exact List.nil_sublist _
  | cons offset more ih =>
      rw [List.pairwise_cons] at hsorted
      have hmore := ih hsorted.2 (fun later hlater => hsorted.1 later hlater)
      have htail : (text.drop offset).Sublist (text.drop low) :=
        List.drop_sublist_drop_left text (hlow offset List.mem_cons_self)
      refine List.Sublist.trans ?_ htail
      cases hget : text[offset]? with
      | none =>
          rw [select, List.filterMap_cons, hget]
          exact hmore.trans (List.drop_sublist_drop_left text (Nat.le_succ offset))
      | some b =>
          obtain ⟨hlt, rfl⟩ := List.getElem?_eq_some_iff.1 hget
          rw [select, List.filterMap_cons, hget, List.drop_eq_getElem_cons hlt]
          exact hmore.cons_cons _

/-- Selecting a stretch of offsets below a limit. -/
theorem select_range'_filter
    (text : Bytes) (low count limit : Nat) :
    select text ((List.range' low count).filter (· < limit)) =
      ((text.drop low).take count).take (limit - low) := by
  induction count generalizing low with
  | zero =>
      simp [select]
  | succ count ih =>
      rw [List.range'_succ, List.filter_cons]
      by_cases hlimit : low < limit
      · rw [if_pos (decide_eq_true hlimit)]
        cases hget : text[low]? with
        | none =>
            have hlen : text.length ≤ low := List.getElem?_eq_none_iff.1 hget
            rw [select, List.filterMap_cons, hget]
            dsimp only
            rw [← select, ih, List.drop_eq_nil_of_le hlen,
              List.drop_eq_nil_of_le (by omega : text.length ≤ low + 1)]
            simp
        | some b =>
            obtain ⟨hlt, rfl⟩ := List.getElem?_eq_some_iff.1 hget
            rw [select, List.filterMap_cons, hget]
            dsimp only
            rw [← select, ih, List.drop_eq_getElem_cons hlt, List.take_succ_cons,
              show limit - low = limit - (low + 1) + 1 by omega, List.take_succ_cons]
      · rw [if_neg (by simpa using hlimit), ih]
        rw [show limit - low = 0 by omega, show limit - (low + 1) = 0 by omega]
        simp

theorem select_map_add
    (text : Bytes) (low : Nat) (offsets : List Nat) :
    select text (offsets.map (low + ·)) = select (text.drop low) offsets := by
  simp [select, List.filterMap_map, List.getElem?_drop]

end Bytes

namespace Cursor

/-- The offsets of the bytes that are read inside literals between the stops of a trail. -/
def literalOffsets : List Cursor → List Nat
  | here :: next :: more =>
      (if here.span = .code then []
        else List.range' here.offset (next.offset - here.offset)) ++
        literalOffsets (next :: more)
  | _ => []

theorem exists_trailAround_eq_cons
    (dialect : Dialect) (removals : List Removal) (cursor : Cursor) :
    ∃ more, cursor.trailAround dialect removals = cursor :: more := by
  rw [trailAround]
  repeat' split
  all_goals exact ⟨_, rfl⟩

/-- What is read in a literal before the trail of the next stop. -/
theorem literalOffsets_cons
    (dialect : Dialect) (removals : List Removal) (here next : Cursor) :
    literalOffsets (here :: next.trailAround dialect removals) =
      (if here.span = .code then []
        else List.range' here.offset (next.offset - here.offset)) ++
        literalOffsets (next.trailAround dialect removals) := by
  obtain ⟨more, hmore⟩ := exists_trailAround_eq_cons dialect removals next
  rw [hmore, literalOffsets]

/-- A step out of a literal ends with ink. -/
theorem isInk_lastOf_of_step
    {dialect : Dialect} {cursor : Cursor} {b : UInt8} {rest : Bytes} {more : Nat}
    (hliteral : cursor.span ≠ .code)
    (hcode : (cursor.step dialect b rest).span = .code)
    (hoffset : (cursor.step dialect b rest).offset = cursor.offset + more + 1) :
    Blank.isInk (lastOf b rest more) = true := by
  rw [step, if_neg hliteral, stepLiteral] at hcode hoffset
  split at hcode
  · exact absurd hcode hliteral
  · next hescape =>
      rw [if_neg hescape] at hoffset
      split at hcode
      · next width hclosing =>
          rw [hclosing] at hoffset
          obtain rfl : width = more := width_of_offset hoffset
          exact isInk_lastOf_of_closing? hclosing
      · exact absurd hcode hliteral

theorem isInk_of_step
    {dialect : Dialect} {cursor : Cursor} {b : UInt8} {rest : Bytes}
    (hcode : cursor.span = .code)
    (hliteral : (cursor.step dialect b rest).span ≠ .code) :
    Blank.isInk b = true := by
  by_contra hink
  rw [Bool.not_eq_true] at hink
  exact hliteral ((span_step_of_isInk dialect cursor rest hink).trans hcode)

end Cursor

namespace Pruning
namespace Reading

variable {language : Language} {facts : LineFacts} {cursor : Cursor} {last : Option UInt8}
variable {left : Pruning} {line : Bytes}

/-- The offsets read in literals increase, from where the cursor stands on. -/
theorem literalOffsets_sorted
    (h : Reading language facts cursor last left)
    (hat : cursor.At line) :
    (Cursor.literalOffsets (cursor.trailAround language.dialect left.removals)).Pairwise
        (· < ·) ∧
      ∀ offset ∈ Cursor.literalOffsets (cursor.trailAround language.dialect left.removals),
        cursor.offset ≤ offset := by
  induction h with
  | done hrest =>
      rw [Cursor.trailAround_of_rest_nil hrest]
      exact ⟨.nil, by simp [Cursor.literalOffsets]⟩
  | @step cursor last b rest more left hrest _ hmore hstep hoffset hleft ih =>
      obtain ⟨hsorted, hlow⟩ := ih (Cursor.at_of_move hat hrest hmore hstep hoffset)
      rw [trailAround_of_step hat hrest hmore hstep hoffset hleft, Cursor.literalOffsets_cons]
      have hread : ∀ offset ∈ (if cursor.span = .code then []
          else List.range' cursor.offset
            ((cursor.step language.dialect b rest).offset - cursor.offset)),
          cursor.offset ≤ offset ∧ offset < (cursor.step language.dialect b rest).offset := by
        intro offset hin
        split at hin
        · cases hin
        · rw [List.mem_range'_1] at hin
          omega
      constructor
      · rw [List.pairwise_append]
        refine ⟨?_, hsorted, ?_⟩
        · split
          · exact .nil
          · exact List.pairwise_lt_range'
        · intro first hfirst second hsecond
          have hlt := (hread first hfirst).2
          have hle := hlow second hsecond
          omega
      · intro offset hin
        rcases List.mem_append.1 hin with hin | hin
        · exact (hread offset hin).1
        · have hle := hlow offset hin
          omega
  | cutLine hrule | cutBlock hrule =>
      obtain ⟨hmem, hstart⟩ := mem_rules_of_commentAt? hrule
      obtain ⟨final, -, -, -, htrail⟩ := trailAround_toEnd hat hmem hstart
      rw [htrail, Cursor.literalOffsets, if_pos (span_eq_code_of_commentAt? hrule)]
      exact ⟨.nil, by simp [Cursor.literalOffsets]⟩
  | splice hrest hrule hfind hwidth hpos hle hclean hgap hleft ih =>
      obtain ⟨hat', hoffset'⟩ := at_resume hat hrest hpos hle
      obtain ⟨hsorted, hlow⟩ := ih hat'
      rw [trailAround_of_splice hrest, Cursor.literalOffsets_cons,
        if_pos (span_eq_code_of_commentAt? hrule), List.nil_append]
      refine ⟨hsorted, ?_⟩
      intro offset hin
      have hle' := hlow offset hin
      omega

/-- A cursor in a literal reads its next byte there. -/
theorem offset_mem_literalOffsets
    (h : Reading language facts cursor last left)
    (hat : cursor.At line)
    (hliteral : cursor.span ≠ .code)
    (hlt : cursor.offset < line.length) :
    cursor.offset ∈
      Cursor.literalOffsets (cursor.trailAround language.dialect left.removals) := by
  cases h with
  | done hrest =>
      rw [hat.2, List.drop_eq_nil_iff] at hrest
      omega
  | step hrest _ hmore hstep hoffset hleft =>
      rw [trailAround_of_step hat hrest hmore hstep hoffset hleft, Cursor.literalOffsets_cons,
        if_neg hliteral, hoffset]
      exact List.mem_append_left _ (List.mem_range'_1.2 (by omega))
  | cutLine hrule | cutBlock hrule =>
      exact absurd (span_eq_code_of_commentAt? hrule) hliteral
  | splice hrest hrule =>
      exact absurd (span_eq_code_of_commentAt? hrule) hliteral

/--
Of a step in a literal, after which nothing more is read in literals below a limit,
the part below the limit is not trimmed.
-/
theorem take_isPrefix_trimmed
    {b : UInt8} {rest : Bytes} {more limit : Nat}
    (hat : cursor.At line)
    (hrest : cursor.rest = b :: rest)
    (hmore : more ≤ rest.length)
    (hstep : (cursor.step language.dialect b rest).rest = rest.drop more)
    (hoffset : (cursor.step language.dialect b rest).offset = cursor.offset + more + 1)
    (hleft : Reading language facts (cursor.step language.dialect b rest) last left)
    (hliteral : cursor.span ≠ .code)
    (hlimit : limit ≤ line.length)
    (hsolid : ∀ c, (line)[limit - 1]? = some c → 0 < limit → Blank.isSlack c = false)
    (hnone : ∀ offset ∈ Cursor.literalOffsets
      ((cursor.step language.dialect b rest).trailAround language.dialect left.removals),
      limit ≤ offset) :
    (b :: rest.take more).take (limit - cursor.offset) <+:
      Blank.trimEndSpaces (b :: rest.take more ++ left.text) := by
  have hat' := Cursor.at_of_move hat hrest hmore hstep hoffset
  by_cases hzero : limit ≤ cursor.offset
  · rw [show limit - cursor.offset = 0 by omega, List.take_zero]
    exact List.nil_prefix
  · by_cases hfits : limit ≤ cursor.offset + more + 1
    · -- The byte right before the limit is the last one of the part below it.
      obtain ⟨extra, hextra⟩ := Nat.exists_eq_add_of_lt (Nat.lt_of_not_le hzero)
      have hpart : (b :: rest.take more).take (limit - cursor.offset) =
          (line.drop cursor.offset).take (limit - cursor.offset) := by
        rw [← hat.2, hrest, ← List.take_succ_cons, List.take_take,
          Nat.min_eq_left (by omega)]
      have hlt : limit - 1 < line.length := by omega
      have hlast : ((b :: rest.take more).take (limit - cursor.offset)).getLast? =
          some (line)[limit - 1] := by
        rw [hpart, List.getLast?_take, if_neg (by omega), List.getElem?_drop,
          show cursor.offset + (limit - cursor.offset - 1) = limit - 1 by omega,
          List.getElem?_eq_getElem hlt, Option.some_or]
      have hback : b :: rest.take more ++ left.text =
          (b :: rest.take more).take (limit - cursor.offset) ++
            ((b :: rest.take more).drop (limit - cursor.offset) ++ left.text) := by
        rw [← List.append_assoc, List.take_append_drop]
      rw [hback]
      exact Blank.isPrefix_trimEndSpaces_append hlast
        (hsolid _ (List.getElem?_eq_getElem hlt) (by omega))
    · -- The literal ends with the step: otherwise its next byte would lie below the limit.
      have hcode : (cursor.step language.dialect b rest).span = .code := by
        by_contra hopen
        have hmem := hleft.offset_mem_literalOffsets hat' hopen (by omega)
        have hle := hnone _ hmem
        omega
      have hall : (b :: rest.take more).take (limit - cursor.offset) = b :: rest.take more := by
        refine List.take_of_length_le ?_
        rw [List.length_cons, List.length_take]
        omega
      rw [hall]
      exact Blank.isPrefix_trimEndSpaces_append (Cursor.getLast?_eq_lastOf b rest more)
        (Blank.isSlack_of_isInk (Cursor.isInk_lastOf_of_step hliteral hcode hoffset))

/--
The bytes read in literals below a limit come out again after trimming, if the
byte before the limit is not trimmed.
-/
theorem literals_sublist_trimmed
    (h : Reading language facts cursor last left)
    (hat : cursor.At line)
    {limit : Nat}
    (hlimit : limit ≤ line.length)
    (hsolid : ∀ b, (line)[limit - 1]? = some b → 0 < limit → Blank.isSlack b = false) :
    (Bytes.select line
      ((Cursor.literalOffsets (cursor.trailAround language.dialect left.removals)).filter
        (· < limit))).Sublist (Blank.trimEndSpaces left.text) := by
  induction h with
  | done hrest =>
      rw [Cursor.trailAround_of_rest_nil hrest]
      exact List.nil_sublist _
  | @step cursor last b rest more left hrest _ hmore hstep hoffset hleft ih =>
      have hat' := Cursor.at_of_move hat hrest hmore hstep hoffset
      have hih := ih hat'
      rw [trailAround_of_step hat hrest hmore hstep hoffset hleft, Cursor.literalOffsets_cons]
      by_cases hcode : cursor.span = .code
      · rw [if_pos hcode, List.nil_append]
        exact hih.trans (Blank.trimEndSpaces_sublist_append _ _)
      · -- The step reads `b :: rest.take more`, of which the part below the limit is selected.
        have hread : (line.drop cursor.offset).take
            ((cursor.step language.dialect b rest).offset - cursor.offset) =
              b :: rest.take more := by
          rw [← hat.2, hrest, hoffset, show cursor.offset + more + 1 - cursor.offset = more + 1 by
            omega, List.take_succ_cons]
        rw [if_neg hcode, List.filter_append, Bytes.select, List.filterMap_append,
          ← Bytes.select, ← Bytes.select, Bytes.select_range'_filter, hread]
        cases hlater : (Cursor.literalOffsets ((cursor.step language.dialect b rest).trailAround
            language.dialect left.removals)).filter (· < limit) with
        | nil =>
            rw [List.filter_eq_nil_iff] at hlater
            have hpart := take_isPrefix_trimmed hat hrest hmore hstep hoffset hleft hcode hlimit
              hsolid fun offset hin => by simpa using hlater offset hin
            rw [Bytes.select, List.filterMap_nil, List.append_nil]
            exact hpart.sublist
        | cons offset others =>
            -- What is read later is not trimmed away, so nothing of this step is.
            rw [hlater] at hih
            have hin : offset < limit := by
              have hmem : offset ∈ offset :: others := List.mem_cons_self
              rw [← hlater, List.mem_filter] at hmem
              simpa using hmem.2
            have hne : Blank.trimEndSpaces left.text ≠ [] := by
              intro hnil
              rw [hnil, List.sublist_nil, Bytes.select, List.filterMap_cons,
                List.getElem?_eq_getElem (by omega)] at hih
              cases hih
            rw [Blank.trimEndSpaces_append, if_neg hne]
            exact (List.take_sublist _ _).append hih
  | cutLine hrule | cutBlock hrule =>
      obtain ⟨hmem, hstart⟩ := mem_rules_of_commentAt? hrule
      obtain ⟨final, -, -, -, htrail⟩ := trailAround_toEnd hat hmem hstart
      rw [htrail, Cursor.literalOffsets, if_pos (span_eq_code_of_commentAt? hrule)]
      exact List.nil_sublist _
  | splice hrest hrule hfind hwidth hpos hle hclean hgap hleft ih =>
      obtain ⟨hat', -⟩ := at_resume hat hrest hpos hle
      rw [trailAround_of_splice hrest, Cursor.literalOffsets_cons,
        if_pos (span_eq_code_of_commentAt? hrule), List.nil_append]
      exact (ih hat').trans (Blank.trimEndSpaces_sublist_append _ _)

/-- A reading that starts in code and leaves no ink reads nothing in literals. -/
theorem literalOffsets_eq_nil
    (h : Reading language facts cursor last left)
    (hat : cursor.At line)
    (hcode : cursor.span = .code)
    (hwhite : ∀ b ∈ left.text, Blank.isInk b = false) :
    Cursor.literalOffsets (cursor.trailAround language.dialect left.removals) = [] := by
  induction h with
  | done hrest =>
      rw [Cursor.trailAround_of_rest_nil hrest]
      rfl
  | @step cursor last b rest more left hrest _ hmore hstep hoffset hleft ih =>
      have hstays : (cursor.step language.dialect b rest).span = .code := by
        by_contra hopen
        have hink := Cursor.isInk_of_step hcode hopen
        rw [hwhite b (by simp)] at hink
        cases hink
      rw [trailAround_of_step hat hrest hmore hstep hoffset hleft, Cursor.literalOffsets_cons,
        if_pos hcode, List.nil_append]
      exact ih (Cursor.at_of_move hat hrest hmore hstep hoffset) hstays
        fun c hc => hwhite c (List.mem_append_right _ hc)
  | cutLine hrule | cutBlock hrule =>
      obtain ⟨hmem, hstart⟩ := mem_rules_of_commentAt? hrule
      obtain ⟨final, -, -, -, htrail⟩ := trailAround_toEnd hat hmem hstart
      rw [htrail, Cursor.literalOffsets, if_pos hcode]
      rfl
  | splice hrest hrule hfind hwidth hpos hle hclean hgap hleft ih =>
      obtain ⟨hat', -⟩ := at_resume hat hrest hpos hle
      rw [trailAround_of_splice hrest, Cursor.literalOffsets_cons, if_pos hcode,
        List.nil_append]
      exact ih hat' rfl fun c hc => hwhite c (List.mem_append_right _ hc)

end Reading
end Pruning

namespace Line

/-- The offsets of the bytes of code that are read in literals. -/
def codeLiterals (language : Language) (code : Bytes) : List Nat :=
  match Pruning.ofLine language code with
  | .error _ => []
  | .ok result =>
      Cursor.literalOffsets
        ((Cursor.start code).trailAround language.dialect result.removals)

/-- The offsets of the bytes of a line that are read in literals in a mode. -/
def literalOffsets (language : Language) (mode : Mode) (line : Bytes) : List Nat :=
  match mode with
  | .normal => if Blank.isAllWhite line then [] else codeLiterals language line
  | .blockScalar indent =>
      if Blank.isAllWhite line || indent < Blank.indentation line then []
      else codeLiterals language line
  | .blockComment stop =>
      match Bytes.find? stop line with
      | none => []
      | some found =>
          (codeLiterals language (line.drop (found + stop.length))).map
            (found + stop.length + ·)
  | .literal kind =>
      match Lexer.findClose language.dialect kind.span line with
      | none => List.range line.length
      | some close =>
          List.range close ++ (codeLiterals language (line.drop close)).map (close + ·)

theorem codeLiterals_sorted
    (language : Language) (code : Bytes) :
    (codeLiterals language code).Pairwise (· < ·) := by
  unfold codeLiterals
  split
  · exact .nil
  · next hresult =>
      exact ((Pruning.reading_of_ofLine hresult).literalOffsets_sorted (Cursor.at_start code)).1

/-- The offsets of literals in a line increase. -/
theorem literalOffsets_sorted
    (language : Language) (mode : Mode) (line : Bytes) :
    (literalOffsets language mode line).Pairwise (· < ·) := by
  have hshift (low : Nat) (code : Bytes) :
      ((codeLiterals language code).map (low + ·)).Pairwise (· < ·) :=
    (codeLiterals_sorted language code).map _ fun _ _ hlt => Nat.add_lt_add_left hlt low
  unfold literalOffsets
  split
  · split
    · exact .nil
    · exact codeLiterals_sorted language line
  · split
    · exact .nil
    · exact codeLiterals_sorted language line
  · split
    · exact .nil
    · exact hshift _ _
  · split
    · exact List.pairwise_lt_range
    · refine List.pairwise_append.2 ⟨List.pairwise_lt_range, hshift _ _, ?_⟩
      intro first hfirst second hsecond
      obtain ⟨offset, -, rfl⟩ := List.mem_map.1 hsecond
      have hlt := List.mem_range.1 hfirst
      omega

theorem isSlack_of_length_trimEndSpaces
    {line : Bytes} {b : UInt8}
    (hget : (line)[(Blank.trimEndSpaces line).length - 1]? = some b)
    (hpos : 0 < (Blank.trimEndSpaces line).length) :
    Blank.isSlack b = false := by
  have hsame := List.prefix_iff_getElem?.1 (Blank.trimEndSpaces_isPrefix line)
    ((Blank.trimEndSpaces line).length - 1) (by omega)
  rw [hsame, ← List.getElem?_eq_getElem, ← List.getLast?_eq_getElem?] at hget
  exact Blank.isSlack_of_getLast?_trimEndSpaces hget

/--
Of the literals in the code of a line all comes out again but the blanks at the
end of the line.
-/
theorem select_codeLiterals_sublist
    {language : Language} {line : Bytes} {low : Nat} {result : Pruning}
    (hresult : Pruning.ofLine language (line.drop low) = .ok result) :
    (Bytes.select line (((codeLiterals language (line.drop low)).map (low + ·)).filter
      (· < (Blank.trimEndSpaces line).length))).Sublist (Blank.trimEndSpaces result.text) := by
  have hle := (Blank.trimEndSpaces_isPrefix line).length_le
  have hreading := Pruning.reading_of_ofLine hresult
  have hlimit : (Blank.trimEndSpaces line).length - low ≤ (line.drop low).length := by
    rw [List.length_drop]
    omega
  have hkeep := hreading.literals_sublist_trimmed (Cursor.at_start _) hlimit (by
    intro b hget hpos
    rw [List.getElem?_drop,
      show low + ((Blank.trimEndSpaces line).length - low - 1) =
        (Blank.trimEndSpaces line).length - 1 by omega] at hget
    exact isSlack_of_length_trimEndSpaces hget (by omega))
  have hfilter : ((codeLiterals language (line.drop low)).map (low + ·)).filter
      (· < (Blank.trimEndSpaces line).length) =
        ((codeLiterals language (line.drop low)).filter
          (· < (Blank.trimEndSpaces line).length - low)).map (low + ·) := by
    rw [List.filter_map]
    refine congrArg (List.map _) (List.filter_congr fun offset _ => ?_)
    simp only [Function.comp_apply, decide_eq_decide]
    omega
  rw [hfilter, Bytes.select_map_add]
  simpa only [codeLiterals, hresult] using hkeep

/-- Code of which only white space is left has no literals. -/
theorem codeLiterals_eq_nil
    {language : Language} {code : Bytes} {result : Pruning}
    (hresult : Pruning.ofLine language code = .ok result)
    (hwhite : Blank.isAllWhite (Blank.trimEndSpaces result.text) = true) :
    codeLiterals language code = [] := by
  simp only [codeLiterals, hresult]
  exact (Pruning.reading_of_ofLine hresult).literalOffsets_eq_nil (Cursor.at_start _) rfl
    (Blank.isInk_of_isAllWhite_trimEndSpaces hwhite)

theorem select_sublist_unchanged
    {row line : Bytes} {hasReturn : Bool} {offsets : List Nat}
    (hsplit : Strip.splitReturn row = (line, hasReturn))
    (hsorted : offsets.Pairwise (· < ·)) :
    (Bytes.select line offsets).Sublist ((Strip.emit row hasReturn .unchanged).getD []) := by
  have hline : (Bytes.select line offsets).Sublist line :=
    Bytes.select_sublist_drop hsorted fun _ _ => Nat.zero_le _
  rw [Strip.eq_of_splitReturn hsplit]
  exact hline.trans (List.sublist_append_left _ _)

/--
What is put out for a line has the bytes at given offsets, if they are kept when
the line is trimmed and there are none in a line that is dropped.
-/
theorem select_sublist_emit
    {row line left : Bytes} {hasReturn : Bool} {offsets : List Nat} {result : LineResult}
    (hsplit : Strip.splitReturn row = (line, hasReturn))
    (hsorted : offsets.Pairwise (· < ·))
    (hkeep : (Bytes.select line (offsets.filter (· < (Blank.trimEndSpaces line).length))).Sublist
      (Blank.trimEndSpaces left))
    (hdrop : Blank.isAllWhite (Blank.trimEndSpaces left) = true → offsets = [])
    (hresult : result = .unchanged ∨ result = settle left) :
    (Bytes.select line (offsets.filter fun offset =>
      result = .unchanged ∨ offset < (Blank.trimEndSpaces line).length)).Sublist
        ((Strip.emit row hasReturn result).getD []) := by
  have hcases : result = .unchanged ∨ result = .replaced (Blank.trimEndSpaces left) ∨
      result = .dropped ∧ Blank.isAllWhite (Blank.trimEndSpaces left) = true := by
    refine hresult.imp_right fun hsettle => ?_
    rw [hsettle]
    exact settle_cases left
  rcases hcases with rfl | rfl | ⟨rfl, hwhite⟩
  · simp only [true_or, decide_true, List.filter_true]
    exact select_sublist_unchanged hsplit hsorted
  · simp only [reduceCtorEq, false_or]
    refine hkeep.trans ?_
    rw [Strip.emit, Option.getD_some]
    split
    · exact List.sublist_append_left _ _
    · exact List.Sublist.refl _
  · rw [hdrop hwhite]
    exact List.nil_sublist _

/-- Literals are kept in a line that is read as code. -/
theorem literals_sublist_of_code
    {language : Language} {row line : Bytes} {hasReturn : Bool} {pruning : Pruning}
    (hsplit : Strip.splitReturn row = (line, hasReturn))
    (hpruning : Pruning.ofLine language line = .ok pruning) :
    (Bytes.select line ((codeLiterals language line).filter fun offset =>
      finish line pruning.text = .unchanged ∨ offset < (Blank.trimEndSpaces line).length)).Sublist
        ((Strip.emit row hasReturn (finish line pruning.text)).getD []) := by
  refine select_sublist_emit hsplit (codeLiterals_sorted language line) ?_
    (codeLiterals_eq_nil hpruning) ((finish_cases line pruning.text).imp_left And.left)
  have hkeep := @select_codeLiterals_sublist language line 0 pruning hpruning
  simpa using hkeep

/-- A literal from an earlier line and those after it are kept. -/
theorem literals_sublist_of_literal
    {language : Language} {kind : LongLiteral} {row line : Bytes} {hasReturn : Bool}
    {close : Nat} {pruning : Pruning}
    (hsplit : Strip.splitReturn row = (line, hasReturn))
    (hclose : Lexer.findClose language.dialect kind.span line = some close)
    (hpruning : Pruning.ofLine language (line.drop close) = .ok pruning) :
    (Bytes.select line ((List.range close ++
      (codeLiterals language (line.drop close)).map (close + ·)).filter fun offset =>
        finish line (line.take close ++ pruning.text) = .unchanged ∨
          offset < (Blank.trimEndSpaces line).length)).Sublist
        ((Strip.emit row hasReturn (finish line (line.take close ++ pruning.text))).getD []) := by
  obtain ⟨-, hle, b, hlast, hink⟩ := Lexer.exists_ink_of_findClose hclose
  have hsorted := literalOffsets_sorted language (.literal kind) line
  simp only [literalOffsets, hclose] at hsorted
  have hhead : line.take close <+: Blank.trimEndSpaces (line.take close ++ pruning.text) :=
    Blank.isPrefix_trimEndSpaces_append hlast (Blank.isSlack_of_isInk hink)
  refine select_sublist_emit hsplit hsorted ?_ ?_ ((finish_cases line _).imp_left And.left)
  · have hrange : Bytes.select line ((List.range close).filter
        (· < (Blank.trimEndSpaces line).length)) <+: line.take close := by
      rw [List.range_eq_range', Bytes.select_range'_filter, List.drop_zero]
      exact List.take_prefix _ _
    have hcodes := select_codeLiterals_sublist hpruning
    rw [List.filter_append, Bytes.select, List.filterMap_append, ← Bytes.select, ← Bytes.select]
    by_cases hnil : Blank.trimEndSpaces pruning.text = []
    · rw [hnil, List.sublist_nil] at hcodes
      rw [hcodes, List.append_nil]
      exact (hrange.trans hhead).sublist
    · rw [Blank.trimEndSpaces_append, if_neg hnil]
      exact hrange.sublist.append hcodes
  · intro hwhite
    have hmem : b ∈ Blank.trimEndSpaces (line.take close ++ pruning.text) :=
      hhead.subset (List.mem_of_getLast? hlast)
    rw [Blank.isInk_of_isAllWhite hwhite b hmem] at hink
    cases hink

/--
Every byte of a line that is read in a literal comes out again, in order, unless
the line is changed and the byte is one of the spaces and tabs at its end.
-/
theorem literals_sublist_emit
    {language : Language} {mode next : Mode} {row line : Bytes} {hasReturn : Bool}
    {result : LineResult}
    (hsplit : Strip.splitReturn row = (line, hasReturn))
    (hprocess : process language mode line = .ok (result, next)) :
    (Bytes.select line ((literalOffsets language mode line).filter fun offset =>
      result = .unchanged ∨ offset < (Blank.trimEndSpaces line).length)).Sublist
        ((Strip.emit row hasReturn result).getD []) := by
  cases outcome_of_process hprocess with
  | white hwhite =>
      rw [literalOffsets, if_pos hwhite]
      exact List.nil_sublist _
  | code hwhite hpruning =>
      rw [literalOffsets, hwhite]
      exact literals_sublist_of_code hsplit hpruning
  | inComment hfind =>
      rw [literalOffsets, hfind]
      exact List.nil_sublist _
  | afterComment hfind _ hpruning =>
      rw [literalOffsets, hfind]
      refine select_sublist_emit hsplit ?_ (select_codeLiterals_sublist hpruning) ?_ (Or.inr rfl)
      · exact (codeLiterals_sorted _ _).map _ fun _ _ hlt => Nat.add_lt_add_left hlt _
      · intro hwhite
        dsimp only
        rw [codeLiterals_eq_nil hpruning hwhite, List.map_nil]
  | inLiteral hclose =>
      rw [literalOffsets, hclose]
      exact select_sublist_unchanged hsplit (List.pairwise_lt_range.filter _)
  | afterLiteral hclose _ hpruning =>
      rw [literalOffsets, hclose]
      exact literals_sublist_of_literal hsplit hclose hpruning
  | inScalar hkept =>
      rw [literalOffsets, if_pos hkept]
      exact List.nil_sublist _
  | afterScalar hkept hpruning =>
      rw [literalOffsets, hkept]
      exact literals_sublist_of_code hsplit hpruning

/-- In a line with a closed and an open template only the blanks at the end go away. -/
theorem literals_sublist_emit_template :
    Strip.splitReturn (Bytes.ofString "s = `a\\`b  /* c */` /* d */ + `e /* f */  \r") =
        (Bytes.ofString "s = `a\\`b  /* c */` /* d */ + `e /* f */  ", true) ∧
      (Bytes.select (Bytes.ofString "s = `a\\`b  /* c */` /* d */ + `e /* f */  ")
        ((literalOffsets .javaScript .normal
          (Bytes.ofString "s = `a\\`b  /* c */` /* d */ + `e /* f */  ")).filter fun offset =>
            (LineResult.replaced (Bytes.ofString "s = `a\\`b  /* c */`  + `e /* f */") =
              .unchanged) ∨ offset < (Blank.trimEndSpaces (Bytes.ofString
                "s = `a\\`b  /* c */` /* d */ + `e /* f */  ")).length)).Sublist
        ((Strip.emit (Bytes.ofString "s = `a\\`b  /* c */` /* d */ + `e /* f */  \r") true
          (.replaced (Bytes.ofString "s = `a\\`b  /* c */`  + `e /* f */"))).getD []) :=
  ⟨by decide +kernel, literals_sublist_emit (by decide +kernel)
    (by decide +kernel : process .javaScript .normal
      (Bytes.ofString "s = `a\\`b  /* c */` /* d */ + `e /* f */  ") =
        .ok (_, .literal .template))⟩

/-- A template loses the blanks at the end of a line from which a comment is removed. -/
theorem trailing_blanks_of_template_lost :
    process .javaScript .normal (Bytes.ofString "/* c */ s = `a  ") =
        .ok (.replaced (Bytes.ofString " s = `a"), .literal .template) ∧
      Bytes.select (Bytes.ofString "/* c */ s = `a  ")
        (literalOffsets .javaScript .normal (Bytes.ofString "/* c */ s = `a  ")) =
          Bytes.ofString "a  " ∧
      ¬ (Bytes.select (Bytes.ofString "/* c */ s = `a  ")
        (literalOffsets .javaScript .normal (Bytes.ofString "/* c */ s = `a  "))).Sublist
          ((Strip.emit (Bytes.ofString "/* c */ s = `a  ") false
            (.replaced (Bytes.ofString " s = `a"))).getD []) := by
  decide +kernel

end Line
end Uncomment

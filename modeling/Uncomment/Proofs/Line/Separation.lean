import Uncomment.Proofs.Lexer.Closing
import Uncomment.Proofs.Line.Exactness
import Uncomment.Proofs.Line.Modes

/-!
# What a removed comment kept apart

`Line.sources` lists, for each byte that is put out for a line, the offset it comes
from; a space that fills a gap comes from nowhere.  Two bytes that are put out next to
each other, with a removed comment between them in the line, are kept apart by a blank,
or one of them is blank: `Line.separated_iff`.

There is one exception.  The text that `Pruning.fuses` looks at is what has been put
out of the code so far, and where a literal of an earlier line closes none has: a
comment right behind the closing delimiter leaves no space, and the delimiter and the
byte behind the comment come together.
-/

namespace Uncomment

/-- What is put out for a line. -/
def LineResult.text (line : Bytes) : LineResult → Bytes
  | .unchanged => line
  | .replaced text => text
  | .dropped => []

namespace Bytes

/-- The byte that comes from an offset of a line, or the space that comes from nowhere. -/
def byteFrom (line : Bytes) (source : Option Nat) : UInt8 :=
  (source.bind fun offset => (line)[offset]?).getD Byte.space

/-- A stretch of a line is made of the bytes at its offsets. -/
theorem drop_take_eq_map_byteFrom
    {line : Bytes} {low high : Nat}
    (hhigh : high ≤ line.length) :
    (line.take high).drop low =
      ((List.range' low (high - low)).map some).map (byteFrom line) := by
  apply List.ext_getElem
  · simp [hhigh]
  · intro offset hleft hright
    have hlt : low + offset < line.length := by
      rw [List.length_drop, List.length_take] at hleft
      omega
    simp [byteFrom, hlt]

/-- The bytes of the line behind `low` are those of the line, `low` further on. -/
theorem byteFrom_drop
    (line : Bytes) (low : Nat) (source : Option Nat) :
    byteFrom (line.drop low) source = byteFrom line (source.map (low + ·)) := by
  cases source <;> simp [byteFrom]

theorem solid_of_byteFrom
    {line : Bytes} {offset : Nat}
    (h : Byte.isBlank (byteFrom line (some offset)) = false) :
    Pruning.Solid (line)[offset]? := by
  rw [byteFrom, Option.bind_some] at h
  cases hget : (line)[offset]? with
  | none =>
      rw [hget] at h
      cases h
  | some b =>
      rw [hget, Option.getD_some] at h
      exact ⟨b, rfl, h⟩

end Bytes

namespace Removal

/-- A removal from the code that starts at an offset of a line. -/
def shift (low : Nat) (removal : Removal) : Removal :=
  { removal with start := low + removal.start, stop := low + removal.stop }

/-- Where the bytes come from that removals leave of a line from `low` up to `high`. -/
def sources (high : Nat) : Nat → List Removal → List (Option Nat)
  | low, [] => (List.range' low (high - low)).map some
  | low, removal :: more =>
      (List.range' low (removal.start - low)).map some ++ (if removal.gap then [none] else []) ++
        sources high removal.stop more

/-- What removals leave is made of the bytes at its sources. -/
theorem leave_eq_map_sources
    {line : Bytes} {low : Nat} {removals : List Removal}
    (hwithin : ∀ removal ∈ removals, removal.start ≤ line.length) :
    leave line low removals = (sources line.length low removals).map (Bytes.byteFrom line) := by
  induction removals generalizing low with
  | nil =>
      have hall := @Bytes.drop_take_eq_map_byteFrom line low _ (Nat.le_refl _)
      rwa [List.take_length] at hall
  | cons removal more ih =>
      rw [List.forall_mem_cons] at hwithin
      have hfiller : removal.filler =
          (if removal.gap then [none] else []).map (Bytes.byteFrom line) := by
        cases hgap : removal.gap <;> simp [filler, hgap, Bytes.byteFrom]
      rw [leave, sources, List.map_append, List.map_append, ← ih hwithin.2, ← hfiller,
        Bytes.drop_take_eq_map_byteFrom hwithin.1]

theorem sources_of_le
    {low mid high : Nat} {removals : List Removal}
    (hle : low ≤ mid)
    (hhigh : mid ≤ high)
    (hmid : ∀ removal ∈ removals, mid ≤ removal.start) :
    sources high low removals =
      (List.range' low (mid - low)).map some ++ sources high mid removals := by
  have hcut {limit : Nat} (hlimit : mid ≤ limit) :
      (List.range' low (limit - low)).map some =
        (List.range' low (mid - low)).map some ++ (List.range' mid (limit - mid)).map some := by
    obtain ⟨width, rfl⟩ := Nat.exists_eq_add_of_le hle
    obtain ⟨more, rfl⟩ := Nat.exists_eq_add_of_le hlimit
    rw [← List.map_append, Nat.add_sub_cancel_left, Nat.add_sub_cancel_left,
      List.range'_append_1, Nat.add_assoc, Nat.add_sub_cancel_left]
  cases removals with
  | nil =>
      exact hcut hhigh
  | cons removal more =>
      rw [sources, sources, hcut (hmid removal List.mem_cons_self)]
      simp only [List.append_assoc]

/-- What is left from `low` on comes from `low` or later. -/
theorem le_of_mem_sources
    {limit low high offset : Nat} {removals : List Removal}
    (hlimit : limit ≤ low)
    (hstop : ∀ removal ∈ removals, limit ≤ removal.stop)
    (h : some offset ∈ sources high low removals) :
    limit ≤ offset := by
  have hstretch {width : Nat} (hin : some offset ∈ (List.range' low width).map some) :
      limit ≤ offset := by
    simp only [List.mem_map, Option.some.injEq, exists_eq_right, List.mem_range'_1] at hin
    omega
  induction removals generalizing low with
  | nil =>
      exact hstretch h
  | cons removal more ih =>
      rw [List.forall_mem_cons] at hstop
      rw [sources, List.mem_append, List.mem_append] at h
      rcases h with (h | h) | h
      · exact hstretch h
      · split at h <;> simp at h
      · refine ih hstop.1 hstop.2 h fun hin => ?_
        simp only [List.mem_map, Option.some.injEq, exists_eq_right, List.mem_range'_1] at hin
        have hle := hstop.1
        omega

/-- The removals of code that starts at `low` leave the same bytes, `low` further on. -/
theorem sources_map_shift
    (low high first : Nat) (removals : List Removal) :
    sources (low + high) (low + first) (removals.map (shift low)) =
      (sources high first removals).map (Option.map (low + ·)) := by
  have hstretch (first last : Nat) :
      (List.range' (low + first) (low + last - (low + first))).map some =
        ((List.range' first (last - first)).map some).map (Option.map (low + ·)) := by
    rw [Nat.add_sub_add_left, List.map_map, ← List.map_add_range', List.map_map]
    rfl
  induction removals generalizing first with
  | nil =>
      exact hstretch first high
  | cons removal more ih =>
      have hgap : (if removal.gap then [none] else ([] : List (Option Nat))) =
          (if removal.gap then [none] else []).map (Option.map (low + ·)) := by
        split <;> rfl
      rw [List.map_cons, sources, sources, List.map_append, List.map_append, ← hgap, ← ih,
        ← hstretch]
      rfl

/-- A source of code that starts at `low` is an offset of the code, `low` further on. -/
theorem exists_of_map_shift
    {low offset : Nat} {sources front behind : List (Option Nat)}
    (h : sources.map (Option.map (low + ·)) = front ++ some offset :: behind) :
    ∃ ahead here more, sources = ahead ++ some here :: more ∧ offset = low + here ∧
      front = ahead.map (Option.map (low + ·)) ∧ behind = more.map (Option.map (low + ·)) := by
  obtain ⟨ahead, later, rfl, rfl, hlater⟩ := List.map_eq_append_iff.1 h
  obtain ⟨source, more, rfl, hsource, rfl⟩ := List.map_eq_cons_iff.1 hlater
  obtain ⟨here, rfl, rfl⟩ := Option.map_eq_some_iff.1 hsource
  exact ⟨ahead, here, more, rfl, rfl, rfl, rfl⟩

theorem forall_eq_none_of_map_shift
    {low : Nat} {sources : List (Option Nat)}
    (h : ∀ source ∈ sources.map (Option.map (low + ·)), source = none) :
    ∀ source ∈ sources, source = none :=
  fun _ hsource => Option.map_eq_none_iff.1 (h _ (List.mem_map_of_mem hsource))

/-- Behind a stretch of a line the next source is the next offset, or the stretch is at its end. -/
theorem sources_of_stretch
    {low width offset : Nat} {more front behind : List (Option Nat)}
    (h : (List.range' low width).map some ++ more = front ++ some offset :: behind) :
    (low ≤ offset ∧ offset + 1 = low + width ∧ behind = more) ∨
      behind.head? = some (some (offset + 1)) ∨
      ∃ front, more = front ++ some offset :: behind := by
  induction width generalizing low front with
  | zero =>
      exact Or.inr (Or.inr ⟨front, h⟩)
  | succ width ih =>
      rw [List.range'_succ, List.map_cons, List.cons_append] at h
      cases front with
      | nil =>
          rw [List.nil_append, List.cons.injEq, Option.some.injEq] at h
          obtain ⟨rfl, rfl⟩ := h
          cases width with
          | zero => exact Or.inl ⟨Nat.le_refl _, rfl, rfl⟩
          | succ width => exact Or.inr (Or.inl rfl)
      | cons source front =>
          rw [List.cons_append, List.cons.injEq] at h
          obtain hend | hlater := ih h.2
          · exact Or.inl ⟨by omega, by omega, hend.2.2⟩
          · exact Or.inr hlater

end Removal

namespace Pruning
namespace Reading

variable {language : Language} {facts : LineFacts} {cursor : Cursor} {last : Option UInt8}
variable {left : Pruning} {line : Bytes}

theorem sources_toEnd
    {rule : Rule}
    (hat : cursor.At line)
    (hmem : rule ∈ language.rules)
    (hstart : rule.start <+: cursor.rest) :
    Removal.sources line.length cursor.offset [.toEnd cursor rule] = [] := by
  have hstop := (toEnd_within hat hmem hstart).2
  rw [Removal.sources, Removal.sources, hstop]
  simp [Removal.toEnd]

/-- The sources of what a step and the reading behind it leave. -/
theorem sources_of_step
    {b : UInt8} {rest : Bytes} {more : Nat}
    (hat : cursor.At line)
    (hrest : cursor.rest = b :: rest)
    (hmore : more ≤ rest.length)
    (hstep : (cursor.step language.dialect b rest).rest = rest.drop more)
    (hoffset : (cursor.step language.dialect b rest).offset = cursor.offset + more + 1)
    (hleft : Reading language facts (cursor.step language.dialect b rest) last left) :
    Removal.sources line.length cursor.offset left.removals =
      (List.range' cursor.offset (more + 1)).map some ++
        Removal.sources line.length (cursor.step language.dialect b rest).offset
          left.removals := by
  have hat' := Cursor.at_of_move hat hrest hmore hstep hoffset
  rw [Removal.sources_of_le (by omega) hat'.1 fun removal hremoval =>
    (hleft.within hat' removal hremoval).1, hoffset]
  rw [show cursor.offset + more + 1 - cursor.offset = more + 1 by omega]

/-- The sources of what a splice and the reading behind it leave. -/
theorem sources_of_splice
    {offset width : Nat} {rule : Rule} {gap : Bool} {removals : List Removal} :
    Removal.sources line.length offset (⟨offset, offset + width, rule, gap⟩ :: removals) =
      (if gap then [none] else []) ++ Removal.sources line.length (offset + width) removals := by
  rw [Removal.sources, Nat.sub_self, List.range'_zero, List.map_nil, List.nil_append]

/-- What a reading leaves comes from where its cursor stands or from behind it. -/
theorem le_of_mem_sources
    {offset : Nat}
    (h : Reading language facts cursor last left)
    (hat : cursor.At line)
    (hin : some offset ∈ Removal.sources line.length cursor.offset left.removals) :
    cursor.offset ≤ offset := by
  refine Removal.le_of_mem_sources (Nat.le_refl _) (fun removal hremoval => ?_) hin
  have hbounds := h.within hat removal hremoval
  omega

/--
The first byte left by a reading: if nothing has been put out before, no space comes
before it; if comments were removed before it, and it would fuse with the byte put out
last, a space does.
-/
theorem first_source
    {between back : List (Option Nat)} {offset : Nat}
    (h : Reading language facts cursor last left)
    (hat : cursor.At line)
    (hsources : Removal.sources line.length cursor.offset left.removals =
      between ++ some offset :: back)
    (hbetween : ∀ source ∈ between, source = none) :
    (last = none → between = []) ∧
      (cursor.offset < offset → fuses language last (line)[offset]? = true → between ≠ []) := by
  induction h generalizing between with
  | @done cursor last hrest =>
      rw [Removal.sources, ← List.length_drop, ← hat.2, hrest] at hsources
      simp at hsources
  | step hrest _ hmore hstep hoffset hleft _ =>
      rw [sources_of_step hat hrest hmore hstep hoffset hleft, List.range'_succ] at hsources
      cases between with
      | nil =>
          simp only [List.map_cons, List.cons_append, List.nil_append, List.cons.injEq,
            Option.some.injEq] at hsources
          exact ⟨fun _ => rfl, fun hlt => absurd hsources.1 (Nat.ne_of_lt hlt)⟩
      | cons source between =>
          rw [hbetween source List.mem_cons_self] at hsources
          simp at hsources
  | cutLine hrule | cutBlock hrule =>
      obtain ⟨hmem, hstart⟩ := mem_rules_of_commentAt? hrule
      rw [sources_toEnd hat hmem hstart] at hsources
      simp at hsources
  | @splice cursor last b rest start stop found width gap left hrest hrule hfind hwidth hpos
      hle hclean hgap hleft ih =>
      obtain ⟨hat', hoffset'⟩ := at_resume hat hrest hpos hle
      rw [sources_of_splice, ← hoffset'] at hsources
      cases gap with
      | true =>
          have hne : between ≠ [] := by
            rintro rfl
            simp at hsources
          refine ⟨?_, fun _ _ => hne⟩
          rintro rfl
          simp [fuses] at hgap
      | false =>
          rw [if_neg Bool.false_ne_true, List.nil_append] at hsources
          obtain ⟨hnone, hfuses⟩ := ih hat' hsources hbetween
          refine ⟨hnone, fun _ hfuse => ?_⟩
          have hin : some offset ∈ Removal.sources line.length
              (cursor.resume b rest (width - 1)).offset left.removals := by
            rw [hsources]
            simp
          have hle' := hleft.le_of_mem_sources hat' hin
          rcases Nat.lt_or_eq_of_le hle' with hlt | rfl
          · exact hfuses hlt hfuse
          · -- The byte is the one that the splice has looked at.
            rw [← List.head?_drop, ← hat'.2, ← hgap] at hfuse
            cases hfuse

/-- A space comes between two bytes left by a reading that a removal kept from fusing. -/
theorem ne_nil_of_fuses
    {front between back : List (Option Nat)} {i j : Nat}
    (h : Reading language facts cursor last left)
    (hat : cursor.At line)
    (hsources : Removal.sources line.length cursor.offset left.removals =
      front ++ some i :: (between ++ some j :: back))
    (hbetween : ∀ source ∈ between, source = none)
    (hlt : i + 1 < j)
    (hfuses : fuses language (line)[i]? (line)[j]? = true) :
    between ≠ [] := by
  induction h generalizing front with
  | @done cursor last hrest =>
      rw [Removal.sources, ← List.length_drop, ← hat.2, hrest] at hsources
      simp at hsources
  | @step cursor last b rest more left hrest _ hmore hstep hoffset hleft ih =>
      have hat' := Cursor.at_of_move hat hrest hmore hstep hoffset
      rw [sources_of_step hat hrest hmore hstep hoffset hleft] at hsources
      rcases Removal.sources_of_stretch hsources with
        ⟨-, hend, hbehind⟩ | hnext | ⟨front, hlater⟩
      · -- The first byte is the last one of the step.
        have hlast : (line)[i]? = some (Cursor.lastOf b rest more) := by
          rw [← Cursor.getElem?_eq_lastOf b hmore, ← hrest, hat.2, List.getElem?_drop]
          congr 1
          omega
        rw [hlast] at hfuses
        exact (hleft.first_source hat' hbehind.symm hbetween).2 (by omega) hfuses
      · rintro rfl
        rw [List.nil_append, List.head?_cons, Option.some.injEq, Option.some.injEq] at hnext
        omega
      · exact ih hat' hlater
  | cutLine hrule | cutBlock hrule =>
      obtain ⟨hmem, hstart⟩ := mem_rules_of_commentAt? hrule
      rw [sources_toEnd hat hmem hstart] at hsources
      simp at hsources
  | @splice cursor last b rest start stop found width gap left hrest hrule hfind hwidth hpos
      hle hclean hgap hleft ih =>
      obtain ⟨hat', hoffset'⟩ := at_resume hat hrest hpos hle
      rw [sources_of_splice, ← hoffset'] at hsources
      cases gap with
      | false =>
          exact ih hat' hsources
      | true =>
          cases front with
          | nil => simp at hsources
          | cons source front => exact ih hat' (List.cons.inj hsources).2

/-- Two bytes left by a reading on both sides of a removal are kept apart by a blank. -/
theorem exists_isBlank
    {front between back : List (Option Nat)} {i j : Nat}
    (hhtml : language ≠ .html)
    (hmarkdown : language ≠ .markdown)
    (h : Reading language facts cursor last left)
    (hat : cursor.At line)
    (hsources : Removal.sources line.length cursor.offset left.removals =
      front ++ some i :: (between ++ some j :: back))
    (hbetween : ∀ source ∈ between, source = none)
    (hlt : i + 1 < j) :
    ∃ source ∈ some i :: (between ++ [some j]),
      Byte.isBlank (Bytes.byteFrom line source) = true := by
  by_contra hno
  simp only [not_exists, not_and, Bool.not_eq_true] at hno
  have hfuses : fuses language (line)[i]? (line)[j]? = true :=
    fuses_iff.2 ⟨hhtml, hmarkdown, Bytes.solid_of_byteFrom (hno _ (by simp)),
      Bytes.solid_of_byteFrom (hno _ (by simp))⟩
  obtain ⟨source, hsource⟩ := List.exists_mem_of_ne_nil between
    (h.ne_nil_of_fuses hat hsources hbetween hlt hfuses)
  have hspace := hno none (by
    rw [hbetween source hsource] at hsource
    simp [hsource])
  cases hspace

end Reading
end Pruning

namespace Line

/-- Where the code starts that is pruned in a line, if the line has any. -/
def codeStart? (language : Language) (mode : Mode) (line : Bytes) : Option Nat :=
  match mode with
  | .normal => if Blank.isAllWhite line then none else some 0
  | .blockScalar indent =>
      if Blank.isAllWhite line || indent < Blank.indentation line then none else some 0
  | .blockComment stop => (Bytes.find? stop line).map (· + stop.length)
  | .literal kind => Lexer.findClose language.dialect kind.span line

/-- The comments that start in a line and are removed from it. -/
def removals (language : Language) (mode : Mode) (line : Bytes) : List Removal :=
  match codeStart? language mode line with
  | none => []
  | some low =>
      match Pruning.ofLine language (line.drop low) with
      | .error _ => []
      | .ok pruning => pruning.removals.map (.shift low)

/-- Where the bytes come from that are left of a line: in a block comment, of its code only. -/
def leftSources (language : Language) (mode : Mode) (line : Bytes) : List (Option Nat) :=
  let low := if mode.isComment then (codeStart? language mode line).getD line.length else 0
  Removal.sources line.length low (removals language mode line)

/-- Where the bytes come from that are put out for a line. -/
def sources
    (language : Language)
    (mode : Mode)
    (line : Bytes)
    (result : LineResult) :
    List (Option Nat) :=
  (leftSources language mode line).take (result.text line).length

variable {language : Language} {mode next : Mode} {line : Bytes} {result : LineResult}

theorem exists_pruning
    {low : Nat}
    (h : process language mode line = .ok (result, next))
    (hlow : codeStart? language mode line = some low) :
    low ≤ line.length ∧ ∃ pruning, Pruning.ofLine language (line.drop low) = .ok pruning := by
  cases outcome_of_process h with
  | white hwhite =>
      simp [codeStart?, hwhite] at hlow
  | code hwhite hpruning =>
      simp only [codeStart?, hwhite, Bool.false_eq_true, if_false, Option.some.injEq] at hlow
      subst hlow
      exact ⟨Nat.zero_le _, _, hpruning⟩
  | inComment hfind =>
      simp [codeStart?, hfind] at hlow
  | afterComment hfind _ hpruning =>
      simp only [codeStart?, hfind, Option.map_some, Option.some.injEq] at hlow
      subst hlow
      exact ⟨Bytes.find?_add_length_le hfind, _, hpruning⟩
  | inLiteral hclose =>
      simp [codeStart?, hclose] at hlow
  | afterLiteral hclose _ hpruning =>
      obtain rfl := Option.some.inj (hclose.symm.trans hlow)
      exact ⟨(Lexer.exists_ink_of_findClose hclose).2.1, _, hpruning⟩
  | inScalar hkept =>
      simp [codeStart?, hkept] at hlow
  | afterScalar hkept hpruning =>
      simp only [codeStart?, hkept, Bool.false_eq_true, if_false, Option.some.injEq] at hlow
      subst hlow
      exact ⟨Nat.zero_le _, _, hpruning⟩

/-- What is left of a line with code: the head, unless it is a comment, and what the code leaves. -/
theorem leftSources_of_codeStart?
    {low : Nat} {pruning : Pruning}
    (hlow : codeStart? language mode line = some low)
    (hle : low ≤ line.length)
    (hpruning : Pruning.ofLine language (line.drop low) = .ok pruning) :
    leftSources language mode line =
      (List.range' (if mode.isComment then low else 0)
          (low - if mode.isComment then low else 0)).map some ++
        (Removal.sources (line.drop low).length 0 pruning.removals).map
          (Option.map (low + ·)) := by
  have hremovals : removals language mode line = pruning.removals.map (.shift low) := by
    simp only [removals, hlow, hpruning]
  have hbase : (if mode.isComment then low else 0) ≤ low := by
    split <;> omega
  have hbehind : ∀ removal ∈ pruning.removals.map (Removal.shift low), low ≤ removal.start := by
    intro removal hremoval
    obtain ⟨inner, -, rfl⟩ := List.mem_map.1 hremoval
    exact Nat.le_add_right _ _
  simp only [leftSources, hremovals, hlow, Option.getD_some]
  rw [Removal.sources_of_le hbase hle hbehind]
  have hshift := Removal.sources_map_shift low (line.drop low).length 0 pruning.removals
  rw [List.length_drop, Nat.add_sub_cancel' hle, Nat.add_zero] at hshift
  rw [hshift, List.length_drop]

theorem map_leftSources
    {low : Nat} {pruning : Pruning}
    (hlow : codeStart? language mode line = some low)
    (hle : low ≤ line.length)
    (hpruning : Pruning.ofLine language (line.drop low) = .ok pruning) :
    (leftSources language mode line).map (Bytes.byteFrom line) =
      (line.take low).drop (if mode.isComment then low else 0) ++ pruning.text := by
  have hreading := Pruning.reading_of_ofLine hpruning
  have hat := Cursor.at_start (line.drop low)
  have hwithin : ∀ removal ∈ pruning.removals, removal.start ≤ (line.drop low).length := by
    intro removal hremoval
    have hbounds := hreading.within hat removal hremoval
    omega
  have htext : pruning.text = _ := hreading.text_eq hat
  rw [leftSources_of_codeStart? hlow hle hpruning, List.map_append,
    ← Bytes.drop_take_eq_map_byteFrom hle, htext]
  change _ = _ ++ Removal.leave (line.drop low) 0 pruning.removals
  rw [Removal.leave_eq_map_sources hwithin, List.map_map]
  congr 2
  exact funext fun source => (Bytes.byteFrom_drop line low source).symm

/-- What is put out for a line that has been settled is a front part of what is left. -/
theorem text_settle_isPrefix
    (line left : Bytes) :
    (settle left).text line <+: left := by
  rcases settle_cases left with hsettle | ⟨hsettle, -⟩ <;> rw [hsettle]
  · exact Blank.trimEndSpaces_isPrefix left
  · exact List.nil_prefix

theorem text_finish_isPrefix
    (line left : Bytes) :
    (finish line left).text line <+: left := by
  rcases finish_cases line left with ⟨hfinish, rfl⟩ | hfinish <;> rw [hfinish]
  · exact List.prefix_rfl
  · exact text_settle_isPrefix line left

/-- A line without code is put out as it is, unless it lies in a block comment. -/
theorem map_leftSources_of_none
    (hnone : codeStart? language mode line = none)
    (hcomment : mode.isComment = false) :
    (leftSources language mode line).map (Bytes.byteFrom line) = line := by
  have hall := @Bytes.drop_take_eq_map_byteFrom line 0 line.length (Nat.le_refl _)
  rw [List.take_length, List.drop_zero] at hall
  simp only [leftSources, removals, hnone, hcomment, Bool.false_eq_true, if_false,
    Removal.sources]
  exact hall.symm

/-- What is put out for a line is a front part of what its sources give. -/
theorem text_isPrefix_map_leftSources
    (h : process language mode line = .ok (result, next)) :
    result.text line <+: (leftSources language mode line).map (Bytes.byteFrom line) := by
  cases outcome_of_process h with
  | white hwhite =>
      rw [map_leftSources_of_none (by simp [codeStart?, hwhite]) rfl]
      exact List.prefix_rfl
  | code hwhite hpruning =>
      have hlow : codeStart? language .normal line = some 0 := by
        simp [codeStart?, hwhite]
      rw [map_leftSources hlow (Nat.zero_le _) hpruning]
      exact text_finish_isPrefix _ _
  | inComment hfind =>
      exact List.nil_prefix
  | afterComment hfind _ hpruning =>
      rw [map_leftSources (by simp [codeStart?, hfind]) (Bytes.find?_add_length_le hfind) hpruning]
      simp only [Mode.isComment, if_true, List.drop_eq_nil_of_le (List.length_take_le _ _),
        List.nil_append]
      exact text_settle_isPrefix _ _
  | inLiteral hclose =>
      have hnone : codeStart? language (.literal _) line = none := hclose
      rw [map_leftSources_of_none hnone rfl]
      exact List.prefix_rfl
  | afterLiteral hclose _ hpruning =>
      have hlow : codeStart? language (.literal _) line = some _ := hclose
      rw [map_leftSources hlow (Lexer.exists_ink_of_findClose hclose).2.1 hpruning]
      exact text_finish_isPrefix _ _
  | inScalar hkept =>
      rw [map_leftSources_of_none (by simp [codeStart?, hkept]) rfl]
      exact List.prefix_rfl
  | @afterScalar indent _ _ hkept hpruning =>
      have hlow : codeStart? language (.blockScalar indent) line = some 0 := by
        simp [codeStart?, hkept]
      rw [map_leftSources hlow (Nat.zero_le _) hpruning]
      exact text_finish_isPrefix _ _

/-- What is put out for a line is made of the bytes at its sources. -/
theorem text_eq_map_sources
    (h : process language mode line = .ok (result, next)) :
    result.text line = (sources language mode line result).map (Bytes.byteFrom line) := by
  rw [sources, List.map_take]
  exact List.prefix_iff_eq_take.1 (text_isPrefix_map_leftSources h)

/-- A literal that an earlier line has left open closes right behind an offset. -/
def ClosesBehind (language : Language) (mode : Mode) (line : Bytes) (offset : Nat) : Prop :=
  ∃ kind, mode = .literal kind ∧
    Lexer.findClose language.dialect kind.span line = some (offset + 1)

/-- A head of a line that is kept is a literal. -/
theorem closesBehind_iff
    {low offset : Nat}
    (hlow : codeStart? language mode line = some low)
    (hcomment : mode.isComment = false) :
    ClosesBehind language mode line offset ↔ low = offset + 1 := by
  cases mode with
  | normal | blockScalar =>
      have hzero : low = 0 := by
        simp only [codeStart?] at hlow
        split at hlow <;> simp_all
      simp [ClosesBehind, hzero]
  | literal kind =>
      rw [codeStart?] at hlow
      simp [ClosesBehind, hlow]
  | blockComment stop =>
      cases hcomment

/-- The byte that ends the delimiter of a literal is not blank. -/
theorem ClosesBehind.isBlank_byteFrom
    {offset : Nat}
    (h : ClosesBehind language mode line offset) :
    Byte.isBlank (Bytes.byteFrom line (some offset)) = false := by
  obtain ⟨kind, -, hclose⟩ := h
  obtain ⟨-, hle, b, hlast, hink⟩ := Lexer.exists_ink_of_findClose hclose
  rw [List.getLast?_take, if_neg (by omega), Nat.add_sub_cancel,
    List.getElem?_eq_getElem (by omega), Option.some_or, Option.some.injEq] at hlast
  rw [Bytes.byteFrom, Option.bind_some, List.getElem?_eq_getElem (by omega), Option.getD_some,
    hlast]
  exact Blank.isBlank_of_isInk hink

/-- The offsets of a removal lie in the code of the line. -/
theorem exists_of_mem_removals
    {removal : Removal}
    (h : process language mode line = .ok (result, next))
    (hremoval : removal ∈ removals language mode line) :
    ∃ low pruning, codeStart? language mode line = some low ∧ low ≤ line.length ∧
      Pruning.ofLine language (line.drop low) = .ok pruning ∧
      low ≤ removal.start ∧ removal.start < removal.stop := by
  cases hlow : codeStart? language mode line with
  | none =>
      simp [removals, hlow] at hremoval
  | some low =>
      obtain ⟨hle, pruning, hpruning⟩ := exists_pruning h hlow
      simp only [removals, hlow, hpruning] at hremoval
      obtain ⟨inner, hinner, rfl⟩ := List.mem_map.1 hremoval
      have hbounds := (Pruning.reading_of_ofLine hpruning).within (Cursor.at_start _) inner hinner
      refine ⟨low, pruning, rfl, hle, hpruning, Nat.le_add_right _ _, ?_⟩
      simp only [Removal.shift]
      omega

/-- The sources of what is put out are the first ones of what is left. -/
theorem sources_isPrefix
    (language : Language) (mode : Mode) (line : Bytes) (result : LineResult) :
    sources language mode line result <+: leftSources language mode line :=
  List.take_prefix _ _

/--
Two bytes put out for a line that come from both sides of a removed comment, with nothing
put out between them but spaces that fill gaps, are kept apart: one of them or a space
between them is blank.  Only where the first one ends the delimiter of a literal from an
earlier line there is no such space, and then the second one has to be blank.
-/
theorem separated_iff
    {removal : Removal} {front between back : List (Option Nat)} {i j : Nat}
    (hhtml : language ≠ .html)
    (hmarkdown : language ≠ .markdown)
    (h : process language mode line = .ok (result, next))
    (hremoval : removal ∈ removals language mode line)
    (hsources : sources language mode line result =
      front ++ some i :: (between ++ some j :: back))
    (hbetween : ∀ source ∈ between, source = none)
    (hi : i < removal.start)
    (hj : removal.stop ≤ j) :
    result.text line = (sources language mode line result).map (Bytes.byteFrom line) ∧
      ((∃ source ∈ some i :: (between ++ [some j]),
          Byte.isBlank (Bytes.byteFrom line source) = true) ↔
        (ClosesBehind language mode line i →
          Byte.isBlank (Bytes.byteFrom line (some j)) = true)) := by
  refine ⟨text_eq_map_sources h, ?_⟩
  obtain ⟨low, pruning, hlow, hle, hpruning, hstart, hlt⟩ := exists_of_mem_removals h hremoval
  have hreading := Pruning.reading_of_ofLine hpruning
  have hat := Cursor.at_start (line.drop low)
  obtain ⟨behind, hleft⟩ := sources_isPrefix language mode line result
  rw [leftSources_of_codeStart? hlow hle hpruning, hsources, List.append_assoc, List.cons_append,
    List.append_assoc, List.cons_append] at hleft
  rcases Removal.sources_of_stretch hleft.symm with ⟨hbase, hend, hcode⟩ | hnext | ⟨ahead, hcode⟩
  · -- The first byte is the last one of the head, a literal that an earlier line left open.
    have hcomment : mode.isComment = false := by
      by_contra hcomment
      rw [Bool.not_eq_false] at hcomment
      simp only [hcomment, if_true] at hbase hend
      omega
    have hcloses : ClosesBehind language mode line i := by
      simp only [hcomment, Bool.false_eq_true, if_false] at hend
      rw [closesBehind_iff hlow hcomment]
      omega
    obtain ⟨ahead, here, more, hahead, rfl, rfl, -⟩ := Removal.exists_of_map_shift hcode.symm
    have hnil := (hreading.first_source hat hahead
      (Removal.forall_eq_none_of_map_shift hbetween)).1 rfl
    simp [hnil, hcloses.isBlank_byteFrom, hcloses]
  · -- The bytes stand next to each other in the line.
    cases between with
    | nil =>
        simp only [List.nil_append, List.head?_cons, Option.some.injEq] at hnext
        omega
    | cons source between =>
        rw [hbetween source List.mem_cons_self] at hnext
        simp at hnext
  · -- Both bytes are left of the code.
    obtain ⟨ahead, here, more, hahead, rfl, -, hmore⟩ := Removal.exists_of_map_shift hcode
    obtain ⟨gaps, there, more, rfl, rfl, rfl, -⟩ := Removal.exists_of_map_shift hmore.symm
    have hcloses : ¬ ClosesBehind language mode line (low + here) := by
      rintro ⟨kind, rfl, hclose⟩
      rw [codeStart?, hclose, Option.some.injEq] at hlow
      omega
    refine iff_of_true ?_ fun h => absurd h hcloses
    obtain ⟨source, hsource, hblank⟩ := hreading.exists_isBlank hhtml hmarkdown hat hahead
      (Removal.forall_eq_none_of_map_shift hbetween) (by omega)
    rw [Bytes.byteFrom_drop] at hblank
    exact ⟨_, by simpa using List.mem_map_of_mem (f := Option.map (low + ·)) hsource, hblank⟩

/-- A comment right behind the closing delimiter of a literal leaves no space. -/
theorem separated_iff_behind_delimiter :
    process .java (.literal .tripleDouble) (Bytes.ofString "\"\"\"/* c */x") =
        .ok (.replaced (Bytes.ofString "\"\"\"x"), .normal) ∧
      removals .java (.literal .tripleDouble) (Bytes.ofString "\"\"\"/* c */x") =
        [⟨3, 10, .ofBlock "/*" "*/", false⟩] ∧
      sources .java (.literal .tripleDouble) (Bytes.ofString "\"\"\"/* c */x")
        (.replaced (Bytes.ofString "\"\"\"x")) = [some 0, some 1, some 2, some 10] ∧
      ¬ ∃ source ∈ [some 2, some 10],
        Byte.isBlank (Bytes.byteFrom (Bytes.ofString "\"\"\"/* c */x") source) = true := by
  have hprocess : process .java (.literal .tripleDouble) (Bytes.ofString "\"\"\"/* c */x") =
      .ok (.replaced (Bytes.ofString "\"\"\"x"), .normal) := by
    decide +kernel
  have hremovals : removals .java (.literal .tripleDouble)
      (Bytes.ofString "\"\"\"/* c */x") = [⟨3, 10, .ofBlock "/*" "*/", false⟩] := by
    decide +kernel
  have hsources : sources .java (.literal .tripleDouble) (Bytes.ofString "\"\"\"/* c */x")
      (.replaced (Bytes.ofString "\"\"\"x")) =
        [some 0, some 1] ++ some 2 :: ([] ++ some 10 :: []) := by
    decide +kernel
  have hcloses : ClosesBehind .java (.literal .tripleDouble)
      (Bytes.ofString "\"\"\"/* c */x") 2 :=
    ⟨.tripleDouble, rfl, by decide +kernel⟩
  have hblank : ¬ Byte.isBlank
      (Bytes.byteFrom (Bytes.ofString "\"\"\"/* c */x") (some 10)) = true := by
    decide +kernel
  have hin : (⟨3, 10, .ofBlock "/*" "*/", false⟩ : Removal) ∈
      removals .java (.literal .tripleDouble) (Bytes.ofString "\"\"\"/* c */x") := by
    rw [hremovals]
    exact List.mem_cons_self
  have hiff := (separated_iff (by decide) (by decide) hprocess hin hsources (by simp)
    (by decide) (by decide)).2
  exact ⟨hprocess, hremovals, hsources, fun hexists => hblank (hiff.1 hexists hcloses)⟩

end Line
end Uncomment

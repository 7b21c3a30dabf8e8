import Uncomment.Proofs.Line.Around

/-!
# The exact meaning of a pruned line

`Pruning.IsExact` says of a pruning, in terms of the line alone, which comments
were removed and what is left: nothing else goes away, and nothing that should go
away stays.  `Pruning.isExact_of_ofLine` proves it of every pruning that
`Pruning.ofLine` computes.
-/

namespace Uncomment
namespace Pruning

/--
A rule is the one that applies at an offset: its start token begins there and is
not kept, and every earlier rule whose start token begins there is kept.
-/
def Applies (language : Language) (line : Bytes) (offset : Nat) (rule : Rule) : Prop :=
  ∃ earlier later, language.rules = earlier ++ rule :: later ∧
    rule.start <+: line.drop offset ∧
    Veto.keeps language (LineFacts.ofLine line) offset rule.start = .ok false ∧
    ∀ other ∈ earlier, other.start <+: line.drop offset →
      Veto.keeps language (LineFacts.ofLine line) offset other.start = .ok true

/-- A byte that is there and is not blank. -/
def Solid (b : Option UInt8) : Prop :=
  ∃ c, b = some c ∧ Byte.isBlank c = false

/-- What a pruning of a line has to be. -/
structure IsExact (language : Language) (line : Bytes) (result : Pruning) : Prop where
  /-- The removals are disjoint and go from left to right. -/
  ordered : result.removals.Pairwise fun removal later => removal.stop ≤ later.start
  /-- Every removal takes at least one byte of the line. -/
  within : ∀ removal ∈ result.removals,
    removal.start < removal.stop ∧ removal.stop ≤ line.length
  /-- The text is what the removals leave. -/
  text_eq : result.text = Removal.leave line 0 result.removals
  /-- A removal starts where the cursor stands in code and its rule is the one that applies. -/
  starts : ∀ removal ∈ result.removals,
    (∃ cursor ∈ (Cursor.start line).trailAround language.dialect result.removals,
      cursor.offset = removal.start ∧ cursor.span = .code) ∧
    Applies language line removal.start removal.rule
  /-- A removal ends where its rule says. -/
  stops : ∀ removal ∈ result.removals, removal.Stops line
  /-- A space takes the place of a removal if text would be glued together otherwise. -/
  gap_iff : ∀ earlier removal later, result.removals = earlier ++ removal :: later →
    (removal.gap = true ↔
      language ≠ .html ∧ language ≠ .markdown ∧
        Solid (Removal.leave (line.take removal.start) 0 earlier).getLast? ∧
        Solid (line)[removal.stop]?)
  /-- No rule applies at any other stop in code. -/
  complete : ∀ cursor ∈ (Cursor.start line).trailAround language.dialect result.removals,
    cursor.span = .code →
    (∀ removal ∈ result.removals, removal.start ≠ cursor.offset) →
    ∀ rule ∈ language.rules, rule.start <+: line.drop cursor.offset →
      Veto.keeps language (LineFacts.ofLine line) cursor.offset rule.start = .ok true
  /-- A block comment without its stop token is left open. -/
  mode_of_open : ∀ removal stop, result.removals.getLast? = some removal →
    removal.Open line stop → result.mode = .blockComment stop
  /-- Otherwise the line leaves open what the cursor ends in. -/
  mode_of_closed :
    (∀ removal stop, result.removals.getLast? = some removal → ¬ removal.Open line stop) →
    ∃ cursor,
      ((Cursor.start line).trailAround language.dialect result.removals).getLast? = some cursor ∧
        cursor.offset = line.length ∧ result.mode = .ofSpan language.dialect cursor.span

/-- The rule of the comment at a cursor in a line is the one that applies. -/
theorem applies_of_commentAt?
    {language : Language} {line : Bytes} {cursor : Cursor} {rule : Rule}
    (hat : cursor.At line)
    (h : commentAt? language (LineFacts.ofLine line) cursor = .ok (some rule)) :
    Applies language line cursor.offset rule := by
  rw [commentAt?, if_pos (span_eq_code_of_commentAt? h), hat.2] at h
  exact exists_of_firstRule?_eq_some h

theorem fuses_iff
    {language : Language} {previous next : Option UInt8} :
    fuses language previous next = true ↔
      language ≠ .html ∧ language ≠ .markdown ∧ Solid previous ∧ Solid next := by
  have hsolid (b : Option UInt8) :
      (b.any fun c => !Byte.isBlank c) = true ↔ Solid b := by
    cases b <;> simp [Solid]
  unfold fuses
  split
  · next h =>
      simp only [Bool.false_eq_true, false_iff]
      rintro ⟨hhtml, hmarkdown, -⟩
      exact h.elim hhtml hmarkdown
  · next h =>
      rw [not_or] at h
      simp only [Bool.and_eq_true, hsolid]
      exact ⟨fun hboth => ⟨h.1, h.2, hboth⟩, fun hall => hall.2.2⟩

namespace Reading

variable {language : Language} {facts : LineFacts} {cursor : Cursor} {last : Option UInt8}
variable {left : Pruning} {line : Bytes}

/-- Bytes before the first removal are left as they are. -/
theorem leave_of_le
    {low high : Nat} {removals : List Removal} {text : Bytes}
    (hle : low ≤ high)
    (hlen : high ≤ text.length)
    (hlow : ∀ removal ∈ removals, high ≤ removal.start) :
    Removal.leave text low removals =
      (text.take high).drop low ++ Removal.leave text high removals := by
  have hcut (limit : Nat) (hlimit : high ≤ limit) :
      (text.take limit).drop low = (text.take high).drop low ++ (text.take limit).drop high := by
    have hshort : text.take high = (text.take limit).take high := by
      rw [List.take_take, Nat.min_eq_left hlimit]
    have hfront : (text.take limit).drop low =
        ((text.take limit).take high ++ (text.take limit).drop high).drop low := by
      rw [List.take_append_drop]
    rw [hfront, List.drop_append_of_le_length, ← hshort]
    rw [← hshort, List.length_take]
    omega
  cases removals with
  | nil =>
      have hall := hcut text.length hlen
      rwa [List.take_length] at hall
  | cons removal more =>
      simp only [Removal.leave]
      rw [hcut removal.start (hlow removal List.mem_cons_self)]
      simp only [List.append_assoc]

/-- The bytes that a step reads. -/
theorem take_drop_of_move
    {next : Cursor} {b : UInt8} {rest : Bytes} {more : Nat}
    (hat : cursor.At line)
    (hrest : cursor.rest = b :: rest)
    (hoffset : next.offset = cursor.offset + more + 1) :
    (line.take next.offset).drop cursor.offset = b :: rest.take more := by
  rw [List.drop_take, ← hat.2, hrest, hoffset]
  rw [show cursor.offset + more + 1 - cursor.offset = more + 1 by omega, List.take_succ_cons]

theorem leave_toEnd
    {rule : Rule}
    (hat : cursor.At line)
    (hmem : rule ∈ language.rules)
    (hstart : rule.start <+: cursor.rest) :
    Removal.leave line cursor.offset [.toEnd cursor rule] = [] := by
  have hstop := (toEnd_within hat hmem hstart).2
  rw [Removal.leave, Removal.leave, hstop, List.drop_length]
  simp [Removal.toEnd, Removal.filler]

/-- The text of a reading is what its removals leave of the unread bytes. -/
theorem text_eq
    (h : Reading language facts cursor last left)
    (hat : cursor.At line) :
    left.text = Removal.leave line cursor.offset left.removals := by
  induction h with
  | done hrest =>
      rw [Removal.leave, ← hat.2, hrest]
  | step hrest _ hmore hstep hoffset hleft ih =>
      have hat' := Cursor.at_of_move hat hrest hmore hstep hoffset
      rw [leave_of_le (by omega) hat'.1 fun removal hremoval =>
        (hleft.within hat' removal hremoval).1]
      rw [take_drop_of_move hat hrest hoffset, ← ih hat']
  | cutLine hrule | cutBlock hrule =>
      obtain ⟨hmem, hstart⟩ := mem_rules_of_commentAt? hrule
      exact (leave_toEnd hat hmem hstart).symm
  | splice hrest hrule hfind hwidth hpos hle hclean hgap hleft ih =>
      obtain ⟨hat', hoffset'⟩ := at_resume hat hrest hpos hle
      rw [ih hat', hoffset']
      simp only [Removal.leave]
      rw [List.drop_eq_nil_of_le (List.length_take_le _ _)]
      rfl

/--
A space takes the place of a removal exactly if the byte put out before it and the
byte after it would fuse.
-/
theorem gap_iff
    (h : Reading language facts cursor last left)
    (hat : cursor.At line) :
    ∀ earlier removal later, left.removals = earlier ++ removal :: later →
      (removal.gap = true ↔
        fuses language
          ((Removal.leave (line.take removal.start) cursor.offset earlier).getLast?.or last)
          (line)[removal.stop]? = true) := by
  induction h with
  | done =>
      intro earlier removal later hsplit
      simp at hsplit
  | @step cursor last b rest more left hrest _ hmore hstep hoffset hleft ih =>
      intro earlier removal later hsplit
      have hat' := Cursor.at_of_move hat hrest hmore hstep hoffset
      have hbounds (other : Removal) (hother : other ∈ earlier ++ removal :: later) :=
        hleft.within hat' other (by rw [hsplit]; exact hother)
      have hremoval := hbounds removal (by simp)
      rw [ih hat' earlier removal later hsplit]
      have hlen : (line.take removal.start).length = removal.start := by
        rw [List.length_take]
        omega
      have hread : ((line.take removal.start).take
          (cursor.step language.dialect b rest).offset).drop cursor.offset =
            b :: rest.take more := by
        rw [List.take_take, Nat.min_eq_left hremoval.1]
        exact take_drop_of_move hat hrest hoffset
      rw [leave_of_le (by omega : cursor.offset ≤ (cursor.step language.dialect b rest).offset)
        (by rw [hlen]; exact hremoval.1)
        (fun other hother => (hbounds other (List.mem_append_left _ hother)).1), hread,
        List.getLast?_append, Option.or_assoc, Cursor.getLast?_eq_lastOf, Option.some_or]
  | cutLine hrule | cutBlock hrule =>
      intro earlier removal later hsplit
      obtain ⟨hmem, hstart⟩ := mem_rules_of_commentAt? hrule
      have hstop := (toEnd_within hat hmem hstart).2
      have hin : removal ∈ earlier ++ removal :: later := by simp
      rw [← hsplit] at hin
      rw [fuses_iff, List.mem_singleton.1 hin, hstop, List.getElem?_eq_none (Nat.le_refl _)]
      simp [Removal.toEnd, Solid]
  | @splice cursor last b rest start stop found width gap left hrest hrule hfind hwidth hpos
      hle hclean hgap hleft ih =>
      intro earlier removal later hsplit
      obtain ⟨hat', hoffset'⟩ := at_resume hat hrest hpos hle
      cases earlier with
      | nil =>
          simp only [List.nil_append, List.cons.injEq] at hsplit
          obtain ⟨rfl, -⟩ := hsplit
          have hnext : (line)[cursor.offset + width]? =
              (cursor.resume b rest (width - 1)).rest.head? := by
            rw [hat'.2, List.head?_drop, hoffset']
          have hnone : Removal.leave (line.take cursor.offset) cursor.offset [] = [] :=
            List.drop_eq_nil_of_le (List.length_take_le _ _)
          dsimp only
          rw [hnext, hnone, hgap, List.getLast?_nil, Option.none_or]
      | cons first earlier =>
          simp only [List.cons_append, List.cons.injEq] at hsplit
          obtain ⟨rfl, hsplit⟩ := hsplit
          rw [ih hat' earlier removal later hsplit]
          have hfront : ((line.take removal.start).take cursor.offset).drop cursor.offset = [] :=
            List.drop_eq_nil_of_le (List.length_take_le _ _)
          simp only [Removal.leave]
          rw [hfront, List.nil_append, List.getLast?_append, Option.or_assoc, hoffset']
          have hlast : (Removal.filler
              ⟨cursor.offset, cursor.offset + width, .block start stop, gap⟩).getLast?.or last =
                if gap then some Byte.space else last := by
            cases gap <;> rfl
          rw [hlast]

/-- Between the stops of a reading's first step no removal starts. -/
theorem trailAround_of_step
    {b : UInt8} {rest : Bytes} {more : Nat}
    (hat : cursor.At line)
    (hrest : cursor.rest = b :: rest)
    (hmore : more ≤ rest.length)
    (hstep : (cursor.step language.dialect b rest).rest = rest.drop more)
    (hoffset : (cursor.step language.dialect b rest).offset = cursor.offset + more + 1)
    (hleft : Reading language facts (cursor.step language.dialect b rest) last left) :
    cursor.trailAround language.dialect left.removals =
      cursor :: (cursor.step language.dialect b rest).trailAround language.dialect
        left.removals := by
  have hat' := Cursor.at_of_move hat hrest hmore hstep hoffset
  refine Cursor.trailAround_of_ne hrest ?_
  intro removal hremoval heq
  have hbounds := hleft.within hat' removal hremoval
  omega

/-- Over a removal up to the end a cursor jumps to the end of the line, in code. -/
theorem trailAround_toEnd
    {rule : Rule}
    (hat : cursor.At line)
    (hmem : rule ∈ language.rules)
    (hstart : rule.start <+: cursor.rest) :
    ∃ final : Cursor, final.At line ∧ final.rest = [] ∧ final.span = .code ∧
      cursor.trailAround language.dialect [.toEnd cursor rule] = [cursor, final] := by
  cases hrest : cursor.rest with
  | nil =>
      rw [hrest, List.prefix_nil] at hstart
      exact absurd hstart (Language.start_ne_nil hmem)
  | cons b rest =>
      have hwidth : (Removal.toEnd cursor rule).stop - (Removal.toEnd cursor rule).start - 1 =
          rest.length := by
        simp [Removal.toEnd, hrest]
      have hend : (cursor.resume b rest rest.length).rest = [] := by
        simp [Cursor.resume]
      refine ⟨cursor.resume b rest rest.length, ?_, hend, rfl, ?_⟩
      · exact Cursor.at_of_move hat hrest (Nat.le_refl _) rfl rfl
      · rw [Cursor.trailAround_of_eq hrest rfl, hwidth, Cursor.trailAround_of_rest_nil hend]

/-- Over a spliced comment a cursor jumps to where reading goes on. -/
theorem trailAround_of_splice
    {b : UInt8} {rest start stop : Bytes} {width : Nat} {gap : Bool}
    {removals : List Removal}
    (hrest : cursor.rest = b :: rest) :
    cursor.trailAround language.dialect
        (⟨cursor.offset, cursor.offset + width, .block start stop, gap⟩ :: removals) =
      cursor :: (cursor.resume b rest (width - 1)).trailAround language.dialect removals := by
  rw [Cursor.trailAround_of_eq hrest rfl]
  simp

/-- A removal starts at a stop in code, and its rule is the one that applies there. -/
theorem starts
    (h : Reading language (LineFacts.ofLine line) cursor last left)
    (hat : cursor.At line) :
    ∀ removal ∈ left.removals,
      (∃ stop ∈ cursor.trailAround language.dialect left.removals,
        stop.offset = removal.start ∧ stop.span = .code) ∧
      Applies language line removal.start removal.rule := by
  induction h with
  | done =>
      simp
  | step hrest _ hmore hstep hoffset hleft ih =>
      intro removal hremoval
      have hat' := Cursor.at_of_move hat hrest hmore hstep hoffset
      obtain ⟨⟨stop, hstop, hcode⟩, happlies⟩ := ih hat' removal hremoval
      rw [trailAround_of_step hat hrest hmore hstep hoffset hleft]
      exact ⟨⟨stop, List.mem_cons_of_mem _ hstop, hcode⟩, happlies⟩
  | cutLine hrule | cutBlock hrule =>
      intro removal hremoval
      obtain ⟨hmem, hstart⟩ := mem_rules_of_commentAt? hrule
      obtain ⟨final, -, -, -, htrail⟩ := trailAround_toEnd hat hmem hstart
      obtain rfl := List.mem_singleton.1 hremoval
      rw [htrail]
      exact ⟨⟨_, List.mem_cons_self, rfl, span_eq_code_of_commentAt? hrule⟩,
        applies_of_commentAt? hat hrule⟩
  | splice hrest hrule hfind hwidth hpos hle hclean hgap hleft ih =>
      intro removal hremoval
      obtain ⟨hat', -⟩ := at_resume hat hrest hpos hle
      rw [trailAround_of_splice hrest]
      rcases List.mem_cons.1 hremoval with rfl | hremoval
      · exact ⟨⟨_, List.mem_cons_self, rfl, span_eq_code_of_commentAt? hrule⟩,
          applies_of_commentAt? hat hrule⟩
      · obtain ⟨⟨stop, hstop, hcode⟩, happlies⟩ := ih hat' removal hremoval
        exact ⟨⟨stop, List.mem_cons_of_mem _ hstop, hcode⟩, happlies⟩

theorem not_start_of_rest_nil
    {rule : Rule}
    (hat : cursor.At line)
    (hrest : cursor.rest = [])
    (hmem : rule ∈ language.rules) :
    ¬ rule.start <+: line.drop cursor.offset := by
  intro hstart
  rw [← hat.2, hrest, List.prefix_nil] at hstart
  exact Language.start_ne_nil hmem hstart

/-- At a stop in code where no removal starts, every start token is kept. -/
theorem complete
    (h : Reading language (LineFacts.ofLine line) cursor last left)
    (hat : cursor.At line) :
    ∀ stop ∈ cursor.trailAround language.dialect left.removals,
      stop.span = .code →
      (∀ removal ∈ left.removals, removal.start ≠ stop.offset) →
      ∀ rule ∈ language.rules, rule.start <+: line.drop stop.offset →
        Veto.keeps language (LineFacts.ofLine line) stop.offset rule.start = .ok true := by
  induction h with
  | done hrest =>
      intro stop hstop _ _ rule hmem hstart
      rw [Cursor.trailAround_of_rest_nil hrest, List.mem_singleton] at hstop
      subst hstop
      exact absurd hstart (not_start_of_rest_nil hat hrest hmem)
  | step hrest hnone hmore hstep hoffset hleft ih =>
      intro stop hstop hcode hne
      have hat' := Cursor.at_of_move hat hrest hmore hstep hoffset
      rw [trailAround_of_step hat hrest hmore hstep hoffset hleft, List.mem_cons] at hstop
      rcases hstop with rfl | hstop
      · rw [commentAt?, if_pos hcode, hat.2] at hnone
        exact firstRule?_eq_none_iff.1 hnone
      · exact ih hat' stop hstop hcode hne
  | cutLine hrule | cutBlock hrule =>
      intro stop hstop hcode hne rule hmem hstart
      obtain ⟨hmem', hstart'⟩ := mem_rules_of_commentAt? hrule
      obtain ⟨final, hatEnd, hrestEnd, -, htrail⟩ := trailAround_toEnd hat hmem' hstart'
      rw [htrail, List.mem_cons, List.mem_singleton] at hstop
      rcases hstop with rfl | rfl
      · exact absurd rfl (hne _ List.mem_cons_self)
      · exact absurd hstart (not_start_of_rest_nil hatEnd hrestEnd hmem)
  | splice hrest hrule hfind hwidth hpos hle hclean hgap hleft ih =>
      intro stop hstop hcode hne
      obtain ⟨hat', -⟩ := at_resume hat hrest hpos hle
      rw [trailAround_of_splice hrest, List.mem_cons] at hstop
      rcases hstop with rfl | hstop
      · exact absurd rfl (hne _ List.mem_cons_self)
      · exact ih hat' stop hstop hcode fun removal hremoval =>
          hne removal (List.mem_cons_of_mem _ hremoval)

/-- A comment that was spliced out has its stop token in the line. -/
theorem not_open_of_find?
    {start stop other : Bytes} {found width : Nat} {gap : Bool}
    (hat : cursor.At line)
    (hfind : Bytes.find? stop (cursor.rest.drop start.length) = some found) :
    ¬ Removal.Open line ⟨cursor.offset, cursor.offset + width, .block start stop, gap⟩ other := by
  rintro ⟨_, ⟨rfl, rfl⟩, hnever⟩
  have hpre := (Bytes.find?_eq_some_iff.1 hfind).1
  rw [hat.2, List.drop_drop, List.drop_drop] at hpre
  exact hnever _ (by dsimp only; omega) hpre

/-- If the last removal is a block comment without its stop token, that is left open. -/
theorem mode_of_open
    (h : Reading language facts cursor last left)
    (hat : cursor.At line) :
    ∀ removal stop, left.removals.getLast? = some removal → removal.Open line stop →
      left.mode = .blockComment stop := by
  induction h with
  | done =>
      simp
  | step hrest _ hmore hstep hoffset _ ih =>
      exact ih (Cursor.at_of_move hat hrest hmore hstep hoffset)
  | cutLine =>
      rintro removal stop hlast ⟨start, hrule, -⟩
      cases hlast
      cases hrule
  | cutBlock =>
      rintro removal stop hlast ⟨start, hrule, -⟩
      cases hlast
      cases hrule
      rfl
  | @splice cursor last b rest start stop found width gap left hrest hrule hfind hwidth hpos
      hle hclean hgap hleft ih =>
      intro removal other hlast hopen
      obtain ⟨hat', -⟩ := at_resume hat hrest hpos hle
      cases hremovals : left.removals with
      | nil =>
          rw [hremovals] at hlast
          cases hlast
          exact absurd hopen (not_open_of_find? hat hfind)
      | cons first more =>
          rw [hremovals, List.getLast?_cons_cons, ← hremovals] at hlast
          exact ih hat' removal other hlast hopen

/-- Otherwise the span in which the cursor ends says what is left open. -/
theorem mode_of_closed
    (h : Reading language facts cursor last left)
    (hat : cursor.At line) :
    (∀ removal stop, left.removals.getLast? = some removal → ¬ removal.Open line stop) →
    ∃ final : Cursor,
      (cursor.trailAround language.dialect left.removals).getLast? = some final ∧
        final.offset = line.length ∧ left.mode = .ofSpan language.dialect final.span := by
  have hend {c : Cursor} (hc : c.At line) (hrest : c.rest = []) : c.offset = line.length := by
    have hlen := congrArg List.length hc.2
    rw [hrest, List.length_drop, List.length_nil] at hlen
    have hle := hc.1
    omega
  induction h with
  | done hrest =>
      intro _
      rw [Cursor.trailAround_of_rest_nil hrest]
      exact ⟨_, rfl, hend hat hrest, rfl⟩
  | step hrest _ hmore hstep hoffset hleft ih =>
      intro hclosed
      have hat' := Cursor.at_of_move hat hrest hmore hstep hoffset
      obtain ⟨final, hfinal, hmode⟩ := ih hat' hclosed
      refine ⟨final, ?_, hmode⟩
      rw [trailAround_of_step hat hrest hmore hstep hoffset hleft, List.getLast?_cons, hfinal]
      rfl
  | cutLine hrule =>
      intro _
      obtain ⟨hmem, hstart⟩ := mem_rules_of_commentAt? hrule
      obtain ⟨final, hatEnd, hrestEnd, hcode, htrail⟩ := trailAround_toEnd hat hmem hstart
      rw [htrail]
      exact ⟨final, rfl, hend hatEnd hrestEnd, by rw [hcode]; rfl⟩
  | cutBlock hrule hfind =>
      intro hclosed
      refine absurd ⟨_, rfl, ?_⟩ (hclosed _ _ rfl)
      intro offset hoffset hpre
      obtain ⟨extra, rfl⟩ := Nat.exists_eq_add_of_le hoffset
      refine Bytes.find?_eq_none_iff.1 hfind extra ?_
      rw [hat.2, List.drop_drop, List.drop_drop, ← Nat.add_assoc]
      exact hpre
  | @splice cursor last b rest start stop found width gap left hrest hrule hfind hwidth hpos
      hle hclean hgap hleft ih =>
      intro hclosed
      obtain ⟨hat', -⟩ := at_resume hat hrest hpos hle
      have hclosed' : ∀ removal stop, left.removals.getLast? = some removal →
          ¬ removal.Open line stop := by
        intro removal stop hlast
        refine hclosed removal stop ?_
        rw [List.getLast?_cons, hlast]
        rfl
      obtain ⟨final, hfinal, hmode⟩ := ih hat' hclosed'
      refine ⟨final, ?_, hmode⟩
      rw [trailAround_of_splice hrest, List.getLast?_cons, hfinal]
      rfl

end Reading

/-- The pruning that is computed of a line is the exact one. -/
theorem isExact_of_ofLine
    (language : Language)
    (line : Bytes)
    (result : Pruning)
    (h : ofLine language line = .ok result) :
    IsExact language line result := by
  have hreading := reading_of_ofLine h
  have hat := Cursor.at_start line
  refine
    { ordered := hreading.ordered hat
      within := fun removal hremoval => (hreading.within hat removal hremoval).2
      text_eq := hreading.text_eq hat
      starts := hreading.starts hat
      stops := hreading.stops hat
      gap_iff := ?_
      complete := hreading.complete hat
      mode_of_open := hreading.mode_of_open hat
      mode_of_closed := hreading.mode_of_closed hat }
  intro earlier removal later hsplit
  rw [hreading.gap_iff hat earlier removal later hsplit, fuses_iff, Option.or_none]
  rfl

/-- A line with a string, two block comments and a line comment is pruned exactly. -/
theorem isExact_several_comments :
    ofLine .c (Bytes.ofString "f(/* a */x, \"/*\", /* b */ y); // c") =
        .ok ⟨Bytes.ofString "f( x, \"/*\",  y); ",
          [⟨2, 9, .ofBlock "/*" "*/", true⟩, ⟨18, 25, .ofBlock "/*" "*/", false⟩,
            ⟨30, 34, .ofLine "//", false⟩], .normal⟩ ∧
      IsExact .c (Bytes.ofString "f(/* a */x, \"/*\", /* b */ y); // c")
        ⟨Bytes.ofString "f( x, \"/*\",  y); ",
          [⟨2, 9, .ofBlock "/*" "*/", true⟩, ⟨18, 25, .ofBlock "/*" "*/", false⟩,
            ⟨30, 34, .ofLine "//", false⟩], .normal⟩ := by
  have h : ofLine .c (Bytes.ofString "f(/* a */x, \"/*\", /* b */ y); // c") =
      .ok ⟨Bytes.ofString "f( x, \"/*\",  y); ",
        [⟨2, 9, .ofBlock "/*" "*/", true⟩, ⟨18, 25, .ofBlock "/*" "*/", false⟩,
          ⟨30, 34, .ofLine "//", false⟩], .normal⟩ := by
    decide +kernel
  exact ⟨h, isExact_of_ofLine _ _ _ h⟩

end Pruning
end Uncomment

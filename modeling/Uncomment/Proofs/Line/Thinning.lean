import Uncomment.Proofs.Line.Shrink
import Uncomment.Proofs.Text.Characters
import Uncomment.Proofs.Veto.Cut

/-!
# Lines get thinner

Nothing is put out that was not there, spaces apart: the characters that are left of a
line are, spaces left out, some of the characters of the line in their order
(`Utf8.Thins`).  A comment starts and stops between two characters, so no character is
taken apart (`Pruning.Reading.exists_thinned`).
-/

namespace Uncomment

namespace Utf8

/-- Spaces left out, characters are some of others, in the same order. -/
def Thins (ds cs : List Char) : Prop :=
  (ds.filter (· != ' ')).Sublist (cs.filter (· != ' '))

namespace Thins

variable {as bs cs ds : List Char}

theorem refl
    (cs : List Char) :
    Thins cs cs := by
  exact List.Sublist.refl _

theorem of_sublist
    (h : ds.Sublist cs) :
    Thins ds cs := by
  exact h.filter _

theorem trans
    (h : Thins as bs)
    (h' : Thins bs cs) :
    Thins as cs := by
  exact List.Sublist.trans h h'

theorem append
    (h : Thins ds cs)
    (h' : Thins bs as) :
    Thins (ds ++ bs) (cs ++ as) := by
  unfold Thins at h h' ⊢
  rw [List.filter_append, List.filter_append]
  exact List.Sublist.append h h'

theorem of_append_right
    (h : Thins (ds ++ as) (cs ++ as)) :
    Thins ds cs := by
  unfold Thins at h ⊢
  rw [List.filter_append, List.filter_append] at h
  exact (List.append_sublist_append_right _).1 h

/-- A space more or less makes no difference. -/
theorem space_cons
    (h : Thins ds cs) :
    Thins (' ' :: ds) cs := by
  exact h

end Thins

/-- A stretch of continuation bytes before characters, cut anywhere, is one behind the cut. -/
theorem exists_of_append_encode_eq_append
    {tail front back : Bytes} {cs : List Char}
    (htail : ∀ b ∈ tail, isContinuation b = true)
    (h : tail ++ encode cs = front ++ back) :
    ∃ tail' as bs, cs = as ++ bs ∧ back = tail' ++ encode bs ∧
      front ++ tail' = tail ++ encode as ∧ ∀ b ∈ tail', isContinuation b = true := by
  have hback : back = back.takeWhile isContinuation ++ back.dropWhile isContinuation :=
    List.takeWhile_append_dropWhile.symm
  have hcont : ∀ b ∈ back.takeWhile isContinuation, isContinuation b = true :=
    fun b hb => List.mem_takeWhile_imp hb
  have hclean : startsClean (back.dropWhile isContinuation) = true := by
    cases hdrop : back.dropWhile isContinuation with
    | nil =>
        rfl
    | cons b rest =>
        have hhead := List.head?_dropWhile_not isContinuation back
        rw [hdrop] at hhead
        simpa [startsClean] using hhead
  generalize back.takeWhile isContinuation = tail' at hback hcont
  generalize back.dropWhile isContinuation = later at hback hclean
  subst hback
  rw [← List.append_assoc] at h
  rcases List.append_eq_append_iff.1 h with ⟨more, hfront, hcs⟩ | ⟨more, rfl, rfl⟩
  · obtain ⟨as, bs, rfl, rfl, rfl⟩ := exists_of_encode_eq_append hcs hclean
    exact ⟨tail', as, bs, rfl, rfl, hfront, hcont⟩
  · -- The continuation bytes reach beyond the cut, which can only be by none.
    cases more with
    | nil =>
        exact ⟨tail', [], cs, rfl, by simp, by simp, hcont⟩
    | cons b more =>
        have hb := htail b (by simp)
        simp [startsClean, hb] at hclean

end Utf8

namespace Pruning

variable {language : Language} {facts : LineFacts} {cursor : Cursor} {last : Option UInt8}
variable {left : Pruning}

/-- Where a comment starts no continuation bytes come first. -/
theorem eq_nil_of_commentAt?
    {rule : Rule} {tail : Bytes} {cs : List Char}
    (hrule : commentAt? language facts cursor = .ok (some rule))
    (hrest : cursor.rest = tail ++ Utf8.encode cs)
    (htail : ∀ b ∈ tail, Utf8.isContinuation b = true) :
    tail = [] := by
  obtain ⟨hmem, hstart⟩ := mem_rules_of_commentAt? hrule
  cases tail with
  | nil =>
      rfl
  | cons b more =>
      have hclean := Veto.startsClean_of_isPrefix hmem hstart
      rw [hrest] at hclean
      have hb := htail b List.mem_cons_self
      simp [Utf8.startsClean, hb] at hclean

/-- The characters that a reading leaves are thinner than those that were unread. -/
theorem Reading.exists_thinned
    (h : Reading language facts cursor last left)
    {tail : Bytes} {cs : List Char}
    (hrest : cursor.rest = tail ++ Utf8.encode cs)
    (htail : ∀ b ∈ tail, Utf8.isContinuation b = true) :
    ∃ ds, left.text = tail ++ Utf8.encode ds ∧ Utf8.Thins ds cs := by
  induction h generalizing tail cs with
  | done hnil =>
      rw [hnil] at hrest
      obtain ⟨rfl, -⟩ := List.append_eq_nil_iff.1 hrest.symm
      exact ⟨[], rfl, .of_sublist (List.nil_sublist _)⟩
  | @step cursor _ b rest more left hcons _ _ hstep _ _ ih =>
      have hcut : tail ++ Utf8.encode cs = (b :: rest.take more) ++ rest.drop more := by
        rw [← hrest, hcons, List.cons_append, List.take_append_drop]
      obtain ⟨tail', as, bs, rfl, hback, hfront, htail'⟩ :=
        Utf8.exists_of_append_encode_eq_append htail hcut
      obtain ⟨ds, hds, hthins⟩ := ih (hstep.trans hback) htail'
      refine ⟨as ++ ds, ?_, .append (.refl as) hthins⟩
      dsimp only
      rw [hds, ← List.append_assoc, hfront, Utf8.encode_append, List.append_assoc]
  | cutLine hrule | cutBlock hrule =>
      obtain rfl := eq_nil_of_commentAt? hrule hrest htail
      exact ⟨[], rfl, .of_sublist (List.nil_sublist _)⟩
  | @splice cursor _ b rest start stop found width gap left hcons hrule _ _ hpos _ hclean _ _ ih =>
      obtain rfl := eq_nil_of_commentAt? hrule hrest htail
      have hnext : (cursor.resume b rest (width - 1)).rest = (Utf8.encode cs).drop width := by
        rw [List.nil_append] at hrest
        obtain ⟨fewer, rfl⟩ := Nat.exists_eq_add_of_lt hpos
        rw [← hrest, hcons]
        simp [Cursor.resume]
      rw [hnext] at hclean
      obtain ⟨as, bs, rfl, -, hbs⟩ := Utf8.exists_of_startsClean_drop hclean
      obtain ⟨ds, hds, hthins⟩ := @ih [] bs (hnext.trans hbs.symm) (by simp)
      have hthinner : Utf8.Thins ds (as ++ bs) :=
        hthins.trans (.of_sublist (List.sublist_append_right as bs))
      rw [List.nil_append] at hds
      cases gap with
      | true => exact ⟨' ' :: ds, by rw [hds]; rfl, hthinner.space_cons⟩
      | false => exact ⟨ds, by rw [hds]; rfl, hthinner⟩

/-- The characters that are left of code are thinner than those of the code. -/
theorem exists_thinned
    {cs : List Char} {pruning : Pruning}
    (h : ofLine language (Utf8.encode cs) = .ok pruning) :
    ∃ ds, pruning.text = Utf8.encode ds ∧ Utf8.Thins ds cs := by
  have hreading := reading_of_ofLine h
  exact hreading.exists_thinned (List.nil_append _).symm (by simp)

end Pruning

namespace Line

variable {language : Language} {mode next : Mode} {left text : Bytes} {cs : List Char}

theorem Pruned.exists_thinned
    (h : Pruned language (Utf8.encode cs) left) :
    ∃ ds, left = Utf8.encode ds ∧ Utf8.Thins ds cs := by
  generalize hline : Utf8.encode cs = line at h
  cases h with
  | @keeping kept code pruning hpruning hclean _ =>
      obtain ⟨as, bs, rfl, rfl, rfl⟩ : ∃ as bs, cs = as ++ bs ∧ Utf8.encode as = kept ∧
          Utf8.encode bs = code := by
        rcases hclean with rfl | hclean
        · exact ⟨[], cs, rfl, rfl, hline⟩
        · exact Utf8.exists_of_encode_eq_append hline hclean
      obtain ⟨ds, hds, hthins⟩ := Pruning.exists_thinned hpruning
      exact ⟨as ++ ds, by rw [hds, Utf8.encode_append], .append (.refl as) hthins⟩
  | skipping hpruning hclean _ =>
      obtain ⟨as, bs, rfl, -, rfl⟩ := Utf8.exists_of_encode_eq_append hline hclean
      obtain ⟨ds, hds, hthins⟩ := Pruning.exists_thinned hpruning
      exact ⟨ds, hds, hthins.trans (.of_sublist (List.sublist_append_right as bs))⟩

/-- A trimmed text of characters is one of the first of them. -/
theorem exists_of_trimEndSpaces_encode
    (cs : List Char) :
    ∃ ds, Blank.trimEndSpaces (Utf8.encode cs) = Utf8.encode ds ∧ ds <+: cs := by
  obtain ⟨slack, htext, hslack⟩ := Blank.exists_slack (Utf8.encode cs)
  have hclean : Utf8.startsClean slack = true := by
    cases slack with
    | nil =>
        rfl
    | cons b more =>
        have hb := hslack b List.mem_cons_self
        rw [Blank.isSlack, Bool.or_eq_true, beq_iff_eq, beq_iff_eq] at hb
        rcases hb with rfl | rfl <;> rfl
  obtain ⟨as, bs, rfl, has, -⟩ := Utf8.exists_of_encode_eq_append htext hclean
  exact ⟨as, has.symm, List.prefix_append as bs⟩

/-- What a line of characters is replaced by are characters, thinner than the line. -/
theorem exists_thinned_of_replaced
    (hmode : mode.Possible language)
    (h : process language mode (Utf8.encode cs) = .ok (.replaced text, next)) :
    ∃ ds, text = Utf8.encode ds ∧ Utf8.Thins ds cs := by
  obtain ⟨left, hpruned, rfl, -⟩ := exists_pruned_of_replaced hmode h
  obtain ⟨ds, rfl, hthins⟩ := hpruned.exists_thinned
  obtain ⟨es, htrimmed, hpre⟩ := exists_of_trimEndSpaces_encode ds
  exact ⟨es, htrimmed, (Utf8.Thins.of_sublist hpre.sublist).trans hthins⟩

end Line
end Uncomment

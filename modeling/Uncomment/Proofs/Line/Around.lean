import Uncomment.Proofs.Line.Reading

/-!
# Removals seen from outside

What a list of removals means for a line, without reference to how the removals
were found:

* `Removal.leave` is the text that they leave of the line;
* `Cursor.trailAround` lists the stops of a cursor that reads the line and jumps
  over the removals;
* `Removal.Stops` says where a removal has to end, and `Removal.Open` that it is
  a block comment without its stop token.

A reading agrees with these views: `Reading.within`, `Reading.text_eq`,
`Reading.stops` and the equations for `trailAround`.
-/

namespace Uncomment

namespace Removal

/-- What takes the place of a removal. -/
def filler (removal : Removal) : Bytes :=
  if removal.gap then [Byte.space] else []

/-- The text that removals leave of a line from the offset `low` on. -/
def leave (line : Bytes) : Nat → List Removal → Bytes
  | low, [] => line.drop low
  | low, removal :: more =>
      (line.take removal.start).drop low ++ removal.filler ++ leave line removal.stop more

/-- No stop token of a block comment that starts with a removal is in the line. -/
def Open (line : Bytes) (removal : Removal) (stop : Bytes) : Prop :=
  ∃ start, removal.rule = .block start stop ∧
    ∀ offset, removal.start + start.length ≤ offset → ¬ stop <+: line.drop offset

/--
A removal ends where its rule says: a line comment at the end of the line, a
block comment just after the first stop token that begins at or after the end of
its start token, or at the end of the line if there is none.
-/
def Stops (line : Bytes) (removal : Removal) : Prop :=
  match removal.rule with
  | .line _ => removal.stop = line.length
  | .block start stop =>
      removal.Open line stop ∧ removal.stop = line.length ∨
        ∃ first, removal.start + start.length ≤ first ∧ stop <+: line.drop first ∧
          (∀ offset, removal.start + start.length ≤ offset → offset < first →
            ¬ stop <+: line.drop offset) ∧
          removal.stop = first + stop.length

end Removal

namespace Cursor

/-- All stops of a cursor that jumps over removals, up to the end of the line. -/
def trailAround
    (dialect : Dialect)
    (removals : List Removal)
    (cursor : Cursor) :
    List Cursor :=
  match _rest : cursor.rest with
  | [] => [cursor]
  | b :: rest =>
      match removals with
      | [] => cursor :: trailAround dialect [] (cursor.step dialect b rest)
      | removal :: more =>
          if removal.start = cursor.offset then
            cursor :: trailAround dialect more
              (cursor.resume b rest (removal.stop - removal.start - 1))
          else
            cursor :: trailAround dialect (removal :: more) (cursor.step dialect b rest)
termination_by cursor.rest.length
decreasing_by
  all_goals
    rw [_rest]
    first
      | exact length_rest_step_lt dialect cursor b rest
      | exact length_rest_resume_lt cursor b rest _

theorem trailAround_of_rest_nil
    {dialect : Dialect} {removals : List Removal} {cursor : Cursor}
    (hrest : cursor.rest = []) :
    cursor.trailAround dialect removals = [cursor] := by
  rw [trailAround]
  split
  · rfl
  · next h =>
      rw [hrest] at h
      cases h

theorem trailAround_of_ne
    {dialect : Dialect} {removals : List Removal} {cursor : Cursor} {b : UInt8} {rest : Bytes}
    (hrest : cursor.rest = b :: rest)
    (hne : ∀ removal ∈ removals, removal.start ≠ cursor.offset) :
    cursor.trailAround dialect removals =
      cursor :: (cursor.step dialect b rest).trailAround dialect removals := by
  rw [trailAround]
  split
  · next h =>
      rw [hrest] at h
      cases h
  · next h =>
      rw [hrest] at h
      cases h
      cases removals with
      | nil => rfl
      | cons removal more =>
          dsimp only
          rw [if_neg (hne removal List.mem_cons_self)]

theorem trailAround_of_eq
    {dialect : Dialect} {removal : Removal} {more : List Removal} {cursor : Cursor}
    {b : UInt8} {rest : Bytes}
    (hrest : cursor.rest = b :: rest)
    (heq : removal.start = cursor.offset) :
    cursor.trailAround dialect (removal :: more) =
      cursor :: (cursor.resume b rest (removal.stop - removal.start - 1)).trailAround
        dialect more := by
  rw [trailAround]
  split
  · next h =>
      rw [hrest] at h
      cases h
  · next h =>
      rw [hrest] at h
      cases h
      dsimp only
      rw [if_pos heq]

end Cursor

namespace Pruning
namespace Reading

variable {language : Language} {facts : LineFacts} {cursor : Cursor} {last : Option UInt8}
variable {left : Pruning} {line : Bytes}

/-- A spliced comment ends within the line, where reading goes on. -/
theorem at_resume
    {b : UInt8} {rest : Bytes} {width : Nat}
    (hat : cursor.At line)
    (hrest : cursor.rest = b :: rest)
    (hpos : 0 < width)
    (hwidth : width ≤ cursor.rest.length) :
    (cursor.resume b rest (width - 1)).At line ∧
      (cursor.resume b rest (width - 1)).offset = cursor.offset + width := by
  rw [hrest, List.length_cons] at hwidth
  have hoffset : (cursor.resume b rest (width - 1)).offset = cursor.offset + (width - 1) + 1 :=
    rfl
  refine ⟨Cursor.at_of_move hat hrest (by omega) rfl hoffset, ?_⟩
  rw [hoffset]
  omega

/-- A removal up to the end takes at least one byte and ends with the line. -/
theorem toEnd_within
    {rule : Rule}
    (hat : cursor.At line)
    (hmem : rule ∈ language.rules)
    (hstart : rule.start <+: cursor.rest) :
    (Removal.toEnd cursor rule).start < (Removal.toEnd cursor rule).stop ∧
      (Removal.toEnd cursor rule).stop = line.length := by
  have hpos : 0 < rule.start.length := List.length_pos_iff.2 (Language.start_ne_nil hmem)
  have hle := hstart.length_le
  obtain ⟨hoffset, hrest⟩ := hat
  have hlen : cursor.rest.length = line.length - cursor.offset := by
    rw [hrest, List.length_drop]
  simp only [Removal.toEnd]
  omega

/-- The removals of a reading lie between the cursor and the end of the line. -/
theorem within
    (h : Reading language facts cursor last left)
    (hat : cursor.At line) :
    ∀ removal ∈ left.removals,
      cursor.offset ≤ removal.start ∧ removal.start < removal.stop ∧
        removal.stop ≤ line.length := by
  induction h with
  | done =>
      simp
  | step hrest hnone hmore hstep hoffset _ ih =>
      intro removal hremoval
      have hat' := Cursor.at_of_move hat hrest hmore hstep hoffset
      have hbounds := ih hat' removal hremoval
      omega
  | cutLine hrule | cutBlock hrule =>
      intro removal hremoval
      obtain ⟨hmem, hstart⟩ := mem_rules_of_commentAt? hrule
      obtain ⟨hlt, hstop⟩ := toEnd_within hat hmem hstart
      obtain rfl := List.mem_singleton.1 hremoval
      exact ⟨Nat.le_refl _, hlt, Nat.le_of_eq hstop⟩
  | splice hrest hrule hfind hwidth hpos hle hclean hgap _ ih =>
      intro removal hremoval
      obtain ⟨hat', hoffset'⟩ := at_resume hat hrest hpos hle
      rcases List.mem_cons.1 hremoval with rfl | hremoval
      · have hend := hat'.1
        dsimp only
        omega
      · have hbounds := ih hat' removal hremoval
        omega

/-- The removals of a reading are disjoint and go from left to right. -/
theorem ordered
    (h : Reading language facts cursor last left)
    (hat : cursor.At line) :
    left.removals.Pairwise fun removal later => removal.stop ≤ later.start := by
  induction h with
  | done =>
      exact .nil
  | step hrest _ hmore hstep hoffset _ ih =>
      exact ih (Cursor.at_of_move hat hrest hmore hstep hoffset)
  | cutLine | cutBlock =>
      exact List.pairwise_singleton _ _
  | splice hrest hrule hfind hwidth hpos hle hclean hgap hleft ih =>
      obtain ⟨hat', hoffset'⟩ := at_resume hat hrest hpos hle
      refine List.pairwise_cons.2 ⟨?_, ih hat'⟩
      intro later hlater
      have hbounds := hleft.within hat' later hlater
      dsimp only
      omega

/-- The removals of a reading end where their rules say. -/
theorem stops
    (h : Reading language facts cursor last left)
    (hat : cursor.At line) :
    ∀ removal ∈ left.removals, removal.Stops line := by
  have hbody {c : Cursor} (hc : c.At line) (n offset : Nat) :
      (c.rest.drop n).drop offset = line.drop (c.offset + n + offset) := by
    rw [hc.2, List.drop_drop, List.drop_drop, Nat.add_assoc]
  induction h with
  | done =>
      simp
  | step hrest _ hmore hstep hoffset _ ih =>
      exact ih (Cursor.at_of_move hat hrest hmore hstep hoffset)
  | cutLine hrule =>
      intro removal hremoval
      obtain ⟨hmem, hstart⟩ := mem_rules_of_commentAt? hrule
      obtain rfl := List.mem_singleton.1 hremoval
      exact (toEnd_within hat hmem hstart).2
  | cutBlock hrule hfind =>
      intro removal hremoval
      obtain ⟨hmem, hstart⟩ := mem_rules_of_commentAt? hrule
      obtain rfl := List.mem_singleton.1 hremoval
      refine Or.inl ⟨⟨_, rfl, ?_⟩, (toEnd_within hat hmem hstart).2⟩
      intro offset hoffset hpre
      obtain ⟨extra, rfl⟩ := Nat.exists_eq_add_of_le hoffset
      refine Bytes.find?_eq_none_iff.1 hfind extra ?_
      rw [hbody hat]
      exact hpre
  | @splice cursor last b rest start stop found width gap left hrest hrule hfind hwidth hpos
      hle hclean hgap hleft ih =>
      intro removal hremoval
      obtain ⟨hat', -⟩ := at_resume hat hrest hpos hle
      rcases List.mem_cons.1 hremoval with rfl | hremoval
      · obtain ⟨hpre, hearlier⟩ := Bytes.find?_eq_some_iff.1 hfind
        refine Or.inr ⟨cursor.offset + start.length + found, by dsimp only; omega, ?_, ?_, ?_⟩
        · rw [← hbody hat]
          exact hpre
        · intro offset hlow hhigh hoccurs
          obtain ⟨extra, rfl⟩ := Nat.exists_eq_add_of_le hlow
          refine hearlier extra (by dsimp only at hhigh; omega) ?_
          rw [hbody hat]
          exact hoccurs
        · dsimp only
          omega
      · exact ih hat' removal hremoval

end Reading
end Pruning
end Uncomment

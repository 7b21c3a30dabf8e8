import Uncomment.Proofs.Disk.LinkFree
import Uncomment.Proofs.Path.Absolute

/-!
# Plain paths on disks without links

On a disk without links an absolute path that only leads downwards comes to the location of
its names, however it is spelled, unless its end asks for a directory there.  So what is read
under it stands at its names (`read_plain_spec`), what is written goes there
(`write_plain_spec`), and making it a directory makes missing directories on the way to its
names and does nothing else (`onlyMakesWay_makeDirs`).
-/

namespace Uncomment
namespace Disk

variable {disk old middle new : Disk} {here location way actual : Location} {path : Path}
  {content : Bytes}

section Steps

theorem map_take_components (hplain : path.IsPlain) :
    path.components.map Step.take = .take .root :: path.names.steps := by
  rw [hplain.components_eq]
  simp [Location.steps]

/-- The steps of a plain path: from the top along its names, and what its end asks for. -/
theorem steps_of_isPlain (hplain : path.IsPlain) :
    ∃ ending, Disk.steps path = .take .root :: path.names.steps ++ ending ∧
      (ending = [] ∨ ending = [.demandDir] ∨ ending = [.take .current]) := by
  rw [Disk.steps, map_take_components hplain]
  refine ⟨_, rfl, ?_⟩
  split
  · split_ifs <;> simp
  · split_ifs <;> simp
  · simp

/-- A plain path that ends in a name asks for nothing behind it. -/
theorem spells_of_endsInName (hplain : path.IsPlain) (hends : path.EndsInName) :
    Spells path path.names := by
  obtain ⟨segment, hlast, hidle⟩ := hends
  have hne : segment ≠ "" ∧ segment ≠ "." := by
    simpa [Path.isIdle] using hidle
  have hnamed : withoutSlashes path.segments = path.segments := by
    have hhead : path.segments.reverse.head? = some segment := by
      rw [List.head?_reverse, hlast]
    rw [withoutSlashes]
    cases hreverse : path.segments.reverse with
    | nil => simp [hreverse] at hhead
    | cons first more =>
        rw [hreverse, List.head?_cons, Option.some.injEq] at hhead
        rw [List.dropWhile_cons_of_neg (by simp [hhead, hne.1]), ← hreverse,
          List.reverse_reverse]
  rw [Spells, Disk.steps, map_take_components hplain, hnamed, hlast]
  split
  · next heq => exact absurd (Option.some.inj heq) hne.2
  · simp
  · next heq => cases heq

theorem get?_of_followUntilLink_demand
    {onLink : Location → List Step → Except OsError Location} {steps : List Step} {last : Step}
    (hfree : disk.LinkFree)
    (hlast : last = .demandDir ∨ last = .take .current)
    (h : followUntilLink disk false onLink here (steps ++ [last]) = .ok actual) :
    disk.get? actual = some .dir := by
  induction steps generalizing here with
  | nil =>
      unfold followUntilLink at h
      simp only [List.nil_append] at h
      split at h
      · next hdir =>
          rcases hlast with rfl | rfl <;>
            · obtain rfl := Except.ok.inj h
              exact hdir
      · cases h
      · cases h
  | cons step rest ih =>
      rw [List.cons_append] at h
      unfold followUntilLink at h
      split at h
      · split at h
        · exact ih h
        · exact ih h
        · exact ih h
        · exact ih h
        · simp only [Bool.false_and, Bool.false_eq_true, if_false] at h
          split at h
          · cases h
          split at h
          · cases h
          · next target hlink => exact absurd hlink hfree.get?_ne_link
          · exact ih h
      · cases h
      · cases h

end Steps

/-- A file that is read under a plain path stands at its names, and its path ends there. -/
theorem read_plain_spec
    (hfree : disk.LinkFree)
    (hplain : path.IsPlain)
    (h : disk.read here path = .ok content) :
    disk.get? here = some .dir ∧ rejection? path = none ∧ Spells path path.names ∧
      disk.get? path.names = some (.file content) := by
  obtain ⟨ending, hsteps, hending⟩ := steps_of_isPlain hplain
  unfold read at h
  split at h
  · cases h
  next hreject =>
  split at h
  · cases h
  next actual hlocate =>
  have hhere := get?_of_locate hlocate
  have hfile : disk.get? actual = some (.file content) := by
    split at h
    · next found hget => rwa [← Except.ok.inj h]
    · cases h
    · cases h
  have hspells : Spells path path.names := by
    rcases hending with rfl | hdemand
    · rwa [List.append_nil] at hsteps
    · -- the end of the path asks for a directory where the file stands
      obtain ⟨last, rfl, hlast⟩ : ∃ last, ending = [last] ∧
          (last = .demandDir ∨ last = .take .current) := by
        rcases hdemand with rfl | rfl <;> simp
      have hfollow := follow_of_locate hlocate
      rw [hsteps, linkBudget, follow] at hfollow
      rw [get?_of_followUntilLink_demand hfree hlast hfollow] at hfile
      cases hfile
  have hleads := (hspells.locate_eq_ok_iff hhere (hasZero_of_rejection? hreject)).1 hlocate
  obtain rfl := (hfree.direct _).eq_of_follow hleads
  exact ⟨hhere, hreject, hspells, hfile⟩

theorem read_plain_of_file
    (htree : disk.IsTree)
    (hhere : disk.get? here = some .dir)
    (hspells : Spells path path.names)
    (hreject : rejection? path = none)
    (hget : disk.get? path.names = some (.file content)) :
    disk.read here path = .ok content :=
  (hspells.read_eq_ok_iff hhere).2 ⟨hreject, _, Leads.self htree hget (by simp), hget⟩

/-- What is written under a plain path that ends in a name goes to its names. -/
theorem write_plain_spec
    (htree : disk.IsTree)
    (hfree : disk.LinkFree)
    (hplain : path.IsPlain)
    (hhere : disk.get? here = some .dir)
    (hspells : Spells path path.names)
    (h : disk.write here path content = .ok new) :
    rejection? path = none ∧ path.names ≠ [] ∧ new = disk.store path.names content ∧
      new.IsTree ∧ disk.Grows new := by
  obtain ⟨place, hfollow, hstood, rfl, hnew, hgrows, -, hread⟩ :=
    hspells.exists_of_write htree hplain.isSpelled_names hhere h
  obtain rfl := (hfree.direct _).eq_of_follow hfollow
  refine ⟨((hspells.read_eq_ok_iff (hgrows.dir hhere)).1 hread).1, fun hnil => ?_, rfl, hnew,
    hgrows⟩
  rw [hnil, get?_top] at hstood
  simp at hstood

/-- Missing directories on the way to a location have been made, and nothing else. -/
def OnlyMakesWay (old new : Disk) (way : Location) : Prop :=
  ∀ location, new.get? location = old.get? location ∨
    old.get? location = none ∧ new.get? location = some .dir ∧ location <+: way

namespace OnlyMakesWay

theorem refl (disk : Disk) (way : Location) : disk.OnlyMakesWay disk way :=
  fun _ => .inl rfl

theorem trans (h : old.OnlyMakesWay middle way) (h' : middle.OnlyMakesWay new way) :
    old.OnlyMakesWay new way := by
  intro location
  rcases h location with heq | ⟨hnone, hdir, hway⟩ <;>
    rcases h' location with heq' | ⟨hnone', hdir', hway'⟩
  · exact .inl (heq'.trans heq)
  · exact .inr ⟨heq ▸ hnone', hdir', hway'⟩
  · exact .inr ⟨hnone, heq'.trans hdir, hway⟩
  · exact .inr ⟨hnone, hdir', hway⟩

theorem of_isPrefix {below : Location} (h : old.OnlyMakesWay new way) (hway : way <+: below) :
    old.OnlyMakesWay new below :=
  fun location => (h location).imp_right fun ⟨hnone, hdir, hle⟩ => ⟨hnone, hdir, hle.trans hway⟩

theorem put_dir (hnone : disk.get? location = none) (hway : location <+: way) :
    disk.OnlyMakesWay (disk.put location .dir) way := by
  intro other
  have hne : location ≠ [] := by
    rintro rfl
    cases hnone
  rw [get?_put hne]
  split_ifs with heq
  · exact .inr ⟨heq ▸ hnone, rfl, heq ▸ hway⟩
  · exact .inl rfl

end OnlyMakesWay

section MakeDirs

/-- Making a directory under a plain path puts one at its names. -/
theorem makeDir_plain_spec
    (hfree : disk.LinkFree)
    (hplain : path.IsPlain)
    (hhere : disk.get? here = some .dir)
    (h : disk.makeDir here path = .ok new) :
    disk.get? path.names = none ∧ new = disk.put path.names .dir := by
  have hcomponents := hplain.components_eq
  unfold makeDir at h
  split at h
  · cases h
  split at h
  · cases h
  · next name hname =>
      obtain ⟨front, hnames⟩ : ∃ front, path.names = front ++ [name] := by
        cases hnames : path.names using List.reverseRecOn with
        | nil => simp [hcomponents, hnames] at hname
        | append_singleton front last =>
            rw [hcomponents, hnames, List.map_append, ← List.cons_append, List.map_singleton,
              List.getLast?_concat, Option.some.injEq, Component.normal.injEq] at hname
            exact ⟨front, by rw [hname]⟩
      have hfront : path.components.dropLast.map Step.take = .take .root :: front.steps := by
        rw [hcomponents, hnames, List.map_append, ← List.cons_append, List.map_singleton,
          List.dropLast_concat]
        simp [Location.steps]
      rw [hfront, follow_root hhere] at h
      split at h
      · cases h
      next parent hparent =>
      obtain rfl := (hfree.direct _).eq_of_follow hparent
      rw [hnames]
      unfold makeDirIn at h
      split at h
      · split at h
        · cases h
        split at h
        · cases h
        next hnone => exact ⟨hnone, (Except.ok.inj h).symm⟩
      · cases h
      · cases h
  · split at h <;> cases h

theorem onlyMakesWay_makeDirsAlong
    {paths : List Path}
    (htree : disk.IsTree)
    (hfree : disk.LinkFree)
    (hhere : disk.get? here = some .dir)
    (hpaths : ∀ path ∈ paths, path.IsPlain ∧ path.names <+: way) :
    disk.OnlyMakesWay (makeDirsAlong here paths disk).2 way := by
  have hmade {disk new : Disk} {path : Path} (hmem : path ∈ paths) (hfree : disk.LinkFree)
      (hhere : disk.get? here = some .dir) (h : disk.makeDir here path = .ok new) :
      disk.OnlyMakesWay new way := by
    obtain ⟨hplain, hway⟩ := hpaths path hmem
    obtain ⟨hnone, rfl⟩ := makeDir_plain_spec hfree hplain hhere h
    exact .put_dir hnone hway
  induction paths with
  | nil => exact .refl disk way
  | cons path parents ih =>
      have hparents := ih (fun other hother => hpaths other (by simp [hother]))
        fun hmem => hmade (by simp [hmem])
      have hadds : disk.AddsDirs (makeDirsAlong here parents disk).2 := makeDirsAlong_addsDirs
      unfold makeDirsAlong
      dsimp only
      split
      · next made hmake => exact hmade (by simp) hfree hhere hmake
      · split
        · next heq => simpa [heq] using hparents
        · next ready heq =>
            rw [heq] at hparents hadds
            have hfreeReady := hfree.grows hadds.grows (hadds.isTree htree)
            split
            · next made hmake =>
                exact hparents.trans (hmade (by simp) hfreeReady (hadds.grows.dir hhere) hmake)
            · split <;> exact hparents
      · split <;> exact .refl disk way

/-- The parents of a plain path are plain and lie above it. -/
theorem lineage_plain
    (hplain : path.IsPlain) (count : Nat) :
    ∀ parent ∈ lineage count path, parent.IsPlain ∧ parent.names <+: path.names := by
  induction count generalizing path with
  | zero => simp [lineage]
  | succ count ih =>
      intro parent hparent
      rw [lineage, List.mem_cons] at hparent
      rcases hparent with rfl | hparent
      · exact ⟨hplain, List.prefix_rfl⟩
      · split at hparent
        · next above habove =>
            obtain ⟨haboveplain, name, hnames⟩ := hplain.parent? habove
            obtain ⟨hparentPlain, hprefix⟩ := ih haboveplain parent hparent
            exact ⟨hparentPlain, hprefix.trans (hnames ▸ List.prefix_append _ _)⟩
        · cases hparent

/-- Making a directory with its parents makes missing directories on its way only. -/
theorem onlyMakesWay_makeDirs
    (htree : disk.IsTree)
    (hfree : disk.LinkFree)
    (hhere : disk.get? here = some .dir)
    (hplain : path.IsPlain) :
    disk.OnlyMakesWay (disk.makeDirs here path).2 path.names :=
  onlyMakesWay_makeDirsAlong htree hfree hhere (lineage_plain hplain _)

end MakeDirs

end Disk
end Uncomment

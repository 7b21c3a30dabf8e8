import Uncomment.Proofs.Disk.Following
import Uncomment.Run.Walk

/-!
# What a walk comes across

A walk goes from directory to directory.  What holds of the directory it starts in, and of
every directory that it enters from one of which it holds, holds of all of them
(`exists_dir_of_mem_below`).

One such property is that the walk knows where it is: the location by which a directory was
reached leads to the one at which it is.  So every file that is found can be read under the
location by which it was found (`leads_of_mem_found`).
-/

namespace Uncomment
namespace Walk

variable {disk : Disk} {options : Options} {root location actual : Location} {dir : Dir}
  {name : String} {entry : Entry}

/-- A directory as it is entered from another one. -/
def Dir.enter (disk : Disk) (options : Options) (dir : Dir) (name : String) (actual : Location) :
    Dir where
  location := dir.location ++ [name]
  actual := actual
  parents := (dir.location, dir.actual) :: dir.parents
  levels := levelsInside disk options (dir.location ++ [name]) dir.levels

/-- A file that is found stands in a directory that the walk has come to. -/
theorem exists_dir_of_mem_below
    (Holds : Dir → Prop)
    (henter : ∀ (dir : Dir) (name : String) (entry : Entry) (actual : Location),
      Holds dir → (name, entry) ∈ disk.children dir.actual →
      kindOf disk options dir name entry = .dir actual →
      isSkipped options root dir name true = false →
      Holds (dir.enter disk options name actual))
    {depth : Nat}
    (hdir : Holds dir)
    (h : .file location ∈ below disk options root depth dir) :
    ∃ dir name entry, Holds dir ∧ (name, entry) ∈ disk.children dir.actual ∧
      kindOf disk options dir name entry = .file ∧ location = dir.location ++ [name] := by
  induction depth generalizing dir with
  | zero => cases h
  | succ depth ih =>
      rw [below, List.mem_flatMap] at h
      obtain ⟨⟨name, entry⟩, hmem, hfound⟩ := h
      dsimp only at hfound
      split at hfound
      · simp at hfound
      · cases hfound
      · next hkind =>
          split at hfound
          · cases hfound
          · simp only [List.mem_singleton, Found.file.injEq] at hfound
            exact ⟨dir, name, entry, hdir, hmem, hkind, hfound⟩
      · next actual hkind =>
          split at hfound
          · cases hfound
          · next hskipped =>
              exact ih (henter dir name entry actual hdir hmem hkind
                (Bool.eq_false_iff.2 hskipped)) hfound

/-- An entry is taken for a file if it is one, or a followed link to one. -/
theorem of_kindOf_eq_file (h : kindOf disk options dir name entry = .file) :
    (∃ content, entry = .file content) ∨
      (∃ target, entry = .link target) ∧ options.followLinks = true ∧
        ∃ actual content,
          disk.locate [] (Location.toPath (dir.location ++ [name])) = .ok actual ∧
            disk.get? actual = some (.file content) := by
  unfold kindOf at h
  split at h
  · exact .inl ⟨_, rfl⟩
  · cases h
  · dsimp only at h
    split at h
    · cases h
    next hfollow =>
    split at h
    · cases h
    next actual hactual =>
    split at h
    · split at h <;> cases h
    · next content hget =>
        exact .inr ⟨⟨_, rfl⟩, by simpa using hfollow, actual, content, hactual, hget⟩
    · cases h

theorem of_kindOf_eq_dir (h : kindOf disk options dir name entry = .dir actual) :
    entry = .dir ∧ actual = dir.actual ++ [name] ∨
      (∃ target, entry = .link target) ∧ options.followLinks = true ∧
        disk.locate [] (Location.toPath (dir.location ++ [name])) = .ok actual ∧
          disk.get? actual = some .dir := by
  unfold kindOf at h
  split at h
  · cases h
  · exact .inl ⟨rfl, (Kind.dir.inj h).symm⟩
  · dsimp only at h
    split at h
    · cases h
    next hfollow =>
    split at h
    · cases h
    next actual' hactual =>
    split at h
    · next hget =>
        split at h
        · cases h
        · obtain rfl := Kind.dir.inj h
          exact .inr ⟨⟨_, rfl⟩, by simpa using hfollow, hactual, hget⟩
    · cases h
    · cases h

/-- The walk knows where it is. -/
structure Dir.IsAt (disk : Disk) (root : Location) (dir : Dir) : Prop where
  below : root <+: dir.location
  spelled : dir.location.IsSpelled
  leads : disk.Leads dir.location dir.actual
  isDir : disk.get? dir.actual = some .dir

theorem Dir.IsAt.spelled_concat
    (h : dir.IsAt disk root) (htree : disk.IsTree)
    (hmem : (name, entry) ∈ disk.children dir.actual) :
    Location.IsSpelled (dir.location ++ [name]) := by
  have hname := htree.isName_of_mem (htree.mem_children_iff.1 hmem)
    (by simp : name ∈ dir.actual ++ [name])
  exact Location.isSpelled_append.2 ⟨h.spelled, by simpa [Location.IsSpelled] using hname.1⟩

theorem Dir.IsAt.enter
    (h : dir.IsAt disk root) (htree : disk.IsTree)
    (hmem : (name, entry) ∈ disk.children dir.actual)
    (hkind : kindOf disk options dir name entry = .dir actual) :
    (dir.enter disk options name actual).IsAt disk root := by
  have hspelled := h.spelled_concat htree hmem
  have hbelow : root <+: dir.location ++ [name] := h.below.trans (List.prefix_append _ _)
  have hget := htree.mem_children_iff.1 hmem
  rcases of_kindOf_eq_dir hkind with ⟨rfl, rfl⟩ | ⟨-, -, hlocate, hdir⟩
  · exact ⟨hbelow, hspelled, h.leads.snoc htree hget (by simp), hget⟩
  · exact ⟨hbelow, hspelled, Disk.leads_of_locate hspelled (Disk.get?_top disk) hlocate, hdir⟩

theorem Dir.IsAt.leads_of_file
    (h : dir.IsAt disk root) (htree : disk.IsTree)
    (hmem : (name, entry) ∈ disk.children dir.actual)
    (hkind : kindOf disk options dir name entry = .file) :
    ∃ actual content,
      disk.Leads (dir.location ++ [name]) actual ∧ disk.get? actual = some (.file content) := by
  have hget := htree.mem_children_iff.1 hmem
  rcases of_kindOf_eq_file hkind with ⟨content, rfl⟩ | ⟨-, -, actual, content, hlocate, hfile⟩
  · exact ⟨_, content, h.leads.snoc htree hget (by simp), hget⟩
  · have hspelled := h.spelled_concat htree hmem
    exact ⟨actual, content, Disk.leads_of_locate hspelled (Disk.get?_top disk) hlocate, hfile⟩

/-- The directory in which a walk starts. -/
def Dir.start (root : Location) (levels : List Ignore.Level) : Dir where
  location := root
  actual := root
  parents := []
  levels := levels

theorem Dir.IsAt.start
    (htree : disk.IsTree) (hroot : disk.get? root = some .dir) (levels : List Ignore.Level) :
    (Dir.start root levels).IsAt disk root :=
  ⟨List.prefix_rfl, htree.isSpelled hroot, .self htree hroot (by simp), hroot⟩

/-- A walk finds its root, if that is a file, or starts in it. -/
theorem of_mem_found (h : .file location ∈ found disk options root) :
    (location = root ∧ ∃ content, disk.get? root = some (.file content)) ∨
      disk.get? root = some .dir ∧
        ∃ levels depth, .file location ∈ below disk options root depth (.start root levels) := by
  unfold found at h
  split at h
  · next content hget => exact .inl ⟨by simpa using h, content, hget⟩
  · next hget =>
      rcases List.mem_append.1 h with hfailure | hbelow
      · split_ifs at hfailure <;> simp at hfailure
      · exact .inr ⟨hget, _, _, hbelow⟩
  · cases h

/-- What is found lies below the root by its location, and the location leads to a file. -/
theorem leads_of_mem_found
    (htree : disk.IsTree) (h : .file location ∈ found disk options root) :
    root <+: location ∧ location.IsSpelled ∧
      (disk.get? root = some .dir → location ≠ root) ∧
        ∃ actual content,
          disk.Leads location actual ∧ disk.get? actual = some (.file content) := by
  rcases of_mem_found h with ⟨rfl, content, hget⟩ | ⟨hroot, levels, depth, hbelow⟩
  · refine ⟨List.prefix_rfl, htree.isSpelled hget, fun hdir => ?_, location, content,
      .self htree hget (by simp), hget⟩
    rw [hget] at hdir
    cases hdir
  · obtain ⟨dir, name, entry, hat, hmem, hkind, rfl⟩ :=
      exists_dir_of_mem_below (Dir.IsAt disk root)
        (fun _ _ _ _ hat hmem hkind _ => hat.enter htree hmem hkind)
        (.start htree hroot levels) hbelow
    refine ⟨hat.below.trans (List.prefix_append _ _), hat.spelled_concat htree hmem,
      fun _ heq => ?_, hat.leads_of_file htree hmem hkind⟩
    have hlength := hat.below.length_le
    rw [← heq] at hlength
    simp at hlength

theorem hasName_of_mem_found
    (htree : disk.IsTree) (h : .file location ∈ found disk options root) (hname : name ∈ location) :
    disk.HasName name := by
  rcases of_mem_found h with ⟨rfl, content, hget⟩ | ⟨hroot, levels, depth, hbelow⟩
  · exact Disk.hasName_of_get? hget hname
  · have hsnoc {dir : Dir} {last : String} {entry : Entry}
        (hdir : ∀ name ∈ dir.location, disk.HasName name)
        (hmem : (last, entry) ∈ disk.children dir.actual) :
        ∀ name ∈ dir.location ++ [last], disk.HasName name := by
      rw [List.forall_mem_append, List.forall_mem_singleton]
      exact ⟨hdir, Disk.hasName_of_get? (htree.mem_children_iff.1 hmem) (by simp)⟩
    obtain ⟨dir, last, entry, hdir, hmem, -, rfl⟩ :=
      exists_dir_of_mem_below (fun dir => ∀ name ∈ dir.location, disk.HasName name)
        (fun _ _ _ _ hdir hmem _ _ => hsnoc hdir hmem)
        (fun _ hname => Disk.hasName_of_get? hroot hname) hbelow
    exact hsnoc hdir hmem name hname

end Walk
end Uncomment

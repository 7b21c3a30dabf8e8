import Uncomment.Proofs.Disk.Entries

/-!
# Disks that grow

Nothing that is done to a disk takes an entry away or makes a link: directories stay
directories, files stay files though their contents change, and what is new is a
directory or a file.  No file gets a second name, and what may be written stays as it is.
This is `Disk.Grows`.

A path that leads to an entry leads to the same one on a grown disk
(`Disk.follow_grows`), and a path under which a file was written leads to that file.
-/

namespace Uncomment
namespace Disk

variable {disk old middle new : Disk} {here location : Location} {steps : List Step}
  {content : Bytes} {create : Bool} {budget : Nat}

/-- What may have become of a disk. -/
structure Grows (old new : Disk) : Prop where
  dir {location : Location} :
    old.get? location = some .dir → new.get? location = some .dir
  file {location : Location} {content : Bytes} :
    old.get? location = some (.file content) →
      ∃ content', new.get? location = some (.file content')
  link {location : Location} {target : Path} :
    new.get? location = some (.link target) ↔ old.get? location = some (.link target)
  numbers : new.numbers = old.numbers
  guarded : new.guarded = old.guarded

namespace Grows

theorem refl (disk : Disk) : disk.Grows disk where
  dir h := h
  file h := ⟨_, h⟩
  link := Iff.rfl
  numbers := rfl
  guarded := rfl

theorem trans (h : old.Grows middle) (h' : middle.Grows new) : old.Grows new where
  dir hget := h'.dir (h.dir hget)
  file hget :=
    let ⟨_, hmiddle⟩ := h.file hget
    h'.file hmiddle
  link := h'.link.trans h.link
  numbers := h'.numbers.trans h.numbers
  guarded := h'.guarded.trans h.guarded

theorem sameFile_iff {other : Location} (h : old.Grows new) :
    new.SameFile location other ↔ old.SameFile location other := by
  rw [SameFile, SameFile, h.numbers]

theorem hasOneName (h : old.Grows new) (hname : old.HasOneName location) :
    new.HasOneName location := by
  intro name hmem
  exact hname name (mem_namesOf_iff.2 (h.sameFile_iff.1 (mem_namesOf_iff.1 hmem)))

theorem isGuarded_eq (h : old.Grows new) : new.isGuarded location = old.isGuarded location := by
  have hsame (other : Location) : new.SameFile location other ↔ old.SameFile location other :=
    h.sameFile_iff
  simp only [isGuarded, hsame, h.guarded]

/-- A directory may be put where nothing is. -/
theorem put_dir (hnone : disk.get? location = none) : disk.Grows (disk.put location .dir) where
  dir {other} hget := by
    rwa [get?_put_of_ne (by rintro rfl; simp [hnone] at hget)]
  file {other content} hget := by
    rw [get?_put_of_ne (by rintro rfl; simp [hnone] at hget)]
    exact ⟨content, hget⟩
  link {other target} := by
    have hne : location ≠ [] := by
      rintro rfl
      cases hnone
    rw [get?_put hne]
    split_ifs with heq
    · simp [heq, hnone]
    · rfl
  numbers := rfl
  guarded := rfl

/-- A content may be stored where nothing or a file is. -/
theorem store
    (htree : disk.IsTree)
    (hplace : disk.get? location = none ∨ ∃ old, disk.get? location = some (.file old))
    (content : Bytes) :
    disk.Grows (disk.store location content) := by
  have hne : location ≠ [] := by
    rintro rfl
    rcases hplace with hget | ⟨old, hget⟩ <;> cases hget
  have hstore := htree.get?_store hne content
  have hnames {other : Location} {entry : Entry} (hsame : disk.SameFile location other)
      (hget : disk.get? other = some entry) : ∃ old, entry = .file old := by
    rw [htree.get?_eq_of_sameFile hsame] at hget
    rcases hplace with hnone | ⟨old, hold⟩
    · simp [hnone] at hget
    · exact ⟨old, Option.some.inj (hget.symm.trans hold)⟩
  refine ⟨fun {other} hget => ?_, fun {other old} hget => ?_, fun {other target} => ?_, rfl, rfl⟩
  · rw [hstore, if_neg, hget]
    intro hsame
    obtain ⟨old, heq⟩ := hnames hsame hget
    cases heq
  · rw [hstore]
    split_ifs
    · exact ⟨content, rfl⟩
    · exact ⟨old, hget⟩
  · rw [hstore]
    split_ifs with hsame
    · refine ⟨fun h => (nomatch h), fun hget => ?_⟩
      obtain ⟨old, heq⟩ := hnames hsame hget
      cases heq
    · rfl

end Grows

section Follow

variable {onLink onLink' : Location → List Step → Except OsError Location}

/--
Steps that lead to a location lead there on a grown disk as well; a location that they
would create has to hold a file by then.
-/
theorem followUntilLink_grows
    (hgrows : old.Grows new)
    (hfile : create = true → ∃ content, new.get? location = some (.file content))
    (hlink : ∀ here steps, onLink here steps = .ok location → onLink' here steps = .ok location)
    (h : followUntilLink old create onLink here steps = .ok location) :
    followUntilLink new false onLink' here steps = .ok location := by
  induction steps generalizing here with
  | nil => exact h
  | cons step rest ih =>
      unfold followUntilLink at h ⊢
      split at h
      · next hdir =>
          rw [hgrows.dir hdir]
          split at h
          · exact ih h
          · exact ih h
          · exact ih h
          · exact ih h
          · next name =>
              dsimp only at h ⊢
              split at h
              · cases h
              split at h
              · cases h
              next hlong =>
              rw [Bool.false_and, Bool.false_and, if_neg Bool.false_ne_true, if_neg hlong]
              split at h
              · -- the name is missing, so it is the last one and about to be created
                split at h
                · next hcreate =>
                    obtain ⟨rfl⟩ := Except.ok.inj h
                    obtain ⟨hcreate, hrest⟩ := Bool.and_eq_true_iff.1 hcreate
                    obtain ⟨content, hget⟩ := hfile hcreate
                    rw [List.isEmpty_iff.1 hrest, hget]
                    rfl
                · cases h
              · next target hget =>
                  rw [hgrows.link.2 hget]
                  exact hlink _ _ h
              · next entry hentry hget =>
                  cases entry with
                  | file content =>
                      obtain ⟨content', hnew⟩ := hgrows.file hget
                      rw [hnew]
                      exact ih h
                  | dir =>
                      rw [hgrows.dir hget]
                      exact ih h
                  | link target => exact absurd rfl (hentry target)
      · cases h
      · cases h

theorem follow_grows
    (hgrows : old.Grows new)
    (hfile : create = true → ∃ content, new.get? location = some (.file content))
    (h : old.follow create budget here steps = .ok location) :
    new.follow false budget here steps = .ok location := by
  induction budget generalizing here steps with
  | zero =>
      refine followUntilLink_grows hgrows hfile (fun _ _ h => ?_) h
      cases h
  | succ budget ih =>
      exact followUntilLink_grows hgrows hfile (fun _ _ h => ih h) h

/-- An entry that is no link, or a free place in a directory where one may be created. -/
def Reached (disk : Disk) (create : Bool) (location : Location) : Prop :=
  (∃ entry, disk.get? location = some entry ∧ ∀ target, entry ≠ .link target) ∨
    create = true ∧ disk.get? location = none ∧
      ∃ dir name, location = dir ++ [name] ∧ disk.get? dir = some .dir ∧ IsName name

/-- Steps whose names are words. -/
def AreSpelled (steps : List Step) : Prop :=
  ∀ name, .take (.normal name) ∈ steps → Path.IsWord name

theorem areSpelled_steps (path : Path) : AreSpelled (Disk.steps path) := by
  intro name hname
  unfold Disk.steps at hname
  dsimp only at hname
  rcases List.mem_append.1 hname with hname | hname
  · obtain ⟨component, hcomponent, heq⟩ := List.mem_map.1 hname
    cases heq
    exact Path.isWord_of_mem_components hcomponent
  · split at hname
    · split_ifs at hname <;> simp at hname
    · split_ifs at hname <;> simp at hname
    · simp at hname

theorem followUntilLink_reached
    (htree : disk.IsTree)
    (hlink : ∀ here steps, AreSpelled steps → onLink here steps = .ok location →
      disk.get? here = some .dir → disk.Reached create location)
    (hspelled : AreSpelled steps)
    (hhere : disk.Reached false here)
    (h : followUntilLink disk create onLink here steps = .ok location) :
    disk.Reached create location := by
  induction steps generalizing here with
  | nil =>
      obtain ⟨rfl⟩ := Except.ok.inj h
      rcases hhere with hhere | ⟨hfalse, -⟩
      · exact .inl hhere
      · cases hfalse
  | cons step rest ih =>
      have hrest : AreSpelled rest := fun name hname => hspelled name (by simp [hname])
      unfold followUntilLink at h
      split at h
      · next hdir =>
          split at h
          · exact ih hrest hhere h
          · exact ih hrest (.inl ⟨.dir, rfl, by simp⟩) h
          · exact ih hrest hhere h
          · refine ih hrest (.inl ⟨.dir, ?_, by simp⟩) h
            cases here using List.reverseRecOn with
            | nil => exact hdir
            | append_singleton front name =>
                rw [List.dropLast_concat]
                exact htree.get?_parent hdir
          · next name =>
              split at h
              · cases h
              split at h
              · cases h
              next hlong =>
              split at h
              · next hget =>
                  split at h
                  · next hcreate =>
                      obtain ⟨rfl⟩ := Except.ok.inj h
                      exact .inr ⟨(Bool.and_eq_true_iff.1 hcreate).1, hget, here, name, rfl, hdir,
                        hspelled name (by simp), not_lt.1 hlong⟩
                  · cases h
              · next target hget =>
                  refine hlink _ _ (fun word hword => ?_) h hdir
                  rcases List.mem_append.1 hword with hword | hword
                  · exact areSpelled_steps target word hword
                  · exact hrest word hword
              · next entry hentry hget =>
                  exact ih hrest (.inl ⟨entry, hget, hentry⟩) h
      · cases h
      · cases h

theorem follow_reached
    (htree : disk.IsTree)
    (hspelled : AreSpelled steps)
    (hhere : disk.get? here = some .dir)
    (h : disk.follow create budget here steps = .ok location) :
    disk.Reached create location := by
  have hplace {here : Location} (hhere : disk.get? here = some .dir) : disk.Reached false here :=
    .inl ⟨.dir, hhere, by simp⟩
  induction budget generalizing here steps with
  | zero =>
      refine followUntilLink_reached htree (fun _ _ _ h => ?_) hspelled (hplace hhere) h
      cases h
  | succ budget ih =>
      exact followUntilLink_reached htree (fun _ _ hspelled h hhere => ih hspelled hhere h)
        hspelled (hplace hhere) h

end Follow

end Disk
end Uncomment

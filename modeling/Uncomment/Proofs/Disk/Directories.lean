import Mathlib.Data.List.TakeWhile
import Uncomment.Proofs.Disk.Following

/-!
# Making directories

Making a directory with its parents adds directories where nothing was, one at a time, and
does nothing else (`makeDirs_addsDirs`), whether it succeeds or not.

On the path of a location without links on the way it is known what comes of it: a file on
the way stops it before anything is made (`makeDirs_of_file`), and so does a path that the
system refuses (`makeDirs_of_rejection`).  Otherwise all directories up to the first name
that is too long are there afterwards (`makeDirs_of_free`).
-/

namespace Uncomment
namespace Disk

variable {disk old middle new : Disk} {here location actual base rest front : Location}
  {name : String} {entry : Entry} {content : Bytes} {path : Path} {paths : List Path}

/-- One disk comes from another one by adding directories in directories. -/
inductive AddsDirs (old : Disk) : Disk → Prop
  | refl :
      AddsDirs old old
  | add {new : Disk} {dir : Location} {name : String} :
      AddsDirs old new →
      new.get? dir = some .dir →
      IsName name →
      new.get? (dir ++ [name]) = none →
      AddsDirs old (new.put (dir ++ [name]) .dir)

namespace AddsDirs

theorem trans (h : old.AddsDirs middle) (h' : middle.AddsDirs new) : old.AddsDirs new := by
  induction h' with
  | refl => exact h
  | add _ hdir hname hnone ih => exact ih.add hdir hname hnone

theorem grows (h : old.AddsDirs new) : old.Grows new := by
  induction h with
  | refl => exact .refl old
  | add _ _ _ hnone ih => exact ih.trans (.put_dir hnone)

theorem isTree (h : old.AddsDirs new) (htree : old.IsTree) : new.IsTree := by
  induction h with
  | refl => exact htree
  | add _ hdir hname hnone ih => exact ih.putDir hname hdir hnone

/-- The files are the same as before. -/
theorem get?_file (h : old.AddsDirs new) :
    new.get? location = some (.file content) ↔ old.get? location = some (.file content) := by
  induction h with
  | refl => rfl
  | @add new dir name _ _ _ hnone ih =>
      rw [get?_put (by simp), ← ih]
      split_ifs with heq
      · simp [heq, hnone]
      · rfl

end AddsDirs

section Adding

theorem addsDirs_of_makeDir (h : disk.makeDir here path = .ok new) : disk.AddsDirs new := by
  unfold makeDir at h
  split at h
  · cases h
  split at h
  · cases h
  · next name hname =>
      have hword := Path.isWord_of_mem_components (List.mem_of_getLast? hname)
      split at h
      · cases h
      next parent hparent =>
      unfold makeDirIn at h
      split at h
      · next hdir =>
          split at h
          · cases h
          next hlong =>
          split at h
          · cases h
          next hnone =>
          obtain ⟨rfl⟩ := Except.ok.inj h
          exact .add .refl hdir ⟨hword, not_lt.1 hlong⟩ hnone
      · cases h
      · cases h
  · split at h <;> cases h

theorem makeDirsAlong_addsDirs : disk.AddsDirs (makeDirsAlong here paths disk).2 := by
  induction paths with
  | nil => exact .refl
  | cons path parents ih =>
      unfold makeDirsAlong
      dsimp only
      split
      · next made hmade => exact addsDirs_of_makeDir hmade
      · split
        · next heq => simpa [heq] using ih
        · next ready heq =>
            have hready : disk.AddsDirs ready := by simpa [heq] using ih
            split
            · next made hmade => exact hready.trans (addsDirs_of_makeDir hmade)
            · split <;> exact hready
      · split <;> exact .refl

/-- Making a directory and its parents adds directories and does nothing else. -/
theorem makeDirs_addsDirs (disk : Disk) (here : Location) (path : Path) :
    disk.AddsDirs (disk.makeDirs here path).2 :=
  makeDirsAlong_addsDirs

end Adding

/-! ### What comes of it without links on the way -/

theorem rejection?_eq_none_iff :
    rejection? path = none ↔
      hasZero path = false ∧ path.isEmpty = false ∧ path.toString.utf8ByteSize ≤ pathLimit := by
  unfold rejection?
  split_ifs <;> simp_all

theorem rejection?_parent (h : rejection? (Location.toPath (base ++ [name])) = none) :
    rejection? base.toPath = none := by
  by_cases hnil : base = []
  · subst hnil
    rfl
  · obtain ⟨hzero, -, hsize⟩ := rejection?_eq_none_iff.1 h
    rw [Location.toPath_of_ne_nil (by simp), ← List.cons_append] at hzero hsize
    rw [rejection?_eq_none_iff, Location.toPath_of_ne_nil hnil]
    refine ⟨?_, by simp [Path.isEmpty, hnil], ?_⟩
    · rw [hasZero, List.any_append] at hzero
      exact (Bool.or_eq_false_iff.1 hzero).1
    · rw [Path.toString, String.intercalate_append_of_ne_nil (by simp) (by simp)] at hsize
      simp only [String.utf8ByteSize_append] at hsize
      have hparent : (⟨"" :: base⟩ : Path).toString = "/".intercalate ("" :: base) := rfl
      rw [hparent]
      omega

/-- A path names a directory exactly if the system takes it and the directory stands there. -/
theorem isDir_toPath
    (htree : disk.IsTree)
    (hspelled : location.IsSpelled)
    (hhere : disk.get? here = some .dir)
    (hdirect : disk.Direct location) :
    disk.isDir here location.toPath = true ↔
      rejection? location.toPath = none ∧ disk.get? location = some .dir := by
  unfold isDir
  cases hreject : rejection? location.toPath with
  | some e => simp
  | none =>
      have hlocate {actual : Location} :
          disk.locate here location.toPath = .ok actual ↔ disk.Leads location actual :=
        locate_toPath hspelled hhere (hasZero_of_rejection? hreject)
      cases hfound : disk.locate here location.toPath with
      | error e =>
          simp only [Bool.false_eq_true, true_and, false_iff]
          intro hget
          rw [hlocate.2 (.self htree hget (by simp))] at hfound
          cases hfound
      | ok actual =>
          obtain rfl := hdirect.eq_of_follow (hlocate.1 hfound)
          simp

theorem makeDir_toPath
    (hspelled : Location.IsSpelled (base ++ [name]))
    (hhere : disk.get? here = some .dir)
    (hreject : rejection? (Location.toPath (base ++ [name])) = none) :
    disk.makeDir here (Location.toPath (base ++ [name])) =
      match disk.follow false linkBudget [] base.steps with
      | .error e => .error e
      | .ok parent => disk.makeDirIn parent name := by
  have hlast : (Component.root :: (base ++ [name]).map Component.normal).getLast? =
      some (.normal name) := by
    rw [List.map_append, ← List.cons_append, List.map_singleton, List.getLast?_concat]
  have hfront : (Component.root :: (base ++ [name]).map Component.normal).dropLast.map Step.take =
      .take .root :: base.steps := by
    rw [List.map_append, ← List.cons_append, List.map_singleton, List.dropLast_concat]
    simp [Location.steps]
  rw [makeDir, hreject, Location.components_toPath hspelled, hlast, hfront]
  cases hparent : disk.follow false linkBudget [] base.steps <;>
    simp [follow_root hhere, hparent]

theorem makeDirs_top (hhere : disk.get? here = some .dir) :
    disk.makeDirs here (Location.toPath []) = (.ok (), disk) := by
  have hmake : disk.makeDir here (Location.toPath []) = .error .alreadyExists := by
    have hcomponents : (Location.toPath []).components = [.root] := rfl
    have hreject : rejection? (Location.toPath []) = none := rfl
    rw [makeDir, hreject, hcomponents]
    simp only [List.getLast?_singleton, List.map_cons, List.map_nil]
    rw [follow_root hhere]
    rfl
  have hisDir : disk.isDir here (Location.toPath []) = true := by
    have hlocate : disk.locate here (Location.toPath []) = .ok [] :=
      (locate_toPath (by decide) hhere rfl).2 rfl
    rw [isDir, hlocate]
    rfl
  have hlineage : lineage (Location.toPath []).components.length (Location.toPath []) =
      [Location.toPath []] := rfl
  rw [makeDirs, hlineage, makeDirsAlong, hmake]
  simp [hisDir]

theorem lineage_toPath (hspelled : Location.IsSpelled (base ++ [name])) :
    lineage (Location.toPath (base ++ [name])).components.length
        (Location.toPath (base ++ [name])) =
      Location.toPath (base ++ [name]) ::
        lineage base.toPath.components.length base.toPath := by
  have hlength : (Location.toPath (base ++ [name])).components.length =
      base.toPath.components.length + 1 := by
    rw [Location.components_toPath hspelled,
      Location.components_toPath (Location.isSpelled_append.1 hspelled).1]
    simp
  rw [hlength, lineage, Location.parent?_toPath hspelled]

/-- Make one directory unless it is there already. -/
def ensureDir (disk : Disk) (here : Location) (path : Path) : Except OsError Unit × Disk :=
  match disk.makeDir here path with
  | .ok made => (.ok (), made)
  | .error e => if disk.isDir here path then (.ok (), disk) else (.error e, disk)

/-- Where the parent is not missing, making a directory with its parents makes that one alone. -/
theorem makeDirs_eq_ensureDir
    (hspelled : Location.IsSpelled (base ++ [name]))
    (hmake : disk.makeDir here (Location.toPath (base ++ [name])) ≠ .error .notFound) :
    disk.makeDirs here (Location.toPath (base ++ [name])) =
      disk.ensureDir here (Location.toPath (base ++ [name])) := by
  rw [makeDirs, lineage_toPath hspelled, makeDirsAlong, ensureDir]
  dsimp only
  split <;> simp_all

/-- Where the parent is missing, the parents are made first. -/
theorem makeDirs_of_notFound
    (hspelled : Location.IsSpelled (base ++ [name]))
    (hmake : disk.makeDir here (Location.toPath (base ++ [name])) = .error .notFound) :
    disk.makeDirs here (Location.toPath (base ++ [name])) =
      match disk.makeDirs here base.toPath with
      | (.error e, left) => (.error e, left)
      | (.ok (), ready) => ready.ensureDir here (Location.toPath (base ++ [name])) := by
  rw [makeDirs, lineage_toPath hspelled, makeDirsAlong, hmake]
  rfl

/-- The names of a location before the first one that is too long. -/
def fitting (location : Location) : Location :=
  location.takeWhile fun name => name.utf8ByteSize ≤ nameLimit

theorem fitting_isPrefix (location : Location) : fitting location <+: location :=
  List.takeWhile_prefix _

theorem fitting_concat (base : Location) (name : String) :
    fitting (base ++ [name]) =
      if fitting base = base then
        if name.utf8ByteSize ≤ nameLimit then base ++ [name] else base
      else fitting base := by
  induction base with
  | nil => by_cases h : name.utf8ByteSize ≤ nameLimit <;> simp [fitting, h]
  | cons first base ih =>
      by_cases h : first.utf8ByteSize ≤ nameLimit
      · simp only [fitting, List.cons_append, decide_eq_true h, List.takeWhile_cons_of_pos,
          List.cons.injEq, true_and] at ih ⊢
        rw [ih]
        by_cases hbase : base.takeWhile (fun name => decide (name.utf8ByteSize ≤ nameLimit)) = base
        · simp only [hbase, if_true]
          split_ifs <;> rfl
        · simp only [hbase, if_false]
      · simp [fitting, h]

theorem fitting_ne_concat (base : Location) (name : String) : fitting base ≠ base ++ [name] := by
  intro h
  have hlength := (fitting_isPrefix base).length_le
  rw [h] at hlength
  simp at hlength

theorem IsTree.fitting_eq (htree : disk.IsTree) (hget : disk.get? location = some entry) :
    fitting location = location :=
  List.takeWhile_eq_self_iff.2 fun _ hname => by simpa using (htree.isName_of_mem hget hname).2

/-- Directories are all that stands on the way to a location. -/
def Free (disk : Disk) (location : Location) : Prop :=
  ∀ front, front <+: location → disk.get? front = none ∨ disk.get? front = some .dir

theorem Free.of_isPrefix (h : disk.Free location) (hbelow : base <+: location) :
    disk.Free base :=
  fun front hfront => h front (hfront.trans hbelow)

theorem Free.direct (h : disk.Free location) : disk.Direct location := by
  intro front hfront target hget
  rcases h front hfront with hnone | hdir <;> simp_all

/-- Names fail on a free way where something is missing, or where a name is too long. -/
theorem error_of_followUntilLink
    {onLink : Location → List Step → Except OsError Location} {e : OsError}
    (hfree : ∀ front, front <+: rest →
      disk.get? (base ++ front) = none ∨ disk.get? (base ++ front) = some .dir)
    (hbase : disk.get? base = some .dir)
    (h : followUntilLink disk false onLink base (Location.steps rest) = .error e) :
    e = .notFound ∨
      e = .nameTooLong ∧ fitting rest ≠ rest ∧ disk.get? (base ++ fitting rest) = some .dir := by
  induction rest generalizing base with
  | nil => cases h
  | cons name rest ih =>
      have hnext : ∀ front, front <+: rest →
          disk.get? (base ++ [name] ++ front) = none ∨
            disk.get? (base ++ [name] ++ front) = some .dir := by
        intro front hfront
        rw [← List.append_cons]
        exact hfree _ ((List.prefix_cons_inj name).2 hfront)
      unfold followUntilLink at h
      simp only [Location.steps, List.map_cons, hbase, Bool.false_and, Bool.false_eq_true,
        if_false] at h
      split at h
      · next hlong =>
          have hfitting : fitting (name :: rest) = [] := by simp [fitting, hlong]
          exact .inr ⟨(Except.error.inj h).symm, by simp [hfitting],
            by simpa [hfitting] using hbase⟩
      next hshort =>
      rcases hfree [name] (by simp) with hnone | hdir
      · rw [hnone] at h
        exact .inl (Except.error.inj h).symm
      · rw [hdir] at h
        have hfitting : fitting (name :: rest) = name :: fitting rest := by
          simp [fitting, not_lt.1 hshort]
        rcases ih hnext hdir h with heq | ⟨heq, hne, hget⟩
        · exact .inl heq
        · exact .inr ⟨heq, by simpa [hfitting] using hne, by simpa [hfitting] using hget⟩

theorem error_of_follow
    {budget : Nat} {e : OsError}
    (hfree : disk.Free location)
    (h : disk.follow false budget [] location.steps = .error e) :
    e = .notFound ∨
      e = .nameTooLong ∧ fitting location ≠ location ∧
        disk.get? (fitting location) = some .dir := by
  have htop : ∀ front, front <+: location →
      disk.get? ([] ++ front) = none ∨ disk.get? ([] ++ front) = some .dir := hfree
  cases budget <;> exact error_of_followUntilLink htop (get?_top disk) h

theorem makeDirs_of_rejection
    {e : OsError}
    (hspelled : location.IsSpelled)
    (hreject : rejection? location.toPath = some e) :
    disk.makeDirs here location.toPath = (.error e, disk) := by
  cases location using List.reverseRecOn with
  | nil => cases hreject
  | append_singleton base name =>
      have hmake : disk.makeDir here (Location.toPath (base ++ [name])) = .error e := by
        rw [makeDir, hreject]
      have hisDir : disk.isDir here (Location.toPath (base ++ [name])) = false := by
        rw [isDir, hreject]
      have hfound : e ≠ .notFound := by
        rintro rfl
        have hempty := isEmpty_toPath hspelled
        unfold rejection? at hreject
        split_ifs at hreject <;> simp_all
      rw [makeDirs_eq_ensureDir hspelled (by simpa [hmake] using hfound), ensureDir, hmake]
      simp [hisDir]

theorem makeDirs_of_file
    (htree : disk.IsTree)
    (hspelled : location.IsSpelled)
    (hhere : disk.get? here = some .dir)
    (hdirect : disk.Direct location)
    (hreject : rejection? location.toPath = none)
    (hfront : front <+: location) (hget : disk.get? front = some (.file content)) :
    disk.makeDirs here location.toPath =
      (.error (if front = location then .alreadyExists else .notDirectory), disk) := by
  cases location using List.reverseRecOn with
  | nil =>
      obtain rfl := List.prefix_nil.1 hfront
      cases hget
  | append_singleton base name =>
      have hisDir : disk.isDir here (Location.toPath (base ++ [name])) = false := by
        refine Bool.eq_false_iff.2 fun h => ?_
        have hdir := ((isDir_toPath htree hspelled hhere hdirect).1 h).2
        by_cases heq : front = base ++ [name]
        · rw [← heq, hget] at hdir
          cases hdir
        · rw [htree.get?_of_isPrefix hdir hfront heq] at hget
          cases hget
      have hrefused {e : OsError} (hfound : e ≠ .notFound)
          (hmake : disk.makeDir here (Location.toPath (base ++ [name])) = .error e) :
          disk.makeDirs here (Location.toPath (base ++ [name])) = (.error e, disk) := by
        rw [makeDirs_eq_ensureDir hspelled (by simpa [hmake] using hfound), ensureDir, hmake]
        simp [hisDir]
      have hmake := makeDir_toPath hspelled hhere hreject
      rcases List.prefix_concat_iff.1 hfront with heq | hbase
      · -- the file stands where the directory should be
        subst heq
        have hdir := htree.get?_parent hget
        have hname := (htree.isName_of_mem hget (by simp : name ∈ base ++ [name])).2
        have hfollow : disk.follow false linkBudget [] (Location.steps base) = .ok base :=
          Leads.self htree hdir (by simp)
        rw [if_pos rfl]
        refine hrefused (by simp) ?_
        rw [hmake, hfollow]
        simp [makeDirIn, hdir, hget, not_lt.2 hname]
      · have hne : front ≠ base ++ [name] := by
          rintro rfl
          simpa using hbase.length_le
        rw [if_neg hne]
        refine hrefused (by simp) ?_
        rw [hmake]
        obtain ⟨rest, rfl⟩ := hbase
        by_cases hrest : rest = []
        · -- the file stands in place of the parent
          subst hrest
          have hfollow : disk.follow false linkBudget [] (Location.steps (front ++ [])) =
              .ok front := by
            rw [List.append_nil]
            exact Leads.self htree hget (by simp)
          rw [hfollow]
          simp [makeDirIn, hget]
        · rw [follow_past_file htree hget hrest]

/-- What is on the way to a directory is there. -/
theorem IsTree.get?_eq_of_dir (htree : disk.IsTree) (hget : disk.get? base = some .dir)
    (other : Location) :
    disk.get? other = if other <+: base then some .dir else disk.get? other := by
  split_ifs with hother
  · by_cases heq : other = base
    · rwa [heq]
    · exact htree.get?_of_isPrefix hget hother heq
  · rfl

section Last

variable
  (htree : disk.IsTree)
  (hspelled : Location.IsSpelled (base ++ [name]))
  (hhere : disk.get? here = some .dir)
  (hreject : rejection? (Location.toPath (base ++ [name])) = none)
  (hbase : disk.get? base = some .dir)

include htree hspelled hhere hreject hbase

theorem makeDir_eq_makeDirIn :
    disk.makeDir here (Location.toPath (base ++ [name])) = disk.makeDirIn base name := by
  have hfollow : disk.follow false linkBudget [] (Location.steps base) = .ok base :=
    Leads.self htree hbase (by simp)
  rw [makeDir_toPath hspelled hhere hreject, hfollow]

theorem makeDir_ne_notFound :
    disk.makeDir here (Location.toPath (base ++ [name])) ≠ .error .notFound := by
  rw [makeDir_eq_makeDirIn htree hspelled hhere hreject hbase, makeDirIn, hbase]
  dsimp only
  split_ifs
  · simp
  · split <;> simp

/-- In a directory, where no file and no link stands, only the length of the name counts. -/
theorem ensureDir_of_dir
    (hfree : disk.get? (base ++ [name]) = none ∨ disk.get? (base ++ [name]) = some .dir) :
    ∃ ready,
      disk.ensureDir here (Location.toPath (base ++ [name])) =
          (if name.utf8ByteSize ≤ nameLimit then .ok () else .error .nameTooLong, ready) ∧
        ∀ other, ready.get? other =
          if other <+: (if name.utf8ByteSize ≤ nameLimit then base ++ [name] else base) then
            some .dir
          else disk.get? other := by
  have hdirect : disk.Direct (base ++ [name]) := by
    intro front hfront target hget
    by_cases heq : front = base ++ [name]
    · rcases hfree with hnone | hdir <;> simp_all
    · have hbefore : front <+: base := (List.prefix_concat_iff.1 hfront).resolve_left heq
      rw [htree.get?_eq_of_dir hbase, if_pos hbefore] at hget
      cases hget
  have hisDir := isDir_toPath htree hspelled hhere hdirect
  rw [ensureDir, makeDir_eq_makeDirIn htree hspelled hhere hreject hbase, makeDirIn, hbase]
  dsimp only
  by_cases hlong : nameLimit < name.utf8ByteSize
  · have hmissing : disk.get? (base ++ [name]) ≠ some .dir := fun hget =>
      absurd (htree.isName_of_mem hget (by simp : name ∈ base ++ [name])).2 (not_le.2 hlong)
    have hnot : disk.isDir here (Location.toPath (base ++ [name])) = false :=
      Bool.eq_false_iff.2 fun h => hmissing (hisDir.1 h).2
    rw [if_pos hlong, if_neg (not_le.2 hlong), if_neg (not_le.2 hlong), hnot]
    exact ⟨disk, rfl, htree.get?_eq_of_dir hbase⟩
  · rw [if_neg hlong, if_pos (not_lt.1 hlong), if_pos (not_lt.1 hlong)]
    rcases hfree with hnone | hdir
    · rw [hnone]
      refine ⟨_, rfl, fun other => ?_⟩
      rw [get?_put (by simp)]
      by_cases heq : other = base ++ [name]
      · simp [heq]
      · rw [if_neg heq, htree.get?_eq_of_dir hbase]
        simp only [List.prefix_concat_iff, heq, false_or]
        split_ifs <;> rfl
    · rw [hdir]
      refine ⟨disk, ?_, htree.get?_eq_of_dir hdir⟩
      simp [hisDir.2 ⟨hreject, hdir⟩]

end Last

/-- All directories up to the first name that is too long are made, and nothing else. -/
def MakesFitting (disk : Disk) (here location : Location) : Prop :=
  ∃ ready,
    disk.makeDirs here location.toPath =
        (if fitting location = location then .ok () else .error .nameTooLong, ready) ∧
      ∀ other, ready.get? other =
        if other <+: fitting location then some .dir else disk.get? other

section Missing

variable
  (htree : disk.IsTree)
  (hspelled : Location.IsSpelled (base ++ [name]))
  (hhere : disk.get? here = some .dir)
  (hfree : disk.Free (base ++ [name]))
  (hreject : rejection? (Location.toPath (base ++ [name])) = none)

include htree hspelled hhere hfree

include hreject in
/-- A directory whose parent is there is made in it. -/
theorem makesFitting_of_dir (hbase : disk.get? base = some .dir) :
    disk.MakesFitting here (base ++ [name]) := by
  obtain ⟨ready, heq, hready⟩ :=
    ensureDir_of_dir htree hspelled hhere hreject hbase (hfree _ List.prefix_rfl)
  rw [MakesFitting, fitting_concat, if_pos (htree.fitting_eq hbase)]
  refine ⟨ready, ?_, hready⟩
  rw [makeDirs_eq_ensureDir hspelled (makeDir_ne_notFound htree hspelled hhere hreject hbase), heq]
  by_cases hname : name.utf8ByteSize ≤ nameLimit <;> simp [hname]

include hreject in
/-- A directory whose parent is missing is made after its parents. -/
theorem makesFitting_of_notFound
    (hmake : disk.makeDir here (Location.toPath (base ++ [name])) = .error .notFound)
    (hparents : disk.MakesFitting here base) :
    disk.MakesFitting here (base ++ [name]) := by
  obtain ⟨ready, heq, hready⟩ := hparents
  have hadds : disk.AddsDirs ready := by
    simpa [heq] using makeDirs_addsDirs disk here base.toPath
  rw [MakesFitting, makeDirs_of_notFound hspelled hmake, heq, fitting_concat]
  by_cases hfits : fitting base = base
  · rw [if_pos hfits, if_pos hfits]
    rw [hfits] at hready
    have hlast : ready.get? (base ++ [name]) = disk.get? (base ++ [name]) := by
      rw [hready, if_neg fun h => by simpa using h.length_le]
    obtain ⟨made, hensure, hmade⟩ := ensureDir_of_dir (hadds.isTree htree) hspelled
      (hadds.grows.dir hhere) hreject (by rw [hready, if_pos List.prefix_rfl])
      (hlast ▸ hfree _ List.prefix_rfl)
    refine ⟨made, ?_, fun other => ?_⟩
    · dsimp only
      rw [hensure]
      by_cases hname : name.utf8ByteSize ≤ nameLimit <;> simp [hname]
    · rw [hmade, hready]
      by_cases hname : name.utf8ByteSize ≤ nameLimit
      · simp only [hname, if_true, List.prefix_concat_iff]
        split_ifs <;> simp_all
      · simp only [hname, if_false]
        split_ifs <;> rfl
  · rw [if_neg hfits, if_neg hfits, if_neg (fitting_ne_concat base name)]
    exact ⟨ready, rfl, hready⟩

/-- Below a name that is too long nothing is made. -/
theorem makesFitting_of_nameTooLong
    (hmake : disk.makeDir here (Location.toPath (base ++ [name])) = .error .nameTooLong)
    (hbase : disk.get? base ≠ some .dir)
    (hfits : fitting base ≠ base) (hget : disk.get? (fitting base) = some .dir) :
    disk.MakesFitting here (base ++ [name]) := by
  have hnot : disk.isDir here (Location.toPath (base ++ [name])) = false := by
    refine Bool.eq_false_iff.2 fun h => hbase ?_
    exact htree.get?_parent ((isDir_toPath htree hspelled hhere hfree.direct).1 h).2
  rw [MakesFitting, makeDirs_eq_ensureDir hspelled (by simp [hmake]), ensureDir, hmake, hnot,
    fitting_concat, if_neg hfits, if_neg (fitting_ne_concat base name)]
  exact ⟨disk, rfl, htree.get?_eq_of_dir hget⟩

end Missing

/--
On a free way all directories up to the first name that is too long are there afterwards,
and nothing else has changed.
-/
theorem makeDirs_of_free
    (htree : disk.IsTree)
    (hspelled : location.IsSpelled)
    (hhere : disk.get? here = some .dir)
    (hfree : disk.Free location)
    (hreject : rejection? location.toPath = none) :
    disk.MakesFitting here location := by
  induction location using List.reverseRecOn with
  | nil => exact ⟨disk, makeDirs_top hhere, htree.get?_eq_of_dir (get?_top disk)⟩
  | append_singleton base name ih =>
      have hspelledBase := (Location.isSpelled_append.1 hspelled).1
      have hfreeBase := hfree.of_isPrefix (List.prefix_append base [name])
      by_cases hdir : disk.get? base = some .dir
      · exact makesFitting_of_dir htree hspelled hhere hfree hreject hdir
      have hmake := makeDir_toPath hspelled hhere hreject
      cases hfollow : disk.follow false linkBudget [] (Location.steps base) with
      | ok actual =>
          obtain rfl := hfreeBase.direct.eq_of_follow hfollow
          rcases follow_reached htree hspelledBase.areSpelled_steps (get?_top disk) hfollow with
            ⟨entry, hget, -⟩ | ⟨hfalse, -⟩
          · rcases hfreeBase actual List.prefix_rfl with hnone | hdir' <;> simp_all
          · cases hfalse
      | error e =>
          rw [hfollow] at hmake
          rcases error_of_follow hfreeBase hfollow with rfl | ⟨rfl, hfits, hget⟩
          · exact makesFitting_of_notFound htree hspelled hhere hfree hreject hmake
              (ih hspelledBase hfreeBase (rejection?_parent hreject))
          · exact makesFitting_of_nameTooLong htree hspelled hhere hfree hmake hdir hfits hget

end Disk
end Uncomment

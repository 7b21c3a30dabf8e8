import Uncomment.Proofs.Disk.Directories
import Uncomment.Run.Job

/-!
# What a job does to the disk

A job writes to two files at most: it saves the content of its file, and it overwrites the
file with the stripped text.  Apart from that it makes directories.  `Does` lists what can
come of it, and `does_of_processFile` says that this is all, on every disk on which the
path of the job leads to its file and no link stands on the way to the place of the backup.
-/

namespace Uncomment

namespace Backup

variable {disk left : Disk} {here : Location} {backup : Backup} {file : Path} {content : Bytes}
  {result : Except Failure Path}

theorem addsDirs_of_prepare {target : Path} {result : Except Failure Unit}
    (h : prepare disk here target = (result, left)) :
    disk.AddsDirs left := by
  unfold prepare at h
  split at h
  · cases h
    exact .refl
  · next parent hparent =>
      have hadds := Disk.makeDirs_addsDirs disk here parent
      split at h <;> next heq =>
        cases h
        rwa [heq] at hadds

/-- A content is stored after directories were made for it, or not at all. -/
theorem save_cases (h : save disk here backup file content = (result, left)) :
    ((∃ failure, result = .error failure) ∧ disk.AddsDirs left) ∨
      ∃ target ready, result = .ok target ∧ backup.target? file = some target ∧
        prepare disk here target = (.ok (), ready) ∧ disk.AddsDirs ready ∧
          ready.write here target content = .ok left := by
  unfold save at h
  split at h
  · cases h
    exact .inl ⟨⟨_, rfl⟩, .refl⟩
  next target htarget =>
  split at h
  · next heq =>
      cases h
      exact .inl ⟨⟨_, rfl⟩, addsDirs_of_prepare heq⟩
  next ready heq =>
  have hadds := addsDirs_of_prepare heq
  split at h
  · next written hwrite =>
      cases h
      exact .inr ⟨target, ready, rfl, htarget, heq, hadds, hwrite⟩
  · cases h
    exact .inl ⟨⟨_, rfl⟩, hadds⟩

theorem grows_of_save {target : Location}
    (htree : disk.IsTree)
    (hhere : disk.get? here = some .dir)
    (htarget : backup.target? file = some target.toPath)
    (hspelled : target.IsSpelled)
    (h : save disk here backup file content = (result, left)) :
    left.IsTree ∧ disk.Grows left := by
  rcases save_cases h with ⟨-, hadds⟩ | ⟨path, ready, -, hpath, -, hadds, hwrite⟩
  · exact ⟨hadds.isTree htree, hadds.grows⟩
  · obtain rfl := Option.some.inj (hpath.symm.trans htarget)
    obtain ⟨-, -, -, -, hleft, hgrows, -, -⟩ :=
      Disk.exists_of_write (hadds.isTree htree) hspelled (hadds.grows.dir hhere) hwrite
    exact ⟨hleft, hadds.grows.trans hgrows⟩

end Backup

namespace Run

variable {disk left : Disk} {here : Location} {settings : Settings} {path : Path}
  {language : Language} {backup : Option Backup} {outcome : Outcome} {content stripped : Bytes}

/-- A job leaves the disk alone, or its file has a content that stripping changes. -/
theorem processFile_cases
    (h : processFile disk here settings path language backup = .ok (outcome, left)) :
    (left = disk ∧ ∀ target, outcome ≠ .changed (some target)) ∨
      ∃ content stripped, disk.read here path = .ok content ∧
        strip language content = .ok stripped ∧ stripped ≠ content ∧ settings.dryRun = false ∧
          replace disk here path backup content stripped = (outcome, left) := by
  unfold processFile at h
  split at h
  · cases h
    exact .inl ⟨rfl, by simp⟩
  next content hread =>
  split at h
  · cases h
    exact .inl ⟨rfl, by simp⟩
  split at h
  · cases h
  next stripped hstrip =>
  split_ifs at h with hsame hdry
  · cases h
    exact .inl ⟨rfl, by simp⟩
  · cases h
    exact .inl ⟨rfl, by simp⟩
  · exact .inr ⟨content, stripped, hread, hstrip, hsame, by simpa using hdry, Except.ok.inj h⟩

/-- A content that stripping changes is replaced, unless this is a dry run. -/
theorem processFile_of_changes
    (hread : disk.read here path = .ok content)
    (hgate : Gate.check settings.limits settings.force content = none)
    (hstrip : strip language content = .ok stripped)
    (hsame : stripped ≠ content)
    (hdry : settings.dryRun = false) :
    processFile disk here settings path language backup =
      .ok (replace disk here path backup content stripped) := by
  simp [processFile, hread, hgate, hstrip, hsame, hdry]

/-- A content is saved in the backup directory, if there is one. -/
theorem saveFirst_cases {result : Except Failure (Option Path)}
    (h : saveFirst disk here path backup content = (result, left)) :
    (backup = none ∧ result = .ok none ∧ left = disk) ∨
      ∃ dir saved, backup = some dir ∧ Backup.save disk here dir path content = (saved, left) ∧
        result = saved.map some := by
  unfold saveFirst at h
  cases backup with
  | none =>
      cases h
      exact .inl ⟨rfl, rfl, rfl⟩
  | some dir =>
      dsimp only at h
      split at h <;> next heq =>
        cases h
        exact .inr ⟨dir, _, rfl, heq, rfl⟩

/-- A file is overwritten after its content has been saved, or the job has failed. -/
theorem replace_cases
    (h : replace disk here path backup content stripped = (outcome, left)) :
    ∃ result ready, saveFirst disk here path backup content = (result, ready) ∧
      ((∃ failure, outcome = .failed failure) ∧ left = ready ∨
        ∃ target, result = .ok target ∧ outcome = .changed target ∧
          ready.write here path stripped = .ok left) := by
  unfold replace at h
  split at h
  · next hsave =>
      cases h
      exact ⟨_, _, hsave, .inl ⟨⟨_, rfl⟩, rfl⟩⟩
  · next target ready hsave =>
      refine ⟨_, _, hsave, ?_⟩
      split at h
      · next hwrite =>
          cases h
          exact .inr ⟨target, rfl, rfl, hwrite⟩
      · cases h
        exact .inl ⟨⟨_, rfl⟩, rfl⟩

/--
What can come of a job that reads the file at `actual` and saves its content at `target`:
directories, a saved content, or a saved content and a stripped file.
-/
inductive Does
    (disk : Disk)
    (here : Location)
    (path : Path)
    (language : Language)
    (backup : Option Backup)
    (target actual : Location) :
    Outcome → Disk → Prop
  | nothing {outcome : Outcome} {left : Disk} :
      (∀ path, outcome ≠ .changed (some path)) →
      disk.AddsDirs left →
      Does disk here path language backup target actual outcome left
  | saved {failure : Failure} {ready : Disk} {content stripped : Bytes} :
      backup ≠ none →
      disk.read here path = .ok content →
      strip language content = .ok stripped →
      stripped ≠ content →
      disk.AddsDirs ready →
      Does disk here path language backup target actual (.failed failure)
        (ready.store target content)
  | overwritten {content stripped : Bytes} :
      backup = none →
      disk.read here path = .ok content →
      strip language content = .ok stripped →
      stripped ≠ content →
      Does disk here path language backup target actual (.changed none)
        (disk.store actual stripped)
  | replaced {ready : Disk} {content stripped : Bytes} :
      backup ≠ none →
      disk.read here path = .ok content →
      strip language content = .ok stripped →
      stripped ≠ content →
      disk.AddsDirs ready →
      Does disk here path language backup target actual (.changed (some target.toPath))
        ((ready.store target content).store actual stripped)

/-- A job that does something leaves every file alone but its own and its backup. -/
theorem Does.get?_file
    {target actual location : Location} {kept : Bytes}
    (h : Does disk here path language backup target actual outcome left)
    (hget : disk.get? location = some (.file kept))
    (hother : ∀ content stripped, disk.read here path = .ok content →
      strip language content = .ok stripped → stripped ≠ content →
      ¬disk.SameFile actual location ∧ (backup ≠ none → ¬disk.SameFile target location)) :
    left.get? location = some (.file kept) := by
  have hsaved {ready : Disk} {content : Bytes} (hadds : disk.AddsDirs ready)
      (htarget : ¬disk.SameFile target location) :
      (ready.store target content).get? location = some (.file kept) := by
    rw [Disk.get?_store_of_not_sameFile (mt hadds.grows.sameFile_iff.1 htarget)]
    exact hadds.get?_file.2 hget
  cases h with
  | nothing _ hadds => exact hadds.get?_file.2 hget
  | saved hsome hread hstrip hsame hadds =>
      obtain ⟨-, htarget⟩ := hother _ _ hread hstrip hsame
      exact hsaved hadds (htarget hsome)
  | overwritten _ hread hstrip hsame =>
      rwa [Disk.get?_store_of_not_sameFile (hother _ _ hread hstrip hsame).1]
  | replaced hsome hread hstrip hsame hadds =>
      obtain ⟨hactual, htarget⟩ := hother _ _ hread hstrip hsame
      rw [Disk.get?_store_of_not_sameFile (by rwa [Disk.sameFile_store, hadds.grows.sameFile_iff])]
      exact hsaved hadds (htarget hsome)

section Does

variable {location actual target : Location}
  (htree : disk.IsTree)
  (hhere : disk.get? here = some .dir)
  (hspelled : location.IsSpelled)
  (hleads : disk.Leads location actual)

include htree hhere hspelled hleads

/-- What is written under the path of a job goes to its file. -/
theorem eq_store_of_write
    {new : Disk}
    (hwrite : disk.write here location.toPath stripped = .ok new) :
    new = disk.store actual stripped ∧ new.IsTree ∧ disk.Grows new := by
  obtain ⟨place, -, -, rfl, hnew, hgrows, hplace, -⟩ :=
    Disk.exists_of_write htree hspelled hhere hwrite
  obtain rfl := (hleads.grows hgrows).unique hplace
  exact ⟨rfl, hnew, hgrows⟩

/--
A job does nothing but what `Does` lists, on a disk on which no link stands on the way to
the place at which its content is saved.
-/
theorem does_of_processFile
    (htarget : ∀ dir, backup = some dir →
      dir.target? location.toPath = some target.toPath ∧ target.IsSpelled ∧ disk.Direct target)
    (h : processFile disk here settings location.toPath language backup = .ok (outcome, left)) :
    Does disk here location.toPath language backup target actual outcome left ∧
      left.IsTree ∧ disk.Grows left := by
  rcases processFile_cases h with
    ⟨rfl, hne⟩ | ⟨content, stripped, hread, hstrip, hsame, -, hreplace⟩
  · exact ⟨.nothing hne .refl, htree, .refl _⟩
  obtain ⟨result, ready, hfirst, hdone⟩ := replace_cases hreplace
  rcases saveFirst_cases hfirst with ⟨rfl, rfl, rfl⟩ | ⟨dir, saved, rfl, hsave, rfl⟩
  · rcases hdone with ⟨⟨failure, rfl⟩, rfl⟩ | ⟨_, hresult, rfl, hwrite⟩
    · exact ⟨.nothing (by simp) .refl, htree, .refl _⟩
    · obtain rfl := Except.ok.inj hresult
      obtain ⟨rfl, hnew, hgrows⟩ := eq_store_of_write htree hhere hspelled hleads hwrite
      exact ⟨.overwritten rfl hread hstrip hsame, hnew, hgrows⟩
  · obtain ⟨hplace, hspelledTarget, hdirect⟩ := htarget dir rfl
    rcases Backup.save_cases hsave with
      ⟨⟨failure, rfl⟩, hadds⟩ | ⟨path, made, rfl, hpath, -, hadds, hwrite⟩
    · rcases hdone with ⟨⟨failure, rfl⟩, rfl⟩ | ⟨_, hresult, -, -⟩
      · exact ⟨.nothing (by simp) hadds, hadds.isTree htree, hadds.grows⟩
      · cases hresult
    · obtain rfl := Option.some.inj (hpath.symm.trans hplace)
      obtain ⟨place, hfollow, -, rfl, hsaved, hgrows, -, -⟩ :=
        Disk.exists_of_write (hadds.isTree htree) hspelledTarget (hadds.grows.dir hhere) hwrite
      obtain rfl := (hdirect.grows hadds.grows).eq_of_follow hfollow
      have hgrown := hadds.grows.trans hgrows
      rcases hdone with ⟨⟨failure, rfl⟩, rfl⟩ | ⟨_, hresult, rfl, hrewrite⟩
      · exact ⟨.saved (by simp) hread hstrip hsame hadds, hsaved, hgrown⟩
      · obtain rfl := Except.ok.inj hresult
        obtain ⟨rfl, hnew, hgrows'⟩ := eq_store_of_write hsaved (hgrown.dir hhere) hspelled
          (hleads.grows hgrown) hrewrite
        exact ⟨.replaced (by simp) hread hstrip hsame hadds, hnew, hgrown.trans hgrows'⟩

end Does

end Run
end Uncomment

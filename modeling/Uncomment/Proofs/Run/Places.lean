import Uncomment.Proofs.Disk.Directories
import Uncomment.Proofs.Run.Effect
import Uncomment.Proofs.Run.Queue
import Uncomment.Proofs.Run.Schedule

/-!
# Where the backups of a run are

As long as no link is named like the folder of the backups or lies below such a folder
(`Disk.PlainBackups`), the content of a file is saved where its name says, and two files of a
run are saved at the same place only if they are one (`eq_of_place_isPrefix`), provided that
no queued file has a name in a backup directory (`Plan.Outside`) and no file has two names there
(`Plan.Apart`).
-/

namespace Uncomment

/-- No link is named like the folder of the backups, and none lies below such a folder. -/
def Disk.PlainBackups (disk : Disk) : Prop :=
  ∀ item ∈ disk.entries, item.2.isLink = true → Backup.folder ∉ item.1

instance (disk : Disk) : Decidable disk.PlainBackups :=
  inferInstanceAs (Decidable (∀ _ ∈ _, _))

theorem Disk.PlainBackups.folder_notMem {disk : Disk} {location : Location} {target : Path}
    (h : disk.PlainBackups) (hget : disk.get? location = some (.link target)) :
    Backup.folder ∉ location :=
  h _ (Disk.mem_entries_of_get? hget (Disk.ne_nil_of_get? hget (by simp))) rfl

theorem Disk.PlainBackups.grows {old new : Disk}
    (h : old.PlainBackups) (hgrows : old.Grows new) (htree : new.IsTree) : new.PlainBackups := by
  rintro ⟨location, entry⟩ hitem hlink
  cases entry with
  | link target => exact h.folder_notMem (hgrows.link.1 (htree.mem_entries_iff.1 hitem).2)
  | file _ | dir => cases hlink

/-- What holds of the value of a result, if it has one, can be decided. -/
instance decidableForallOk {ε α : Type} (holds : α → Prop) [DecidablePred holds] :
    (result : Except ε α) → Decidable (∀ value, result = .ok value → holds value)
  | .ok value =>
      decidable_of_iff (holds value) ⟨fun h _ heq => Except.ok.inj heq ▸ h, fun h => h _ rfl⟩
  | .error _ => isTrue fun _ h => nomatch h

/-- Whether two paths lead to one file. -/
def Disk.NameOneFile (disk : Disk) (here : Location) (path other : Path) : Prop :=
  match disk.locate here path, disk.locate here other with
  | .ok location, .ok place => disk.SameFile location place
  | _, _ => False

instance (disk : Disk) (here : Location) (path other : Path) :
    Decidable (disk.NameOneFile here path other) := by
  unfold Disk.NameOneFile
  split <;> infer_instance

theorem Disk.nameOneFile_iff {disk : Disk} {here location place : Location} {path other : Path}
    (h : disk.locate here path = .ok location) (h' : disk.locate here other = .ok place) :
    disk.NameOneFile here path other ↔ disk.SameFile location place := by
  rw [NameOneFile, h, h']

theorem Disk.NameOneFile.symm {disk : Disk} {here : Location} {path other : Path}
    (h : disk.NameOneFile here path other) : disk.NameOneFile here other path := by
  unfold NameOneFile at h ⊢
  split at h
  · next hpath hother =>
      rw [hpath, hother]
      exact h.symm
  · cases h

namespace Run

/-- What lies in a directory into which jobs of a plan save. -/
def Plan.InBackup (queue : Plan) (location : Location) : Prop :=
  ∃ job ∈ queue.jobs, ∃ backup ∈ job.backup, (location.toPath.stripPrefix? backup.dir).isSome

instance (queue : Plan) (location : Location) : Decidable (queue.InBackup location) :=
  inferInstanceAs (Decidable (∃ _ ∈ _, _))

/-- No file that is queued lies in a backup directory of the run, under any of its names. -/
def Plan.Outside (disk : Disk) (here : Location) (queue : Plan) : Prop :=
  ∀ job ∈ queue.jobs, ∀ location, disk.locate here job.path = .ok location →
    ∀ name ∈ disk.namesOf location, ¬queue.InBackup name

instance (disk : Disk) (here : Location) (queue : Plan) : Decidable (queue.Outside disk here) :=
  inferInstanceAs (Decidable (∀ _ ∈ _, _))

/-- Jobs save to files that are not queued, and to different files under different names. -/
structure Plan.Apart (disk : Disk) (here : Location) (queue : Plan) : Prop where
  outside : queue.Outside disk here
  /-- No file has two names in backup directories of the run. -/
  single : ∀ item ∈ disk.numbers, queue.InBackup item.1 →
    ∀ name ∈ disk.namesOf item.1, queue.InBackup name → name = item.1

instance (disk : Disk) (here : Location) (queue : Plan) : Decidable (queue.Apart disk here) :=
  decidable_of_iff
    (queue.Outside disk here ∧ ∀ item ∈ disk.numbers, queue.InBackup item.1 →
      ∀ name ∈ disk.namesOf item.1, queue.InBackup name → name = item.1)
    ⟨fun ⟨h₁, h₂⟩ => ⟨h₁, h₂⟩, fun ⟨h₁, h₂⟩ => ⟨h₁, h₂⟩⟩

theorem Plan.Apart.eq_of_sameFile
    {disk : Disk} {here location place : Location} {queue : Plan}
    (h : queue.Apart disk here)
    (hlocation : queue.InBackup location) (hplace : queue.InBackup place)
    (hsame : disk.SameFile location place) : location = place := by
  by_contra hne
  obtain ⟨number, hnumber⟩ := hsame.exists_mem_numbers hne
  exact hne (h.single _ hnumber hlocation place (Disk.mem_namesOf_iff.2 hsame) hplace).symm

end Run

namespace Backup

variable {disk : Disk} {base other rest more : Location} {stamp : String}

theorem folder_mem_placeFor : folder ∈ placeFor base stamp := by
  simp [placeFor]

theorem placeFor_injective (h : placeFor base stamp = placeFor other stamp) : base = other := by
  have hlength := congrArg List.length h
  simp only [placeFor, List.length_append, List.length_cons] at hlength
  exact (List.append_inj h (by omega)).1

/-- A backup directory lies in another one only if its root does. -/
theorem eq_of_placeFor_isPrefix
    (hout : ¬placeFor base stamp <+: other)
    (h : placeFor base stamp <+: placeFor other stamp) :
    base = other := by
  have hconcat : placeFor other stamp = other ++ [folder] ++ [nameFor other stamp] := by
    simp [placeFor]
  rw [hconcat, List.prefix_concat_iff, ← hconcat] at h
  rcases h with heq | h
  · exact placeFor_injective heq
  rcases List.prefix_concat_iff.1 h with heq | h
  · have hlast := congrArg List.getLast? heq
    simp only [placeFor, List.getLast?_append, List.getLast?_cons_cons, List.getLast?_singleton,
      Option.some_or, Option.some.injEq] at hlast
    exact absurd hlast (nameFor_ne (by decide))
  · exact absurd h hout

/--
If neither of two roots lies in the backup directory of the other one, then a place in one
of these directories lies below a place in the other one only if the roots are the same.
-/
theorem eq_of_place_isPrefix
    (hout : ¬placeFor base stamp <+: other) (hout' : ¬placeFor other stamp <+: base)
    (h : placeFor base stamp ++ rest <+: placeFor other stamp ++ more) :
    base = other ∧ rest <+: more := by
  have hbase : base = other := by
    rcases List.prefix_or_prefix_of_prefix ((List.prefix_append _ rest).trans h)
        (List.prefix_append _ more) with hle | hle
    · exact eq_of_placeFor_isPrefix hout hle
    · exact (eq_of_placeFor_isPrefix hout' hle).symm
  subst hbase
  exact ⟨rfl, (List.prefix_append_right_inj _).1 h⟩

theorem direct_place
    (htree : disk.IsTree) (hplain : disk.PlainBackups)
    (hbase : disk.get? base = some .dir) :
    disk.Direct (placeFor base stamp ++ rest) := by
  intro front hfront target hget
  rw [placeFor, List.append_assoc] at hfront
  rcases List.prefix_or_prefix_of_prefix hfront (List.prefix_append base _) with hle | hle
  · rw [htree.get?_eq_of_dir hbase, if_pos hle] at hget
    cases hget
  · obtain ⟨below, rfl⟩ := hle
    rw [List.prefix_append_right_inj] at hfront
    cases below with
    | nil =>
        rw [List.append_nil, hbase] at hget
        cases hget
    | cons first below =>
        obtain rfl := (List.cons_prefix_cons.1 hfront).1
        exact hplain.folder_notMem hget (by simp)

/-- No link stands on the way to what lies below a directory in a backup directory. -/
theorem direct_of_placeFor_isPrefix
    (htree : disk.IsTree) (hplain : disk.PlainBackups)
    (hother : disk.get? other = some .dir)
    (h : placeFor base stamp <+: other) :
    disk.Direct (other ++ rest) := by
  intro front hfront target hget
  rcases List.prefix_or_prefix_of_prefix hfront (List.prefix_append other rest) with hle | hle
  · rw [htree.get?_eq_of_dir hother, if_pos hle] at hget
    cases hget
  · exact hplain.folder_notMem hget ((h.trans hle).subset folder_mem_placeFor)

end Backup

namespace Run

variable {disk now : Disk} {here : Location} {settings : Settings} {stamp : String}
  {job other : Job} {queue : Plan} {base rest actual base' rest' actual' : Location}
  {content : Bytes}

theorem backupFor_eq_some {root : Path} {backup : Backup}
    (h : backupFor settings stamp root = some backup) :
    backup = .make root stamp ∧ settings.dryRun = false ∧ settings.backup = true := by
  unfold backupFor at h
  split_ifs at h with hoff
  · simp only [Bool.or_eq_true, Bool.not_eq_true', not_or, Bool.not_eq_true,
      Bool.not_eq_false] at hoff
    exact ⟨(Option.some.inj h).symm, hoff⟩

namespace IsQueued

variable (hqueued : IsQueued disk here settings stamp job base rest actual)
include hqueued

theorem spelled_base : base.IsSpelled :=
  (Location.isSpelled_append.1 hqueued.spelled).1

theorem spelled_place : Location.IsSpelled (Backup.placeFor base stamp ++ rest) :=
  Location.isSpelled_append.2 ⟨Backup.isSpelled_placeFor hqueued.spelled_base,
    (Location.isSpelled_append.1 hqueued.spelled).2⟩

theorem target?_eq {dir : Backup} (hdir : job.backup = some dir) (hrest : rest ≠ []) :
    dir.target? job.path = some (Location.toPath (Backup.placeFor base stamp ++ rest)) := by
  rw [hqueued.backup] at hdir
  rw [(backupFor_eq_some hdir).1, hqueued.path]
  exact Backup.target?_make hqueued.spelled_base (Location.isSpelled_append.1 hqueued.spelled).2
    hrest

theorem dir_eq {dir : Backup} (hdir : job.backup = some dir) :
    dir.dir = (Backup.placeFor base stamp).toPath := by
  rw [hqueued.backup] at hdir
  rw [(backupFor_eq_some hdir).1, Backup.make_toPath hqueued.spelled_base]

/-- What a job reads is the file to which its path leads, also when the disk has grown. -/
theorem read_eq_ok_iff (hgrows : disk.Grows now) :
    now.read here job.path = .ok content ↔
      Disk.rejection? job.path = none ∧ now.get? actual = some (.file content) := by
  rw [hqueued.path, Disk.read_toPath_eq_ok_iff hqueued.spelled (hgrows.dir hqueued.here)]
  constructor
  · rintro ⟨hreject, found, hleads, hget⟩
    obtain rfl := (hqueued.leads.grows hgrows).unique hleads
    exact ⟨hreject, hget⟩
  · rintro ⟨hreject, hget⟩
    exact ⟨hreject, actual, hqueued.leads.grows hgrows, hget⟩

/-- A job whose file can be read is for something below its root. -/
theorem rest_ne_nil (hgrows : disk.Grows now) (hread : now.read here job.path = .ok content) :
    rest ≠ [] := by
  have hget := ((hqueued.read_eq_ok_iff hgrows).1 hread).2
  rcases hqueued.found with ⟨-, hne⟩ | hdir
  · exact hne
  · rw [hgrows.dir hdir] at hget
    cases hget

/-- A file that could be read is overwritten if it is not guarded, whatever was saved before. -/
theorem write_eq {ready : Disk} {stripped : Bytes} (hgrows : disk.Grows now)
    (hread : now.read here job.path = .ok content) (hgrown : now.Grows ready) :
    ready.write here job.path stripped =
      if disk.isGuarded actual then .error .permissionDenied
      else .ok (ready.store actual stripped) := by
  have hready := hgrows.trans hgrown
  obtain ⟨hreject, hget⟩ := (hqueued.read_eq_ok_iff hgrows).1 hread
  obtain ⟨kept, hkept⟩ := hgrown.file hget
  rw [hqueued.path] at hreject ⊢
  rw [(Disk.spells_toPath hqueued.spelled).write_of_leads (hready.dir hqueued.here) hreject
    (hqueued.leads.grows hready) hkept, hready.isGuarded_eq]

theorem grows_of_saveFirst {ready : Disk} {result : Except Failure (Option Path)}
    (hgrows : disk.Grows now) (hnow : now.IsTree)
    (hread : now.read here job.path = .ok content)
    (h : saveFirst now here job.path job.backup content = (result, ready)) :
    ready.IsTree ∧ now.Grows ready := by
  rcases saveFirst_cases h with ⟨-, -, rfl⟩ | ⟨dir, saved, hdir, hsave, -⟩
  · exact ⟨hnow, .refl _⟩
  · exact Backup.grows_of_save hnow (hgrows.dir hqueued.here)
      (hqueued.target?_eq hdir (hqueued.rest_ne_nil hgrows hread)) hqueued.spelled_place hsave

/-- A job lets the disk grow. -/
theorem grows_of_processFile {left : Disk} {outcome : Outcome}
    (hgrows : disk.Grows now) (hnow : now.IsTree)
    (h : processFile now here settings job.path job.language job.backup = .ok (outcome, left)) :
    left.IsTree ∧ now.Grows left := by
  rcases processFile_cases h with ⟨rfl, -⟩ | ⟨content, stripped, hread, -, -, -, hdone⟩
  · exact ⟨hnow, .refl _⟩
  obtain ⟨result, ready, hsave, hdone⟩ := replace_cases hdone
  obtain ⟨hready, hgrown⟩ := hqueued.grows_of_saveFirst hgrows hnow hread hsave
  rcases hdone with ⟨-, rfl⟩ | ⟨-, -, -, hwrite⟩
  · exact ⟨hready, hgrown⟩
  · rw [hqueued.path] at hwrite
    obtain ⟨-, -, -, -, hleft, hend, -, -⟩ := Disk.exists_of_write hready hqueued.spelled
      ((hgrows.trans hgrown).dir hqueued.here) hwrite
    exact ⟨hleft, hgrown.trans hend⟩

theorem locate_eq (hreject : Disk.rejection? job.path = none) :
    disk.locate here job.path = .ok actual := by
  rw [hqueued.path] at hreject ⊢
  exact (Disk.locate_toPath hqueued.spelled hqueued.here (Disk.hasZero_of_rejection? hreject)).2
    hqueued.leads

theorem inBackup_of_isPrefix {location : Location}
    (hjob : job ∈ queue.jobs) {dir : Backup} (hdir : job.backup = some dir)
    (hspelled : location.IsSpelled) (h : Backup.placeFor base stamp <+: location) :
    queue.InBackup location := by
  refine ⟨job, hjob, dir, hdir, ?_⟩
  rw [hqueued.dir_eq hdir]
  exact (Location.isSome_stripPrefix?_toPath hspelled
    (Backup.isSpelled_placeFor hqueued.spelled_base)).2 h

theorem inBackup_place (hjob : job ∈ queue.jobs) {dir : Backup} (hdir : job.backup = some dir) :
    queue.InBackup (Backup.placeFor base stamp ++ rest) :=
  hqueued.inBackup_of_isPrefix hjob hdir hqueued.spelled_place (List.prefix_append _ rest)

/-- A file that a job reads lies in no backup directory. -/
theorem not_isPrefix_actual
    (htree : disk.IsTree)
    (hout : queue.Outside disk here)
    (hjob : job ∈ queue.jobs) (hreject : Disk.rejection? job.path = none)
    (hother : other ∈ queue.jobs) {dir : Backup} (hdir : other.backup = some dir)
    (hqueued' : IsQueued disk here settings stamp other base' rest' actual') :
    ¬Backup.placeFor base' stamp <+: actual := by
  intro h
  have hspelled : actual.IsSpelled := by
    rcases hqueued.found with ⟨⟨content, hget⟩, -⟩ | hget <;> exact htree.isSpelled hget
  exact hout job hjob actual (hqueued.locate_eq hreject) actual
    (Disk.mem_namesOf_iff.2 (.refl disk actual))
    (hqueued'.inBackup_of_isPrefix hother hdir hspelled h)

/-- A file that a job reads has no name at which another job saves. -/
theorem not_sameFile_place
    (hout : queue.Outside disk here)
    (hjob : job ∈ queue.jobs) (hreject : Disk.rejection? job.path = none)
    (hother : other ∈ queue.jobs) {dir : Backup} (hdir : other.backup = some dir)
    (hqueued' : IsQueued disk here settings stamp other base' rest' actual') :
    ¬disk.SameFile (Backup.placeFor base' stamp ++ rest') actual := fun hsame =>
  hout job hjob actual (hqueued.locate_eq hreject) _ (Disk.mem_namesOf_iff.2 hsame.symm)
    (hqueued'.inBackup_place hother hdir)

/-- The root of a job whose file can be read lies in no backup directory. -/
theorem not_isPrefix_base
    (htree : disk.IsTree) (hplain : disk.PlainBackups)
    (hout : queue.Outside disk here)
    (hjob : job ∈ queue.jobs) (hreject : Disk.rejection? job.path = none)
    (hother : other ∈ queue.jobs) {dir : Backup} (hdir : other.backup = some dir)
    (hqueued' : IsQueued disk here settings stamp other base' rest' actual') :
    ¬Backup.placeFor base' stamp <+: base := by
  intro h
  have hactual := (Backup.direct_of_placeFor_isPrefix htree hplain hqueued.isDir h).eq_of_follow
    hqueued.leads
  refine hqueued.not_isPrefix_actual htree hout hjob hreject hother hdir hqueued' ?_
  rw [hactual]
  exact h.trans (List.prefix_append base rest)

end IsQueued

/-- Jobs that are done one after the other let the disk grow. -/
theorem grows_of_processAll
    {jobs : List Job}
    (htree : disk.IsTree)
    (hplan : plan disk here settings stamp = .ok queue)
    (hjobs : ∀ job ∈ jobs, job ∈ queue.jobs)
    (hgrows : disk.Grows now) (hnow : now.IsTree) :
    (processAll here settings jobs now).2.IsTree ∧
      now.Grows (processAll here settings jobs now).2 := by
  induction jobs generalizing now with
  | nil => exact ⟨hnow, .refl now⟩
  | cons job more ih =>
      have hmore : ∀ other ∈ more, other ∈ queue.jobs := fun other hother =>
        hjobs other (by simp [hother])
      obtain ⟨_, _, _, hqueued⟩ := exists_isQueued htree hplan (hjobs job (by simp))
      rcases processAll_cons_cases here settings job more now with heq | ⟨_, next, hdone, heq⟩
      · rw [heq]
        exact ih hmore hgrows hnow
      · obtain ⟨hnext, hgrown⟩ := hqueued.grows_of_processFile hgrows hnow hdone
        obtain ⟨hleft, hend⟩ := ih hmore (hgrows.trans hgrown) hnext
        rw [heq]
        exact ⟨hleft, hgrown.trans hend⟩

section AtWork

variable {left : Disk} {outcome : Outcome} (htree : disk.IsTree) (hplain : disk.PlainBackups)

include htree hplain

/-- What a queued job does at its turn. -/
theorem IsQueued.does
    (hqueued : IsQueued disk here settings stamp job base rest actual)
    (hgrows : disk.Grows now) (hnow : now.IsTree)
    (h : processFile now here settings job.path job.language job.backup = .ok (outcome, left)) :
    Does now here job.path job.language job.backup (Backup.placeFor base stamp ++ rest) actual
        outcome left ∧
      left.IsTree ∧ now.Grows left := by
  rcases hqueued.found with ⟨-, hrest⟩ | hdir
  · have hleads := hqueued.leads.grows hgrows
    have hdoes := does_of_processFile hnow (hgrows.dir hqueued.here) hqueued.spelled hleads
      (fun dir hdir => ⟨by rw [← hqueued.path]; exact hqueued.target?_eq hdir hrest,
        hqueued.spelled_place, (Backup.direct_place htree hplain hqueued.isDir).grows hgrows⟩)
      (hqueued.path ▸ h)
    rwa [← hqueued.path] at hdoes
  · rcases processFile_cases h with ⟨rfl, hne⟩ | ⟨content, -, hread, -⟩
    · exact ⟨.nothing hne .refl, hnow, .refl _⟩
    · have hget := ((hqueued.read_eq_ok_iff hgrows).1 hread).2
      rw [hgrows.dir hdir] at hget
      cases hget

/-- A job saves at or above the place of another job only if the roots are the same. -/
theorem IsQueued.of_place_isPrefix
    {dir dir' : Backup}
    (hout : queue.Outside disk here)
    (hqueued : IsQueued disk here settings stamp job base rest actual)
    (hjob : job ∈ queue.jobs) (hreject : Disk.rejection? job.path = none)
    (hdir : job.backup = some dir)
    (hqueued' : IsQueued disk here settings stamp other base' rest' actual')
    (hother : other ∈ queue.jobs) (hreject' : Disk.rejection? other.path = none)
    (hdir' : other.backup = some dir')
    (h : Backup.placeFor base stamp ++ rest <+: Backup.placeFor base' stamp ++ rest') :
    base = base' ∧ rest <+: rest' :=
  Backup.eq_of_place_isPrefix
    (hqueued'.not_isPrefix_base htree hplain hout hother hreject' hjob hdir hqueued)
    (hqueued.not_isPrefix_base htree hplain hout hjob hreject hother hdir' hqueued') h

end AtWork

end Run
end Uncomment

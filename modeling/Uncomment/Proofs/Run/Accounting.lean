import Uncomment.Proofs.Run.Mirrored
import Uncomment.Proofs.Run.Recording

/-!
# What a summary accounts for

The jobs of a run are done one after the other, each on the disk that the ones before it have left
(`Run.Turns`), and the summary says once of every job what has become of it, in the order of the
plan and after the failures of the walks.

A job that changes its file has saved the content before, if there is a backup directory, and the
backup directories of the summary are those of such jobs.  A job that has saved the content but may
not write its file fails (`Run.IsQueued.outcome_of_saves`), and the summary does not mention what
it has saved.

`run_accounts` collects this for a run and for every other order of its jobs.
-/

namespace Uncomment
namespace Run

variable {disk now left : Disk} {here : Location} {settings : Settings} {stamp : String}
  {queue : Plan} {job : Job} {jobs : List Job} {order : List (Job × Nat)}
  {outcome : Job × Nat → Outcome} {reports : List Report} {result : Result}
  {base rest actual : Location} {backup : Backup} {target : Path}

/-! ### Turns -/

/-- Numbered jobs that are done one after the other come to their outcomes. -/
inductive Turns (here : Location) (settings : Settings) (outcome : Job × Nat → Outcome) :
    List (Job × Nat) → Disk → Disk → Prop
  | nil {now : Disk} :
      Turns here settings outcome [] now now
  | cons {job : Job × Nat} {more : List (Job × Nat)} {now next left : Disk} :
      processFile now here settings job.1.path job.1.language job.1.backup =
        .ok (outcome job, next) →
      Turns here settings outcome more next left →
      Turns here settings outcome (job :: more) now left

/-- What is reported of a numbered job. -/
def reportOf (outcome : Job × Nat → Outcome) (job : Job × Nat) : Report :=
  ⟨job.1.shown, some job.1.language, outcome job⟩

theorem turns_of_processAll {report : Job × Nat → Report}
    (h : processAll here settings (order.map Prod.fst) now = (.ok (order.map report), left)) :
    Turns here settings (fun job => (report job).outcome) order now left ∧
      ∀ job ∈ order, report job = reportOf (fun job => (report job).outcome) job := by
  induction order generalizing now with
  | nil =>
      cases h
      exact ⟨.nil, by simp⟩
  | cons job more ih =>
      obtain ⟨outcome, next, reports, hdone, hmore, heq⟩ := exists_of_processAll_cons h
      obtain ⟨hreport, rfl⟩ := List.cons.inj heq
      obtain ⟨hturns, hreports⟩ := ih hmore
      have houtcome : (report job).outcome = outcome := by rw [hreport]
      refine ⟨.cons (houtcome ▸ hdone) hturns, List.forall_mem_cons.2 ⟨?_, hreports⟩⟩
      rw [reportOf, houtcome, hreport]

theorem Turns.exists_of_mem {job : Job × Nat}
    (h : Turns here settings outcome order now left) (hjob : job ∈ order) :
    ∃ turn next, processFile turn here settings job.1.path job.1.language job.1.backup =
      .ok (outcome job, next) := by
  induction h with
  | nil => cases hjob
  | cons hdone _ ih =>
      rcases List.mem_cons.1 hjob with rfl | hmore
      · exact ⟨_, _, hdone⟩
      · exact ih hmore

/-- A job has its turn on the disk that the ones before it have left. -/
theorem Turns.exists_next {front more : List (Job × Nat)} {job : Job × Nat} {turn : Disk}
    (hfront : Turns here settings outcome front now turn)
    (h : Turns here settings outcome (front ++ job :: more) now left) :
    ∃ next, processFile turn here settings job.1.path job.1.language job.1.backup =
      .ok (outcome job, next) := by
  induction hfront with
  | nil =>
      cases h with
      | cons hdone _ => exact ⟨_, hdone⟩
  | cons hfirst _ ih =>
      cases h with
      | cons hdone hmore =>
          obtain ⟨-, rfl⟩ := Prod.mk.inj (Except.ok.inj (hfirst.symm.trans hdone))
          exact ih hmore

theorem Turns.grows
    (h : Turns here settings outcome order now left)
    (htree : disk.IsTree)
    (hplan : plan disk here settings stamp = .ok queue)
    (hjobs : ∀ job ∈ order, job.1 ∈ queue.jobs)
    (hgrows : disk.Grows now) (hnow : now.IsTree) :
    left.IsTree ∧ disk.Grows left := by
  induction h with
  | nil => exact ⟨hnow, hgrows⟩
  | cons hdone _ ih =>
      obtain ⟨hjob, hmore⟩ := List.forall_mem_cons.1 hjobs
      obtain ⟨_, _, _, hqueued⟩ := exists_isQueued htree hplan hjob
      obtain ⟨hnext, hgrown⟩ := hqueued.grows_of_processFile hgrows hnow hdone
      exact ih hmore (hgrows.trans hgrown) hnext

/-! ### Saved contents -/

/-- At its turn a job saves the content of its file under a path. -/
def Saves (now : Disk) (here : Location) (settings : Settings) (job : Job) (target : Path) : Prop :=
  ∃ content stripped ready,
    now.read here job.path = .ok content ∧
      Gate.check settings.limits settings.force content = none ∧
        strip job.language content = .ok stripped ∧ stripped ≠ content ∧
          settings.dryRun = false ∧
            saveFirst now here job.path job.backup content = (.ok (some target), ready)

/-- A job that saves the content of its file changes the file, or fails because it is guarded. -/
theorem IsQueued.outcome_of_saves {outcome : Outcome} {next : Disk}
    (hqueued : IsQueued disk here settings stamp job base rest actual)
    (hgrows : disk.Grows now) (hnow : now.IsTree)
    (hsaves : Saves now here settings job target)
    (h : processFile now here settings job.path job.language job.backup = .ok (outcome, next)) :
    outcome = .changed (some target) ∨
      (∃ failure, outcome = .failed failure) ∧
        ∃ actual, disk.locate here job.path = .ok actual ∧ disk.isGuarded actual = true := by
  obtain ⟨content, stripped, ready, hread, hgate, hstrip, hsame, hdry, hsave⟩ := hsaves
  obtain ⟨-, hgrown⟩ := hqueued.grows_of_saveFirst hgrows hnow hread hsave
  have hwrite : ready.write here job.path stripped =
      if disk.isGuarded actual then .error .permissionDenied
      else .ok (ready.store actual stripped) :=
    hqueued.write_eq hgrows hread hgrown
  rw [processFile_of_changes hread hgate hstrip hsame hdry, replace, hsave] at h
  dsimp only at h
  rw [hwrite] at h
  cases hguarded : disk.isGuarded actual with
  | false =>
      rw [hguarded] at h
      exact .inl (congrArg Prod.fst (Except.ok.inj h)).symm
  | true =>
      rw [hguarded] at h
      obtain ⟨hreject, -⟩ := (hqueued.read_eq_ok_iff hgrows).1 hread
      exact .inr ⟨⟨_, (congrArg Prod.fst (Except.ok.inj h)).symm⟩, actual,
        hqueued.locate_eq hreject, hguarded⟩

/-- A changed file whose content was saved has a backup directory, and the content went there. -/
theorem exists_backup_of_changed {path : Path} {language : Language} {backup : Option Backup}
    (h : processFile now here settings path language backup = .ok (.changed (some target), left)) :
    ∃ dir, backup = some dir ∧ dir.target? path = some target := by
  rcases processFile_cases h with ⟨-, hne⟩ | ⟨content, stripped, -, -, -, -, hdone⟩
  · exact absurd rfl (hne target)
  obtain ⟨result, ready, hsave, ⟨⟨failure, hfailed⟩, -⟩ | ⟨saved, rfl, hchanged, -⟩⟩ :=
    replace_cases hdone
  · cases hfailed
  obtain rfl := Outcome.changed.inj hchanged
  rcases saveFirst_cases hsave with ⟨-, hnone, -⟩ | ⟨dir, stored, rfl, hstored, heq⟩
  · cases hnone
  · cases stored with
    | error failure => cases heq
    | ok path =>
        cases heq
        exact ⟨dir, rfl, Backup.target?_of_save hstored⟩

/-- A content is saved below the backup directory of its job. -/
theorem IsQueued.dir_isPrefix_target
    (hqueued : IsQueued disk here settings stamp job base rest actual)
    (hbackup : job.backup = some backup) (htarget : backup.target? job.path = some target) :
    backup.dir.components <+: target.components ∧
      target.components ≠ backup.dir.components := by
  obtain ⟨hrest, rfl⟩ := hqueued.eq_place_of_target? hbackup htarget
  rw [hqueued.dir_eq hbackup, Location.components_toPath hqueued.spelled_place,
    Location.components_toPath (Backup.isSpelled_placeFor hqueued.spelled_base)]
  simpa using hrest

/-! ### Accounts -/

/-- What the result of a run says of the jobs of its plan, which were done in the given order. -/
structure Accounts
    (disk : Disk)
    (here : Location)
    (settings : Settings)
    (queue : Plan)
    (order : List (Job × Nat))
    (outcome : Job × Nat → Outcome)
    (result : Result)
    (left : Disk) : Prop where
  turns : Turns here settings outcome order disk left
  /-- Every job has one report, at its place in the plan. -/
  reports : result.reports = queue.jobs.zipIdx.map (reportOf outcome)
  changed : result.summary.changed = result.reports.filterMap Report.changed?
  unchanged : result.summary.unchanged = result.reports.filterMap Report.unchanged?
  skipped : result.summary.skipped = result.reports.filterMap Report.skipped?
  /-- The failures of the walks come first. -/
  failed : result.summary.failed = queue.failures ++ result.reports.filterMap Report.failed?
  total :
    result.summary.changed.length + result.summary.unchanged.length +
        result.summary.skipped.length + result.summary.failed.length =
      queue.jobs.length + queue.failures.length
  /-- A job that saves a content at its turn changes its file, unless it may not write it. -/
  saves : ∀ front job more turn target,
    order = front ++ job :: more →
    Turns here settings outcome front disk turn →
    Saves turn here settings job.1 target →
    outcome job = .changed (some target) ∨
      (∃ failure, outcome job = .failed failure) ∧
        ∃ actual, disk.locate here job.1.path = .ok actual ∧ disk.isGuarded actual = true
  /-- No backup directory is listed twice, not even in another spelling. -/
  distinct : (result.summary.backupDirs.map Path.components).Nodup
  used : ∀ dir,
    dir ∈ result.summary.backupDirs ↔
      ∃ job ∈ queue.jobs.zipIdx, ∃ backup target,
        job.1.backup = some backup ∧ backup.dir = dir ∧ outcome job = .changed (some target)
  /-- What has been saved for a changed file lies in one of the directories. -/
  saved : ∀ job ∈ queue.jobs.zipIdx, ∀ target, outcome job = .changed (some target) →
    ∃ dir ∈ result.summary.backupDirs,
      dir.components <+: target.components ∧ target.components ≠ dir.components
  off : settings.dryRun = true ∨ settings.backup = false → result.summary.backupDirs = []

/-- The backup directories are those of the jobs that have saved a content and changed a file. -/
theorem mem_usedBackups_zipIdx {dir : Path} :
    dir ∈ usedBackups jobs (jobs.zipIdx.map (reportOf outcome)) ↔
      ∃ job ∈ jobs.zipIdx, ∃ backup target,
        job.1.backup = some backup ∧ backup.dir = dir ∧ outcome job = .changed (some target) := by
  rw [mem_usedBackups_iff, zip_map_zipIdx]
  constructor
  · rintro ⟨job, report, backup, target, hmem, hbackup, houtcome, hdir⟩
    obtain ⟨numbered, hnumbered, heq⟩ := List.mem_map.1 hmem
    cases heq
    exact ⟨numbered, hnumbered, backup, target, hbackup, hdir, houtcome⟩
  · rintro ⟨job, hjob, backup, target, hbackup, hdir, houtcome⟩
    exact ⟨job.1, reportOf outcome job, backup, target, List.mem_map.2 ⟨job, hjob, rfl⟩, hbackup,
      houtcome, hdir⟩

/-- A run that goes through has had the turns of its jobs, and reports what they came to. -/
theorem exists_turns_of_runInOrder
    (horder : order.Perm queue.jobs.zipIdx)
    (hrun : runInOrder here settings queue order disk = (.done result, left)) :
    ∃ outcome, Turns here settings outcome order disk left ∧
      result = queue.result settings (queue.jobs.zipIdx.map (reportOf outcome)) := by
  unfold runInOrder at hrun
  split at hrun
  · cases hrun
  next reports left' hdone =>
  cases hrun
  obtain ⟨report, rfl⟩ := exists_eq_map (horder.nodup_iff.2 (nodup_zipIdx _))
    (by simpa using length_of_processAll hdone)
  obtain ⟨hturns, hreports⟩ := turns_of_processAll hdone
  refine ⟨_, hturns, ?_⟩
  rw [collect_map report horder,
    List.map_congr_left fun job hjob => hreports job (horder.mem_iff.2 hjob)]

section Runs

variable (htree : disk.IsTree) (hplan : plan disk here settings stamp = .ok queue)

include htree hplan

/-- Whatever a job saves at its turn is the content of a file that it changes or may not write. -/
theorem Turns.outcome_of_saves {front more : List (Job × Nat)} {job : Job × Nat} {turn : Disk}
    (hturns : Turns here settings outcome (front ++ job :: more) disk left)
    (hjobs : ∀ other ∈ front ++ job :: more, other.1 ∈ queue.jobs)
    (hfront : Turns here settings outcome front disk turn)
    (hsaves : Saves turn here settings job.1 target) :
    outcome job = .changed (some target) ∨
      (∃ failure, outcome job = .failed failure) ∧
        ∃ actual, disk.locate here job.1.path = .ok actual ∧ disk.isGuarded actual = true := by
  obtain ⟨next, hdone⟩ := hfront.exists_next hturns
  obtain ⟨hturn, hgrows⟩ := hfront.grows htree hplan
    (fun other hother => hjobs other (List.mem_append_left _ hother)) (.refl disk) htree
  obtain ⟨_, _, _, hqueued⟩ := exists_isQueued htree hplan (hjobs job (by simp))
  exact hqueued.outcome_of_saves hgrows hturn hsaves hdone

/-- Backup directories are told apart by their names. -/
theorem nodup_components_usedBackups :
    ((usedBackups queue.jobs (queue.jobs.zipIdx.map (reportOf outcome))).map
      Path.components).Nodup := by
  refine (nodup_usedBackups _ _).map_on fun dir hdir dir' hdir' hsame => ?_
  obtain ⟨job, hjob, backup, -, hbackup, rfl, -⟩ := mem_usedBackups_zipIdx.1 hdir
  obtain ⟨job', hjob', backup', -, hbackup', rfl, -⟩ := mem_usedBackups_zipIdx.1 hdir'
  obtain ⟨_, _, _, hqueued⟩ := exists_isQueued htree hplan (List.fst_mem_of_mem_zipIdx hjob)
  obtain ⟨_, _, _, hqueued'⟩ := exists_isQueued htree hplan (List.fst_mem_of_mem_zipIdx hjob')
  rw [hqueued.dir_eq hbackup, hqueued'.dir_eq hbackup'] at hsame ⊢
  rw [Location.eq_of_components_toPath (Backup.isSpelled_placeFor hqueued.spelled_base)
    (Backup.isSpelled_placeFor hqueued'.spelled_base) hsame]

/-- What a job has saved for the file that it changes lies below a directory of the summary. -/
theorem exists_dir_of_saved {job : Job × Nat}
    (hturns : Turns here settings outcome order disk left)
    (horder : order.Perm queue.jobs.zipIdx)
    (hjob : job ∈ queue.jobs.zipIdx) (hchanged : outcome job = .changed (some target)) :
    ∃ dir ∈ usedBackups queue.jobs (queue.jobs.zipIdx.map (reportOf outcome)),
      dir.components <+: target.components ∧ target.components ≠ dir.components := by
  obtain ⟨turn, next, hdone⟩ := hturns.exists_of_mem (horder.mem_iff.2 hjob)
  rw [hchanged] at hdone
  obtain ⟨backup, hbackup, htarget⟩ := exists_backup_of_changed hdone
  obtain ⟨_, _, _, hqueued⟩ := exists_isQueued htree hplan (List.fst_mem_of_mem_zipIdx hjob)
  exact ⟨backup.dir, mem_usedBackups_zipIdx.2 ⟨job, hjob, backup, target, hbackup, rfl, hchanged⟩,
    hqueued.dir_isPrefix_target hbackup htarget⟩

theorem usedBackups_eq_nil (hoff : settings.dryRun = true ∨ settings.backup = false) :
    usedBackups queue.jobs (queue.jobs.zipIdx.map (reportOf outcome)) = [] := by
  refine List.eq_nil_iff_forall_not_mem.2 fun dir hdir => ?_
  obtain ⟨job, hjob, backup, -, hbackup, -, -⟩ := mem_usedBackups_zipIdx.1 hdir
  obtain ⟨_, _, _, hqueued⟩ := exists_isQueued htree hplan (List.fst_mem_of_mem_zipIdx hjob)
  obtain ⟨-, hdry, hon⟩ := backupFor_eq_some (hqueued.backup.symm.trans hbackup)
  simp [hdry, hon] at hoff

theorem accounts_of_runInOrder
    (horder : order.Perm queue.jobs.zipIdx)
    (hrun : runInOrder here settings queue order disk = (.done result, left)) :
    ∃ outcome, Accounts disk here settings queue order outcome result left := by
  obtain ⟨outcome, hturns, rfl⟩ := exists_turns_of_runInOrder horder hrun
  have hjobs : ∀ job ∈ order, job.1 ∈ queue.jobs := fun job hjob =>
    List.fst_mem_of_mem_zipIdx (horder.mem_iff.1 hjob)
  refine ⟨outcome, {
    turns := hturns
    reports := rfl
    changed := ?_
    unchanged := ?_
    skipped := ?_
    failed := ?_
    total := ?_
    saves := ?_
    distinct := nodup_components_usedBackups htree hplan
    used := fun _ => mem_usedBackups_zipIdx
    saved := fun _ hjob _ => exists_dir_of_saved htree hplan hturns horder hjob
    off := usedBackups_eq_nil htree hplan }⟩
  · simp [Plan.result, Summary.recordAll_eq]
  · simp [Plan.result, Summary.recordAll_eq]
  · simp [Plan.result, Summary.recordAll_eq]
  · simp [Plan.result, Summary.recordAll_eq]
  · have hlists := Report.length_lists (queue.jobs.zipIdx.map (reportOf outcome))
    rw [List.length_map, List.length_zipIdx] at hlists
    simp only [Plan.result, Summary.recordAll_eq, List.length_append, List.nil_append]
    omega
  · rintro front job more turn target rfl hfront hsaves
    exact hturns.outcome_of_saves htree hplan hjobs hfront hsaves

end Runs

/--
The summary of a run accounts for every job of its plan once, in whatever order the jobs were
done, and its backup directories are those in which the run has saved the content of a file that
it changed.
-/
theorem run_accounts (htree : disk.IsTree) :
    (∀ result left, run disk here settings stamp = (.done result, left) →
      ∃ queue outcome, plan disk here settings stamp = .ok queue ∧
        Accounts disk here settings queue queue.jobs.zipIdx outcome result left) ∧
    ∀ queue order result left,
      plan disk here settings stamp = .ok queue →
      order.Perm queue.jobs.zipIdx →
      runInOrder here settings queue order disk = (.done result, left) →
      ∃ outcome, Accounts disk here settings queue order outcome result left := by
  refine ⟨fun result left hrun => ?_, fun queue order result left hplan horder hrun =>
    accounts_of_runInOrder htree hplan horder hrun⟩
  obtain ⟨queue, hplan⟩ := exists_plan_of_done hrun
  rw [run_eq_runInOrder hplan] at hrun
  obtain ⟨outcome, haccounts⟩ := accounts_of_runInOrder htree hplan .rfl hrun
  exact ⟨queue, outcome, hplan, haccounts⟩

/-- A root that is given twice, with a missing one in between. -/
theorem run_accounts_root_twice :
    let disk : Disk :=
      { entries :=
          [(["s"], .dir), (["s", "a.c"], .file (Bytes.ofString "a // x")),
           (["s", "b.c"], .file (Bytes.ofString "b"))] }
    let settings : Settings := { paths := [⟨["s"]⟩, ⟨["nowhere"]⟩, ⟨["s"]⟩] }
    ∃ queue outcome result left, run disk [] settings "T" = (.done result, left) ∧
      result.summary.changed = ["a.c"] ∧ result.summary.unchanged = ["b.c", "a.c", "b.c"] ∧
      result.summary.failed.map Remark.path = ["nowhere"] ∧
      result.summary.backupDirs = [⟨["", "s", "bak", "s_T"]⟩] ∧
      plan disk [] settings "T" = .ok queue ∧ queue.jobs.length = 4 ∧
      Accounts disk [] settings queue queue.jobs.zipIdx outcome result left := by
  intro disk settings
  let backup : Backup := .make ⟨["", "s"]⟩ "T"
  let first : Job := ⟨⟨["", "s", "a.c"]⟩, "a.c", .c, some backup⟩
  let second : Job := ⟨⟨["", "s", "b.c"]⟩, "b.c", .c, some backup⟩
  let queue : Plan :=
    ⟨[first, second, first, second], [⟨"nowhere", OsError.notFound.message⟩]⟩
  let result : Result := queue.result settings
    [⟨"a.c", some .c, .changed (some ⟨["", "s", "bak", "s_T", "a.c"]⟩)⟩,
      ⟨"b.c", some .c, .unchanged⟩, ⟨"a.c", some .c, .unchanged⟩, ⟨"b.c", some .c, .unchanged⟩]
  let left : Disk :=
    { entries :=
        [(["s"], .dir), (["s", "a.c"], .file (Bytes.ofString "a")),
         (["s", "b.c"], .file (Bytes.ofString "b")), (["s", "bak"], .dir),
         (["s", "bak", "s_T"], .dir),
         (["s", "bak", "s_T", "a.c"], .file (Bytes.ofString "a // x"))] }
  have hplan : plan disk [] settings "T" = .ok queue := by decide +kernel
  have hrun : run disk [] settings "T" = (.done result, left) := by decide +kernel
  have htree : disk.IsTree := by decide +kernel
  obtain ⟨queue', outcome, hplan', haccounts⟩ := (run_accounts htree).1 result left hrun
  obtain rfl := Except.ok.inj (hplan.symm.trans hplan')
  exact ⟨queue, outcome, result, left, hrun, rfl, rfl, rfl, rfl, hplan, rfl, haccounts⟩

/-- What is saved for a file that may not be written is in no directory of the summary. -/
example :
    let text := Bytes.ofString "a // x"
    let disk : Disk := { entries := [(["a.c"], .file text)], guarded := [["a.c"]] }
    let failure : Failure := ⟨["Failed to write /a.c"], OsError.permissionDenied.message⟩
    run disk [] {} "T" =
      (.done ⟨[⟨"a.c", some .c, .failed failure⟩],
          { failed := [⟨"a.c", failure.message⟩], backupDirs := [] }⟩,
        { disk with
          entries :=
            [(["a.c"], .file text), (["bak"], .dir), (["bak", "root_T"], .dir),
             (["bak", "root_T", "a.c"], .file text)] }) := by
  decide +kernel

end Run
end Uncomment

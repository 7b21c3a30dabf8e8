import Uncomment.Proofs.Run.Places
import Uncomment.Proofs.Run.Schedule

/-!
# Originals are kept

A file may be queued more than once, since roots may repeat or lie in one another, links may
lead to it by several paths, and it may have several names.  The job that changes it first saves
the content that it had before the run.  That copy is lost only if a later job saves to the same
place what the first one has left, which takes two jobs of one path with one backup directory,
and a text that changes again when it is stripped again.

`originals_kept` says that nothing else can get in the way, whatever the order of the jobs,
and `original_lost_when_queued_twice` that this does happen.
-/

namespace Uncomment
namespace Run

/--
What any of the jobs that lead to the file of a job makes of its content, all of them leave
alone.
-/
def Plan.Settled (disk : Disk) (here : Location) (queue : Plan) (job : Job) : Prop :=
  ∀ content, disk.read here job.path = .ok content →
    ∀ first ∈ queue.jobs, disk.NameOneFile here first.path job.path →
      ∀ second ∈ queue.jobs, disk.NameOneFile here second.path job.path →
        ∀ stripped, strip first.language content = .ok stripped →
          strip second.language stripped = .ok stripped

instance (disk : Disk) (here : Location) (queue : Plan) (job : Job) :
    Decidable (queue.Settled disk here job) :=
  inferInstanceAs (Decidable (∀ content, disk.read here job.path = .ok content → _))

theorem Plan.Settled.of_path_eq {disk : Disk} {here : Location} {queue : Plan} {job other : Job}
    (h : queue.Settled disk here job) (hpath : job.path = other.path) :
    queue.Settled disk here other := by
  unfold Settled at h ⊢
  rwa [← hpath]

/-- Files that are queued twice for one backup directory are done with after one job. -/
def Plan.RepeatsSettle (disk : Disk) (here : Location) (queue : Plan) : Prop :=
  queue.jobs.Pairwise fun job other =>
    job.path = other.path → job.backup = other.backup → queue.Settled disk here job

instance (disk : Disk) (here : Location) (queue : Plan) :
    Decidable (queue.RepeatsSettle disk here) :=
  inferInstanceAs (Decidable (queue.jobs.Pairwise _))

/--
The content of the file at `actual` stands at `place`, and if the file is done with after one
job, it holds what the job made of it.
-/
structure Kept
    (disk : Disk)
    (here : Location)
    (queue : Plan)
    (first : Job)
    (place actual : Location)
    (content : Bytes)
    (now : Disk) : Prop where
  saved : now.get? place = some (.file content)
  settled : queue.Settled disk here first →
    ∃ stripped, strip first.language content = .ok stripped ∧
      now.get? actual = some (.file stripped)

section Kept

variable {disk now left : Disk} {here : Location} {settings : Settings} {stamp : String}
  {queue : Plan} {job first : Job} {base rest actual base' rest' actual' : Location}
  {content : Bytes} {outcome : Outcome} {jobs : List Job} {reports : List Report}
  {dir dir' : Backup}
  (htree : disk.IsTree)
  (hplain : disk.PlainBackups)
  (hplan : plan disk here settings stamp = .ok queue)
  (hapart : queue.Apart disk here)

include htree hplain hplan hapart

section Saved

variable
  (hqueued : IsQueued disk here settings stamp first base rest actual)
  (hfirst : first ∈ queue.jobs)
  (hread : disk.read here first.path = .ok content)
  (hdir : first.backup = some dir)

include hqueued hfirst hread hdir

/-- What was kept is kept when another job is done. -/
theorem Kept.processFile
    (hkept : Kept disk here queue first (Backup.placeFor base stamp ++ rest) actual content now)
    (hjob : job ∈ queue.jobs) (hdir' : job.backup = some dir')
    (hrepeat : first.path = job.path → first.backup = job.backup →
      queue.Settled disk here first)
    (hgrows : disk.Grows now) (hnow : now.IsTree)
    (h : processFile now here settings job.path job.language job.backup = .ok (outcome, left)) :
    Kept disk here queue first (Backup.placeFor base stamp ++ rest) actual content left := by
  obtain ⟨base', rest', actual', hqueued'⟩ := exists_isQueued htree hplan hjob
  obtain ⟨hreject, -⟩ := (hqueued.read_eq_ok_iff (.refl disk)).1 hread
  obtain ⟨hdoes, -, -⟩ := hqueued'.does htree hplain hgrows hnow h
  have hother {content' stripped' : Bytes}
      (hread' : now.read here job.path = .ok content')
      (hstrip' : strip job.language content' = .ok stripped') (hsame : stripped' ≠ content')
      (hdone : queue.Settled disk here first) : ¬now.SameFile actual' actual := by
    intro hone
    obtain ⟨hreject', hget'⟩ := (hqueued'.read_eq_ok_iff hgrows).1 hread'
    obtain ⟨stripped, hstrip, hget⟩ := hkept.settled hdone
    obtain rfl : content' = stripped := by
      rw [← hnow.get?_eq_of_sameFile hone, hget] at hget'
      cases hget'
      rfl
    have hlocate := hqueued.locate_eq hreject
    have hagain := hdone content hread first hfirst
      ((Disk.nameOneFile_iff hlocate hlocate).2 (.refl disk actual)) job hjob
      ((Disk.nameOneFile_iff (hqueued'.locate_eq hreject') hlocate).2 (hgrows.sameFile_iff.1 hone))
      content' hstrip
    rw [hagain] at hstrip'
    exact hsame (Except.ok.inj hstrip').symm
  constructor
  · refine hdoes.get?_file hkept.saved fun content' stripped' hread' hstrip' hsame => ?_
    have hreject' := ((hqueued'.read_eq_ok_iff hgrows).1 hread').1
    refine ⟨fun hone => ?_, fun _ hone => ?_⟩
    · exact hqueued'.not_sameFile_place hapart.outside hjob hreject' hfirst hdir hqueued
        (hgrows.sameFile_iff.1 hone.symm)
    · -- two jobs that save to one place have one path and one backup directory
      have heq := hapart.eq_of_sameFile (hqueued'.inBackup_place hjob hdir')
        (hqueued.inBackup_place hfirst hdir) (hgrows.sameFile_iff.1 hone)
      obtain ⟨rfl, -⟩ := hqueued.of_place_isPrefix htree hplain hapart.outside hfirst hreject hdir
        hqueued' hjob hreject' hdir' ⟨[], by rw [List.append_nil, heq]⟩
      obtain rfl := List.append_cancel_left heq
      exact hother hread' hstrip' hsame
        (hrepeat (hqueued.path.trans hqueued'.path.symm)
          (hqueued.backup.trans hqueued'.backup.symm))
        (.inl (hqueued'.leads.unique hqueued.leads))
  · intro hdone
    obtain ⟨stripped, hstrip, hget⟩ := hkept.settled hdone
    refine ⟨stripped, hstrip, hdoes.get?_file hget
      fun content' stripped' hread' hstrip' hsame => ?_⟩
    refine ⟨hother hread' hstrip' hsame hdone, fun _ hone => ?_⟩
    exact hqueued.not_sameFile_place hapart.outside hfirst hreject hjob hdir' hqueued'
      (hgrows.sameFile_iff.1 hone)

/-- What was kept is kept to the end. -/
theorem Kept.processAll
    (hkept : Kept disk here queue first (Backup.placeFor base stamp ++ rest) actual content now)
    (hjobs : ∀ job ∈ jobs, job ∈ queue.jobs ∧ (∃ dir', job.backup = some dir') ∧
      (first.path = job.path → first.backup = job.backup → queue.Settled disk here first))
    (hgrows : disk.Grows now) (hnow : now.IsTree)
    (h : processAll here settings jobs now = (.ok reports, left)) :
    Kept disk here queue first (Backup.placeFor base stamp ++ rest) actual content left := by
  induction jobs generalizing now reports with
  | nil =>
      cases h
      exact hkept
  | cons job more ih =>
      obtain ⟨outcome, next, _, hdone, hmore, -⟩ := exists_of_processAll_cons h
      obtain ⟨hjob, ⟨dir', hdir'⟩, hrepeat⟩ := hjobs job (by simp)
      obtain ⟨_, _, _, hqueued'⟩ := exists_isQueued htree hplan hjob
      obtain ⟨-, hnext, hgrown⟩ := hqueued'.does htree hplain hgrows hnow hdone
      exact ih
        (hkept.processFile htree hplain hplan hapart hqueued hfirst hread hdir hjob hdir' hrepeat
          hgrows hnow hdone)
        (fun other hother => hjobs other (by simp [hother])) (hgrows.trans hgrown) hnext hmore

end Saved

omit hplan in
/-- A job that changes a file for the first time keeps its content. -/
theorem kept_of_processFile
    (hjob : job ∈ queue.jobs) (hdir : job.backup = some dir)
    (hqueued : IsQueued disk here settings stamp job base rest actual')
    {target : Job} (htarget : target ∈ queue.jobs)
    (hqueued' : IsQueued disk here settings stamp target base' rest' actual)
    (hread : disk.read here target.path = .ok content)
    (hget : now.get? actual = some (.file content))
    (hgrows : disk.Grows now) (hnow : now.IsTree)
    (h : processFile now here settings job.path job.language job.backup = .ok (outcome, left)) :
    left.get? actual = some (.file content) ∨
      (∃ path, outcome = .changed (some path)) ∧ disk.read here job.path = .ok content ∧
        Kept disk here queue job (Backup.placeFor base stamp ++ rest) actual' content left := by
  obtain ⟨hreject, hfile⟩ := (hqueued'.read_eq_ok_iff (.refl disk)).1 hread
  have hplace : ¬disk.SameFile (Backup.placeFor base stamp ++ rest) actual :=
    hqueued'.not_sameFile_place hapart.outside htarget hreject hjob hdir hqueued
  obtain ⟨hdoes, -, -⟩ := hqueued.does htree hplain hgrows hnow h
  by_cases hone : disk.SameFile actual' actual
  · have hplace' : ¬disk.SameFile actual' (Backup.placeFor base stamp ++ rest) := fun hother =>
      hplace (hother.symm.trans hone)
    cases hdoes with
    | nothing _ hadds => exact .inl (hadds.get?_file.2 hget)
    | saved _ _ _ _ hadds =>
        refine .inl ?_
        rw [Disk.get?_store_of_not_sameFile
          (mt (hgrows.trans hadds.grows).sameFile_iff.1 hplace)]
        exact hadds.get?_file.2 hget
    | overwritten hnone => simp [hdir] at hnone
    | @replaced ready content' stripped _ hread' hstrip _ hadds =>
        have hready := (hgrows.trans hadds.grows)
        obtain ⟨hreject', hget'⟩ := (hqueued.read_eq_ok_iff hgrows).1 hread'
        obtain rfl : content' = content := by
          rw [← hnow.get?_eq_of_sameFile (hgrows.sameFile_iff.2 hone), hget] at hget'
          cases hget'
          rfl
        have hfile' : disk.get? actual' = some (.file content') :=
          (htree.get?_eq_of_sameFile hone).symm.trans hfile
        refine .inr ⟨⟨_, rfl⟩, (hqueued.read_eq_ok_iff (.refl disk)).2 ⟨hreject', hfile'⟩, ?_, ?_⟩
        · rw [Disk.get?_store_of_not_sameFile
              (by rwa [Disk.sameFile_store, hready.sameFile_iff]),
            Disk.get?_store_self (by simp [Backup.placeFor])]
        · intro _
          exact ⟨stripped, hstrip, Disk.get?_store_self (Disk.ne_nil_of_get? hfile' (by simp)) _⟩
  · exact .inl (hdoes.get?_file hget fun _ _ _ _ _ =>
      ⟨mt hgrows.sameFile_iff.1 hone, fun _ => mt hgrows.sameFile_iff.1 hplace⟩)

/-- One of the jobs keeps the content of a file, or the file still has it at the end. -/
theorem kept_of_processAll
    (hjobs : ∀ job ∈ jobs, job ∈ queue.jobs ∧ ∃ dir, job.backup = some dir)
    (hrepeat : jobs.Pairwise fun job other =>
      job.path = other.path → job.backup = other.backup → queue.Settled disk here job)
    {target : Job} (htarget : target ∈ queue.jobs)
    (hqueued' : IsQueued disk here settings stamp target base' rest' actual)
    (hread : disk.read here target.path = .ok content)
    (hget : now.get? actual = some (.file content))
    (hgrows : disk.Grows now) (hnow : now.IsTree)
    (h : processAll here settings jobs now = (.ok reports, left)) :
    left.get? actual = some (.file content) ∨
      ∃ first report path dir place,
        (first, report) ∈ jobs.zip reports ∧ first.backup = some dir ∧
          report.outcome = .changed (some path) ∧ (place.toPath.stripPrefix? dir.dir).isSome ∧
            left.get? place = some (.file content) := by
  induction jobs generalizing now reports with
  | nil =>
      cases h
      exact .inl hget
  | cons job more ih =>
      obtain ⟨outcome, next, moreReports, hdone, hmore, rfl⟩ := exists_of_processAll_cons h
      obtain ⟨hjob, dir, hdir⟩ := hjobs job (by simp)
      have hjobsMore : ∀ other ∈ more, other ∈ queue.jobs ∧ ∃ dir, other.backup = some dir :=
        fun other hother => hjobs other (by simp [hother])
      obtain ⟨hfirst, hrepeatMore⟩ := List.pairwise_cons.1 hrepeat
      obtain ⟨base, rest, actual', hqueued⟩ := exists_isQueued htree hplan hjob
      obtain ⟨-, hnext, hgrown⟩ := hqueued.does htree hplain hgrows hnow hdone
      rcases kept_of_processFile htree hplain hapart hjob hdir hqueued htarget hqueued'
        hread hget hgrows hnow hdone with hstill | ⟨⟨path, rfl⟩, hreadJob, hkept⟩
      · rcases ih hjobsMore hrepeatMore hstill (hgrows.trans hgrown) hnext hmore with
          hend | ⟨first, report, path, dir, place, hmem, hrest⟩
        · exact .inl hend
        · exact .inr ⟨first, report, path, dir, place, by simp [hmem], hrest⟩
      · have hend := hkept.processAll htree hplain hplan hapart hqueued hjob hreadJob hdir
          (fun other hother => ⟨(hjobsMore other hother).1, (hjobsMore other hother).2,
            hfirst other hother⟩) (hgrows.trans hgrown) hnext hmore
        refine .inr ⟨job, _, path, dir, _, List.mem_cons_self, hdir, rfl, ?_, hend.saved⟩
        rw [hqueued.dir_eq hdir]
        exact (Location.isSome_stripPrefix?_toPath hqueued.spelled_place
          (Backup.isSpelled_placeFor hqueued.spelled_base)).2 (List.prefix_append _ rest)

end Kept

/--
Whatever the order of the jobs, the content of a file that a run changes stands in one of the
backup directories of its summary afterwards, provided that no queued file has a name in these
directories, that no file has two names there, and that files queued twice for one of them are
done with after one job.
-/
theorem originals_kept
    {disk left : Disk} {here : Location} {settings : Settings} {stamp : String} {queue : Plan}
    {order : List (Job × Nat)} {result : Result}
    (htree : disk.IsTree)
    (hplain : disk.PlainBackups)
    (hwrites : settings.dryRun = false)
    (hbackup : settings.backup = true)
    (hplan : plan disk here settings stamp = .ok queue)
    (hapart : queue.Apart disk here)
    (hrepeat : queue.RepeatsSettle disk here)
    (horder : order.Perm queue.jobs.zipIdx)
    (hrun : runInOrder here settings queue order disk = (.done result, left)) :
    ∀ job ∈ queue.jobs, ∀ content,
      disk.read here job.path = .ok content →
      left.read here job.path ≠ .ok content →
      ∃ dir ∈ result.summary.backupDirs, ∃ place : Location,
        (place.toPath.stripPrefix? dir).isSome ∧ left.get? place = some (.file content) := by
  intro job hjob content hread hchanged
  have hperm := perm_of_perm_zipIdx horder
  have hjobs : ∀ job ∈ order.map Prod.fst, job ∈ queue.jobs ∧ ∃ dir, job.backup = some dir := by
    intro job hjob
    have hmem := hperm.mem_iff.1 hjob
    obtain ⟨base, _, _, hqueued⟩ := exists_isQueued htree hplan hmem
    exact ⟨hmem, _, by rw [hqueued.backup, backupFor, hwrites, hbackup]; rfl⟩
  have hpairwise := (hperm.pairwise_iff fun {job other} h hpath hsame =>
    (h hpath.symm hsame.symm).of_path_eq hpath.symm).2 hrepeat
  obtain ⟨base, rest, actual, hqueued⟩ := exists_isQueued htree hplan hjob
  obtain ⟨hreject, hget⟩ := (hqueued.read_eq_ok_iff (.refl disk)).1 hread
  have hgrown := (grows_of_processAll htree hplan (fun job hjob => (hjobs job hjob).1)
    (.refl disk) htree).2
  unfold runInOrder at hrun
  split at hrun
  · cases hrun
  next reports left' hdone =>
  cases hrun
  rw [hdone] at hgrown
  rcases kept_of_processAll htree hplain hplan hapart hjobs hpairwise hjob hqueued hread hget
    (.refl disk) htree hdone with hend | ⟨first, report, path, dir, place, hmem, hdir, houtcome, h⟩
  · exact absurd ((hqueued.read_eq_ok_iff hgrown).2 ⟨hreject, hend⟩) hchanged
  · have hlength : reports.length = order.length := by
      rw [length_of_processAll hdone, List.length_map]
    exact ⟨dir.dir, mem_usedBackups_iff.2 ⟨first, report, dir, path,
      mem_zip_collect horder hlength hmem, hdir, houtcome, rfl⟩, place, h⟩

/-- A file under two nested roots, its jobs being done in the opposite order. -/
theorem originals_kept_nested_roots :
    let text := Bytes.ofString "b // y"
    let disk : Disk := { entries := [(["s"], .dir), (["s", "b.c"], .file text)] }
    let settings : Settings := { paths := [⟨["."]⟩, ⟨["s"]⟩] }
    ∃ queue result left, plan disk [] settings "T" = .ok queue ∧ queue.jobs.length = 2 ∧
      runInOrder [] settings queue queue.jobs.zipIdx.reverse disk = (.done result, left) ∧
        ∃ dir ∈ result.summary.backupDirs, ∃ place : Location,
          (place.toPath.stripPrefix? dir).isSome ∧ left.get? place = some (.file text) := by
  intro text disk settings
  let path : Path := ⟨["", "s", "b.c"]⟩
  let queue : Plan :=
    ⟨[⟨path, "s/b.c", .c, some (.make ⟨["", ""]⟩ "T")⟩,
      ⟨path, "b.c", .c, some (.make ⟨["", "s"]⟩ "T")⟩], []⟩
  let reports : List Report :=
    [⟨"s/b.c", some .c, .unchanged⟩,
      ⟨"b.c", some .c, .changed (some ⟨["", "s", "bak", "s_T", "b.c"]⟩)⟩]
  let left : Disk :=
    { entries :=
        [(["s"], .dir), (["s", "b.c"], .file (Bytes.ofString "b")), (["s", "bak"], .dir),
         (["s", "bak", "s_T"], .dir), (["s", "bak", "s_T", "b.c"], .file text)] }
  have hplan : plan disk [] settings "T" = .ok queue := by decide +kernel
  have hrun : runInOrder [] settings queue queue.jobs.zipIdx.reverse disk =
      (.done (queue.result settings reports), left) := by decide +kernel
  exact ⟨queue, queue.result settings reports, left, hplan, rfl, hrun,
    originals_kept (by decide +kernel) (by decide +kernel) rfl rfl hplan (by decide +kernel)
      (by decide +kernel) (List.reverse_perm _) hrun
      ⟨path, "s/b.c", .c, some (.make ⟨["", ""]⟩ "T")⟩
      (by decide +kernel) text (by decide +kernel) (by decide +kernel)⟩

/--
A root that is given twice loses the original: the second job strips the file again and saves
what the first one left over the copy that the first one made.
-/
theorem original_lost_when_queued_twice :
    let disk : Disk := { entries := [(["a.c"], .file (Bytes.ofString "if (x) y; /* c */ // z"))] }
    let settings : Settings := { paths := [⟨["."]⟩, ⟨["."]⟩] }
    let job : Report := ⟨"a.c", some .c, .changed (some ⟨["", "bak", "root_T", "a.c"]⟩)⟩
    ∃ queue, plan disk [] settings "T" = .ok queue ∧ queue.Apart disk [] ∧
      run disk [] settings "T" =
        (.done (queue.result settings [job, job]),
          { entries :=
              [(["a.c"], .file (Bytes.ofString "if (x) y;")), (["bak"], .dir),
               (["bak", "root_T"], .dir),
               (["bak", "root_T", "a.c"], .file (Bytes.ofString "if (x) y;  // z"))] }) := by
  intro disk settings job
  let queued : Job := ⟨⟨["", "a.c"]⟩, "a.c", .c, some (.make ⟨["", ""]⟩ "T")⟩
  exact ⟨⟨[queued, queued], []⟩, by decide +kernel, by decide +kernel, by decide +kernel⟩

/-- Links that bring the backups of two roots of one name together lose an original too. -/
example :
    let disk : Disk :=
      { entries :=
          [(["a"], .dir), (["a", "s"], .dir), (["a", "s", "bak"], .link ⟨["", "kept"]⟩),
           (["a", "s", "c.c"], .file (Bytes.ofString "a // x")), (["b"], .dir), (["b", "s"], .dir),
           (["b", "s", "bak"], .link ⟨["", "kept"]⟩),
           (["b", "s", "c.c"], .file (Bytes.ofString "b // y")), (["kept"], .dir)] }
    let left := (run disk [] { paths := [⟨["a", "s"]⟩, ⟨["b", "s"]⟩] } "T").2
    left.get? ["a", "s", "c.c"] = some (.file (Bytes.ofString "a")) ∧
      left.get? ["kept", "s_T", "c.c"] = some (.file (Bytes.ofString "b // y")) := by
  decide +kernel

/-- So does a root that lies in a backup directory of the run. -/
example :
    let disk : Disk :=
      { entries :=
          [(["a.c"], .file (Bytes.ofString "a // x")), (["bak"], .dir), (["bak", "root_T"], .dir),
           (["bak", "root_T", "a.c"], .file (Bytes.ofString "b // y"))] }
    let left := (run disk [] { paths := [⟨["."]⟩, ⟨["bak", "root_T"]⟩] } "T").2
    left.get? ["bak", "root_T", "a.c"] = some (.file (Bytes.ofString "a")) ∧
      left.get? ["bak", "root_T", "bak", "root_T_T", "a.c"] =
        some (.file (Bytes.ofString "a // x")) := by
  decide +kernel

/-- A second name in a backup directory of the run does not keep the content either. -/
example :
    let text := Bytes.ofString "a // x"
    let disk : Disk :=
      { entries :=
          [(["a.c"], .file text), (["bak"], .dir), (["bak", "root_T"], .dir),
           (["bak", "root_T", "a.c"], .file text)]
        numbers := [(["a.c"], 0), (["bak", "root_T", "a.c"], 0)] }
    let left := (run disk [] {} "T").2
    disk.IsTree ∧ left.get? ["a.c"] = some (.file (Bytes.ofString "a")) ∧
      left.get? ["bak", "root_T", "a.c"] = some (.file (Bytes.ofString "a")) := by
  decide +kernel

end Run
end Uncomment

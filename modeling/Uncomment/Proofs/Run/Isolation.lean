import Uncomment.CommandLine
import Uncomment.Proofs.Run.Recording
import Uncomment.Proofs.Run.Refusal
import Uncomment.Proofs.Run.Schedule

/-!
# Failures stay by themselves

What goes wrong in a run either stops it before it has started, or is recorded and leaves
everything else as it is.  A run that is refused has written nothing (`run_refused_iff`).
A root that cannot be found has no jobs and one failure (`planRoot_of_missing`), so more
such roots add their failures to the summary and change nothing else
(`adds_of_runInOrder`).

`failures_isolated` puts this together and says when the program ends with exit code one.
Roots are not looked at beside a single file: `missing_root_unseen`.
-/

namespace Uncomment

/-- The items of a list in their order, with added ones between them. -/
inductive Interleaves {α : Type} : List α → List α → List α → Prop
  | nil :
      Interleaves [] [] []
  | add {a : α} {added items all : List α} :
      Interleaves added items all →
      Interleaves (a :: added) items (a :: all)
  | keep {a : α} {added items all : List α} :
      Interleaves added items all →
      Interleaves added (a :: items) (a :: all)

namespace Interleaves

variable {α : Type} {added items all : List α}

theorem append_left (h : Interleaves added items all) (front : List α) :
    Interleaves added (front ++ items) (front ++ all) := by
  induction front with
  | nil => exact h
  | cons a front ih => exact .keep ih

theorem append_right (h : Interleaves added items all) (back : List α) :
    Interleaves added (items ++ back) (all ++ back) := by
  induction h with
  | nil => simpa using append_left .nil back
  | add _ ih => exact .add ih
  | keep _ ih => exact .keep ih

theorem length_eq (h : Interleaves added items all) :
    all.length = added.length + items.length := by
  induction h with
  | nil => rfl
  | add _ ih | keep _ ih =>
      simp only [List.length_cons]
      omega

end Interleaves

namespace Run

variable {disk left : Disk} {here : Location} {settings : Settings} {stamp : String}
  {missing paths : List Path} {added : List Remark} {excludes : List Pattern} {queue : Plan}
  {order : List (Job × Nat)} {result : Result}

/-- A root that cannot be found, with what is recorded of it. -/
def Missing (disk : Disk) (here : Location) (root : Path) (remark : Remark) : Prop :=
  ∃ e, disk.locate here root = .error e ∧ remark = ⟨root.toString, e.message⟩

/-- Roots that cannot be found, put between the roots of a run. -/
structure AddsMissing (disk : Disk) (here : Location) (settings : Settings)
    (missing paths : List Path) : Prop where
  /-- The run has roots and no single file. -/
  file_eq : settings.file = none
  interleaves : Interleaves missing settings.paths paths
  locate_fails : ∀ root ∈ missing, ∃ e, disk.locate here root = .error e

/-- A result that differs from another one by some more failures. -/
structure Result.Adds (added : List Remark) (before after : Result) : Prop where
  reports : after.reports = before.reports
  changed : after.summary.changed = before.summary.changed
  unchanged : after.summary.unchanged = before.summary.unchanged
  skipped : after.summary.skipped = before.summary.skipped
  backupDirs : after.summary.backupDirs = before.summary.backupDirs
  failed : Interleaves added before.summary.failed after.summary.failed

theorem planRoot_of_missing {root : Path} {remark : Remark} (h : Missing disk here root remark) :
    planRoot disk here settings stamp excludes root = ⟨[], [remark]⟩ := by
  obtain ⟨e, hlocate, rfl⟩ := h
  rw [planRoot, hlocate]

/-- Roots that cannot be found add no jobs, and their failures. -/
theorem planRoots_of_missing (h : Interleaves missing settings.paths paths)
    (hmissing : List.Forall₂ (Missing disk here) missing added) :
    let parts := settings.paths.map (planRoot disk here settings stamp excludes)
    let parts' := paths.map (planRoot disk here settings stamp excludes)
    parts'.flatMap Plan.jobs = parts.flatMap Plan.jobs ∧
      Interleaves added (parts.flatMap Plan.failures) (parts'.flatMap Plan.failures) := by
  dsimp only
  generalize settings.paths = roots at h
  induction h generalizing added with
  | nil =>
      cases hmissing
      exact ⟨rfl, .nil⟩
  | add _ ih =>
      cases hmissing with
      | cons hroot hmissing =>
          obtain ⟨hjobs, hfailures⟩ := ih hmissing
          rw [List.map_cons, List.flatMap_cons, List.flatMap_cons, planRoot_of_missing hroot]
          exact ⟨hjobs, .add hfailures⟩
  | keep _ ih =>
      obtain ⟨hjobs, hfailures⟩ := ih hmissing
      simp only [List.map_cons, List.flatMap_cons, hjobs, true_and]
      exact hfailures.append_left _

/-- With roots that cannot be found a plan has the same jobs, and their failures. -/
theorem exists_plan_of_missing (h : AddsMissing disk here settings missing paths)
    (hmissing : List.Forall₂ (Missing disk here) missing added)
    (hplan : plan disk here settings stamp = .ok queue) :
    ∃ queue', plan disk here { settings with paths := paths } stamp = .ok queue' ∧
      queue'.jobs = queue.jobs ∧ Interleaves added queue.failures queue'.failures := by
  unfold plan at hplan ⊢
  dsimp only
  rw [h.file_eq] at hplan ⊢
  dsimp only at hplan ⊢
  cases hexcludes : excludePatterns settings.excludes with
  | error refusal =>
      rw [hexcludes] at hplan
      cases hplan
  | ok excludes =>
      rw [hexcludes] at hplan
      cases hplan
      obtain ⟨hjobs, hfailures⟩ :=
        @planRoots_of_missing disk here settings stamp missing paths added excludes h.interleaves
          hmissing
      exact ⟨_, rfl, hjobs, hfailures⟩

/-- Jobs are processed without a look at the roots. -/
theorem processAll_paths (here : Location) (settings : Settings) (paths : List Path)
    (jobs : List Job) (disk : Disk) :
    processAll here { settings with paths := paths } jobs disk =
      processAll here settings jobs disk := by
  induction jobs generalizing disk with
  | nil => rfl
  | cons job jobs ih =>
      have hjob : processFile disk here { settings with paths := paths } job.path job.language
          job.backup = processFile disk here settings job.path job.language job.backup := rfl
      simp only [processAll, hjob, ih]

theorem run_paths_of_file {file : Path} (hfile : settings.file = some file) (paths : List Path) :
    run disk here { settings with paths := paths } stamp = run disk here settings stamp := by
  have hplan : plan disk here { settings with paths := paths } stamp =
      plan disk here settings stamp := by
    unfold plan
    dsimp only
    rw [hfile]
    rfl
  unfold run
  rw [hplan]
  simp only [processAll_paths]
  rfl

/-- More failures in the plan are more failures in the summary. -/
theorem adds_of_runInOrder {queue' : Plan}
    (hjobs : queue'.jobs = queue.jobs)
    (hfailures : Interleaves added queue.failures queue'.failures)
    (hrun : runInOrder here settings queue order disk = (.done result, left)) :
    ∃ result',
      runInOrder here { settings with paths := paths } queue' order disk = (.done result', left) ∧
        result.Adds added result' := by
  unfold runInOrder at hrun ⊢
  rw [processAll_paths, hjobs]
  cases hdone : processAll here settings (order.map Prod.fst) disk with
  | mk reports left' =>
      rw [hdone] at hrun
      cases reports with
      | error fault => cases hrun
      | ok reports =>
          cases hrun
          refine ⟨_, rfl, ?_⟩
          simp only [Plan.result, Summary.recordAll_eq, hjobs]
          exact ⟨rfl, rfl, rfl, rfl, rfl, hfailures.append_right _⟩

/-- The program ends with exit code one if the run is refused or something failed in it. -/
theorem exit_eq_one_iff (settings : Settings) (colours : Bool) (ending : Ending) :
    (CommandLine.respond settings colours ending).exit = 1 ↔
      (∃ refusal, ending = .refused refusal) ∨
        ∃ result, ending = .done result ∧ result.summary.failed ≠ [] := by
  cases ending with
  | refused refusal => simp [CommandLine.respond]
  | broken fault => simp [CommandLine.respond]
  | done result =>
      rw [CommandLine.respond]
      cases hfailed : result.summary.failed <;> simp [Summary.hasFailures, hfailed]

/--
A run is refused if its single file cannot be used or an exclude pattern is unusable, and
then it leaves the disk as it is.  Roots do not matter beside a single file.  Otherwise
roots that cannot be found, put anywhere between the roots of a run that goes through, in
whatever order its jobs are done, change neither the disk nor the other lists of the
summary, and add one failure each.  The program ends with exit code one if its run is
refused or something failed in it.
-/
theorem failures_isolated (disk : Disk) (here : Location) (settings : Settings) (stamp : String) :
    ((∃ refusal left, run disk here settings stamp = (.refused refusal, left)) ↔
        Refusable disk here settings) ∧
    (∀ refusal left, run disk here settings stamp = (.refused refusal, left) → left = disk) ∧
    (∀ file paths, settings.file = some file →
      run disk here { settings with paths := paths } stamp = run disk here settings stamp) ∧
    (∀ missing paths, AddsMissing disk here settings missing paths →
      ∃ added, List.Forall₂ (Missing disk here) missing added ∧
        (∀ result left, run disk here settings stamp = (.done result, left) →
          ∃ result', run disk here { settings with paths := paths } stamp = (.done result', left) ∧
            result.Adds added result') ∧
        ∀ queue order result left,
          plan disk here settings stamp = .ok queue →
          order.Perm queue.jobs.zipIdx →
          runInOrder here settings queue order disk = (.done result, left) →
          ∃ queue' result',
            plan disk here { settings with paths := paths } stamp = .ok queue' ∧
              order.Perm queue'.jobs.zipIdx ∧
              runInOrder here { settings with paths := paths } queue' order disk =
                (.done result', left) ∧
              result.Adds added result') ∧
    (∀ arguments colours, CommandLine.read arguments = .ok (.run settings) →
      ((CommandLine.execute disk here colours stamp arguments).1.exit = 1 ↔
        (∃ refusal, (run disk here settings stamp).1 = .refused refusal) ∨
          ∃ result, (run disk here settings stamp).1 = .done result ∧
            result.summary.failed ≠ [])) := by
  obtain ⟨hrefused, hunchanged⟩ := @run_refused_iff disk here settings stamp
  refine ⟨hrefused, hunchanged, fun file paths hfile => ?_, fun missing paths hadds => ?_,
    fun arguments colours hread => ?_⟩
  · exact run_paths_of_file hfile paths
  · obtain ⟨added, hmissing⟩ : ∃ added, List.Forall₂ (Missing disk here) missing added := by
      refine exists_forall₂ fun root hroot => ?_
      obtain ⟨e, hlocate⟩ := hadds.locate_fails root hroot
      exact ⟨_, e, hlocate, rfl⟩
    refine ⟨added, hmissing, fun result left hrun => ?_,
      fun queue order result left hplan horder hrun => ?_⟩
    · obtain ⟨queue, hplan⟩ := exists_plan_of_done hrun
      obtain ⟨queue', hplan', hjobs, hfailures⟩ := exists_plan_of_missing hadds hmissing hplan
      rw [run_eq_runInOrder hplan] at hrun
      rw [run_eq_runInOrder hplan', hjobs]
      exact adds_of_runInOrder hjobs hfailures hrun
    · obtain ⟨queue', hplan', hjobs, hfailures⟩ := exists_plan_of_missing hadds hmissing hplan
      obtain ⟨result', hrun', hresult⟩ := adds_of_runInOrder hjobs hfailures hrun
      exact ⟨queue', result', hplan', hjobs ▸ horder, hrun', hresult⟩
  · rw [CommandLine.execute, hread]
    exact exit_eq_one_iff settings colours _

/-- Two missing roots around the working directory, and an exclude pattern without an end. -/
theorem failures_isolated_two_missing :
    let disk : Disk := { entries := [(["a.c"], .file (Bytes.ofString "a // x"))] }
    let paths : List Path := [⟨["nowhere"]⟩, ⟨["."]⟩, ⟨["gone"]⟩]
    AddsMissing disk [] {} [⟨["nowhere"]⟩, ⟨["gone"]⟩] paths ∧
      (∃ result result' left added,
        run disk [] {} "T" = (.done result, left) ∧ left ≠ disk ∧
          result.summary.changed = ["a.c"] ∧ result.summary.failed = [] ∧
          run disk [] { paths := paths } "T" = (.done result', left) ∧
          List.Forall₂ (Missing disk []) [⟨["nowhere"]⟩, ⟨["gone"]⟩] added ∧
          result.Adds added result') ∧
      CommandLine.read ["nowhere", ".", "gone"] = .ok (.run { paths := paths }) ∧
      (CommandLine.execute disk [] false "T" ["nowhere", ".", "gone"]).1.exit = 1 ∧
      Refusable disk [] { excludes := ["[a"] } ∧
      ∃ refusal left, run disk [] { excludes := ["[a"] } "T" = (.refused refusal, left) ∧
        left = disk := by
  intro disk paths
  let backup : Backup := .make ⟨["", ""]⟩ "T"
  let queue : Plan := ⟨[⟨⟨["", "a.c"]⟩, "a.c", .c, some backup⟩], []⟩
  let result : Result :=
    queue.result {} [⟨"a.c", some .c, .changed (some ⟨["", "bak", "root_T", "a.c"]⟩)⟩]
  let left : Disk :=
    { entries :=
        [(["a.c"], .file (Bytes.ofString "a")), (["bak"], .dir), (["bak", "root_T"], .dir),
         (["bak", "root_T", "a.c"], .file (Bytes.ofString "a // x"))] }
  have hadds : AddsMissing disk [] {} [⟨["nowhere"]⟩, ⟨["gone"]⟩] paths := by
    refine ⟨rfl, .add (.keep (.add .nil)), ?_⟩
    rw [List.forall_mem_cons, List.forall_mem_singleton]
    exact ⟨⟨.notFound, by decide +kernel⟩, ⟨.notFound, by decide +kernel⟩⟩
  have hrun : run disk [] {} "T" = (.done result, left) := by decide +kernel
  have hread : CommandLine.read ["nowhere", ".", "gone"] = .ok (.run { paths := paths }) := by
    decide +kernel
  obtain ⟨added, hmissing, hplain, -⟩ := (failures_isolated disk [] {} "T").2.2.2.1 _ _ hadds
  obtain ⟨result', hrun', hresult⟩ := hplain result left hrun
  obtain ⟨-, -, -, -, hexit⟩ := failures_isolated disk [] { paths := paths } "T"
  have hfails : ∃ result, (run disk [] { paths := paths } "T").1 = .done result ∧
      result.summary.failed ≠ [] := by
    refine ⟨result', by rw [hrun'], fun hnil => ?_⟩
    have hlength := hresult.failed.length_eq
    rw [hnil, ← hmissing.length_eq] at hlength
    cases hlength
  have hglob : Refusable disk [] { excludes := ["[a"] } :=
    ⟨"[a", by decide +kernel, .inl ⟨.unclosedClass, by decide +kernel⟩⟩
  obtain ⟨⟨-, hrefused⟩, hsame, -⟩ := failures_isolated disk [] { excludes := ["[a"] } "T"
  obtain ⟨refusal, after, hrefusal⟩ := hrefused hglob
  exact ⟨hadds, ⟨result, result', left, added, hrun, by decide +kernel, rfl, rfl, hrun', hmissing,
    hresult⟩, hread, (hexit _ false hread).2 (.inr hfails), hglob, refusal, after, hrefusal,
    hsame _ _ hrefusal⟩

/-- Beside a single file a root that cannot be found is not looked for. -/
theorem missing_root_unseen :
    let disk : Disk := { entries := [(["a.c"], .file (Bytes.ofString "a"))] }
    let settings : Settings := { file := some ⟨["a.c"]⟩, paths := [⟨["."]⟩] }
    Interleaves [⟨["nowhere"]⟩] settings.paths [⟨["."]⟩, ⟨["nowhere"]⟩] ∧
      (∃ e, disk.locate [] ⟨["nowhere"]⟩ = .error e) ∧
      ∃ result left, run disk [] settings "T" = (.done result, left) ∧
        run disk [] { settings with paths := [⟨["."]⟩, ⟨["nowhere"]⟩] } "T" =
          (.done result, left) ∧
        result.summary.failed = [] := by
  intro disk settings
  let queue : Plan := ⟨[⟨⟨["", "a.c"]⟩, "a.c", .c, some (.make ⟨["", ""]⟩ "T")⟩], []⟩
  let result : Result := queue.result settings [⟨"a.c", some .c, .unchanged⟩]
  have hrun : run disk [] settings "T" = (.done result, disk) := by decide +kernel
  exact ⟨.keep (.add .nil), ⟨.notFound, by decide +kernel⟩, result, disk, hrun,
    by decide +kernel, rfl⟩

end Run
end Uncomment

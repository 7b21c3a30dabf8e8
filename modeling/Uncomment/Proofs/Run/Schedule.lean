import Mathlib.Data.List.Nodup
import Mathlib.Data.List.Perm.Basic
import Uncomment.Run.Basic

/-!
# Schedules

The jobs of a plan may be done in any order, each being known by its number in the plan.
Their reports are then put back into the order of the plan (`collect`), and the summary is
made of them as if the jobs had been done in that order.

`run_eq_runInOrder` says that `run` does the jobs in the order of the plan, and
`mem_zip_collect` how the reports of a schedule belong to its jobs.
-/

namespace Uncomment
namespace Run

variable {here : Location} {settings : Settings} {queue : Plan} {jobs : List Job}
  {reports : List Report} {order : List (Job × Nat)} {disk left : Disk}

/-- The reports of numbered jobs, put back into the order of the plan. -/
def collect (jobs : List Job) (order : List (Job × Nat)) (reports : List Report) : List Report :=
  jobs.zipIdx.filterMap fun job => (order.zip reports).lookup job

/-- What a run comes to whose numbered jobs are done in the given order. -/
def runInOrder
    (here : Location)
    (settings : Settings)
    (queue : Plan)
    (order : List (Job × Nat))
    (disk : Disk) :
    Ending × Disk :=
  match processAll here settings (order.map Prod.fst) disk with
  | (.error fault, left) => (.broken fault, left)
  | (.ok reports, left) =>
      (.done (queue.result settings (collect queue.jobs order reports)), left)

theorem exists_of_processAll_cons
    {job : Job}
    (h : processAll here settings (job :: jobs) disk = (.ok reports, left)) :
    ∃ outcome next more,
      processFile disk here settings job.path job.language job.backup = .ok (outcome, next) ∧
        processAll here settings jobs next = (.ok more, left) ∧
          reports = ⟨job.shown, some job.language, outcome⟩ :: more := by
  unfold processAll at h
  split at h
  · cases h
  next outcome next hdone =>
  split at h
  · cases h
  next more left' hmore =>
  cases h
  exact ⟨outcome, next, more, hdone, hmore, rfl⟩

/-- The jobs after the first one are done on the disk that it leaves. -/
theorem processAll_cons_cases (here : Location) (settings : Settings) (job : Job)
    (jobs : List Job) (disk : Disk) :
    (processAll here settings (job :: jobs) disk).2 = (processAll here settings jobs disk).2 ∨
      ∃ outcome next,
        processFile disk here settings job.path job.language job.backup = .ok (outcome, next) ∧
          (processAll here settings (job :: jobs) disk).2 =
            (processAll here settings jobs next).2 := by
  rw [processAll]
  split
  · exact .inl rfl
  next outcome next hdone =>
  refine .inr ⟨outcome, next, hdone, ?_⟩
  split <;> next heq => rw [heq]

theorem length_of_processAll
    (h : processAll here settings jobs disk = (.ok reports, left)) :
    reports.length = jobs.length := by
  induction jobs generalizing disk reports with
  | nil =>
      cases h
      rfl
  | cons job jobs ih =>
      obtain ⟨outcome, next, more, -, hmore, rfl⟩ := exists_of_processAll_cons h
      rw [List.length_cons, List.length_cons, ih hmore]

/-- The reports of different jobs are given by a function of the job. -/
theorem exists_eq_map
    (hnodup : order.Nodup) (hlength : reports.length = order.length) :
    ∃ report : Job × Nat → Report, reports = order.map report := by
  induction order generalizing reports with
  | nil => exact ⟨fun job => ⟨job.1.shown, none, .unchanged⟩, List.length_eq_zero_iff.1 hlength⟩
  | cons job order ih =>
      cases reports with
      | nil => cases hlength
      | cons first rest =>
          obtain ⟨hjob, horder⟩ := List.nodup_cons.1 hnodup
          obtain ⟨report, rfl⟩ := ih horder (Nat.succ.inj hlength)
          refine ⟨Function.update report job first, ?_⟩
          rw [List.map_cons, Function.update_self]
          congr 1
          refine List.map_congr_left fun other hother => ?_
          rw [Function.update_of_ne]
          rintro rfl
          exact hjob hother

theorem lookup_zip_map (report : Job × Nat → Report) {job : Job × Nat} (hjob : job ∈ order) :
    (order.zip (order.map report)).lookup job = some (report job) := by
  induction order with
  | nil => cases hjob
  | cons first order ih =>
      rw [List.map_cons, List.zip_cons_cons, List.lookup_cons]
      by_cases heq : job = first
      · subst heq
        simp
      · have hne : (job == first) = false := by simpa using heq
        rw [hne]
        exact ih ((List.mem_cons.1 hjob).resolve_left heq)

theorem collect_map (report : Job × Nat → Report) (hperm : order.Perm jobs.zipIdx) :
    collect jobs order (order.map report) = jobs.zipIdx.map report := by
  have hlookup : ∀ job ∈ jobs.zipIdx,
      (order.zip (order.map report)).lookup job = (some ∘ report) job :=
    fun job hjob => lookup_zip_map report (hperm.mem_iff.2 hjob)
  rw [collect, List.filterMap_congr hlookup, List.filterMap_eq_map]

theorem nodup_zipIdx (jobs : List Job) : jobs.zipIdx.Nodup := by
  have hnodup : (jobs.zipIdx.map Prod.snd).Nodup := by
    rw [List.zipIdx_map_snd]
    exact List.nodup_range'
  exact (List.pairwise_map.1 hnodup).imp fun {a b} hne heq => hne (congrArg Prod.snd heq)

/-- A schedule does the jobs of the plan. -/
theorem perm_of_perm_zipIdx (hperm : order.Perm jobs.zipIdx) :
    (order.map Prod.fst).Perm jobs := by
  have hmap := hperm.map Prod.fst
  rwa [List.zipIdx_map_fst] at hmap

/-- Done in the order of the plan, the jobs have their reports in the order of the plan. -/
theorem collect_zipIdx (hlength : reports.length = jobs.length) :
    collect jobs jobs.zipIdx reports = reports := by
  obtain ⟨report, rfl⟩ := exists_eq_map (nodup_zipIdx jobs) (by simpa using hlength)
  exact collect_map report .rfl

theorem zip_map_zipIdx (report : Job × Nat → Report) (jobs : List Job) :
    jobs.zip (jobs.zipIdx.map report) = jobs.zipIdx.map fun job => (job.1, report job) := by
  nth_rewrite 1 [← List.zipIdx_map_fst 0 jobs]
  rw [List.zip_map']

/-- Collecting leaves every job its report. -/
theorem mem_zip_collect
    (hperm : order.Perm jobs.zipIdx) (hlength : reports.length = order.length)
    {job : Job} {report : Report} (h : (job, report) ∈ (order.map Prod.fst).zip reports) :
    (job, report) ∈ jobs.zip (collect jobs order reports) := by
  obtain ⟨given, rfl⟩ := exists_eq_map (hperm.nodup_iff.2 (nodup_zipIdx jobs)) hlength
  rw [List.zip_map'] at h
  obtain ⟨numbered, hnumbered, heq⟩ := List.mem_map.1 h
  rw [collect_map given hperm, zip_map_zipIdx]
  exact List.mem_map.2 ⟨numbered, hperm.mem_iff.1 hnumbered, heq⟩

/-- A run does its jobs in the order of the plan. -/
theorem run_eq_runInOrder
    {stamp : String} (hplan : plan disk here settings stamp = .ok queue) :
    run disk here settings stamp = runInOrder here settings queue queue.jobs.zipIdx disk := by
  unfold run runInOrder
  rw [hplan, List.zipIdx_map_fst]
  dsimp only
  cases hdone : processAll here settings queue.jobs disk with
  | mk reports left =>
      cases reports with
      | error fault => rfl
      | ok reports =>
          dsimp only
          rw [collect_zipIdx (length_of_processAll hdone)]

theorem exists_plan_of_done
    {stamp : String} {result : Result}
    (hrun : run disk here settings stamp = (.done result, left)) :
    ∃ queue, plan disk here settings stamp = .ok queue := by
  unfold run at hrun
  split at hrun
  · cases hrun
  next queue hplan =>
  exact ⟨queue, hplan⟩

/-- What a fold collects whose every step adds something or nothing. -/
theorem mem_foldl_iff {α β : Type} {step : List β → α → List β} {adds : α → Prop} {b : β}
    (hstep : ∀ items a, b ∈ step items a ↔ b ∈ items ∨ adds a) (as : List α) (items : List β) :
    b ∈ as.foldl step items ↔ b ∈ items ∨ ∃ a ∈ as, adds a := by
  induction as generalizing items with
  | nil => simp
  | cons a as ih =>
      rw [List.foldl_cons, ih, hstep]
      simp [or_assoc]

/-- The backup directories of a summary are those of the jobs that changed a file they had saved. -/
theorem mem_usedBackups_iff {dir : Path} :
    dir ∈ usedBackups jobs reports ↔
      ∃ job report backup target, (job, report) ∈ jobs.zip reports ∧
        job.backup = some backup ∧ report.outcome = .changed (some target) ∧
          backup.dir = dir := by
  let adds (pair : Job × Report) : Prop :=
    ∃ backup target, pair.1.backup = some backup ∧ pair.2.outcome = .changed (some target) ∧
      backup.dir = dir
  refine (@mem_foldl_iff _ _ _ adds dir (fun dirs pair => ?_) _ _).trans ?_
  · obtain ⟨job, report⟩ := pair
    dsimp only [adds]
    split
    · next backup target hbackup houtcome =>
        rw [hbackup, houtcome]
        split_ifs with helem
        · have hmem : backup.dir ∈ dirs := by simpa using helem
          grind
        · grind
    · next hnot =>
        refine ⟨.inl, ?_⟩
        rintro (hdir | ⟨backup, target, hbackup, houtcome, -⟩)
        · exact hdir
        · exact absurd houtcome (hnot backup target hbackup)
  · simp only [List.not_mem_nil, false_or, adds]
    grind

theorem nodup_usedBackups (jobs : List Job) (reports : List Report) :
    (usedBackups jobs reports).Nodup := by
  refine List.foldlRecOn _ _ List.nodup_nil fun dirs hdirs pair _ => ?_
  obtain ⟨job, report⟩ := pair
  dsimp only
  split
  · next backup _ _ _ =>
      split_ifs with helem
      · exact hdirs
      · have hnew : backup.dir ∉ dirs := by simpa using helem
        exact List.concat_eq_append ▸ List.Nodup.concat hnew hdirs
  · exact hdirs

end Run
end Uncomment

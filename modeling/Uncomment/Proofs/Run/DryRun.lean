import Uncomment.Proofs.Run.Order
import Uncomment.Proofs.Run.Recording

/-!
# Dry runs

A dry run has the plan of the real run without its backups, and each of its jobs comes to what
the real one comes to, except that a job which would change its file may fail when it writes
(`Outcome.Predicts`).  So if as many files fail in the real run, the two summaries name the same
files as changed, unchanged and skipped (`dry_run_predicts`).
-/

namespace Uncomment

/-- What a dry run says of a file, and what may come of it in the real run. -/
inductive Outcome.Predicts : Outcome → Outcome → Prop
  | same (outcome : Outcome) : Predicts outcome outcome
  | changed (target : Option Path) : Predicts (.changed none) (.changed target)
  | failed (failure : Failure) : Predicts (.changed none) (.failed failure)

/-- One report predicts another one of the same file. -/
def Report.Predicts (guess real : Report) : Prop :=
  guess.path = real.path ∧ guess.outcome.Predicts real.outcome

/-- Predictions are right about all files if the same number of files fail. -/
theorem filterMap_eq_of_predicts {guesses reals : List Report}
    (h : List.Forall₂ Report.Predicts guesses reals) :
    (guesses.filterMap Report.failed?).length ≤ (reals.filterMap Report.failed?).length ∧
      ((guesses.filterMap Report.failed?).length = (reals.filterMap Report.failed?).length →
        guesses.filterMap Report.changed? = reals.filterMap Report.changed? ∧
          guesses.filterMap Report.unchanged? = reals.filterMap Report.unchanged? ∧
            guesses.filterMap Report.skipped? = reals.filterMap Report.skipped?) := by
  induction h with
  | nil => simp
  | @cons guess real guesses reals hpredicts _ ih =>
      obtain ⟨path, language, outcome⟩ := guess
      obtain ⟨path', language', outcome'⟩ := real
      obtain ⟨rfl, hpredicts⟩ := hpredicts
      dsimp only at hpredicts
      obtain ⟨hle, heq⟩ := ih
      cases hpredicts with
      | same =>
          cases outcome <;>
            simpa [Report.changed?, Report.unchanged?, Report.skipped?, Report.failed?] using
              ⟨hle, heq⟩
      | changed target =>
          simpa [Report.changed?, Report.unchanged?, Report.skipped?, Report.failed?] using
            ⟨hle, heq⟩
      | failed failure =>
          simp only [Report.failed?, List.filterMap_cons, List.length_cons]
          exact ⟨by omega, fun h => by omega⟩

namespace Run

variable {disk left : Disk} {here : Location} {settings : Settings} {stamp : String}
  {queue : Plan} {path : Path} {language : Language} {backup : Option Backup}
  {outcome : Outcome} {jobs : List Job}

/-! ### Jobs -/

/-- A job without its backup. -/
def Job.plain (job : Job) : Job :=
  { job with backup := none }

/-- A plan without its backups. -/
def Plan.plain (queue : Plan) : Plan :=
  { queue with jobs := queue.jobs.map Job.plain }

section Dry

variable (hdry : settings.dryRun = true)

include hdry

theorem processAll_dry (jobs : List Job) (disk : Disk) :
    (processAll here settings jobs disk).2 = disk := by
  induction jobs with
  | nil => rfl
  | cons job more ih =>
      rcases processAll_cons_cases here settings job more disk with heq | ⟨_, next, hdone, heq⟩
      · rw [heq, ih]
      rcases processFile_cases hdone with ⟨rfl, -⟩ | ⟨-, -, -, -, -, hreal, -⟩
      · rw [heq, ih]
      · rw [hdry] at hreal
        cases hreal

/-- A job predicts what comes of it. -/
theorem exists_processFile_dry
    (h : processFile disk here { settings with dryRun := false } path language backup =
      .ok (outcome, left)) :
    ∃ guess, processFile disk here settings path language none = .ok (guess, disk) ∧
      guess.Predicts outcome := by
  unfold processFile at h ⊢
  split at h
  · next e hread =>
      cases h
      exact ⟨_, rfl, .same _⟩
  next content hread =>
  dsimp only at h ⊢
  split at h
  · cases h
    exact ⟨_, rfl, .same _⟩
  split at h
  · cases h
  next stripped hstrip =>
  split at h
  · next hsame =>
      cases h
      exact ⟨.unchanged, by rw [if_pos hsame], .same _⟩
  next hsame =>
  refine ⟨.changed none, by rw [if_neg hsame, if_pos hdry], ?_⟩
  obtain ⟨-, -, -, ⟨⟨failure, rfl⟩, -⟩ | ⟨target, -, rfl, -⟩⟩ := replace_cases (Except.ok.inj h)
  · exact .failed failure
  · exact .changed target

theorem backupFor_dry (root : Path) : backupFor settings stamp root = none := by
  rw [backupFor, hdry]
  rfl

theorem planRoot_dry (excludes : List Pattern) (written : Path) :
    planRoot disk here settings stamp excludes written =
      (planRoot disk here { settings with dryRun := false } stamp excludes written).plain := by
  have hfound (root : Location) (backup : Option Backup) (found : Walk.Found) :
      planFound disk here settings root none found =
        (planFound disk here { settings with dryRun := false } root backup found).plain := by
    cases found with
    | failure message => rfl
    | file location =>
        unfold planFound
        dsimp only
        cases eligible? disk here settings.force location.toPath <;> rfl
  unfold planRoot
  cases disk.locate here written with
  | error e => rfl
  | ok root =>
      dsimp only
      rw [backupFor_dry hdry]
      simp only [List.flatMap_map, Plan.plain, List.map_flatMap, Plan.mk.injEq]
      constructor <;> refine List.flatMap_congr fun found _ => ?_ <;>
        exact (congrArg _ (hfound root _ found)).trans rfl

theorem plan_dry :
    plan disk here settings stamp =
      (plan disk here { settings with dryRun := false } stamp).map Plan.plain := by
  unfold plan
  cases settings.file with
  | some file =>
      unfold planFile
      dsimp only
      cases disk.locate here file with
      | error e => rfl
      | ok location =>
          dsimp only
          cases eligible? disk here settings.force location.toPath with
          | none => rfl
          | some language =>
              dsimp only
              rw [backupFor_dry hdry]
              rfl
  | none =>
      dsimp only
      cases excludePatterns settings.excludes with
      | error refusal => rfl
      | ok excludes =>
          dsimp only [Except.map]
          simp only [List.flatMap_map, Plan.plain, List.map_flatMap, Except.ok.injEq,
            Plan.mk.injEq]
          constructor <;> refine List.flatMap_congr fun written _ => ?_ <;>
            exact (congrArg _ (planRoot_dry hdry excludes written)).trans rfl

/-- The jobs of a dry run predict what comes of the real ones. -/
theorem exists_processAll_dry
    (behaviour : Behaviour disk here { settings with dryRun := false } stamp queue)
    (htree : disk.IsTree)
    (hjobs : jobs ⊆ queue.jobs)
    (hresults : ∀ job ∈ jobs, ∃ outcome, behaviour.result job = .ok outcome) :
    ∃ guesses, processAll here settings (jobs.map Job.plain) disk = (.ok guesses, disk) ∧
      List.Forall₂ Report.Predicts guesses (jobs.map behaviour.report) := by
  induction jobs with
  | nil => exact ⟨[], rfl, .nil⟩
  | cons job more ih =>
      obtain ⟨hjob, hmore⟩ := List.cons_subset.1 hjobs
      obtain ⟨guesses, hguesses, hpredicts⟩ := ih hmore fun other hother =>
        hresults other (by simp [hother])
      obtain ⟨outcome, hresult⟩ := hresults job (by simp)
      obtain ⟨left, heq, -⟩ := behaviour.behaves job hjob disk (.refl htree)
      rw [hresult] at heq
      obtain ⟨guess, hguess, hright⟩ := exists_processFile_dry hdry heq
      refine ⟨⟨job.shown, some job.language, guess⟩ :: guesses, ?_, .cons ⟨rfl, ?_⟩ hpredicts⟩
      · have hplain : processFile disk here settings job.plain.path job.plain.language
            job.plain.backup = .ok (guess, disk) := hguess
        rw [List.map_cons, processAll, hplain]
        dsimp only
        rw [hguesses]
        rfl
      · simpa [Behaviour.report, hresult, Except.toOption] using hright

end Dry

end Run
end Uncomment

import Uncomment.Proofs.Run.Alike
import Uncomment.Proofs.Run.Schedule

/-!
# The order of the jobs

On a disk without links, jobs for different files that have no name in a backup directory of
the run do not get into each other's way: what one job does leaves the disk alike for the other
ones (`Behaviour.alike_of_leaves`), so that each of them has the outcome, and puts the entries,
that it would have and put in the beginning (`Behaviour.Ready`).  Jobs whose paths are two names
of one file are not for different files (`Plan.FilesDiffer`).

If moreover no file has two names in the backup directories, no two jobs put different entries
at one location (`Behaviour.effect_eq`), and the disk that a run leaves does not depend on the
order of its jobs (`runInOrder_eq`).
-/

namespace Uncomment
namespace Run

variable {disk now left : Disk} {here : Location} {settings : Settings} {stamp : String}
  {queue : Plan} {job other : Job} {location : Location} {entry : Entry} {content : Bytes}
  {outcome : Outcome} {jobs done : List Job} {reports : List Report}

/-- No file is queued twice, be it under one name or under two. -/
def Plan.FilesDiffer (disk : Disk) (here : Location) (queue : Plan) : Prop :=
  queue.jobs.Pairwise fun job other => ¬disk.NameOneFile here job.path other.path

instance (disk : Disk) (here : Location) (queue : Plan) : Decidable (queue.FilesDiffer disk here) :=
  inferInstanceAs (Decidable (queue.jobs.Pairwise _))

/-- Where the files that are queued have one name each, different paths are for different files. -/
theorem filesDiffer_of_hasOneName
    (htree : disk.IsTree)
    (hfree : disk.LinkFree)
    (hplan : plan disk here settings stamp = .ok queue)
    (hpaths : queue.jobs.Pairwise fun job other => job.path ≠ other.path)
    (hnames : ∀ job ∈ queue.jobs, ∀ location, disk.locate here job.path = .ok location →
      disk.HasOneName location) :
    queue.FilesDiffer disk here := by
  have hpath {job : Job} {location : Location} (hjob : job ∈ queue.jobs)
      (hlocate : disk.locate here job.path = .ok location) : job.path = location.toPath := by
    obtain ⟨base, rest, actual, hqueued⟩ := exists_isQueued htree hplan hjob
    have hleads := Disk.leads_of_locate hqueued.spelled hqueued.here (hqueued.path ▸ hlocate)
    rw [hqueued.path, (hfree.direct _).eq_of_follow hleads]
  refine hpaths.imp_of_mem fun {job other} hjob hother hne hone => hne ?_
  unfold Disk.NameOneFile at hone
  split at hone
  · next location place hlocate hlocate' =>
      rw [hpath hjob hlocate, hpath hother hlocate',
        (hnames job hjob location hlocate).eq_of_sameFile hone]
  · cases hone

/-- Where the jobs of a plan are, what comes of each of them, and what it puts. -/
structure Behaviour
    (disk : Disk)
    (here : Location)
    (settings : Settings)
    (stamp : String)
    (queue : Plan) where
  base : Job → Location
  rest : Job → Location
  actual : Job → Location
  result : Job → Except Fault Outcome
  effect : Job → Effect
  isQueued : ∀ job ∈ queue.jobs,
    IsQueued disk here settings stamp job (base job) (rest job) (actual job)
  isEffect : ∀ job ∈ queue.jobs,
    IsEffect disk here job (Backup.placeFor (base job) stamp ++ rest job) (actual job) (effect job)
  behaves : ∀ job ∈ queue.jobs,
    Behaves disk here settings job (Backup.placeFor (base job) stamp ++ rest job) (result job)
      (effect job)

theorem nonempty_behaviour
    (htree : disk.IsTree) (hfree : disk.LinkFree)
    (hplan : plan disk here settings stamp = .ok queue) :
    Nonempty (Behaviour disk here settings stamp queue) := by
  have hall : ∀ job, ∃ (base rest actual : Location) (result : Except Fault Outcome)
      (effect : Effect), job ∈ queue.jobs →
        IsQueued disk here settings stamp job base rest actual ∧
          IsEffect disk here job (Backup.placeFor base stamp ++ rest) actual effect ∧
            Behaves disk here settings job (Backup.placeFor base stamp ++ rest) result effect := by
    intro job
    by_cases hjob : job ∈ queue.jobs
    · obtain ⟨base, rest, actual, hqueued⟩ := exists_isQueued htree hplan hjob
      obtain ⟨result, effect, heffect, hbehaves⟩ := exists_behaves hfree hqueued
      exact ⟨base, rest, actual, result, effect, fun _ => ⟨hqueued, heffect, hbehaves⟩⟩
    · exact ⟨[], [], [], .ok .unchanged, fun _ => none, fun h => absurd h hjob⟩
  choose base rest actual result effect h using hall
  exact ⟨⟨base, rest, actual, result, effect, fun job hjob => (h job hjob).1,
    fun job hjob => (h job hjob).2.1, fun job hjob => (h job hjob).2.2⟩⟩

namespace Behaviour

variable (behaviour : Behaviour disk here settings stamp queue)

/-- Where the content of a file goes. -/
def place (job : Job) : Location :=
  Backup.placeFor (behaviour.base job) stamp ++ behaviour.rest job

/-- The report of a job. -/
def report (job : Job) : Report :=
  ⟨job.shown, some job.language, (behaviour.result job).toOption.getD .unchanged⟩

theorem inBackup_place (hjob : job ∈ queue.jobs) (hbackup : job.backup ≠ none) :
    queue.InBackup (behaviour.place job) :=
  let ⟨_, hdir⟩ := Option.ne_none_iff_exists'.1 hbackup
  (behaviour.isQueued job hjob).inBackup_place hjob hdir

/-! ### Two jobs -/

section Outside

variable
  (htree : disk.IsTree)
  (hfree : disk.LinkFree)
  (hout : queue.Outside disk here)
  (hjob : job ∈ queue.jobs)
  (hother : other ∈ queue.jobs)
  (hne : ¬disk.NameOneFile here job.path other.path)

include hjob hother hne in
theorem not_sameFile_actual {content' : Bytes}
    (hread : disk.read here job.path = .ok content)
    (hread' : disk.read here other.path = .ok content') :
    ¬disk.SameFile (behaviour.actual job) (behaviour.actual other) := by
  have hqueued := behaviour.isQueued job hjob
  have hqueued' := behaviour.isQueued other hother
  obtain ⟨hreject, -⟩ := (hqueued.read_eq_ok_iff (.refl disk)).1 hread
  obtain ⟨hreject', -⟩ := (hqueued'.read_eq_ok_iff (.refl disk)).1 hread'
  rwa [← Disk.nameOneFile_iff (hqueued.locate_eq hreject) (hqueued'.locate_eq hreject')]

include hout hjob hother in
theorem not_sameFile_place
    (hread : disk.read here job.path = .ok content) (hbackup : other.backup ≠ none) :
    ¬disk.SameFile (behaviour.place other) (behaviour.actual job) := by
  have hqueued := behaviour.isQueued job hjob
  obtain ⟨hreject, -⟩ := (hqueued.read_eq_ok_iff (.refl disk)).1 hread
  obtain ⟨dir, hdir⟩ := Option.ne_none_iff_exists'.1 hbackup
  exact hqueued.not_sameFile_place hout hjob hreject hother hdir (behaviour.isQueued other hother)

include htree hfree hout hjob hother hne

/-- The backups of different files do not lie in one another. -/
theorem not_place_isPrefix {content' : Bytes}
    (hread : disk.read here job.path = .ok content) (hbackup : job.backup ≠ none)
    (hread' : disk.read here other.path = .ok content') (hbackup' : other.backup ≠ none) :
    ¬behaviour.place job <+: behaviour.place other := by
  intro hle
  have hqueued := behaviour.isQueued job hjob
  have hqueued' := behaviour.isQueued other hother
  obtain ⟨hreject, hget⟩ := (hqueued.read_eq_ok_iff (.refl disk)).1 hread
  obtain ⟨hreject', hget'⟩ := (hqueued'.read_eq_ok_iff (.refl disk)).1 hread'
  obtain ⟨dir, hdir⟩ := Option.ne_none_iff_exists'.1 hbackup
  obtain ⟨dir', hdir'⟩ := Option.ne_none_iff_exists'.1 hbackup'
  obtain ⟨hbase, hrest⟩ := hqueued.of_place_isPrefix htree hfree.plainBackups hout hjob hreject
    hdir hqueued' hother hreject' hdir' hle
  have hbelow : behaviour.actual job <+: behaviour.actual other := by
    rw [hqueued.eq_actual hfree, hqueued'.eq_actual hfree, hbase, List.prefix_append_right_inj]
    exact hrest
  have hactual : behaviour.actual job ≠ behaviour.actual other := fun heq =>
    behaviour.not_sameFile_actual hjob hother hne hread hread' (.inl heq)
  rw [htree.get?_of_isPrefix hget' hbelow hactual] at hget
  cases hget

omit hfree in
/-- Another job puts nothing at a name of the file of a job. -/
theorem effect_eq_none_of_actual
    (hread : disk.read here job.path = .ok content)
    (hsame : disk.SameFile (behaviour.actual job) location) :
    behaviour.effect other location = none := by
  by_contra hsome
  obtain ⟨entry, heffect⟩ := Option.ne_none_iff_exists'.1 hsome
  obtain ⟨content', hread'⟩ := (behaviour.isEffect other hother).reads heffect
  have hget := (((behaviour.isQueued job hjob).read_eq_ok_iff (.refl disk)).1 hread).2
  rw [← htree.get?_eq_of_sameFile hsame] at hget
  rcases (behaviour.isEffect other hother).places heffect with
    hone | ⟨hbackup, hone | ⟨-, -, -, hnoFile⟩⟩
  · exact behaviour.not_sameFile_actual hjob hother hne hread hread' (hsame.trans hone.symm)
  · exact behaviour.not_sameFile_place hout hjob hother hread hbackup (hone.trans hsame.symm)
  · exact hnoFile _ hget

/-- What another job puts leaves the disk alike for a job. -/
theorem alike_of_leaves
    (halike : Alike disk here job (behaviour.place job) now)
    (hleaves : (behaviour.effect other).Leaves now left)
    (hleft : left.IsTree) (hgrows : disk.Grows left) :
    Alike disk here job (behaviour.place job) left where
  tree := hleft
  grows := hgrows
  own content hread := by
    have hqueued := behaviour.isQueued job hjob
    obtain ⟨hreject, hget⟩ :=
      (hqueued.read_eq_ok_iff halike.grows).1 (halike.own content hread)
    refine (hqueued.read_eq_ok_iff hgrows).2 ⟨hreject, ?_⟩
    rw [hleaves, behaviour.effect_eq_none_of_actual htree hout hjob hother hne hread
      (.refl disk _), Option.none_or, hget]
  target content hread hbackup hget := by
    have hleft := hleaves (behaviour.place job)
    cases heffect : behaviour.effect other (behaviour.place job) with
    | none =>
        rw [heffect, Option.none_or, hget] at hleft
        exact halike.target content hread hbackup hleft.symm
    | some entry =>
        obtain ⟨content', hread'⟩ := (behaviour.isEffect other hother).reads heffect
        have hnot := behaviour.not_place_isPrefix htree hfree hout hjob hother hne hread hbackup
          hread'
        rcases (behaviour.isEffect other hother).places heffect with
          hone | ⟨hbackup', hone | ⟨hle, -⟩⟩
        · exact absurd hone.symm (behaviour.not_sameFile_place hout hother hjob hread' hbackup)
        · -- the place has two names, so a file stands there
          have hplaces : behaviour.place job ≠ behaviour.place other := fun heq =>
            hnot hbackup' (heq ▸ List.prefix_rfl)
          obtain ⟨old, hold⟩ := htree.exists_file_of_sameFile hone.symm hplaces
          obtain ⟨kept, hkept⟩ := hgrows.file hold
          rw [hkept] at hget
          cases hget
        · exact absurd hle (hnot hbackup')
  above content hread hbackup front hfront hbelow kept hget := by
    rw [hleaves] at hget
    cases heffect : behaviour.effect other front with
    | none =>
        rw [heffect, Option.none_or] at hget
        exact halike.above content hread hbackup front hfront hbelow kept hget
    | some entry =>
        obtain ⟨content', hread'⟩ := (behaviour.isEffect other hother).reads heffect
        rcases (behaviour.isEffect other hother).places heffect with
          hone | ⟨hbackup', hone | ⟨-, -, rfl, -⟩⟩
        · rw [htree.get?_eq_of_sameFile hone]
          exact ⟨content',
            (((behaviour.isQueued other hother).read_eq_ok_iff (.refl disk)).1 hread').2⟩
        · refine htree.exists_file_of_sameFile hone.symm fun heq => ?_
          rw [heq] at hfront
          exact behaviour.not_place_isPrefix htree hfree hout hother hjob
            (mt Disk.NameOneFile.symm hne) hread' hbackup' hread hbackup hfront
        · rw [heffect] at hget
          cases hget

end Outside

section Apart

variable
  (htree : disk.IsTree)
  (hfree : disk.LinkFree)
  (hapart : queue.Apart disk here)
  (hjob : job ∈ queue.jobs)
  (hother : other ∈ queue.jobs)
  (hne : ¬disk.NameOneFile here job.path other.path)

include htree hfree hapart hjob hother hne

/-- What another job puts is not the backup of a job, nor does the backup lie above it. -/
theorem effect_eq_none_of_place
    (hread : disk.read here job.path = .ok content) (hbackup : job.backup ≠ none)
    (hsame : disk.SameFile (behaviour.place job) location) :
    behaviour.effect other location = none := by
  by_contra hsome
  obtain ⟨entry, heffect⟩ := Option.ne_none_iff_exists'.1 hsome
  obtain ⟨content', hread'⟩ := (behaviour.isEffect other hother).reads heffect
  have hnot := behaviour.not_place_isPrefix htree hfree hapart.outside hjob hother hne hread
    hbackup hread'
  rcases (behaviour.isEffect other hother).places heffect with
    hone | ⟨hbackup', hone | ⟨hle, -, -, hnoFile⟩⟩
  · exact behaviour.not_sameFile_place hapart.outside hother hjob hread' hbackup
      (hsame.trans hone.symm)
  · have heq := hapart.eq_of_sameFile (behaviour.inBackup_place hjob hbackup)
      (behaviour.inBackup_place hother hbackup') (hsame.trans hone.symm)
    exact hnot hbackup' (heq ▸ List.prefix_rfl)
  · by_cases heq : behaviour.place job = location
    · exact hnot hbackup' (heq ▸ hle)
    · obtain ⟨old, hold⟩ := htree.exists_file_of_sameFile hsame.symm (Ne.symm heq)
      exact hnoFile old hold

/-- Two jobs do not put different entries at one location. -/
theorem effect_eq {entry' : Entry}
    (h : behaviour.effect job location = some entry)
    (h' : behaviour.effect other location = some entry') :
    entry = entry' := by
  obtain ⟨content, hread⟩ := (behaviour.isEffect job hjob).reads h
  obtain ⟨content', hread'⟩ := (behaviour.isEffect other hother).reads h'
  rcases (behaviour.isEffect job hjob).places h with
    hone | ⟨hbackup, hone | ⟨-, -, rfl, -⟩⟩
  · rw [behaviour.effect_eq_none_of_actual htree hapart.outside hjob hother hne hread hone] at h'
    cases h'
  · rw [behaviour.effect_eq_none_of_place htree hfree hapart hjob hother hne hread hbackup
      hone] at h'
    cases h'
  have hne' : ¬disk.NameOneFile here other.path job.path := mt Disk.NameOneFile.symm hne
  rcases (behaviour.isEffect other hother).places h' with
    hone | ⟨hbackup', hone | ⟨-, -, rfl, -⟩⟩
  · rw [behaviour.effect_eq_none_of_actual htree hapart.outside hother hjob hne' hread' hone] at h
    cases h
  · rw [behaviour.effect_eq_none_of_place htree hfree hapart hother hjob hne' hread' hbackup'
      hone] at h
    cases h
  · rfl

end Apart

/-! ### All jobs -/

/-- Jobs of a plan for different files, for each of which the disk is alike. -/
structure Ready (jobs : List Job) (now : Disk) : Prop where
  queued : ∀ job ∈ jobs, job ∈ queue.jobs
  differ : jobs.Pairwise fun job other => ¬disk.NameOneFile here job.path other.path
  alike : ∀ job ∈ jobs, Alike disk here job (behaviour.place job) now

/-- The disk after some of the jobs: what they put is there, and elsewhere it is as before. -/
structure Stage (done : List Job) (now : Disk) : Prop where
  tree : now.IsTree
  grows : disk.Grows now
  put : ∀ job ∈ done, ∀ location entry, behaviour.effect job location = some entry →
    now.get? location = some entry
  rest : ∀ location, (∀ job ∈ done, behaviour.effect job location = none) →
    now.get? location = disk.get? location

theorem stage_nil (htree : disk.IsTree) : behaviour.Stage [] disk :=
  ⟨htree, .refl disk, by simp, fun _ _ => rfl⟩

/-- A job adds its entries. -/
theorem Stage.cons
    (hstage : behaviour.Stage done now)
    (hleaves : (behaviour.effect job).Leaves now left)
    (hleft : left.IsTree) (hgrows : disk.Grows left)
    (heffects : ∀ other ∈ done, ∀ location entry entry',
      behaviour.effect job location = some entry →
        behaviour.effect other location = some entry' → entry = entry') :
    behaviour.Stage (job :: done) left := by
  refine ⟨hleft, hgrows, fun other hother location entry heffect => ?_, fun location hnone => ?_⟩
  · rw [hleaves]
    rcases List.mem_cons.1 hother with rfl | hother
    · rw [heffect, Option.some_or]
    · cases hown : behaviour.effect job location with
      | none => exact hstage.put other hother location entry heffect
      | some entry' =>
          rw [Option.some_or, heffects other hother location entry' entry hown heffect]
  · rw [hleaves, hnone job (by simp), Option.none_or]
    exact hstage.rest location fun other hother => hnone other (by simp [hother])

/-- After all jobs it does not matter any more in which order they were done. -/
theorem Stage.unique {done' : List Job} {left' : Disk}
    (hstage : behaviour.Stage done left) (hstage' : behaviour.Stage done' left')
    (hsame : ∀ job, job ∈ done ↔ job ∈ done') :
    left = left' := by
  refine hstage.tree.ext hstage'.tree (hstage.grows.numbers.trans hstage'.grows.numbers.symm)
    (hstage.grows.guarded.trans hstage'.grows.guarded.symm) fun location => ?_
  by_cases hall : ∀ job ∈ done, behaviour.effect job location = none
  · rw [hstage.rest location hall,
      hstage'.rest location fun job hjob => hall job ((hsame job).2 hjob)]
  · simp only [not_forall] at hall
    obtain ⟨job, hjob, hsome⟩ := hall
    obtain ⟨entry, heffect⟩ := Option.ne_none_iff_exists'.1 hsome
    rw [hstage.put job hjob location entry heffect,
      hstage'.put job ((hsame job).1 hjob) location entry heffect]

section Jobs

variable {more : List Job}
  (htree : disk.IsTree)
  (hfree : disk.LinkFree)
  (hout : queue.Outside disk here)

include htree hfree hout

/-- The first job has its outcome and puts its entries, and leaves the others ready. -/
theorem Ready.step
    (hready : behaviour.Ready (job :: more) now)
    (h : processFile now here settings job.path job.language job.backup = .ok (outcome, left)) :
    behaviour.result job = .ok outcome ∧ (behaviour.effect job).Leaves now left ∧
      left.IsTree ∧ disk.Grows left ∧ behaviour.Ready more left := by
  obtain ⟨hjob, hqueued⟩ := List.forall_mem_cons.1 hready.queued
  obtain ⟨hdiffer, hpairwise⟩ := List.pairwise_cons.1 hready.differ
  obtain ⟨halike, halikeMore⟩ := List.forall_mem_cons.1 hready.alike
  obtain ⟨left', heq, hleaves⟩ := behaviour.behaves job hjob now halike
  obtain ⟨hleft, hgrown⟩ :=
    (behaviour.isQueued job hjob).grows_of_processFile halike.grows halike.tree h
  have hgrows := halike.grows.trans hgrown
  rw [h] at heq
  cases hresult : behaviour.result job with
  | error fault =>
      rw [hresult] at heq
      cases heq
  | ok outcome' =>
      rw [hresult] at heq
      cases heq
      exact ⟨rfl, hleaves, hleft, hgrows, hqueued, hpairwise, fun other hother =>
        behaviour.alike_of_leaves htree hfree hout (hqueued other hother) hjob
          (mt Disk.NameOneFile.symm (hdiffer other hother)) (halikeMore other hother) hleaves hleft
          hgrows⟩

/-- Jobs that are all done have the reports that are theirs. -/
theorem Ready.of_processAll
    (hready : behaviour.Ready jobs now)
    (h : processAll here settings jobs now = (.ok reports, left)) :
    reports = jobs.map behaviour.report ∧
      ∀ job ∈ jobs, ∃ outcome, behaviour.result job = .ok outcome := by
  induction jobs generalizing now reports with
  | nil =>
      cases h
      exact ⟨rfl, by simp⟩
  | cons job more ih =>
      obtain ⟨outcome, next, moreReports, hdone, hmore, rfl⟩ := exists_of_processAll_cons h
      obtain ⟨hresult, -, -, -, hnext⟩ := hready.step behaviour htree hfree hout hdone
      obtain ⟨rfl, hresults⟩ := ih hnext hmore
      refine ⟨?_, List.forall_mem_cons.2 ⟨⟨outcome, hresult⟩, hresults⟩⟩
      simp [report, hresult, Except.toOption]

/-- Jobs that have outcomes are all done. -/
theorem Ready.exists_processAll
    (hready : behaviour.Ready jobs now)
    (hresults : ∀ job ∈ jobs, ∃ outcome, behaviour.result job = .ok outcome) :
    ∃ reports left, processAll here settings jobs now = (.ok reports, left) := by
  induction jobs generalizing now with
  | nil => exact ⟨[], now, rfl⟩
  | cons job more ih =>
      obtain ⟨⟨outcome, hresult⟩, hresultsMore⟩ := List.forall_mem_cons.1 hresults
      obtain ⟨next, heq, -⟩ := behaviour.behaves job (hready.queued job (by simp)) now
        (hready.alike job (by simp))
      rw [hresult] at heq
      obtain ⟨-, -, -, -, hnext⟩ := hready.step behaviour htree hfree hout heq
      obtain ⟨reports, left, hmore⟩ := ih hnext hresultsMore
      refine ⟨⟨job.shown, some job.language, outcome⟩ :: reports, left, ?_⟩
      rw [processAll, heq]
      dsimp only [Except.map]
      rw [hmore]

omit hout in
/-- Jobs that are all done add their entries. -/
theorem Stage.of_processAll
    (hapart : queue.Apart disk here)
    (hstage : behaviour.Stage done now)
    (hready : behaviour.Ready jobs now)
    (hdone : ∀ other ∈ done, other ∈ queue.jobs ∧
      ∀ job ∈ jobs, ¬disk.NameOneFile here job.path other.path)
    (h : processAll here settings jobs now = (.ok reports, left)) :
    behaviour.Stage (jobs.reverse ++ done) left := by
  induction jobs generalizing now done reports with
  | nil =>
      cases h
      exact hstage
  | cons job more ih =>
      obtain ⟨outcome, next, moreReports, hfirst, hmore, -⟩ := exists_of_processAll_cons h
      have hjob := hready.queued job (by simp)
      obtain ⟨-, hleaves, hleft, hgrows, hnext⟩ :=
        hready.step behaviour htree hfree hapart.outside hfirst
      have hcons : behaviour.Stage (job :: done) next :=
        hstage.cons behaviour hleaves hleft hgrows fun other hother location entry entry' =>
          behaviour.effect_eq htree hfree hapart hjob (hdone other hother).1
            ((hdone other hother).2 job (by simp))
      rw [List.reverse_cons, List.append_assoc]
      refine ih hcons hnext (List.forall_mem_cons.2 ⟨⟨hjob, fun later hlater => ?_⟩, ?_⟩) hmore
      · exact mt Disk.NameOneFile.symm ((List.pairwise_cons.1 hready.differ).1 later hlater)
      · exact fun other hother =>
          ⟨(hdone other hother).1, fun later hlater =>
            (hdone other hother).2 later (by simp [hlater])⟩

end Jobs
end Behaviour

/-! ### Runs -/

section Runs

variable {order order' : List (Job × Nat)} {result : Result}
  (htree : disk.IsTree)
  (hfree : disk.LinkFree)
  (hfiles : queue.FilesDiffer disk here)
  (horder : order.Perm queue.jobs.zipIdx)

namespace Behaviour

variable (behaviour : Behaviour disk here settings stamp queue)

include htree hfiles horder in
/-- In the beginning all jobs are ready, in whatever order. -/
theorem ready : behaviour.Ready (order.map Prod.fst) disk where
  queued _ hjob := (perm_of_perm_zipIdx horder).mem_iff.1 hjob
  differ := ((perm_of_perm_zipIdx horder).pairwise_iff
    fun {_ _} h => mt Disk.NameOneFile.symm h).2 hfiles
  alike _ _ := .refl htree

include htree hfree hfiles horder

/-- A run that goes through has the reports of its jobs in the order of the plan. -/
theorem of_runInOrder
    (hout : queue.Outside disk here)
    (hrun : runInOrder here settings queue order disk = (.done result, left)) :
    result = queue.result settings (queue.jobs.map behaviour.report) ∧
      ∀ job ∈ queue.jobs, ∃ outcome, behaviour.result job = .ok outcome := by
  have hperm := perm_of_perm_zipIdx horder
  unfold runInOrder at hrun
  split at hrun
  · cases hrun
  next reports left' hdone =>
  cases hrun
  obtain ⟨rfl, hresults⟩ := (behaviour.ready htree hfiles horder).of_processAll behaviour htree
    hfree hout hdone
  refine ⟨?_, fun job hjob => hresults job (hperm.mem_iff.2 hjob)⟩
  rw [List.map_map, collect_map _ horder, ← List.map_map, List.zipIdx_map_fst]

/-- A run that goes through leaves what its jobs have put. -/
theorem stage_of_runInOrder
    (hapart : queue.Apart disk here)
    (hrun : runInOrder here settings queue order disk = (.done result, left)) :
    behaviour.Stage (order.map Prod.fst).reverse left := by
  unfold runInOrder at hrun
  split at hrun
  · cases hrun
  next reports left' hdone =>
  cases hrun
  rw [← List.append_nil (order.map Prod.fst).reverse]
  exact (behaviour.stage_nil htree).of_processAll behaviour htree hfree hapart
    (behaviour.ready htree hfiles horder) (by simp) hdone

end Behaviour

end Runs

/-- Of two names of one file, the one that comes first has something to strip. -/
example :
    let text := Bytes.ofString "a // x"
    let disk : Disk :=
      { entries := [(["a.c"], .file text), (["b.c"], .file text)]
        numbers := [(["a.c"], 0), (["b.c"], 0)] }
    let queue : Plan :=
      ⟨[⟨⟨["", "a.c"]⟩, "a.c", .c, none⟩, ⟨⟨["", "b.c"]⟩, "b.c", .c, none⟩], []⟩
    let settings : Settings := { backup := false }
    disk.IsTree ∧ plan disk [] settings "T" = .ok queue ∧ ¬queue.FilesDiffer disk [] ∧
      (runInOrder [] settings queue queue.jobs.zipIdx disk).1 =
          .done (queue.result settings
            [⟨"a.c", some .c, .changed none⟩, ⟨"b.c", some .c, .unchanged⟩]) ∧
        (runInOrder [] settings queue queue.jobs.zipIdx.reverse disk).1 =
          .done (queue.result settings
            [⟨"a.c", some .c, .unchanged⟩, ⟨"b.c", some .c, .changed none⟩]) := by
  decide +kernel

/-- Two names of one file in a backup directory hold what was saved last. -/
example :
    let text := Bytes.ofString "a // x"
    let text' := Bytes.ofString "b // y"
    let disk : Disk :=
      { entries :=
          [(["a.c"], .file text), (["b.c"], .file text'), (["bak"], .dir),
           (["bak", "root_T"], .dir), (["bak", "root_T", "a.c"], .file []),
           (["bak", "root_T", "b.c"], .file [])]
        numbers := [(["bak", "root_T", "a.c"], 0), (["bak", "root_T", "b.c"], 0)] }
    let backup : Backup := .make ⟨["", ""]⟩ "T"
    let queue : Plan :=
      ⟨[⟨⟨["", "a.c"]⟩, "a.c", .c, some backup⟩, ⟨⟨["", "b.c"]⟩, "b.c", .c, some backup⟩], []⟩
    let left := (runInOrder [] {} queue queue.jobs.zipIdx disk).2
    let left' := (runInOrder [] {} queue queue.jobs.zipIdx.reverse disk).2
    disk.IsTree ∧ plan disk [] {} "T" = .ok queue ∧ queue.FilesDiffer disk [] ∧
      queue.Outside disk [] ∧ left.get? ["bak", "root_T", "a.c"] = some (.file text') ∧
        left'.get? ["bak", "root_T", "a.c"] = some (.file text) := by
  decide +kernel

end Run
end Uncomment

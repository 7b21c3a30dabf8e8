import Uncomment.Proofs.Run.Found
import Uncomment.Run.Basic

/-!
# Queued jobs

Every job of a plan is queued for a file (or, if a single path was given, for whatever it
names) that is reached by its path, below a directory in which its backup directory lies.
`IsQueued` collects what is known of a job, and `exists_isQueued` says that it holds of
every job of a plan.
-/

namespace Uncomment

namespace Disk

variable {disk : Disk} {here location : Location} {path : Path}

theorem exists_of_locate (htree : disk.IsTree) (h : disk.locate here path = .ok location) :
    ∃ entry, disk.get? location = some entry ∧ ∀ target, entry ≠ .link target := by
  have hhere := get?_of_locate h
  unfold locate at h
  split at h
  · cases h
  split at h
  · cases h
  rcases follow_reached htree (areSpelled_steps path) hhere h with hfound | ⟨hfalse, -⟩
  · exact hfound
  · cases hfalse

end Disk

namespace Run

variable {disk : Disk} {here : Location} {settings : Settings} {stamp : String} {job : Job}
  {queue : Plan}

/-- The directory in which the backups of a root are made. -/
def baseOf (disk : Disk) (root : Location) : Location :=
  match disk.get? root with
  | some (.file _) => parentOf root
  | _ => root

/-- Where a job of a plan comes from. -/
theorem mem_jobs_cases
    (hplan : plan disk here settings stamp = .ok queue) (hjob : job ∈ queue.jobs) :
    eligible? disk here settings.force job.path = some job.language ∧
      ((∃ file location, settings.file = some file ∧ disk.locate here file = .ok location ∧
          job.path = location.toPath ∧
            job.shown = Path.display (parentOf location).toPath location.toPath ∧
              job.backup = backupFor settings stamp (parentOf location).toPath) ∨
        ∃ written root options location, settings.file = none ∧ written ∈ settings.paths ∧
          disk.locate here written = .ok root ∧
            options.followLinks = settings.followLinks ∧
              .file location ∈ Walk.found disk options root ∧
                job.path = location.toPath ∧
                  job.shown = Path.display root.toPath location.toPath ∧
                    job.backup = backupFor settings stamp (baseOf disk root).toPath) := by
  unfold plan at hplan
  split at hplan
  · next file hfile =>
      unfold planFile at hplan
      split at hplan
      · cases hplan
      next location hlocation =>
      dsimp only at hplan
      split at hplan
      · cases hplan
      next language hlanguage =>
      obtain ⟨rfl⟩ := Except.ok.inj hplan
      obtain rfl := List.mem_singleton.1 hjob
      exact ⟨hlanguage, .inl ⟨file, location, hfile, hlocation, rfl, rfl, rfl⟩⟩
  · next hfile =>
      split at hplan
      · cases hplan
      next excludes hexcludes =>
      obtain ⟨rfl⟩ := Except.ok.inj hplan
      obtain ⟨part, hpart, hjob⟩ := List.mem_flatMap.1 hjob
      obtain ⟨written, hwritten, rfl⟩ := List.mem_map.1 hpart
      unfold planRoot at hjob
      split at hjob
      · cases hjob
      next root hroot =>
      obtain ⟨part, hpart, hjob⟩ := List.mem_flatMap.1 hjob
      obtain ⟨found, hfound, rfl⟩ := List.mem_map.1 hpart
      unfold planFound at hjob
      split at hjob
      · cases hjob
      next location =>
      dsimp only at hjob
      split at hjob
      · cases hjob
      next language hlanguage =>
      obtain rfl := List.mem_singleton.1 hjob
      exact ⟨hlanguage, .inr ⟨written, root, _, location, hfile, hwritten, hroot, rfl, hfound,
        rfl, rfl, rfl⟩⟩

/--
What is known of a queued job: its path is that of a location below `base`, the location
leads to `actual`, and the backup directory of the job lies in `base`.
-/
structure IsQueued
    (disk : Disk)
    (here : Location)
    (settings : Settings)
    (stamp : String)
    (job : Job)
    (base rest actual : Location) : Prop where
  path : job.path = Location.toPath (base ++ rest)
  spelled : Location.IsSpelled (base ++ rest)
  named : ∀ name ∈ base ++ rest, disk.HasName name
  /-- It is shown under its names below `base`, or under its name as it is. -/
  shown : rest ≠ [] → job.shown = Path.slashed ⟨rest⟩ ∨ rest = [job.shown]
  /-- Only the top has no name. -/
  top : rest = [] → base = [] ∧ job.shown = "/"
  leads : disk.Leads (base ++ rest) actual
  found :
    (∃ content, disk.get? actual = some (.file content)) ∧ rest ≠ [] ∨
      disk.get? actual = some .dir
  isDir : disk.get? base = some .dir
  backup : job.backup = backupFor settings stamp base.toPath
  language : eligible? disk here settings.force job.path = some job.language
  here : disk.get? here = some .dir

/-- A job for the entry at a location, backed up in the directory in which the entry lies. -/
theorem isQueued_of_parent
    {location : Location} {entry : Entry}
    (htree : disk.IsTree)
    (hhere : disk.get? here = some .dir)
    (hget : disk.get? location = some entry) (hnoLink : ∀ target, entry ≠ .link target)
    (hne : location ≠ [])
    (hpath : job.path = location.toPath)
    (hshown : job.shown = Path.display (parentOf location).toPath location.toPath ∨
      job.shown = Path.display location.toPath location.toPath)
    (hbackup : job.backup = backupFor settings stamp (parentOf location).toPath)
    (hlanguage : eligible? disk here settings.force job.path = some job.language) :
    ∃ name, IsQueued disk here settings stamp job (parentOf location) [name] location := by
  cases location using List.reverseRecOn with
  | nil => exact absurd rfl hne
  | append_singleton front name =>
      have hfront : parentOf (front ++ [name]) = front := by simp [parentOf]
      have hspelled := htree.isSpelled hget
      rw [hfront, Location.display_toPath hspelled (by simp), Location.display_self hspelled]
        at hshown
      rw [hfront] at hbackup ⊢
      refine ⟨name, hpath, hspelled, fun _ => Disk.hasName_of_get? hget,
        fun _ => hshown.imp_right fun heq => by rw [heq], nofun, .self htree hget hnoLink, ?_,
        htree.get?_parent hget, hbackup,
        hlanguage, hhere⟩
      cases entry with
      | file content => exact .inl ⟨⟨content, hget⟩, by simp⟩
      | dir => exact .inr hget
      | link target => exact absurd rfl (hnoLink target)

theorem exists_isQueued
    (htree : disk.IsTree)
    (hplan : plan disk here settings stamp = .ok queue) (hjob : job ∈ queue.jobs) :
    ∃ base rest actual, IsQueued disk here settings stamp job base rest actual := by
  obtain ⟨hlanguage, hcases⟩ := mem_jobs_cases hplan hjob
  rcases hcases with ⟨file, location, -, hlocate, hpath, hshown, hbackup⟩ |
    ⟨written, root, options, location, -, -, hlocate, -, hfound, hpath, hshown, hbackup⟩
  · have hhere := Disk.get?_of_locate hlocate
    obtain ⟨entry, hget, hnoLink⟩ := Disk.exists_of_locate htree hlocate
    by_cases hnil : location = []
    · subst hnil
      exact ⟨[], [], [], hpath, by simp [Location.IsSpelled], by simp, by simp,
        fun _ => ⟨rfl, hshown⟩, .self htree hget hnoLink, .inr rfl, rfl, hbackup, hlanguage, hhere⟩
    · obtain ⟨name, hqueued⟩ :=
        isQueued_of_parent htree hhere hget hnoLink hnil hpath (.inl hshown) hbackup hlanguage
      exact ⟨_, _, _, hqueued⟩
  · have hhere := Disk.get?_of_locate hlocate
    rcases Walk.of_mem_found hfound with ⟨rfl, content, hget⟩ | ⟨hroot, -⟩
    · have hbase : baseOf disk location = parentOf location := by
        rw [baseOf, hget]
      rw [hbase] at hbackup
      obtain ⟨name, hqueued⟩ := isQueued_of_parent htree hhere hget (by simp)
        (Disk.ne_nil_of_get? hget (by simp)) hpath (.inr hshown) hbackup hlanguage
      exact ⟨_, _, _, hqueued⟩
    · obtain ⟨⟨rest, rfl⟩, hspelled, hne, actual, content, hleads, hget⟩ :=
        Walk.leads_of_mem_found htree hfound
      have hbase : baseOf disk root = root := by
        rw [baseOf, hroot]
      rw [hbase] at hbackup
      have hrest : rest ≠ [] := by
        rintro rfl
        exact hne hroot (List.append_nil root)
      rw [Location.display_toPath hspelled hrest] at hshown
      exact ⟨root, rest, actual, hpath, hspelled,
        fun name => Walk.hasName_of_mem_found htree hfound, fun _ => .inl hshown,
        fun hnil => absurd hnil hrest, hleads, .inl ⟨⟨content, hget⟩, hrest⟩, hroot, hbackup,
        hlanguage, hhere⟩

end Run
end Uncomment

import Uncomment.Proofs.Run.Places
import Uncomment.Proofs.Text.Joined

/-!
# Backups under the reported paths

A file is reported under its path seen from its root, and its content is stored under its path
seen from the root of its backup directory.  The two roots differ if the root of the run is a file:
that one is reported by its own name, and backed up beside itself.  Still the content is always
stored under the reported path, and neither path is used for two files with one backup directory
(`backups_mirror_shown`).

A reported path is a text, which is cut at its slashes again (`Path.ofString_toString`), so no
name may hold one.  Backslashes are reported as slashes; paths that hold some are left out.
-/

namespace Uncomment

/-- Names hold no slashes. -/
def Disk.SlashFree (disk : Disk) : Prop :=
  ∀ item ∈ disk.entries, ∀ name ∈ item.1, '/' ∉ name.toList

instance (disk : Disk) : Decidable disk.SlashFree :=
  inferInstanceAs (Decidable (∀ _ ∈ _, _))

namespace Path

variable {segments : List String}

/-- No backslash stands in a path. -/
def BackslashFree (path : Path) : Prop :=
  ∀ segment ∈ path.segments, '\\' ∉ segment.toList

instance (path : Path) : Decidable path.BackslashFree :=
  inferInstanceAs (Decidable (∀ _ ∈ _, _))

theorem splitSlash_eq_splitOn (cs : List Char) : splitSlash cs = cs.splitOn '/' := by
  induction cs with
  | nil => rfl
  | cons c rest ih =>
      rw [splitSlash, ih, List.splitOn_cons_eq_if_modifyHead]
      by_cases hslash : c = '/'
      · simp [hslash]
      · rw [if_neg hslash, if_neg (by simpa using hslash)]
        cases hrows : rest.splitOn '/' with
        | nil => exact absurd hrows (List.splitOn_ne_nil _ _)
        | cons row rows => rfl

/-- A path whose segments hold no slashes is read back from its spelling. -/
theorem ofString_toString
    (hne : segments ≠ []) (h : ∀ segment ∈ segments, '/' ∉ segment.toList) :
    ofString (toString ⟨segments⟩) = ⟨segments⟩ := by
  have hsplit : ("/".intercalate segments).toList.splitOn '/' = segments.map String.toList :=
    Text.splitOn_intercalate hne h
  rw [ofString, toString, splitSlash_eq_splitOn, hsplit, List.map_map]
  simp [Function.comp_def]

/-- Without backslashes a path is shown as it is spelled. -/
theorem slashed_of_backslashFree {path : Path} (h : path.BackslashFree) :
    path.slashed = path.toString := by
  have hsame : ∀ c ∈ path.toString.toList, (if c = '\\' then '/' else c) = c := by
    intro c hc
    refine if_neg ?_
    rintro rfl
    rcases Text.mem_intercalate hc with hslash | ⟨segment, hsegment, hmem⟩
    · cases List.mem_singleton.1 hslash
    · exact h segment hsegment hmem
  rw [slashed, List.map_congr_left hsame]
  simp

end Path

namespace Backup

variable {disk left : Disk} {here : Location} {backup : Backup} {file target : Path}
  {content : Bytes}

/-- A content that was stored is where it was meant to go. -/
theorem target?_of_save (h : save disk here backup file content = (.ok target, left)) :
    backup.target? file = some target := by
  rcases save_cases h with ⟨⟨failure, hfailure⟩, -⟩ | ⟨_, ready, heq, htarget, -⟩
  · cases hfailure
  · rw [htarget, Except.ok.inj heq]

theorem target?_top (stamp : String) :
    (make (Location.toPath []) stamp).target? (Location.toPath []) = none := by
  rw [make_toPath (by simp [Location.IsSpelled])]
  rfl

end Backup

namespace Run

variable {disk : Disk} {here : Location} {settings : Settings} {stamp : String} {queue : Plan}
  {job other : Job} {base rest actual base' rest' actual' : Location} {backup backup' : Backup}

namespace IsQueued

variable (hqueued : IsQueued disk here settings stamp job base rest actual)
include hqueued

theorem path_eq_top_iff : job.path = Location.toPath [] ↔ rest = [] := by
  rw [hqueued.path]
  constructor
  · intro htop
    have hnil := Location.toPath_injective hqueued.spelled (by simp [Location.IsSpelled]) htop
    exact (List.append_eq_nil_iff.1 hnil).2
  · intro hrest
    rw [(hqueued.top hrest).1, hrest, List.append_nil]

/-- The names under which a file is reported are those of its path below its root. -/
theorem ofString_shown
    (hslash : disk.SlashFree) (hfree : job.path.BackslashFree) (hrest : rest ≠ []) :
    Path.ofString job.shown = ⟨rest⟩ := by
  have hnames : ∀ name ∈ rest, '/' ∉ name.toList := by
    intro name hname
    obtain ⟨item, hitem, hmem⟩ := hqueued.named name (by simp [hname])
    exact hslash item hitem name hmem
  have hsegments : job.path.segments = "" :: (base ++ rest) := by
    rw [hqueued.path, Location.toPath_of_ne_nil (by simp [hrest])]
  have hbelow : (⟨rest⟩ : Path).BackslashFree := fun name hname =>
    hfree name (by rw [hsegments]; simp [List.mem_append.2 (.inr hname)])
  have hspelled : job.shown = Path.toString ⟨rest⟩ := by
    rcases hqueued.shown hrest with heq | heq
    · rw [heq, Path.slashed_of_backslashFree hbelow]
    · rw [heq]
      rfl
  rw [hspelled, Path.ofString_toString hrest hnames]

theorem target?_eq_join_shown
    (hslash : disk.SlashFree) (hfree : job.path.BackslashFree) (hbackup : job.backup = some backup)
    (hrest : rest ≠ []) :
    backup.target? job.path = some (backup.dir.join (.ofString job.shown)) := by
  rw [hqueued.target?_eq hbackup hrest, hqueued.dir_eq hbackup,
    hqueued.ofString_shown hslash hfree hrest,
    Location.join_toPath (Backup.isSpelled_placeFor hqueued.spelled_base)
      (Location.isSpelled_append.1 hqueued.spelled).2 hrest]

theorem target?_eq_none (hbackup : job.backup = some backup) (hrest : rest = []) :
    backup.target? job.path = none := by
  obtain ⟨rfl, -⟩ := hqueued.top hrest
  rw [(hqueued.path_eq_top_iff).2 hrest,
    (backupFor_eq_some (hqueued.backup.symm.trans hbackup)).1]
  exact Backup.target?_top stamp

/-- A content is stored below the directory of its root. -/
theorem eq_place_of_target? {target : Path}
    (hbackup : job.backup = some backup) (htarget : backup.target? job.path = some target) :
    rest ≠ [] ∧ target = Location.toPath (Backup.placeFor base stamp ++ rest) := by
  have hrest : rest ≠ [] := fun hnil => by
    rw [hqueued.target?_eq_none hbackup hnil] at htarget
    cases htarget
  rw [hqueued.target?_eq hbackup hrest] at htarget
  exact ⟨hrest, (Option.some.inj htarget).symm⟩

theorem shown_ne_slash
    (hslash : disk.SlashFree) (hfree : job.path.BackslashFree) (hrest : rest ≠ []) :
    job.shown ≠ "/" := by
  intro heq
  have hread := hqueued.ofString_shown hslash hfree hrest
  have htop : Path.ofString "/" = ⟨["", ""]⟩ := rfl
  rw [heq, htop] at hread
  obtain rfl := congrArg Path.segments hread
  exact (hqueued.spelled "" (by simp)).1 rfl

end IsQueued

/-- Jobs with one backup directory lie below one root. -/
theorem IsQueued.base_eq
    (hqueued : IsQueued disk here settings stamp job base rest actual)
    (hqueued' : IsQueued disk here settings stamp other base' rest' actual')
    (hbackup : job.backup = some backup) (hbackup' : other.backup = some backup')
    (hdir : backup'.dir = backup.dir) :
    base' = base := by
  rw [hqueued.dir_eq hbackup, hqueued'.dir_eq hbackup'] at hdir
  exact Backup.placeFor_injective (Location.toPath_injective
    (Backup.isSpelled_placeFor hqueued'.spelled_base)
    (Backup.isSpelled_placeFor hqueued.spelled_base) hdir)

/-- Files below one root that are reported under one path have one path. -/
theorem IsQueued.rest_eq_of_shown
    (hqueued : IsQueued disk here settings stamp job base rest actual)
    (hqueued' : IsQueued disk here settings stamp other base' rest' actual')
    (hslash : disk.SlashFree)
    (hfree : job.path.BackslashFree) (hfree' : other.path.BackslashFree)
    (hshown : other.shown = job.shown) :
    rest' = rest := by
  by_cases hrest : rest = [] <;> by_cases hrest' : rest' = []
  · rw [hrest, hrest']
  · exact absurd (hshown.trans (hqueued.top hrest).2) (hqueued'.shown_ne_slash hslash hfree' hrest')
  · exact absurd (hshown.symm.trans (hqueued'.top hrest').2)
      (hqueued.shown_ne_slash hslash hfree hrest)
  · have hread := hqueued.ofString_shown hslash hfree hrest
    rw [← hshown, hqueued'.ofString_shown hslash hfree' hrest'] at hread
    exact congrArg Path.segments hread

/-- Files below one root that are stored at one place have one path. -/
theorem IsQueued.rest_eq_of_components
    {target target' : Path}
    (hqueued : IsQueued disk here settings stamp job base rest actual)
    (hqueued' : IsQueued disk here settings stamp other base rest' actual')
    (hbackup : job.backup = some backup) (hbackup' : other.backup = some backup')
    (htarget : backup.target? job.path = some target)
    (htarget' : backup'.target? other.path = some target')
    (hsame : target'.components = target.components) :
    rest' = rest := by
  obtain ⟨-, rfl⟩ := hqueued.eq_place_of_target? hbackup htarget
  obtain ⟨-, rfl⟩ := hqueued'.eq_place_of_target? hbackup' htarget'
  have hplaces := Location.eq_of_components_toPath hqueued'.spelled_place hqueued.spelled_place hsame
  exact List.append_cancel_left hplaces

/--
The content of a queued file that is backed up is stored in its backup directory under the path by
which the file is reported (the top, which may be queued as a single file, has no such place).
Files with different paths and one backup directory are reported under different paths and stored
at different places.
-/
theorem backups_mirror_shown
    (htree : disk.IsTree)
    (hslash : disk.SlashFree)
    (hplan : plan disk here settings stamp = .ok queue)
    (hjob : job ∈ queue.jobs)
    (hbackup : job.backup = some backup)
    (hfree : job.path.BackslashFree) :
    (backup.target? job.path =
      if job.path = Location.toPath [] then none
      else some (backup.dir.join (.ofString job.shown))) ∧
    (∀ now place content target left,
      Backup.save now place backup job.path content = (.ok target, left) →
        target = backup.dir.join (.ofString job.shown)) ∧
    ∀ other ∈ queue.jobs, ∀ backup', other.backup = some backup' → backup'.dir = backup.dir →
      other.path.BackslashFree → other.path ≠ job.path →
        other.shown ≠ job.shown ∧
          ∀ target ∈ backup.target? job.path, ∀ target' ∈ backup'.target? other.path,
            target'.components ≠ target.components := by
  obtain ⟨base, rest, actual, hqueued⟩ := exists_isQueued htree hplan hjob
  have htarget : backup.target? job.path =
      if job.path = Location.toPath [] then none
      else some (backup.dir.join (.ofString job.shown)) := by
    split_ifs with htop
    · exact hqueued.target?_eq_none hbackup (hqueued.path_eq_top_iff.1 htop)
    · exact hqueued.target?_eq_join_shown hslash hfree hbackup
        fun hrest => htop (hqueued.path_eq_top_iff.2 hrest)
  refine ⟨htarget, fun now place content target left hsave => ?_,
    fun other hother backup' hbackup' hdir hfree' hne => ?_⟩
  · rw [Backup.target?_of_save hsave] at htarget
    split_ifs at htarget
    exact Option.some.inj htarget
  · obtain ⟨base', rest', actual', hqueued'⟩ := exists_isQueued htree hplan hother
    obtain rfl := hqueued.base_eq hqueued' hbackup hbackup' hdir
    have hrest : rest' ≠ rest := by
      rintro rfl
      exact hne (hqueued'.path.trans hqueued.path.symm)
    exact ⟨fun hshown => hrest (hqueued.rest_eq_of_shown hqueued' hslash hfree hfree' hshown),
      fun target htarget target' htarget' hsame =>
        hrest (hqueued.rest_eq_of_components hqueued' hbackup hbackup' htarget htarget' hsame)⟩

/-- A directory, and a file in it, as two roots with one backup directory. -/
theorem backups_mirror_shown_two_roots :
    let disk : Disk :=
      { entries :=
          [(["s"], .dir), (["s", "a.c"], .file []), (["s", "t"], .dir),
           (["s", "t", "a.c"], .file [])] }
    let backup : Backup := .make ⟨["", "s"]⟩ "T"
    let below : Job := ⟨⟨["", "s", "t", "a.c"]⟩, "t/a.c", .c, some backup⟩
    let alone : Job := ⟨⟨["", "s", "a.c"]⟩, "a.c", .c, some backup⟩
    ∃ queue, plan disk [] { paths := [⟨["s", "t"]⟩, ⟨["s"]⟩, ⟨["s", "a.c"]⟩] } "T" = .ok queue ∧
      below ∈ queue.jobs ∧ queue.jobs.getLast? = some alone ∧
      backup.dir = ⟨["", "s", "bak", "s_T"]⟩ ∧
      backup.target? below.path = some (backup.dir.join (.ofString "t/a.c")) ∧
      backup.target? alone.path = some (backup.dir.join (.ofString "a.c")) ∧
      ∀ target ∈ backup.target? below.path, ∀ target' ∈ backup.target? alone.path,
        target'.components ≠ target.components := by
  intro disk backup below alone
  let inner : Job := ⟨⟨["", "s", "t", "a.c"]⟩, "a.c", .c, some (.make ⟨["", "s", "t"]⟩ "T")⟩
  let queue : Plan := ⟨[inner, alone, below, alone], []⟩
  have hplan : plan disk [] { paths := [⟨["s", "t"]⟩, ⟨["s"]⟩, ⟨["s", "a.c"]⟩] } "T" = .ok queue := by
    decide +kernel
  have htree : disk.IsTree := by decide +kernel
  have hslash : disk.SlashFree := by decide +kernel
  obtain ⟨hbelow, -, hothers⟩ := @backups_mirror_shown disk [] _ "T" queue below backup htree hslash
    hplan (by simp [queue]) rfl (by decide)
  obtain ⟨halone, -, -⟩ := @backups_mirror_shown disk [] _ "T" queue alone backup htree hslash
    hplan (by simp [queue]) rfl (by decide)
  obtain ⟨-, hplaces⟩ := hothers alone (by simp [queue]) backup rfl rfl (by decide) (by decide)
  exact ⟨queue, hplan, by simp [queue], rfl, rfl, hbelow, halone, hplaces⟩

end Run
end Uncomment

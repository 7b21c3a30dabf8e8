import Uncomment.Proofs.Run.Places

/-!
# Later runs

A run passes over the folder of the backups directly below each of its roots, and over no
other one.  So the backups that a run has made are safe from a later run with the same root,
and with roots elsewhere, but not from one whose root lies above: that run comes to the
folder on its way down (`backup_rewritten_from_above`).

`backups_unchanged` says that nothing else changes them, over any number of later runs with
other time stamps, as long as neither a link nor a second name leads a run to them.
-/

namespace Uncomment

variable {disk now left : Disk} {root start location actual base rest : Location}
  {stamp other name : String} {content : Bytes}

/-- Only their own names lead to what lies in a directory and to the directories above it. -/
def Disk.Secluded (disk : Disk) (dir : Location) : Prop :=
  ∀ location actual, disk.Leads location actual → actual <+: dir ∨ dir <+: actual →
    location = actual

namespace Backup

theorem takeWhile_placeFor (hroot : folder ∉ root) :
    (placeFor root stamp ++ rest).takeWhile (· != folder) = root := by
  have hall : ∀ name ∈ root, (name != folder) = true := by
    intro name hname
    simp only [bne_iff_ne, ne_eq]
    rintro rfl
    exact hroot hname
  rw [placeFor, List.append_assoc, List.takeWhile_append_of_pos hall]
  simp

/-- Places of different moments are apart, if their roots lie in no folder of backups. -/
theorem eq_of_placeFor_isPrefix_place
    (hroot : folder ∉ root) (hbase : folder ∉ base)
    (h : placeFor root stamp <+: placeFor base other ++ rest) :
    stamp = other := by
  obtain ⟨more, heq⟩ := h
  obtain rfl : root = base := by
    rw [← takeWhile_placeFor hroot, heq, takeWhile_placeFor hbase]
  have hname : nameFor root stamp = nameFor root other := by
    simpa [placeFor] using congrArg (fun place => place[root.length + 1]?) heq
  rw [nameFor, nameFor, String.append_right_inj] at hname
  exact hname

/-- Above a backup directory there are its root, what is above that, and the folder. -/
theorem isPrefix_root_of_isPrefix_placeFor
    (hstart : folder ∉ start) (h : start <+: placeFor root stamp) : start <+: root := by
  rcases List.prefix_or_prefix_of_prefix h (List.prefix_append root [folder, _]) with hle | hle
  · exact hle
  · obtain ⟨rest, rfl⟩ := hle
    rw [placeFor, List.prefix_append_right_inj] at h
    cases rest with
    | nil => simp
    | cons first rest =>
        obtain rfl := (List.cons_prefix_cons.1 h).1
        simp at hstart

end Backup

namespace Walk

variable {options : Options} {dir : Dir} {entry : Entry}

/--
The walk is at no directory in a certain backup directory, and at none above it but the one
in which it started.
-/
structure Dir.IsClear (disk : Disk) (start root : Location) (stamp : String) (dir : Dir) :
    Prop where
  isAt : dir.IsAt disk start
  outside : ¬Backup.placeFor root stamp <+: dir.actual
  above : dir.actual <+: Backup.placeFor root stamp → dir.location = start ∧ dir.actual = start

/-- A link that stands where the walk is leads elsewhere. -/
theorem Dir.IsAt.not_related
    {target : Path} {place : Location}
    (h : dir.IsAt disk start) (htree : disk.IsTree) (hsecluded : disk.Secluded place)
    (hlink : disk.get? (dir.actual ++ [name]) = some (.link target))
    (hleads : disk.Leads (dir.location ++ [name]) actual)
    (hget : disk.get? actual = some entry) (hentry : ∀ target, entry ≠ .link target) :
    ¬actual <+: place ∧ ¬place <+: actual := by
  rw [← not_or]
  intro hrelated
  obtain rfl := hsecluded _ _ hleads hrelated
  have hdir := htree.get?_of_isPrefix hget (List.prefix_append dir.location [name]) (by simp)
  obtain heq := h.leads.unique (.self htree hdir (by simp))
  rw [heq, hget] at hlink
  exact hentry target (Option.some.inj hlink)

namespace Dir.IsClear

variable (h : dir.IsClear disk start root stamp) (htree : disk.IsTree)
  (hstart : Backup.folder ∉ start)

include h hstart

theorem outside_concat : ¬Backup.placeFor root stamp <+: dir.actual ++ [name] := by
  intro hfront
  rcases List.prefix_concat_iff.1 hfront with heq | hfront
  · have hactual : dir.actual = root ++ [Backup.folder] := by
      have hplace : Backup.placeFor root stamp =
          root ++ [Backup.folder] ++ [Backup.nameFor root stamp] := by
        simp [Backup.placeFor]
      exact (List.append_inj_left' (heq.symm.trans hplace) rfl)
    have hsame := (h.above ⟨[name], heq.symm⟩).2
    rw [← hsame, hactual] at hstart
    simp at hstart
  · exact h.outside hfront

include htree

/-- The walk stays clear as it goes on, since it passes over the folder below its start. -/
theorem enter
    (hsecluded : options.followLinks = true → disk.Secluded (Backup.placeFor root stamp))
    (habove : start <+: root → start = root)
    (hmem : (name, entry) ∈ disk.children dir.actual)
    (hkind : kindOf disk options dir name entry = .dir actual)
    (hskipped : isSkipped options start dir name true = false) :
    (dir.enter disk options name actual).IsClear disk start root stamp := by
  have hat := h.isAt.enter htree hmem hkind
  have hget := htree.mem_children_iff.1 hmem
  rcases of_kindOf_eq_dir hkind with ⟨rfl, rfl⟩ | ⟨⟨target, rfl⟩, hfollow, -, hdir⟩
  · refine ⟨hat, h.outside_concat hstart, fun hfront => ?_⟩
    obtain ⟨hlocation, hactual⟩ := h.above ((List.prefix_append _ [name]).trans hfront)
    have hroot := habove (Backup.isPrefix_root_of_isPrefix_placeFor hstart
      (hactual ▸ (List.prefix_append _ [name]).trans hfront))
    have hname : name = Backup.folder := by
      change dir.actual ++ [name] <+: Backup.placeFor root stamp at hfront
      rw [hactual, hroot, Backup.placeFor, List.prefix_append_right_inj] at hfront
      exact (List.cons_prefix_cons.1 hfront).1
    simp [isSkipped, hlocation, hname] at hskipped
  · obtain ⟨hnot, hnot'⟩ := h.isAt.not_related htree (hsecluded hfollow) hget hat.leads hdir
      (by simp)
    exact ⟨hat, hnot', fun hfront => absurd hfront hnot⟩

/-- A file that is found from a directory does not lie in the backup directory. -/
theorem not_isPrefix_file
    (hsecluded : options.followLinks = true → disk.Secluded (Backup.placeFor root stamp))
    (hmem : (name, entry) ∈ disk.children dir.actual)
    (hkind : kindOf disk options dir name entry = .file)
    (hleads : disk.Leads (dir.location ++ [name]) actual) :
    ¬Backup.placeFor root stamp <+: actual := by
  have hget := htree.mem_children_iff.1 hmem
  rcases of_kindOf_eq_file hkind with
    ⟨content, rfl⟩ | ⟨⟨target, rfl⟩, hfollow, other, content, hlocate, hfile⟩
  · obtain rfl := hleads.unique (h.isAt.leads.snoc htree hget (by simp))
    exact h.outside_concat hstart
  · obtain rfl := hleads.unique (Disk.leads_of_locate (h.isAt.spelled_concat htree hmem)
      (Disk.get?_top disk) hlocate)
    exact (h.isAt.not_related htree (hsecluded hfollow) hget hleads hfile (by simp)).2

end Dir.IsClear

/-- A walk finds nothing in a backup directory whose root is not below its own. -/
theorem not_isPrefix_of_mem_found
    (htree : disk.IsTree)
    (hsecluded : options.followLinks = true → disk.Secluded (Backup.placeFor root stamp))
    (hstart : Backup.folder ∉ start)
    (habove : start <+: root → start = root)
    (hmem : .file location ∈ found disk options start)
    (hleads : disk.Leads location actual) :
    ¬Backup.placeFor root stamp <+: actual := by
  have hself : ¬Backup.placeFor root stamp <+: start := fun hfront =>
    hstart (hfront.subset Backup.folder_mem_placeFor)
  rcases of_mem_found hmem with ⟨rfl, content, hget⟩ | ⟨hdir, levels, depth, hbelow⟩
  · obtain rfl := hleads.unique (.self htree hget (by simp))
    exact hself
  · obtain ⟨dir, name, entry, hclear, hchild, hkind, rfl⟩ :=
      exists_dir_of_mem_below (Dir.IsClear disk start root stamp)
        (fun _ _ _ _ hclear hchild hkind hskipped =>
          hclear.enter htree hstart hsecluded habove hchild hkind hskipped)
        ⟨.start htree hdir levels, hself, fun _ => ⟨rfl, rfl⟩⟩ hbelow
    exact hclear.not_isPrefix_file htree hstart hsecluded hchild hkind hleads

end Walk

namespace Run

variable {settings : Settings} {queue : Plan} {job : Job}

/-- A run as it is called: where, for what, and at which moment. -/
structure Call where
  here : Location
  settings : Settings
  stamp : String

/-- The files and directories for which a run is called, as far as there are any. -/
def Call.roots (disk : Disk) (call : Call) : List Location :=
  (call.settings.file.elim call.settings.paths fun file => [file]).filterMap fun path =>
    (disk.locate call.here path).toOption

/-- What a run leaves that does some jobs of its plan in some order. -/
inductive Call.Leaves (call : Call) (disk : Disk) : Disk → Prop
  | refused {refusal : Refusal} :
      plan disk call.here call.settings call.stamp = .error refusal →
      call.Leaves disk disk
  | done {queue : Plan} {jobs : List Job} :
      plan disk call.here call.settings call.stamp = .ok queue →
      jobs ⊆ queue.jobs →
      call.Leaves disk (processAll call.here call.settings jobs disk).2

theorem Call.leaves_run (call : Call) (disk : Disk) :
    call.Leaves disk (run disk call.here call.settings call.stamp).2 := by
  unfold run
  split
  · next hplan => exact .refused hplan
  · next queue hplan =>
      have hdone := Call.Leaves.done hplan (List.Subset.refl queue.jobs)
      split <;> next heq => rwa [heq] at hdone

/-- What a run avoids so that it does not come to the backups of another one. -/
structure Call.Avoids (disk : Disk) (call : Call) (root : Location) (stamp : String) : Prop where
  /-- It takes place at another moment. -/
  moment : stamp ≠ call.stamp
  /-- No root of it is a folder of backups or lies in one. -/
  outside : ∀ start ∈ call.roots disk, Backup.folder ∉ start
  /-- No root of it lies above the other root. -/
  above : ∀ start ∈ call.roots disk, start <+: root → start = root
  /-- If it follows links, none leads to the backups or to a directory above them. -/
  links : call.settings.followLinks = true → disk.Secluded (Backup.placeFor root stamp)

/-- What runs leave one after the other that avoid the backups of an earlier one. -/
inductive Sequel (root : Location) (stamp : String) (disk : Disk) : Disk → Prop
  | nil : Sequel root stamp disk disk
  | run {now left : Disk} {call : Call} :
      Sequel root stamp disk now →
      call.Avoids now root stamp →
      call.Leaves now left →
      Sequel root stamp disk left


variable {call : Call}

theorem backupFor_injective {dir : Backup}
    (hsome : backupFor settings stamp root.toPath = some dir)
    (hsame : backupFor settings stamp root.toPath = backupFor settings stamp base.toPath) :
    root.toPath = base.toPath := by
  have hroot := (backupFor_eq_some hsome).1
  have hbase := (backupFor_eq_some (hsame.symm.trans hsome)).1
  exact congrArg Backup.root (hroot.symm.trans hbase)

/-- Every job comes from a root: it is for the root itself, or for a file found below it. -/
theorem exists_root_of_mem_jobs
    (htree : disk.IsTree)
    (hplan : plan disk call.here call.settings call.stamp = .ok queue)
    (hjob : job ∈ queue.jobs)
    (hqueued : IsQueued disk call.here call.settings call.stamp job base rest actual) :
    ∃ start ∈ call.roots disk,
      (∀ dir, job.backup = some dir → base <+: start) ∧
        (actual = start ∨
          ∃ options : Walk.Options, options.followLinks = call.settings.followLinks ∧
            .file (base ++ rest) ∈ Walk.found disk options start) := by
  -- the backup directory of the job lies in the root, or beside it if it is a file
  have hbase (start other : Location) (hstart : start.IsSpelled) (hother : other <+: start)
      (hbackup : job.backup = backupFor call.settings call.stamp other.toPath)
      (dir : Backup) (hdir : job.backup = some dir) : base <+: start := by
    have hsame := backupFor_injective (hqueued.backup ▸ hdir) (hqueued.backup.symm.trans hbackup)
    obtain rfl := Location.toPath_injective hqueued.spelled_base (hstart.of_isPrefix hother) hsame
    exact hother
  obtain ⟨-, hcases⟩ := mem_jobs_cases hplan hjob
  rcases hcases with ⟨file, start, hfile, hlocate, hpath, -, hbackup⟩ |
    ⟨written, start, options, location, hfile, hwritten, hlocate, hfollow, hfound, hpath, -,
      hbackup⟩
  · have hmem : start ∈ call.roots disk := by
      simp [Call.roots, hfile, hlocate, Except.toOption]
    obtain ⟨entry, hget, hentry⟩ := Disk.exists_of_locate htree hlocate
    have hstart := htree.isSpelled hget
    obtain rfl := Location.toPath_injective hstart hqueued.spelled (hpath.symm.trans hqueued.path)
    exact ⟨_, hmem, hbase _ _ hstart (List.dropLast_prefix _) hbackup,
      .inl (hqueued.leads.unique (.self htree hget hentry))⟩
  · have hmem : start ∈ call.roots disk := by
      simp only [Call.roots, hfile, Option.elim_none, List.mem_filterMap]
      exact ⟨written, hwritten, by simp [hlocate, Except.toOption]⟩
    obtain ⟨entry, hget, hentry⟩ := Disk.exists_of_locate htree hlocate
    obtain ⟨-, hspelled, -, -⟩ := Walk.leads_of_mem_found htree hfound
    obtain rfl := Location.toPath_injective hspelled hqueued.spelled
      (hpath.symm.trans hqueued.path)
    have hfront : baseOf disk start <+: start := by
      unfold baseOf
      split
      · exact List.dropLast_prefix start
      · exact List.prefix_rfl
    exact ⟨start, hmem, hbase start _ (htree.isSpelled hget) hfront hbackup,
      .inr ⟨options, hfollow, hfound⟩⟩

section Avoids

variable
  (htree : disk.IsTree)
  (hplain : disk.PlainBackups)
  (hroot : Backup.folder ∉ root)
  (havoids : call.Avoids disk root stamp)
  (hplan : plan disk call.here call.settings call.stamp = .ok queue)

include htree hroot havoids hplan

/-- A run that avoids a backup directory neither reads a file in it nor saves one there. -/
theorem Call.Avoids.not_isPrefix
    (hjob : job ∈ queue.jobs)
    (hqueued : IsQueued disk call.here call.settings call.stamp job base rest actual) :
    ¬Backup.placeFor root stamp <+: actual ∧
      (job.backup ≠ none →
        ¬Backup.placeFor root stamp <+: Backup.placeFor base call.stamp ++ rest) := by
  obtain ⟨start, hmem, hbase, hcases⟩ := exists_root_of_mem_jobs htree hplan hjob hqueued
  have houtside := havoids.outside start hmem
  constructor
  · rcases hcases with rfl | ⟨options, hfollow, hfound⟩
    · exact fun hfront => houtside (hfront.subset Backup.folder_mem_placeFor)
    · exact Walk.not_isPrefix_of_mem_found htree (fun h => havoids.links (hfollow ▸ h)) houtside
        (havoids.above start hmem) hfound hqueued.leads
  · intro hne hfront
    obtain ⟨dir, hdir⟩ := Option.ne_none_iff_exists'.1 hne
    have hnot : Backup.folder ∉ base := fun h => houtside ((hbase dir hdir).subset h)
    exact havoids.moment (Backup.eq_of_placeFor_isPrefix_place hroot hnot hfront)

include hplain

/-- A file with one name in the backup directory is left alone by every job of the run. -/
theorem get?_of_processAll
    {jobs : List Job} (hjobs : jobs ⊆ queue.jobs)
    (hlocation : Backup.placeFor root stamp <+: location)
    (hname : disk.HasOneName location)
    (hgrows : disk.Grows now) (hnow : now.IsTree)
    (hget : now.get? location = some (.file content)) :
    (processAll call.here call.settings jobs now).2.get? location = some (.file content) := by
  induction jobs generalizing now with
  | nil => exact hget
  | cons job more ih =>
      obtain ⟨hjob, hmore⟩ := List.cons_subset.1 hjobs
      obtain ⟨base, rest, actual, hqueued⟩ := exists_isQueued htree hplan hjob
      rcases processAll_cons_cases call.here call.settings job more now with
        heq | ⟨_, next, hdone, heq⟩
      · rw [heq]
        exact ih hmore hgrows hnow hget
      obtain ⟨hdoes, hnext, hgrown⟩ := hqueued.does htree hplain hgrows hnow hdone
      obtain ⟨hactual, hplace⟩ := havoids.not_isPrefix htree hroot hplan hjob hqueued
      have hother {other : Location} (hout : ¬Backup.placeFor root stamp <+: other) :
          ¬now.SameFile other location := fun hsame =>
        hout ((hgrows.hasOneName hname).eq_of_sameFile hsame.symm ▸ hlocation)
      have hkept := hdoes.get?_file hget fun _ _ _ _ _ =>
        ⟨hother hactual, fun hsome => hother (hplace hsome)⟩
      rw [heq]
      exact ih hmore (hgrows.trans hgrown) hnext hkept

end Avoids

theorem Call.Leaves.grows (h : call.Leaves disk left) (htree : disk.IsTree) :
    left.IsTree ∧ disk.Grows left := by
  cases h with
  | refused => exact ⟨htree, .refl disk⟩
  | done hplan hjobs =>
      exact grows_of_processAll htree hplan (fun _ hjob => hjobs hjob) (.refl disk) htree

/--
No later run changes a file in a backup directory of a run, as long as the file has no second
name, the later run takes place at another moment, no root of it is or lies in a folder of
backups or lies above the root of that directory, and no link that it follows leads to the
directory or above it.
-/
theorem backups_unchanged
    {stored : Disk} {content : Bytes}
    (htree : disk.IsTree)
    (hplain : disk.PlainBackups)
    (houtside : ∀ start ∈ call.roots disk, Backup.folder ∉ start)
    (hplan : plan disk call.here call.settings call.stamp = .ok queue)
    (hleaves : call.Leaves disk stored)
    (hjob : job ∈ queue.jobs)
    (hroot : disk.get? root = some .dir)
    (hbackup : job.backup = some (.make root.toPath call.stamp))
    (hsequel : Sequel root call.stamp stored left)
    (hlocation : Backup.placeFor root call.stamp <+: location)
    (hname : disk.HasOneName location)
    (hstored : stored.get? location = some (.file content)) :
    left.get? location = some (.file content) := by
  have hnot : Backup.folder ∉ root := by
    obtain ⟨base, rest, actual, hqueued⟩ := exists_isQueued htree hplan hjob
    obtain ⟨start, hmem, hbase, -⟩ := exists_root_of_mem_jobs htree hplan hjob hqueued
    have hdir := (backupFor_eq_some (hqueued.backup.symm.trans hbackup)).1
    have hsame : base = root := Location.toPath_injective hqueued.spelled_base
      (htree.isSpelled hroot) (congrArg Backup.root hdir).symm
    exact fun h => houtside start hmem ((hbase _ hbackup).subset (hsame ▸ h))
  obtain ⟨hstoredTree, hgrown⟩ := hleaves.grows htree
  have hstoredPlain := hplain.grows hgrown hstoredTree
  suffices left.IsTree ∧ left.PlainBackups ∧ left.HasOneName location ∧
      left.get? location = some (.file content) from this.2.2.2
  induction hsequel with
  | nil => exact ⟨hstoredTree, hstoredPlain, hgrown.hasOneName hname, hstored⟩
  | run _ havoids hleaves ih =>
      obtain ⟨hnow, hnowPlain, hnowName, hget⟩ := ih
      obtain ⟨hleft, hgrows⟩ := hleaves.grows hnow
      refine ⟨hleft, hnowPlain.grows hgrows hleft, hgrows.hasOneName hnowName, ?_⟩
      cases hleaves with
      | refused => exact hget
      | done hplan hjobs =>
          exact get?_of_processAll hnow hnowPlain hnot havoids hplan hjobs hlocation hnowName
            (.refl _) hnow hget

/-- A run over everything, then one over a directory in it, then one over everything again. -/
theorem backups_unchanged_twice :
    let text := Bytes.ofString "a // x"
    let disk : Disk := { entries := [(["s"], .dir), (["s", "a.c"], .file text)] }
    let stored := (run disk [] {} "T").2
    let now := (run stored [] { paths := [⟨["s"]⟩] } "U").2
    let left := (run now [] {} "V").2
    stored.get? ["s", "a.c"] = some (.file (Bytes.ofString "a")) ∧
      left.get? ["bak", "root_T", "s", "a.c"] = some (.file text) := by
  intro text disk stored now left
  let first : Call := ⟨[], {}, "T"⟩
  let second : Call := ⟨[], { paths := [⟨["s"]⟩] }, "U"⟩
  let third : Call := ⟨[], {}, "V"⟩
  let job : Job := ⟨⟨["", "s", "a.c"]⟩, "s/a.c", .c, some (.make ⟨["", ""]⟩ "T")⟩
  have hnow : Sequel [] first.stamp stored now :=
    .run .nil ⟨by decide, by decide +kernel, by decide +kernel, fun h => nomatch (h : false = true)⟩
      (second.leaves_run stored)
  have hleft : Sequel [] first.stamp stored left :=
    .run hnow ⟨by decide, by decide +kernel, by decide +kernel, fun h => nomatch (h : false = true)⟩
      (third.leaves_run now)
  have hplan : plan disk first.here first.settings first.stamp = .ok ⟨[job], []⟩ := by
    decide +kernel
  have hroots : ∀ start ∈ first.roots disk, Backup.folder ∉ start := by decide +kernel
  have hstored : stored.get? ["bak", "root_T", "s", "a.c"] = some (.file text) := by
    decide +kernel
  exact ⟨by decide +kernel,
    backups_unchanged (by decide +kernel) (by decide +kernel) hroots hplan (first.leaves_run disk)
      (List.mem_singleton_self job) rfl rfl hleft (by decide +kernel) (by decide +kernel) hstored⟩

/--
A later run with a root above comes to the backups: it passes over no folder but the one
directly below its own root.
-/
theorem backup_rewritten_from_above :
    let disk : Disk :=
      { entries := [(["s"], .dir), (["s", "a.c"], .file (Bytes.ofString "a // x"))] }
    let first : Call := ⟨[], { paths := [⟨["s"]⟩] }, "T"⟩
    let later : Call := ⟨[], {}, "U"⟩
    let stored := (run disk first.here first.settings first.stamp).2
    let left := (run stored later.here later.settings later.stamp).2
    first.roots disk = [["s"]] ∧ later.roots stored = [[]] ∧
      stored.get? ["s", "bak", "s_T", "a.c"] = some (.file (Bytes.ofString "a // x")) ∧
        left.get? ["s", "bak", "s_T", "a.c"] = some (.file (Bytes.ofString "a")) := by
  decide +kernel

/-- A link in place of the folder brings the backups to where a later run finds them. -/
example :
    let disk : Disk :=
      { entries :=
          [(["kept"], .dir), (["s"], .dir), (["s", "a.c"], .file (Bytes.ofString "a // x")),
           (["s", "bak"], .link ⟨["", "kept"]⟩)] }
    let stored := (run disk [] { paths := [⟨["s"]⟩] } "T").2
    let left := (run stored [] { paths := [⟨["kept"]⟩] } "U").2
    stored.get? ["kept", "s_T", "a.c"] = some (.file (Bytes.ofString "a // x")) ∧
      left.get? ["kept", "s_T", "a.c"] = some (.file (Bytes.ofString "a")) := by
  decide +kernel

/-- So does a link to the folder that a later run follows. -/
example :
    let disk : Disk :=
      { entries := [(["a.c"], .file (Bytes.ofString "a // x")), (["old"], .link ⟨["bak"]⟩)] }
    let stored := (run disk [] {} "T").2
    let left := (run stored [] { followLinks := true } "U").2
    stored.get? ["bak", "root_T", "a.c"] = some (.file (Bytes.ofString "a // x")) ∧
      left.get? ["bak", "root_T", "a.c"] = some (.file (Bytes.ofString "a")) := by
  decide +kernel

end Run
end Uncomment

import Uncomment.Proofs.Disk.Plain
import Uncomment.Proofs.Run.Effect

/-!
# What the outcome of a file tells

On a disk without links the outcome of a file that may be written says what has become of the
disk (`Run.tells_of_processFile`).  Only the outcome `changed` outside a dry run means that
something was written: the stripped text to the file itself, and before that, if there is a
backup directory, the whole content to a place strictly below it, which is never the path of
the file itself (`Backup.IsPlaceFor`).  A failure comes before anything is overwritten: where
storing the content has gone well, the file that was read is still there and can be written.

What is written to a file is found under all its names, so nothing else differs means that no
other file does.
-/

namespace Uncomment

namespace Backup

variable {disk left : Disk} {here : Location} {root file : Path} {stamp : String}
  {content : Bytes} {result : Except Failure Path}

theorem IsPlaceFor.isPlain {target : Path}
    (h : IsPlaceFor (make root stamp).dir file target)
    (hroot : root.IsPlain) (hfile : file.IsPlain) :
    target.IsPlain := by
  obtain ⟨more, -, hsub, hcomponents⟩ := h.below
  obtain ⟨-, hdir⟩ : (make root stamp).dir.isAbsolute = true ∧ _ :=
    components_dir_make hroot.absolute
  refine ⟨h.absolute, fun hmem => ?_⟩
  rw [hcomponents, hdir] at hmem
  rcases List.mem_append.1 hmem with hmem | hmem
  · rcases List.mem_append.1 hmem with hmem | hmem
    · exact hroot.noParent hmem
    · simp at hmem
  · exact hfile.noParent (hsub hmem)

/-- Before a content is stored missing directories are made on the way to its place only. -/
theorem onlyMakesWay_of_prepare {target : Path} {result : Except Failure Unit}
    (htree : disk.IsTree)
    (hfree : disk.LinkFree)
    (hhere : disk.get? here = some .dir)
    (htarget : target.IsPlain)
    (h : prepare disk here target = (result, left)) :
    disk.OnlyMakesWay left target.names := by
  unfold prepare at h
  split at h
  · cases h
    exact .refl disk _
  · next parent hparent =>
      obtain ⟨hplain, name, hnames⟩ := htarget.parent? hparent
      have hway : parent.names <+: target.names := hnames ▸ List.prefix_append _ _
      have honly := (Disk.onlyMakesWay_makeDirs htree hfree hhere hplain).of_isPrefix hway
      split at h <;> next heq =>
        cases h
        rwa [heq] at honly

/-- A stored content stands at its place, and only the way to it has been made besides. -/
structure Stored (disk left : Disk) (here : Location) (file target : Path) (content : Bytes) :
    Prop where
  plain : target.IsPlain
  spells : Disk.Spells target target.names
  accepted : Disk.rejection? target = none
  apart : target.names ≠ file.names
  isTree : left.IsTree
  grows : disk.Grows left
  there : left.get? target.names = some (.file content)
  elsewhere : ∀ location, ¬disk.SameFile target.names location →
    left.get? location = disk.get? location ∨
      disk.get? location = none ∧ left.get? location = some .dir ∧ location <+: target.names

/-- Storing a content for a file under a plain root stores it, or makes directories only. -/
theorem stored_of_save
    (htree : disk.IsTree)
    (hfree : disk.LinkFree)
    (hhere : disk.get? here = some .dir)
    (hroot : root.IsPlain) (hfile : file.IsPlain)
    (h : save disk here (make root stamp) file content = (result, left)) :
    ((∃ failure, result = .error failure) ∧ disk.AddsDirs left) ∨
      ∃ target, result = .ok target ∧ (make root stamp).target? file = some target ∧
        IsPlaceFor (make root stamp).dir file target ∧
          Stored disk left here file target content := by
  rcases save_cases h with hfailed | ⟨target, ready, rfl, htarget, hprepare, hadds, hwrite⟩
  · exact .inl hfailed
  have hplace := isPlaceFor_of_target? hroot.absolute hfile.absolute htarget
  have hplain := hplace.isPlain hroot hfile
  have hspells := Disk.spells_of_endsInName hplain hplace.endsInName
  have hready := hadds.isTree htree
  obtain ⟨haccepted, hne, rfl, hleft, hgrows⟩ :=
    Disk.write_plain_spec hready (hfree.grows hadds.grows hready) hplain
      (hadds.grows.dir hhere) hspells hwrite
  have honly := onlyMakesWay_of_prepare htree hfree hhere hplain hprepare
  refine .inr ⟨target, rfl, htarget, hplace, {
    plain := hplain
    spells := hspells
    accepted := haccepted
    apart := fun heq => hplace.apart (by rw [hplain.components_eq, hfile.components_eq, heq])
    isTree := hleft
    grows := hadds.grows.trans hgrows
    there := Disk.get?_store_self hne content
    elsewhere := fun location hlocation => by
      rw [Disk.get?_store_of_not_sameFile (mt hadds.grows.sameFile_iff.1 hlocation)]
      exact honly location }⟩

end Backup

namespace Run

variable {disk left : Disk} {here : Location} {settings : Settings} {path : Path}
  {language : Language} {backup : Option Backup} {content stripped : Bytes}

/-- What the outcome of a file tells about the disk before and after it was processed. -/
inductive Tells
    (disk : Disk)
    (here : Location)
    (settings : Settings)
    (path : Path)
    (language : Language)
    (backup : Option Backup) :
    Outcome → Disk → Prop
  | unchanged {content : Bytes} :
      disk.read here path = .ok content →
      strip language content = .ok content →
      Tells disk here settings path language backup .unchanged disk
  | skipped {content : Bytes} {reason : Gate.Skip} :
      disk.read here path = .ok content →
      Gate.check settings.limits settings.force content = some reason →
      Tells disk here settings path language backup (.skipped reason) disk
  /-- In a dry run nothing is written. -/
  | foretold {content stripped : Bytes} :
      settings.dryRun = true →
      disk.read here path = .ok content →
      strip language content = .ok stripped →
      stripped ≠ content →
      Tells disk here settings path language backup (.changed none) disk
  /-- Without a backup directory only the file differs. -/
  | overwritten {left : Disk} {content stripped : Bytes} :
      settings.dryRun = false →
      backup = none →
      disk.read here path = .ok content →
      strip language content = .ok stripped →
      stripped ≠ content →
      left.read here path = .ok stripped →
      (∀ location, ¬disk.SameFile path.names location →
        left.get? location = disk.get? location) →
      Tells disk here settings path language backup (.changed none) left
  /-- With one, the stored content differs too, and the missing directories above it. -/
  | replaced {left : Disk} {dir : Backup} {target : Path} {content stripped : Bytes} :
      settings.dryRun = false →
      backup = some dir →
      disk.read here path = .ok content →
      strip language content = .ok stripped →
      stripped ≠ content →
      left.read here path = .ok stripped →
      left.read here target = .ok content →
      dir.dir.components <+: target.components →
      target.components ≠ dir.dir.components →
      (∀ location, ¬disk.SameFile path.names location → ¬disk.SameFile target.names location →
        left.get? location = disk.get? location ∨
          disk.get? location = none ∧ left.get? location = some .dir ∧
            location <+: target.names) →
      Tells disk here settings path language backup (.changed (some target)) left
  /-- After a failure the same files are there, with the same contents. -/
  | failed {left : Disk} {failure : Failure} :
      (∀ location content, left.get? location = some (.file content) ↔
        disk.get? location = some (.file content)) →
      Tells disk here settings path language backup (.failed failure) left

section Write

variable
  (hfree : disk.LinkFree)
  (hplain : path.IsPlain)
  (hguard : disk.isGuarded path.names = false)
  (hread : disk.read here path = .ok content)

include hfree hplain hguard hread

/-- A file that was read and is not guarded can be written, as long as it is there. -/
theorem write_of_read
    (stripped : Bytes)
    (hleft : left.IsTree) (hgrows : disk.Grows left)
    (hget : left.get? path.names = some (.file content)) :
    left.write here path stripped = .ok (left.store path.names stripped) ∧
      (left.store path.names stripped).IsTree ∧
        disk.Grows (left.store path.names stripped) ∧
          (left.store path.names stripped).read here path = .ok stripped := by
  obtain ⟨hhere, hreject, hspells, -⟩ := Disk.read_plain_spec hfree hplain hread
  have hwrite : left.write here path stripped = .ok (left.store path.names stripped) := by
    have hleads : left.Leads path.names path.names := .self hleft hget (by simp)
    rw [hspells.write_of_leads (hgrows.dir hhere) hreject hleads hget, hgrows.isGuarded_eq, hguard]
    rfl
  obtain ⟨-, -, -, -, hnew, hgrown, -, hread'⟩ :=
    hspells.exists_of_write hleft hplain.isSpelled_names (hgrows.dir hhere) hwrite
  exact ⟨hwrite, hnew, hgrows.trans hgrown, hread'⟩

end Write

section Tells

variable
  (htree : disk.IsTree)
  (hfree : disk.LinkFree)
  (hplain : path.IsPlain)
  (hguard : disk.isGuarded path.names = false)
  (hbackup : ∀ dir ∈ backup, ∃ root stamp, Path.IsPlain root ∧ dir = .make root stamp)
  (hnames : ∀ dir ∈ backup, ∀ target ∈ dir.target? path,
    disk.SameFile path.names target.names → path.names = target.names)

include htree hfree hplain hguard hbackup hnames

/-- A file whose content stripping changes is overwritten after its content has been stored. -/
theorem tells_of_replace
    (hdry : settings.dryRun = false)
    (hread : disk.read here path = .ok content)
    (hstrip : strip language content = .ok stripped)
    (hsame : stripped ≠ content) :
    Tells disk here settings path language backup
      (replace disk here path backup content stripped).1
      (replace disk here path backup content stripped).2 := by
  obtain ⟨hhere, -, -, hfile⟩ := Disk.read_plain_spec hfree hplain hread
  unfold replace
  cases backup with
  | none =>
      obtain ⟨hwrite, -, -, hnew⟩ :=
        write_of_read hfree hplain hguard hread stripped htree (.refl disk) hfile
      simp only [saveFirst, hwrite]
      exact .overwritten hdry rfl hread hstrip hsame hnew fun _ hother =>
        Disk.get?_store_of_not_sameFile hother _
  | some dir =>
      obtain ⟨root, stamp, hroot, rfl⟩ := hbackup dir rfl
      simp only [saveFirst]
      cases hsave : Backup.save disk here (.make root stamp) path content with
      | mk result saved =>
          rcases Backup.stored_of_save htree hfree hhere hroot hplain hsave with
            ⟨⟨failure, rfl⟩, hadds⟩ | ⟨target, rfl, htarget, hplace, hstored⟩
          · exact .failed fun _ _ => hadds.get?_file
          · -- the content has been stored in another file, so this one is as it was read
            have hother : ¬disk.SameFile path.names target.names := fun hsame =>
              hstored.apart (hnames _ rfl target htarget hsame).symm
            have hkept : saved.get? path.names = some (.file content) := by
              rcases hstored.elsewhere _ (mt Disk.SameFile.symm hother) with heq | ⟨hnone, -⟩
              · exact heq.trans hfile
              · simp [hnone] at hfile
            obtain ⟨hwrite, hnew, hgrows, hnewRead⟩ :=
              write_of_read hfree hplain hguard hread stripped hstored.isTree hstored.grows hkept
            have helsewhere {location : Location} (hlocation : ¬disk.SameFile path.names location) :
                (saved.store path.names stripped).get? location = saved.get? location :=
              Disk.get?_store_of_not_sameFile (mt hstored.grows.sameFile_iff.1 hlocation) _
            have hsaved := Disk.read_plain_of_file hnew (hgrows.dir hhere) hstored.spells
              hstored.accepted ((helsewhere hother).trans hstored.there)
            obtain ⟨more, hmore, -, hcomponents⟩ := hplace.below
            dsimp only
            rw [hwrite]
            refine .replaced hdry rfl hread hstrip hsame hnewRead hsaved ?_ ?_ ?_
            · exact hcomponents ▸ List.prefix_append _ _
            · simpa [hcomponents] using hmore
            · intro location hpath htarget
              rw [helsewhere hpath]
              exact hstored.elsewhere location htarget

end Tells

end Run
end Uncomment

import Uncomment.Proofs.Disk.LinkFree
import Uncomment.Proofs.Run.Places

/-!
# Disks that are alike to a job

What comes of a job depends on little of the disk: the content of its file, whether a directory
stands at the place of its backup or a file above it, and what is guarded.  On two disks that
agree on this (`Alike`) the job has the same outcome, and it puts the same entries
(`Run.exists_behaves`).
-/

namespace Uncomment

theorem Disk.LinkFree.plainBackups {disk : Disk} (h : disk.LinkFree) : disk.PlainBackups :=
  fun item hitem hlink => by simp [h item hitem] at hlink

namespace Run

/-- What is put where, if anything. -/
abbrev Effect := Location → Option Entry

/-- A disk is left with the entries that were put, and is as before elsewhere. -/
def Effect.Leaves (effect : Effect) (disk left : Disk) : Prop :=
  ∀ location, left.get? location = (effect location).or (disk.get? location)

/-- Directories on the way to a location. -/
def Effect.dirs (location : Location) : Effect := fun other =>
  if other <+: location then some .dir else none

/-- An effect with a content in one more file, under all its names. -/
def Effect.withFile
    (effect : Effect)
    (disk : Disk)
    (location : Location)
    (content : Bytes) :
    Effect :=
  fun other => if disk.SameFile location other then some (.file content) else effect other

namespace Effect

variable {disk now left : Disk} {effect : Effect} {location : Location} {content : Bytes}

theorem leaves_nothing (disk : Disk) : Effect.Leaves (fun _ => none) disk disk :=
  fun _ => rfl

theorem Leaves.store
    (h : effect.Leaves now left)
    (htree : left.IsTree) (hgrows : disk.Grows left)
    (hne : location ≠ []) :
    (effect.withFile disk location content).Leaves now (left.store location content) := by
  intro other
  have hsame : left.SameFile location other ↔ disk.SameFile location other := hgrows.sameFile_iff
  rw [htree.get?_store hne, withFile]
  simp only [hsame]
  split_ifs
  · rfl
  · exact h other

end Effect

/--
A disk that has grown from another one and agrees with it on what a job sees: its file and,
if that can be read, whether the place of its backup is a directory and which files stand above
that place.
-/
structure Alike
    (disk : Disk)
    (here : Location)
    (job : Job)
    (place : Location)
    (now : Disk) : Prop where
  tree : now.IsTree
  grows : disk.Grows now
  own : ∀ content, disk.read here job.path = .ok content →
    now.read here job.path = .ok content
  target : ∀ content, disk.read here job.path = .ok content → job.backup ≠ none →
    now.get? place = some .dir → disk.get? place = some .dir
  above : ∀ content, disk.read here job.path = .ok content → job.backup ≠ none →
    ∀ front, front <+: place → front ≠ place → ∀ kept, now.get? front = some (.file kept) →
      ∃ old, disk.get? front = some (.file old)

variable {disk now left : Disk} {here : Location} {settings : Settings} {stamp : String}
  {job : Job} {base rest front actual place : Location} {name : String}
  {content : Bytes} {dir : Backup}

theorem Alike.refl (htree : disk.IsTree) : Alike disk here job place disk :=
  ⟨htree, .refl disk, fun _ h => h, fun _ _ _ h => h, fun _ _ _ _ _ _ kept h => ⟨kept, h⟩⟩

/-- Without links a job is for what stands where its path says. -/
theorem IsQueued.eq_actual
    (hqueued : IsQueued disk here settings stamp job base rest actual)
    (hfree : disk.LinkFree) :
    actual = base ++ rest :=
  (hfree.direct _).eq_of_follow hqueued.leads

/-- A file that cannot be read at first cannot be read later either. -/
theorem IsQueued.read_eq_error {e : OsError}
    (hqueued : IsQueued disk here settings stamp job base rest actual)
    (hgrows : disk.Grows now)
    (h : disk.read here job.path = .error e) :
    now.read here job.path = .error e := by
  cases hreject : Disk.rejection? job.path with
  | some refused =>
      rw [Disk.read, hreject] at h ⊢
      exact h
  | none =>
      have hlocate := hqueued.locate_eq hreject
      have hlocateNow : now.locate here job.path = .ok actual := by
        rw [hqueued.path] at hreject ⊢
        exact (Disk.locate_toPath hqueued.spelled (hgrows.dir hqueued.here)
          (Disk.hasZero_of_rejection? hreject)).2 (hqueued.leads.grows hgrows)
      rcases hqueued.found with ⟨⟨content, hget⟩, -⟩ | hdir
      · rw [(hqueued.read_eq_ok_iff (.refl disk)).2 ⟨hreject, hget⟩] at h
        cases h
      · rw [Disk.read, hreject, hlocate] at h
        rw [Disk.read, hreject, hlocateNow]
        dsimp only at h ⊢
        rw [hgrows.dir hdir]
        rwa [hdir] at h

theorem prepare_of_makeDirs {target parent : Path} {result : Except OsError Unit} {ready : Disk}
    (hparent : target.parent? = some parent)
    (h : disk.makeDirs here parent = (result, ready)) :
    Backup.prepare disk here target =
      (result.mapError fun e =>
        ⟨["Failed to create backup dir " ++ parent.toString], e.message⟩, ready) := by
  rw [Backup.prepare, hparent]
  dsimp only
  rw [h]
  cases result <;> rfl

section Save

variable {above : Location}
  (hfree : disk.LinkFree)
  (hqueued : IsQueued disk here settings stamp job base rest actual)
  (hplace : Backup.placeFor base stamp ++ rest = above ++ [name])
  (hdir : job.backup = some dir)
  (hread : disk.read here job.path = .ok content)

include hfree hqueued hplace hdir hread

theorem exists_makeDirs :
    ∃ (result : Except OsError Unit) (effect : Effect),
      (∀ other entry, effect other = some entry →
        other <+: above ∧ entry = .dir ∧ ∀ kept, disk.get? other ≠ some (.file kept)) ∧
      (result = .ok () → effect above = some .dir) ∧
      ∀ now, Alike disk here job (above ++ [name]) now →
        ∃ ready, now.makeDirs here above.toPath = (result, ready) ∧
          effect.Leaves now ready := by
  have hspelled : above.IsSpelled :=
    hqueued.spelled_place.of_isPrefix (hplace ▸ List.prefix_append above [name])
  cases hreject : Disk.rejection? above.toPath with
  | some e =>
      exact ⟨.error e, fun _ => none, by simp, by simp, fun now _ =>
        ⟨now, Disk.makeDirs_of_rejection hspelled hreject, Effect.leaves_nothing now⟩⟩
  | none =>
      by_cases hfile : ∃ other, other <+: above ∧ ∃ kept, disk.get? other = some (.file kept)
      · obtain ⟨other, hother, kept, hget⟩ := hfile
        refine ⟨.error (if other = above then .alreadyExists else .notDirectory), fun _ => none,
          by simp, by simp, fun now halike => ⟨now, ?_, Effect.leaves_nothing now⟩⟩
        obtain ⟨kept', hget'⟩ := halike.grows.file hget
        exact Disk.makeDirs_of_file halike.tree hspelled (halike.grows.dir hqueued.here)
          ((hfree.grows halike.grows halike.tree).direct _) hreject hother hget'
      · refine ⟨if Disk.fitting above = above then .ok () else .error .nameTooLong,
          Effect.dirs (Disk.fitting above), fun other entry h => ?_, fun h => ?_,
          fun now halike => ?_⟩
        · rw [Effect.dirs] at h
          split_ifs at h with hbelow
          have hother := hbelow.trans (Disk.fitting_isPrefix above)
          exact ⟨hother, (Option.some.inj h).symm, fun kept hget =>
            hfile ⟨other, hother, kept, hget⟩⟩
        · split_ifs at h with hfits
          rw [hfits, Effect.dirs, if_pos List.prefix_rfl]
        · have hnow := hfree.grows halike.grows halike.tree
          have hway : now.Free above := hnow.free fun other hother kept hget => by
            have hne : other ≠ above ++ [name] := by
              rintro rfl
              simpa using hother.length_le
            obtain ⟨old, hold⟩ := halike.above content hread (by simp [hdir]) other
              (hother.trans (List.prefix_append above [name])) hne kept hget
            exact hfile ⟨other, hother, old, hold⟩
          obtain ⟨ready, heq, hready⟩ := Disk.makeDirs_of_free halike.tree hspelled
            (halike.grows.dir hqueued.here) hway hreject
          refine ⟨ready, heq, fun other => ?_⟩
          rw [hready, Effect.dirs]
          split_ifs <;> rfl

/-- In a directory that was made, the content is written in the same way. -/
theorem write_of_leaves {dirs : Effect} {ready : Disk}
    (hdirs : ∀ other entry, dirs other = some entry → other <+: above)
    (hmade : dirs above = some .dir)
    (halike : Alike disk here job (above ++ [name]) now)
    (hadds : now.AddsDirs ready)
    (hready : dirs.Leaves now ready) :
    ready.write here (Location.toPath (above ++ [name])) content =
      (Disk.writable (Location.toPath (above ++ [name])) name (disk.isGuarded (above ++ [name]))
        (disk.get? (above ++ [name]))).map fun () => ready.store (above ++ [name]) content := by
  have hreadyTree := hadds.isTree halike.tree
  have hreadyFree := (hfree.grows halike.grows halike.tree).grows hadds.grows hreadyTree
  have hdirReady : ready.get? above = some .dir := by
    rw [hready, hmade, Option.some_or]
  have hgrows := halike.grows.trans hadds.grows
  have hlast : ready.get? (above ++ [name]) = now.get? (above ++ [name]) := by
    rw [hready]
    cases hnone : dirs (above ++ [name]) with
    | none => rfl
    | some entry => simpa using (hdirs _ _ hnone).length_le
  have hstands : ready.get? (above ++ [name]) = some .dir ↔
      disk.get? (above ++ [name]) = some .dir :=
    ⟨fun h => halike.target content hread (by simp [hdir]) (hlast ▸ h), hgrows.dir⟩
  rw [Disk.write_concat hreadyTree (hplace ▸ hqueued.spelled_place) (hgrows.dir hqueued.here)
    hdirReady (fun _ => hreadyFree.get?_ne_link), Disk.writable_congr hstands, hgrows.isGuarded_eq]

theorem exists_save :
    ∃ (result : Except Failure Path) (effect : Effect),
      (∀ other entry, effect other = some entry →
        disk.SameFile (above ++ [name]) other ∨
          other <+: above ∧ entry = .dir ∧ ∀ kept, disk.get? other ≠ some (.file kept)) ∧
      ∀ now, Alike disk here job (above ++ [name]) now →
        ∃ saved, Backup.save now here dir job.path content = (result, saved) ∧
          effect.Leaves now saved := by
  obtain ⟨made, dirs, hdirs, hmade, hmake⟩ :=
    exists_makeDirs hfree hqueued hplace hdir hread
  have hspelled := hqueued.spelled_place
  have htarget := hqueued.target?_eq hdir (hqueued.rest_ne_nil (.refl disk) hread)
  rw [hplace] at hspelled htarget
  have hparent := Location.parent?_toPath hspelled
  cases made with
  | error e =>
      refine ⟨.error ⟨["Failed to create backup dir " ++ above.toPath.toString], e.message⟩, dirs,
        fun other entry h => .inr (hdirs other entry h), fun now halike => ?_⟩
      obtain ⟨ready, heq, hready⟩ := hmake now halike
      refine ⟨ready, ?_, hready⟩
      rw [Backup.save, htarget]
      dsimp only
      rw [prepare_of_makeDirs hparent heq]
      rfl
  | ok =>
      have hwrite : ∀ now, Alike disk here job (above ++ [name]) now →
          ∃ ready, Backup.prepare now here (Location.toPath (above ++ [name])) = (.ok (), ready) ∧
            now.AddsDirs ready ∧ dirs.Leaves now ready ∧
              ready.write here (Location.toPath (above ++ [name])) content =
                (Disk.writable (Location.toPath (above ++ [name])) name
                  (disk.isGuarded (above ++ [name])) (disk.get? (above ++ [name]))).map
                  fun () => ready.store (above ++ [name]) content := by
        intro now halike
        obtain ⟨ready, heq, hready⟩ := hmake now halike
        have hadds : now.AddsDirs ready := by
          simpa [heq] using Disk.makeDirs_addsDirs now here above.toPath
        exact ⟨ready, prepare_of_makeDirs hparent heq, hadds, hready,
          write_of_leaves hfree hqueued hplace hdir hread
            (fun other entry h => (hdirs other entry h).1) (hmade rfl) halike hadds hready⟩
      cases hwritable : Disk.writable (Location.toPath (above ++ [name])) name
          (disk.isGuarded (above ++ [name])) (disk.get? (above ++ [name])) with
      | error e =>
          refine ⟨.error ⟨["Failed to write backup " ++
              (Location.toPath (above ++ [name])).toString], e.message⟩, dirs,
            fun other entry h => .inr (hdirs other entry h), fun now halike => ?_⟩
          obtain ⟨ready, hprepare, -, hready, hwritten⟩ := hwrite now halike
          refine ⟨ready, ?_, hready⟩
          simp [Backup.save, htarget, hprepare, hwritten, hwritable, Except.map]
      | ok =>
          refine ⟨.ok (Location.toPath (above ++ [name])),
            dirs.withFile disk (above ++ [name]) content,
            fun other entry h => ?_, fun now halike => ?_⟩
          · rw [Effect.withFile] at h
            split_ifs at h with hother
            · exact .inl hother
            · exact .inr (hdirs other entry h)
          · obtain ⟨ready, hprepare, hadds, hready, hwritten⟩ := hwrite now halike
            refine ⟨ready.store (above ++ [name]) content, ?_,
              hready.store (hadds.isTree halike.tree) (halike.grows.trans hadds.grows) (by simp)⟩
            simp [Backup.save, htarget, hprepare, hwritten, hwritable, Except.map]

end Save

/-- What a job whose file can be read may put, and where. -/
structure IsEffect
    (disk : Disk)
    (here : Location)
    (job : Job)
    (place actual : Location)
    (effect : Effect) : Prop where
  reads {other : Location} {entry : Entry} :
    effect other = some entry → ∃ content, disk.read here job.path = .ok content
  places {other : Location} {entry : Entry} :
    effect other = some entry →
      disk.SameFile actual other ∨
        job.backup ≠ none ∧
          (disk.SameFile place other ∨
            other <+: place ∧ other ≠ place ∧ entry = .dir ∧
              ∀ kept, disk.get? other ≠ some (.file kept))

/-- On all disks that are alike a job has one result and one effect. -/
def Behaves
    (disk : Disk)
    (here : Location)
    (settings : Settings)
    (job : Job)
    (place : Location)
    (result : Except Fault Outcome)
    (effect : Effect) : Prop :=
  ∀ now, Alike disk here job place now →
    ∃ left,
      processFile now here settings job.path job.language job.backup =
          result.map (fun outcome => (outcome, left)) ∧
        effect.Leaves now left

theorem isEffect_nothing : IsEffect disk here job place actual fun _ => none :=
  ⟨fun h => (nomatch h), fun h => (nomatch h)⟩

/--
What comes of a job that has put something for its backup: its file is overwritten, unless it
is guarded.
-/
def overwrite
    (disk : Disk)
    (path : Path)
    (actual : Location)
    (stripped : Bytes)
    (target : Option Path)
    (effect : Effect) :
    Outcome × Effect :=
  if disk.isGuarded actual then
    (.failed ⟨["Failed to write " ++ path.toString], OsError.permissionDenied.message⟩, effect)
  else (.changed target, effect.withFile disk actual stripped)

theorem effect_overwrite_cases
    {path : Path} {stripped : Bytes} {target : Option Path} {effect : Effect} {other : Location}
    {entry : Entry}
    (h : (overwrite disk path actual stripped target effect).2 other = some entry) :
    disk.SameFile actual other ∨ effect other = some entry := by
  unfold overwrite Effect.withFile at h
  split_ifs at h
  · exact .inr h
  · dsimp only at h
    split_ifs at h with hother
    · exact .inl hother
    · exact .inr h

section Behaves

variable
  (hfree : disk.LinkFree)
  (hqueued : IsQueued disk here settings stamp job base rest actual)

include hqueued

/-- After a content was saved in the same way, the file is overwritten in the same way. -/
theorem exists_overwrite
    {saved : Disk} {effect : Effect} {target : Option Path} (stripped : Bytes)
    (hread : now.read here job.path = .ok content)
    (hnow : disk.Grows now) (hgrows : now.Grows saved) (htree : saved.IsTree)
    (hleaves : effect.Leaves now saved) :
    ∃ left,
      (match saved.write here job.path stripped with
        | .ok written => (Outcome.changed target, written)
        | .error e => (.failed ⟨["Failed to write " ++ job.path.toString], e.message⟩, saved)) =
          ((overwrite disk job.path actual stripped target effect).1, left) ∧
        (overwrite disk job.path actual stripped target effect).2.Leaves now left := by
  have hne : actual ≠ [] :=
    Disk.ne_nil_of_get? ((hqueued.read_eq_ok_iff hnow).1 hread).2 (by simp)
  rw [hqueued.write_eq hnow hread hgrows, overwrite]
  split_ifs
  · exact ⟨saved, rfl, hleaves⟩
  · exact ⟨saved.store actual stripped, rfl, hleaves.store htree (hnow.trans hgrows) hne⟩

include hfree

theorem exists_replace
    (stripped : Bytes)
    (hread : disk.read here job.path = .ok content) :
    ∃ (outcome : Outcome) (effect : Effect),
      IsEffect disk here job (Backup.placeFor base stamp ++ rest) actual effect ∧
      ∀ now, Alike disk here job (Backup.placeFor base stamp ++ rest) now →
        ∃ left, replace now here job.path job.backup content stripped = (outcome, left) ∧
          effect.Leaves now left := by
  cases hbackup : job.backup with
  | none =>
      refine ⟨(overwrite disk job.path actual stripped none fun _ => none).1,
        (overwrite disk job.path actual stripped none fun _ => none).2,
        ⟨fun _ => ⟨_, hread⟩, fun h => ?_⟩, fun now halike => ?_⟩
      · rcases effect_overwrite_cases h with hsame | hnone
        · exact .inl hsame
        · cases hnone
      · rw [replace, saveFirst]
        exact exists_overwrite hqueued stripped (halike.own content hread) halike.grows (.refl now)
          halike.tree (Effect.leaves_nothing now)
  | some dir =>
      have hrest := hqueued.rest_ne_nil (.refl disk) hread
      obtain ⟨above, name, hplace⟩ : ∃ above name,
          Backup.placeFor base stamp ++ rest = above ++ [name] := by
        cases rest using List.reverseRecOn with
        | nil => exact absurd rfl hrest
        | append_singleton front name => exact ⟨_, name, (List.append_assoc _ _ _).symm⟩
      obtain ⟨result, effect, hplaces, hsave⟩ :=
        exists_save hfree hqueued hplace hbackup hread
      rw [hplace]
      have hwhere {other : Location} {entry : Entry} (h : effect other = some entry) :
          job.backup ≠ none ∧ (disk.SameFile (above ++ [name]) other ∨
            other <+: above ++ [name] ∧ other ≠ above ++ [name] ∧ entry = .dir ∧
              ∀ kept, disk.get? other ≠ some (.file kept)) := by
        refine ⟨by simp [hbackup], ?_⟩
        rcases hplaces other entry h with heq | ⟨hother, hentry⟩
        · exact .inl heq
        · refine .inr ⟨hother.trans (List.prefix_append above [name]), ?_, hentry⟩
          rintro rfl
          simpa using hother.length_le
      cases result with
      | error failure =>
          refine ⟨.failed failure, effect, ⟨fun _ => ⟨_, hread⟩, fun h => .inr (hwhere h)⟩,
            fun now halike => ?_⟩
          obtain ⟨saved, heq, hleaves⟩ := hsave now halike
          refine ⟨saved, ?_, hleaves⟩
          rw [replace, saveFirst, heq]
      | ok target =>
          refine ⟨(overwrite disk job.path actual stripped (some target) effect).1,
            (overwrite disk job.path actual stripped (some target) effect).2,
            ⟨fun _ => ⟨_, hread⟩, fun h => (effect_overwrite_cases h).imp_right hwhere⟩,
            fun now halike => ?_⟩
          obtain ⟨saved, heq, hleaves⟩ := hsave now halike
          obtain ⟨hsaved, hgrows⟩ := Backup.grows_of_save halike.tree
            (halike.grows.dir hqueued.here) (hqueued.target?_eq hbackup hrest)
            hqueued.spelled_place heq
          rw [replace, saveFirst, heq]
          exact exists_overwrite hqueued stripped (halike.own content hread) halike.grows hgrows
            hsaved hleaves

/-- A job has one result and one effect on all disks that are alike. -/
theorem exists_behaves :
    ∃ (result : Except Fault Outcome) (effect : Effect),
      IsEffect disk here job (Backup.placeFor base stamp ++ rest) actual effect ∧
        Behaves disk here settings job (Backup.placeFor base stamp ++ rest) result effect := by
  cases hread : disk.read here job.path with
  | error e =>
      refine ⟨.ok (.failed ⟨["Failed to read " ++ job.path.toString], e.message⟩), fun _ => none,
        isEffect_nothing, fun now halike => ⟨now, ?_, Effect.leaves_nothing now⟩⟩
      rw [processFile, hqueued.read_eq_error halike.grows hread]
      rfl
  | ok content =>
      cases hgate : Gate.check settings.limits settings.force content with
      | some reason =>
          exact ⟨.ok (.skipped reason), fun _ => none, isEffect_nothing, fun now halike =>
            ⟨now, by simp [processFile, halike.own content hread, hgate, Except.map],
              Effect.leaves_nothing now⟩⟩
      | none =>
          cases hstrip : strip job.language content with
          | error fault =>
              exact ⟨.error fault, fun _ => none, isEffect_nothing, fun now halike =>
                ⟨now, by simp [processFile, halike.own content hread, hgate, hstrip, Except.map],
                  Effect.leaves_nothing now⟩⟩
          | ok stripped =>
              by_cases hsame : stripped = content
              · exact ⟨.ok .unchanged, fun _ => none, isEffect_nothing, fun now halike =>
                  ⟨now, by simp [processFile, halike.own content hread, hgate, hstrip, hsame,
                    Except.map], Effect.leaves_nothing now⟩⟩
              by_cases hdry : settings.dryRun = true
              · exact ⟨.ok (.changed none), fun _ => none, isEffect_nothing, fun now halike =>
                  ⟨now, by simp [processFile, halike.own content hread, hgate, hstrip, hsame, hdry,
                    Except.map], Effect.leaves_nothing now⟩⟩
              obtain ⟨outcome, effect, heffect, hreplace⟩ :=
                exists_replace hfree hqueued stripped hread
              refine ⟨.ok outcome, effect, heffect, fun now halike => ?_⟩
              obtain ⟨left, heq, hleaves⟩ := hreplace now halike
              refine ⟨left, ?_, hleaves⟩
              rw [processFile_of_changes (halike.own content hread) hgate hstrip hsame
                (by simpa using hdry), heq]
              rfl

end Behaves

end Run
end Uncomment

import Uncomment.Proofs.Disk.Growth

/-!
# Following the path of a location

A location that is named in a path need not be where its entry is, since links may stand on
the way.  `Disk.Leads` says to which location a path comes.  It decides what is read
(`read_toPath_eq_ok_iff`) and what is written (`exists_of_write`), and it stays as it is
while the disk grows.

Without links on the way a path comes to the location that it names
(`eq_of_follow`, `Leads.self`).
-/

namespace Uncomment

namespace Location

/-- The steps that take the names of a location one after the other. -/
def steps (location : Location) : List Disk.Step :=
  location.map fun name => .take (.normal name)

variable {location : Location}

theorem IsSpelled.areSpelled_steps (h : location.IsSpelled) : Disk.AreSpelled location.steps := by
  intro name hname
  obtain ⟨other, hother, heq⟩ := List.mem_map.1 hname
  cases heq
  exact h name hother

theorem steps_toPath (h : location.IsSpelled) :
    Disk.steps location.toPath = .take .root :: location.steps := by
  have hmap : (Component.root :: location.map .normal).map Disk.Step.take =
      .take .root :: location.steps := by
    simp [steps]
  rw [Disk.steps, components_toPath h, hmap]
  cases location using List.reverseRecOn with
  | nil => rfl
  | append_singleton front name =>
      obtain ⟨hempty, hdot, -⟩ := h name (by simp)
      -- the path ends in a word, so that neither a slash nor a dot asks for a directory
      have hnamed : Disk.withoutSlashes ("" :: (front ++ [name])) = "" :: (front ++ [name]) := by
        rw [Disk.withoutSlashes, ← List.cons_append, List.reverse_concat,
          List.dropWhile_cons_of_neg (by simpa using hempty), ← List.reverse_concat,
          List.reverse_reverse]
      rw [toPath_of_ne_nil (by simp), hnamed, ← List.cons_append, List.getLast?_concat]
      dsimp only
      split
      · next heq => exact absurd (Option.some.inj heq) hdot
      · simp
      · next heq => cases heq

end Location

namespace Disk

variable {disk old new : Disk} {here location actual base rest : Location} {name : String}
  {entry : Entry} {content : Bytes} {create : Bool} {budget : Nat}

/-- The names of a location, followed from the top, come to a location. -/
def Leads (disk : Disk) (location actual : Location) : Prop :=
  disk.follow false linkBudget [] location.steps = .ok actual

theorem Leads.grows (h : old.Leads location actual) (hgrows : old.Grows new) :
    new.Leads location actual :=
  follow_grows hgrows (fun hfalse : false = true => nomatch hfalse) h

theorem Leads.unique {other : Location}
    (h : disk.Leads location actual) (h' : disk.Leads location other) : actual = other :=
  Except.ok.inj (h.symm.trans h')

section Follow

variable {onLink : Location → List Step → Except OsError Location}

/-- Names that lead to an entry that is no link may be taken first. -/
theorem followUntilLink_append
    (htree : disk.IsTree)
    (hget : disk.get? (base ++ rest) = some entry) (hentry : ∀ target, entry ≠ .link target)
    (more : Location) :
    followUntilLink disk create onLink base (Location.steps (rest ++ more)) =
      followUntilLink disk create onLink (base ++ rest) more.steps := by
  induction rest generalizing base with
  | nil => simp
  | cons name rest ih =>
      have hname : IsName name := htree.isName_of_mem hget (by simp)
      have hbase : disk.get? base = some .dir :=
        htree.get?_of_isPrefix hget (List.prefix_append _ _) (by simp)
      rw [List.append_cons] at hget ⊢
      have hnext : ∃ found, disk.get? (base ++ [name]) = some found ∧
          ∀ target, found ≠ .link target := by
        by_cases heq : rest = []
        · subst heq
          exact ⟨entry, by simpa using hget, hentry⟩
        · exact ⟨.dir, htree.get?_of_isPrefix hget (List.prefix_append _ _) (by simpa using heq),
            by simp⟩
      obtain ⟨found, hfound, hnoLink⟩ := hnext
      have hslash : (!(Location.steps (rest ++ more)).isEmpty &&
          (Location.steps (rest ++ more)).all fun step => decide (step = .demandDir)) = false := by
        cases rest ++ more <;> simp [Location.steps]
      rw [List.cons_append, Location.steps, List.map_cons, followUntilLink.eq_def]
      dsimp only
      rw [hbase]
      dsimp only
      rw [Bool.and_assoc, ← Location.steps, hslash, Bool.and_false, if_neg Bool.false_ne_true,
        if_neg (not_lt.2 hname.2), hfound]
      cases found with
      | link target => exact absurd rfl (hnoLink target)
      | file _ => exact ih hget
      | dir => exact ih hget

/-- Without links on the way names lead to the location that they spell. -/
theorem follow_eq
    (htree : disk.IsTree)
    (hget : disk.get? (base ++ rest) = some entry) (hentry : ∀ target, entry ≠ .link target) :
    disk.follow create budget base rest.steps = .ok (base ++ rest) := by
  rw [← List.append_nil rest]
  cases budget <;> exact (followUntilLink_append htree (by simpa using hget) hentry []).trans
    (by simp [Location.steps, followUntilLink])

/-- Names lead nowhere past a file. -/
theorem follow_past_file
    (htree : disk.IsTree)
    (hget : disk.get? base = some (.file content)) (hrest : rest ≠ []) :
    disk.follow false budget [] (Location.steps (base ++ rest)) = .error .notDirectory := by
  have hpast {onLink : Location → List Step → Except OsError Location} :
      followUntilLink disk false onLink [] (Location.steps (base ++ rest)) =
        .error .notDirectory := by
    have htop : disk.get? ([] ++ base) = some (.file content) := hget
    rw [followUntilLink_append htree htop (by simp)]
    cases rest with
    | nil => exact absurd rfl hrest
    | cons name rest => simp [Location.steps, followUntilLink, hget]
  cases budget <;> exact hpast

/-- If no link stands on the way, names lead nowhere but to the location that they spell. -/
theorem eq_of_followUntilLink
    (hnoLink : ∀ front, front <+: rest → ∀ target,
      disk.get? (base ++ front) ≠ some (.link target))
    (h : followUntilLink disk create onLink base rest.steps = .ok location) :
    location = base ++ rest := by
  induction rest generalizing base with
  | nil => simpa [Location.steps, followUntilLink] using (Except.ok.inj h).symm
  | cons name rest ih =>
      have hnext : ∀ front, front <+: rest → ∀ target,
          disk.get? (base ++ [name] ++ front) ≠ some (.link target) := by
        intro front hfront target
        rw [← List.append_cons]
        exact hnoLink _ ((List.prefix_cons_inj name).2 hfront) target
      rw [List.append_cons]
      unfold followUntilLink at h
      rw [Location.steps, List.map_cons] at h
      dsimp only at h
      split at h
      · split at h
        · cases h
        split at h
        · cases h
        split at h
        · split at h
          · next hcreate =>
              have hrest := List.isEmpty_iff.1 (Bool.and_eq_true_iff.1 hcreate).2
              rw [List.map_eq_nil_iff.1 hrest, List.append_nil]
              exact (Except.ok.inj h).symm
          · cases h
        · next target hlink =>
            exact absurd hlink (hnoLink [name] (by simp) target)
        · exact ih hnext h
      · cases h
      · cases h

theorem eq_of_follow
    (hnoLink : ∀ front, front <+: rest → ∀ target,
      disk.get? (base ++ front) ≠ some (.link target))
    (h : disk.follow create budget base rest.steps = .ok location) :
    location = base ++ rest := by
  cases budget <;> exact eq_of_followUntilLink hnoLink h

end Follow

/-- No link stands on the way to a location, nor at it. -/
def Direct (disk : Disk) (location : Location) : Prop :=
  ∀ front, front <+: location → ∀ target, disk.get? front ≠ some (.link target)

theorem Direct.grows (h : old.Direct location) (hgrows : old.Grows new) : new.Direct location :=
  fun front hfront target hget => h front hfront target (hgrows.link.1 hget)

theorem Direct.eq_of_follow
    (h : disk.Direct location)
    (hfollow : disk.follow create budget [] location.steps = .ok actual) :
    actual = location := by
  have htop : ∀ front, front <+: location → ∀ target,
      disk.get? ([] ++ front) ≠ some (.link target) := h
  exact Disk.eq_of_follow htop hfollow

theorem Leads.self
    (htree : disk.IsTree)
    (hget : disk.get? location = some entry) (hentry : ∀ target, entry ≠ .link target) :
    disk.Leads location location := by
  have htop : disk.get? ([] ++ location) = some entry := hget
  exact follow_eq htree htop hentry

section Snoc

variable {onLink : Location → List Step → Except OsError Location} {steps : List Step}

theorem followUntilLink_snoc
    (hdir : disk.get? actual = some .dir)
    (hname : name.utf8ByteSize ≤ nameLimit)
    (hget : disk.get? (actual ++ [name]) = some entry) (hentry : ∀ target, entry ≠ .link target)
    (hlink : ∀ here steps, onLink here steps = .ok actual →
      onLink here (steps ++ [.take (.normal name)]) = .ok (actual ++ [name]))
    (h : followUntilLink disk false onLink here steps = .ok actual) :
    followUntilLink disk false onLink here (steps ++ [.take (.normal name)]) =
      .ok (actual ++ [name]) := by
  induction steps generalizing here with
  | nil =>
      obtain ⟨rfl⟩ := Except.ok.inj h
      cases entry with
      | link target => exact absurd rfl (hentry target)
      | dir | file => simp [followUntilLink, hdir, hget, not_lt.2 hname]
  | cons step rest ih =>
      rw [List.cons_append]
      unfold followUntilLink at h ⊢
      split at h
      · split at h
        · exact ih h
        · exact ih h
        · exact ih h
        · exact ih h
        · simp only [Bool.false_and, Bool.false_eq_true, if_false] at h ⊢
          split at h
          · cases h
          next hlong =>
          rw [if_neg hlong]
          split at h
          · cases h
          · rw [← List.append_assoc]
            exact hlink _ _ h
          · exact ih h
      · cases h
      · cases h

theorem follow_snoc
    (hdir : disk.get? actual = some .dir)
    (hname : name.utf8ByteSize ≤ nameLimit)
    (hget : disk.get? (actual ++ [name]) = some entry) (hentry : ∀ target, entry ≠ .link target)
    (h : disk.follow false budget here steps = .ok actual) :
    disk.follow false budget here (steps ++ [.take (.normal name)]) = .ok (actual ++ [name]) := by
  induction budget generalizing here steps with
  | zero =>
      refine followUntilLink_snoc hdir hname hget hentry (fun _ _ h => ?_) h
      cases h
  | succ budget ih =>
      exact followUntilLink_snoc hdir hname hget hentry (fun _ _ h => ih h) h

end Snoc

/-- From where a location leads to, names go on as long as no link stands there. -/
theorem Leads.snoc
    (h : disk.Leads location actual)
    (htree : disk.IsTree)
    (hget : disk.get? (actual ++ [name]) = some entry) (hentry : ∀ target, entry ≠ .link target) :
    disk.Leads (location ++ [name]) (actual ++ [name]) := by
  have hdir := htree.get?_parent hget
  have hname := (htree.isName_of_mem hget (by simp : name ∈ actual ++ [name])).2
  rw [Leads, Location.steps, List.map_append]
  exact follow_snoc hdir hname hget hentry h

section Create

variable {onLink onLink' : Location → List Step → Except OsError Location} {steps : List Step}

/-- A slash at the end of a path leads to a directory only. -/
theorem followUntilLink_demandDir
    (hlink : ∀ here steps, onLink here (steps ++ [.demandDir]) = .ok actual →
      disk.get? actual = some .dir)
    (h : followUntilLink disk false onLink here (steps ++ [.demandDir]) = .ok actual) :
    disk.get? actual = some .dir := by
  induction steps generalizing here with
  | nil =>
      rw [List.nil_append, followUntilLink.eq_def] at h
      dsimp only at h
      split at h
      · next hdir =>
          rw [followUntilLink] at h
          obtain ⟨rfl⟩ := Except.ok.inj h
          exact hdir
      · cases h
      · cases h
  | cons step rest ih =>
      rw [List.cons_append] at h
      unfold followUntilLink at h
      split at h
      · split at h
        · exact ih h
        · exact ih h
        · exact ih h
        · exact ih h
        · simp only [Bool.false_and, Bool.false_eq_true, if_false] at h
          split at h
          · cases h
          split at h
          · cases h
          · rw [← List.append_assoc] at h
            exact hlink _ _ h
          · exact ih h
      · cases h
      · cases h

theorem follow_demandDir
    (h : disk.follow false budget here (steps ++ [.demandDir]) = .ok actual) :
    disk.get? actual = some .dir := by
  induction budget generalizing here steps with
  | zero =>
      refine followUntilLink_demandDir (fun _ _ h => ?_) h
      cases h
  | succ budget ih => exact followUntilLink_demandDir (fun _ _ h => ih h) h

/-- What leads to a file leads there also if the file might be created. -/
theorem followUntilLink_create
    (hfile : disk.get? actual = some (.file content))
    (hlink : ∀ here steps, onLink here steps = .ok actual → onLink' here steps = .ok actual)
    (hdir : ∀ here steps, onLink here (steps ++ [.demandDir]) = .ok actual →
      disk.get? actual = some .dir)
    (h : followUntilLink disk false onLink here steps = .ok actual) :
    followUntilLink disk true onLink' here steps = .ok actual := by
  induction steps generalizing here with
  | nil => exact h
  | cons step rest ih =>
      -- after a name slashes alone would demand a directory, which a file is not
      have hslash : (!rest.isEmpty && rest.all (· = .demandDir)) = false := by
        rw [Bool.eq_false_iff]
        intro hall
        obtain ⟨hne, hall⟩ := Bool.and_eq_true_iff.1 hall
        cases rest using List.reverseRecOn with
        | nil => cases hne
        | append_singleton front last =>
            obtain rfl : last = .demandDir := by simpa using List.all_eq_true.1 hall last (by simp)
            rw [← List.cons_append] at h
            rw [followUntilLink_demandDir hdir h] at hfile
            cases hfile
      unfold followUntilLink at h ⊢
      split at h
      · split at h
        · exact ih h
        · exact ih h
        · exact ih h
        · exact ih h
        · simp only [Bool.false_and, Bool.false_eq_true, if_false, Bool.true_and, hslash] at h ⊢
          split at h
          · cases h
          next hlong =>
          rw [if_neg hlong]
          split at h
          · cases h
          · exact hlink _ _ h
          · exact ih h
      · cases h
      · cases h

theorem follow_create
    (hfile : disk.get? actual = some (.file content))
    (h : disk.follow false budget here steps = .ok actual) :
    disk.follow true budget here steps = .ok actual := by
  induction budget generalizing here steps with
  | zero =>
      refine followUntilLink_create hfile (fun _ _ h => ?_) (fun _ _ h => ?_) h
      · cases h
      · cases h
  | succ budget ih =>
      exact followUntilLink_create hfile (fun _ _ h => ih h) (fun _ _ h => follow_demandDir h) h

end Create

theorem follow_root (hhere : disk.get? here = some .dir) (steps : List Step) :
    disk.follow create budget here (.take .root :: steps) =
      disk.follow create budget [] steps := by
  cases budget <;> simp only [follow, followUntilLink, hhere]

theorem isEmpty_toPath (hspelled : location.IsSpelled) : location.toPath.isEmpty = false := by
  cases location with
  | nil => rfl
  | cons name rest => simp [Path.isEmpty, Location.toPath, Path.ofLead]

/-- A path that is found is found along its steps. -/
theorem follow_of_locate {path : Path} (h : disk.locate here path = .ok location) :
    disk.follow false linkBudget here (Disk.steps path) = .ok location := by
  unfold locate at h
  split at h
  · cases h
  split at h
  · cases h
  · exact h

theorem get?_of_locate {path : Path} (h : disk.locate here path = .ok location) :
    disk.get? here = some .dir := by
  unfold locate at h
  split at h
  · cases h
  split at h
  · cases h
  next hempty =>
  have hne : steps path ≠ [] := by
    rw [steps]
    exact List.append_ne_nil_of_left_ne_nil
      (by simpa using Path.components_ne_nil (Bool.eq_false_iff.2 hempty)) _
  have hdir {onLink : Location → List Step → Except OsError Location}
      (h : followUntilLink disk false onLink here (steps path) = .ok location) :
      disk.get? here = some .dir := by
    cases hsteps : steps path with
    | nil => exact absurd hsteps hne
    | cons step rest =>
        rw [hsteps] at h
        unfold followUntilLink at h
        split at h
        · assumption
        · cases h
        · cases h
  exact hdir h

theorem leads_of_locate
    (hspelled : location.IsSpelled)
    (hhere : disk.get? here = some .dir)
    (h : disk.locate here location.toPath = .ok actual) :
    disk.Leads location actual := by
  unfold locate at h
  split at h
  · cases h
  split at h
  · cases h
  rwa [Location.steps_toPath hspelled, follow_root hhere] at h

theorem hasZero_of_rejection? {path : Path} (h : rejection? path = none) :
    hasZero path = false := by
  unfold rejection? at h
  split at h
  · cases h
  · next hzero => exact Bool.eq_false_iff.2 hzero

/-- The steps of a path take the names of a location from the top. -/
def Spells (path : Path) (location : Location) : Prop :=
  Disk.steps path = .take .root :: location.steps

theorem spells_toPath (hspelled : location.IsSpelled) : Spells location.toPath location :=
  Location.steps_toPath hspelled

namespace Spells

variable {path : Path}

theorem isEmpty_eq_false (h : Spells path location) : path.isEmpty = false := by
  obtain ⟨segments⟩ := path
  rw [Bool.eq_false_iff]
  intro hempty
  rcases segments with _ | ⟨segment, _ | ⟨second, more⟩⟩
  · cases h
  · obtain rfl : segment = "" := by simpa [Path.isEmpty] using hempty
    cases h
  · simp [Path.isEmpty] at hempty

theorem locate_eq_ok_iff
    (h : Spells path location)
    (hhere : disk.get? here = some .dir)
    (hzero : hasZero path = false) :
    disk.locate here path = .ok actual ↔ disk.Leads location actual := by
  rw [locate, hzero, h.isEmpty_eq_false, show Disk.steps path = _ from h, follow_root hhere]
  rfl

/-- A path is read from the file to which it leads, unless the system refuses it. -/
theorem read_eq_ok_iff
    (h : Spells path location)
    (hhere : disk.get? here = some .dir) :
    disk.read here path = .ok content ↔
      rejection? path = none ∧
        ∃ actual, disk.Leads location actual ∧ disk.get? actual = some (.file content) := by
  unfold read
  cases hreject : rejection? path with
  | some e => simp
  | none =>
      have hlocate {actual : Location} :
          disk.locate here path = .ok actual ↔ disk.Leads location actual :=
        h.locate_eq_ok_iff hhere (hasZero_of_rejection? hreject)
      dsimp only
      split
      · next e he =>
          refine ⟨fun h => (nomatch h), ?_⟩
          rintro ⟨-, actual, hleads, -⟩
          rw [hlocate.2 hleads] at he
          cases he
      · next actual hactual =>
          constructor
          · intro h
            split at h
            · next found hget =>
                obtain ⟨rfl⟩ := Except.ok.inj h
                exact ⟨rfl, actual, hlocate.1 hactual, hget⟩
            · cases h
            · cases h
          · rintro ⟨-, other, hleads, hget⟩
            obtain rfl := (hlocate.1 hactual).unique hleads
            rw [hget]

/-- What is written where a file is found is stored in it, unless the file is guarded. -/
theorem write_of_leads
    {kept : Bytes}
    (h : Spells path location)
    (hhere : disk.get? here = some .dir)
    (hreject : rejection? path = none)
    (hleads : disk.Leads location actual)
    (hget : disk.get? actual = some (.file kept)) :
    disk.write here path content =
      if disk.isGuarded actual then .error .permissionDenied
      else .ok (disk.store actual content) := by
  have hfollow : disk.follow true linkBudget [] location.steps = .ok actual :=
    follow_create hget hleads
  rw [write, hreject, show Disk.steps path = _ from h, follow_root hhere, hfollow]
  dsimp only
  rw [hget]

/-- What is written goes to one place, in which there is no file yet or an older one. -/
theorem exists_of_write
    (hspells : Spells path location)
    (htree : disk.IsTree)
    (hspelled : location.IsSpelled)
    (hhere : disk.get? here = some .dir)
    (h : disk.write here path content = .ok new) :
    ∃ place,
      disk.follow true linkBudget [] location.steps = .ok place ∧
        (disk.get? place = none ∨ ∃ old, disk.get? place = some (.file old)) ∧
          new = disk.store place content ∧ new.IsTree ∧ disk.Grows new ∧
            new.Leads location place ∧ new.read here path = .ok content := by
  unfold write at h
  split at h
  · cases h
  next hreject =>
  rw [show Disk.steps path = _ from hspells, follow_root hhere] at h
  split at h
  · cases h
  next place hplace =>
  split at h
  · cases h
  next hnotDir =>
  split at h
  · cases h
  obtain ⟨rfl⟩ := Except.ok.inj h
  have hfree : (disk.get? place = none ∨ ∃ old, disk.get? place = some (.file old)) ∧
      ∃ dir name, place = dir ++ [name] ∧ disk.get? dir = some .dir ∧ IsName name := by
    rcases follow_reached htree hspelled.areSpelled_steps (get?_top disk) hplace with
      ⟨entry, hget, hnoLink⟩ | ⟨-, hget, hnew⟩
    · cases entry with
      | dir => exact absurd hget hnotDir
      | link target => exact absurd rfl (hnoLink target)
      | file old =>
          refine ⟨.inr ⟨old, hget⟩, ?_⟩
          cases place using List.reverseRecOn with
          | nil => cases hget
          | append_singleton dir name =>
              exact ⟨dir, name, rfl,
                htree.get?_parent hget,
                htree.isName_of_mem hget (by simp)⟩
    · exact ⟨.inl hget, hnew⟩
  obtain ⟨hfree, dir, name, rfl, hdir, hname⟩ := hfree
  have hgrows := Grows.store htree hfree content
  have hfile : (disk.store (dir ++ [name]) content).get? (dir ++ [name]) = some (.file content) :=
    get?_store_self (by simp) content
  have hleads : (disk.store (dir ++ [name]) content).Leads location (dir ++ [name]) :=
    follow_grows hgrows (fun _ => ⟨content, hfile⟩) hplace
  refine ⟨dir ++ [name], hplace, hfree, rfl, htree.store hname hdir hnotDir, hgrows, hleads, ?_⟩
  exact (hspells.read_eq_ok_iff (hgrows.dir hhere)).2 ⟨hreject, _, hleads, hfile⟩

end Spells

theorem locate_toPath
    (hspelled : location.IsSpelled)
    (hhere : disk.get? here = some .dir)
    (hzero : hasZero location.toPath = false) :
    disk.locate here location.toPath = .ok actual ↔ disk.Leads location actual :=
  (spells_toPath hspelled).locate_eq_ok_iff hhere hzero

theorem read_toPath_eq_ok_iff
    (hspelled : location.IsSpelled)
    (hhere : disk.get? here = some .dir) :
    disk.read here location.toPath = .ok content ↔
      rejection? location.toPath = none ∧
        ∃ actual, disk.Leads location actual ∧ disk.get? actual = some (.file content) :=
  (spells_toPath hspelled).read_eq_ok_iff hhere

theorem exists_of_write
    (htree : disk.IsTree)
    (hspelled : location.IsSpelled)
    (hhere : disk.get? here = some .dir)
    (h : disk.write here location.toPath content = .ok new) :
    ∃ place,
      disk.follow true linkBudget [] location.steps = .ok place ∧
        (disk.get? place = none ∨ ∃ old, disk.get? place = some (.file old)) ∧
          new = disk.store place content ∧ new.IsTree ∧ disk.Grows new ∧
            new.Leads location place ∧ new.read here location.toPath = .ok content :=
  (spells_toPath hspelled).exists_of_write htree hspelled hhere h

end Disk
end Uncomment

import Mathlib.Data.List.Infix
import Uncomment.Backup
import Uncomment.Disk.Basic

/-!
# Paths of locations

The absolute path of a location is taken apart again by every operation on paths, as
long as its names are words: neither empty nor made of one or two dots.  So the parent
of such a path, its last name, what is left of it below another one, and the place of
a file in a backup directory are those of the location.

The main statement is `Backup.target?_make`: the content of a file that lies below the
root of a backup goes to the same place below its directory.
-/

namespace Uncomment

namespace Path

/-- Segments that stand for a name. -/
def IsWord (segment : String) : Prop :=
  segment ≠ "" ∧ segment ≠ "." ∧ segment ≠ ".."

instance (segment : String) : Decidable (IsWord segment) :=
  inferInstanceAs (Decidable (_ ∧ _))

variable {segment : String} {segments : List String}

theorem IsWord.not_isIdle (h : IsWord segment) : isIdle segment = false := by
  simp [isIdle, h.1, h.2.1]

theorem IsWord.componentOf (h : IsWord segment) : componentOf segment = .normal segment := by
  simp [Path.componentOf, h.2.2]

theorem bodyComponents_words (h : ∀ name ∈ segments, IsWord name) :
    bodyComponents segments = segments.map .normal := by
  rw [bodyComponents, List.filter_eq_self.2 fun name hname => by simp [(h name hname).not_isIdle]]
  exact List.map_congr_left fun name hname => (h name hname).componentOf

theorem dropWhile_isIdle_words (h : ∀ name ∈ segments, IsWord name) :
    segments.dropWhile isIdle = segments := by
  cases segments with
  | nil => rfl
  | cons name rest => exact List.dropWhile_cons_of_neg (by simp [(h name (by simp)).not_isIdle])

theorem trimBack_words (h : ∀ name ∈ segments, IsWord name) :
    trimBack segments = segments := by
  rw [trimBack, dropWhile_isIdle_words (by simpa using h), List.reverse_reverse]

/-- A word in front of a list of segments is no lead. -/
theorem leadAndBody_words
    (h : ∀ name ∈ segments, IsWord name) :
    (⟨segments⟩ : Path).leadAndBody = (.none, segments) := by
  cases segments with
  | nil => rfl
  | cons name rest =>
      obtain ⟨hempty, hdot, -⟩ := h name (by simp)
      unfold leadAndBody
      split
      · next heq => simp_all
      · next heq => simp_all
      · next heq => rfl

/-- What a path has as names are words. -/
theorem isWord_of_mem_components
    {path : Path} {name : String}
    (h : .normal name ∈ path.components) :
    IsWord name := by
  have hbody {body : List String} (hmem : Component.normal name ∈ bodyComponents body) :
      IsWord name := by
    obtain ⟨segment, hsegment, hname⟩ := List.mem_map.1 hmem
    have hidle := (List.mem_filter.1 hsegment).2
    unfold componentOf at hname
    split at hname
    · cases hname
    · cases hname
      simp_all [isIdle, IsWord]
  unfold components at h
  split at h
  · exact hbody h
  · exact hbody (by simpa using h)
  · exact hbody (by simpa using h)

theorem components_ne_nil {path : Path} (h : path.isEmpty = false) :
    path.components ≠ [] := by
  obtain ⟨segments⟩ := path
  unfold components leadAndBody
  split
  · next heq =>
      split at heq
      · cases heq
      · cases heq
      · next hroot hcurrent =>
          cases heq
          dsimp only at h hroot hcurrent
          cases segments with
          | nil => simp [isEmpty] at h
          | cons first rest =>
              have hfirst : isIdle first = false := by
                have hempty : first ≠ "" := by
                  rintro rfl
                  cases rest with
                  | nil => simp [isEmpty] at h
                  | cons second more => exact hroot second more rfl
                have hdot : first ≠ "." := by
                  rintro rfl
                  exact hcurrent rest rfl
                simp [isIdle, hempty, hdot]
              simp [bodyComponents, hfirst]
  · simp
  · simp

end Path

namespace Location

/-- Whether all names of a location are words. -/
def IsSpelled (location : Location) : Prop :=
  ∀ name ∈ location, Path.IsWord name

instance (location : Location) : Decidable location.IsSpelled :=
  inferInstanceAs (Decidable (∀ name ∈ location, Path.IsWord name))

variable {location base rest : Location} {name : String}

theorem isSpelled_append :
    IsSpelled (base ++ rest) ↔ base.IsSpelled ∧ rest.IsSpelled := by
  simp [IsSpelled, or_imp, forall_and]

theorem IsSpelled.of_isPrefix (h : location.IsSpelled) (hbelow : base <+: location) :
    base.IsSpelled :=
  fun name hname => h name (hbelow.subset hname)

/-- A location that is not the top is spelled with a slash in front. -/
theorem toPath_of_ne_nil (h : location ≠ []) : location.toPath = ⟨"" :: location⟩ := by
  cases location with
  | nil => exact absurd rfl h
  | cons _ _ => rfl

theorem leadAndBody_toPath (h : location ≠ []) :
    location.toPath.leadAndBody = (.root, location) := by
  cases location with
  | nil => exact absurd rfl h
  | cons _ _ => rfl

theorem components_toPath (h : location.IsSpelled) :
    location.toPath.components = .root :: location.map .normal := by
  by_cases hnil : location = []
  · subst hnil
    rfl
  · rw [Path.components, leadAndBody_toPath hnil]
    exact congrArg _ (Path.bodyComponents_words h)

theorem fileName?_toPath (h : location.IsSpelled) :
    location.toPath.fileName? = location.getLast? := by
  rw [Path.fileName?, components_toPath h]
  cases location using List.reverseRecOn with
  | nil => rfl
  | append_singleton front name =>
      rw [List.map_append, ← List.cons_append, List.map_singleton, List.getLast?_concat,
        List.getLast?_concat]

theorem parent?_toPath (h : IsSpelled (base ++ [name])) :
    (toPath (base ++ [name])).parent? = some base.toPath := by
  have hbase := (isSpelled_append.1 h).1
  rw [Path.parent?, leadAndBody_toPath (by simp)]
  simp only [Path.trimBack_words h, List.reverse_append, List.reverse_singleton,
    List.singleton_append, List.reverse_reverse, Path.trimBack_words hbase]
  rfl

/-- Words are joined to the path of a location as they are to the location. -/
theorem join_toPath (hbase : base.IsSpelled) (hrest : rest.IsSpelled) (hne : rest ≠ []) :
    base.toPath.join ⟨rest⟩ = toPath (base ++ rest) := by
  have hrelative : (⟨rest⟩ : Path).isAbsolute = false := by
    rw [Path.isAbsolute, Path.leadAndBody_words hrest]
    rfl
  have hjoined : base ++ rest ≠ [] := List.append_ne_nil_of_right_ne_nil base hne
  rw [Path.join, hrelative, if_neg Bool.false_ne_true, toPath_of_ne_nil hjoined]
  cases base using List.reverseRecOn with
  | nil => simp [toPath, Path.ofLead]
  | append_singleton front name =>
      have hname : name ≠ "" := (hbase name (by simp)).1
      have hlast : ("" :: (front ++ [name])).getLast? = some name := by
        rw [← List.cons_append, List.getLast?_concat]
      rw [toPath_of_ne_nil (by simp)]
      simp [hlast, hname]

theorem dropComponents_words
    (hspelled : location.IsSpelled) :
    Path.dropComponents (base.map .normal) location =
      if base <+: location then some (location.drop base.length) else none := by
  induction base generalizing location with
  | nil => simp [Path.dropComponents]
  | cons first base ih =>
      rw [List.map_cons, Path.dropComponents, Path.dropWhile_isIdle_words hspelled]
      cases location with
      | nil => simp
      | cons name rest =>
          have hname := hspelled name (by simp)
          dsimp only
          rw [hname.componentOf, ih fun other hother => hspelled other (by simp [hother])]
          by_cases heq : name = first
          · simp [heq]
          · simp [heq, List.cons_prefix_cons, Ne.symm heq]

/-- What is left of a path below another one, if it lies there, is what is left of the location. -/
theorem stripPrefix?_toPath (hspelled : location.IsSpelled) (hbase : base.IsSpelled) :
    location.toPath.stripPrefix? base.toPath =
      if base <+: location then some (.ofLead .none (location.drop base.length)) else none := by
  have hrest (count : Nat) :
      Path.remainder (location.drop count) = .ofLead .none (location.drop count) := by
    have hdrop : IsSpelled (location.drop count) := fun name hname =>
      hspelled name (List.mem_of_mem_drop hname)
    rw [Path.remainder, Path.dropWhile_isIdle_words hdrop, Path.trimBack_words hdrop]
  by_cases hnil : location = []
  · subst hnil
    cases base with
    | nil => rfl
    | cons first base =>
        rw [Path.stripPrefix?, components_toPath hbase]
        rfl
  · rw [Path.stripPrefix?, leadAndBody_toPath hnil, components_toPath hbase]
    dsimp only
    rw [if_pos rfl, dropComponents_words hspelled]
    split
    · rw [Option.map_some, hrest]
    · rfl

theorem isSome_stripPrefix?_toPath (hspelled : location.IsSpelled) (hbase : base.IsSpelled) :
    (location.toPath.stripPrefix? base.toPath).isSome ↔ base <+: location := by
  rw [stripPrefix?_toPath hspelled hbase]
  split <;> simp [*]

/-- What lies below a directory is shown under its names. -/
theorem display_toPath (hspelled : IsSpelled (base ++ rest)) (hne : rest ≠ []) :
    Path.display base.toPath (toPath (base ++ rest)) = Path.slashed ⟨rest⟩ := by
  obtain ⟨hbase, hrest⟩ := isSpelled_append.1 hspelled
  obtain ⟨name, more, rfl⟩ := List.exists_cons_of_ne_nil hne
  have hname := (hrest name (by simp)).1
  rw [Path.display, stripPrefix?_toPath hspelled hbase, if_pos (List.prefix_append base _),
    List.drop_left]
  simp [Path.ofLead, Path.isEmpty, hname]

theorem display_self (hspelled : IsSpelled (base ++ [name])) :
    Path.display (toPath (base ++ [name])) (toPath (base ++ [name])) = name := by
  rw [Path.display, stripPrefix?_toPath hspelled hspelled, if_pos List.prefix_rfl,
    List.drop_length, fileName?_toPath hspelled, List.getLast?_concat]
  rfl

theorem eq_of_components_toPath
    (hspelled : location.IsSpelled) (hbase : base.IsSpelled)
    (h : location.toPath.components = base.toPath.components) :
    location = base := by
  rw [components_toPath hspelled, components_toPath hbase] at h
  exact List.map_injective_iff.2 (fun _ _ => Component.normal.inj) (List.cons.inj h).2

theorem toPath_injective
    (hspelled : location.IsSpelled) (hbase : base.IsSpelled)
    (h : location.toPath = base.toPath) :
    location = base :=
  eq_of_components_toPath hspelled hbase (congrArg Path.components h)

end Location

namespace Backup

/-- The name of the directory that a run with a time stamp makes for a root. -/
def nameFor (root : Location) (stamp : String) : String :=
  root.getLast?.getD "root" ++ "_" ++ stamp

/-- The location of the directory that a run with a time stamp makes for a root. -/
def placeFor (root : Location) (stamp : String) : Location :=
  root ++ [folder, nameFor root stamp]

variable {root rest : Location} {stamp : String}

theorem underscore_mem_nameFor : '_' ∈ (nameFor root stamp).toList := by
  simp [nameFor]

theorem nameFor_ne {name : String} (h : '_' ∉ name.toList) : nameFor root stamp ≠ name :=
  fun heq => h (heq ▸ underscore_mem_nameFor)

theorem isSpelled_placeFor (hroot : root.IsSpelled) : (placeFor root stamp).IsSpelled := by
  refine Location.isSpelled_append.2 ⟨hroot, fun name hname => ?_⟩
  rcases List.mem_pair.1 hname with rfl | rfl
  · decide
  · exact ⟨nameFor_ne (by decide), nameFor_ne (by decide), nameFor_ne (by decide)⟩

theorem make_toPath (hroot : root.IsSpelled) :
    make root.toPath stamp = ⟨root.toPath, (placeFor root stamp).toPath⟩ := by
  have hplace : (root ++ [folder] ++ [nameFor root stamp]).IsSpelled := by
    rw [List.append_assoc]
    exact isSpelled_placeFor hroot
  obtain ⟨hfolder, hname⟩ := Location.isSpelled_append.1 hplace
  have hlast : root.toPath.fileName?.getD "root" ++ "_" ++ stamp = nameFor root stamp := by
    rw [Location.fileName?_toPath hroot, nameFor]
  unfold make
  rw [hlast, Location.join_toPath hroot (Location.isSpelled_append.1 hfolder).2 (by simp),
    Location.join_toPath hfolder hname (by simp), List.append_assoc]
  rfl

/-- The content of a file below a root goes to the same place below the backup directory. -/
theorem target?_make
    (hroot : root.IsSpelled) (hrest : rest.IsSpelled) (hne : rest ≠ []) :
    (make root.toPath stamp).target? (Location.toPath (root ++ rest)) =
      some (Location.toPath (placeFor root stamp ++ rest)) := by
  have hrelative : (⟨rest⟩ : Path).isEmpty = false := by
    cases rest with
    | nil => exact absurd rfl hne
    | cons name rest => simp [Path.isEmpty, (hrest name (by simp)).1]
  have hlead : Path.ofLead .none rest = ⟨rest⟩ := by
    cases rest with
    | nil => exact absurd rfl hne
    | cons name rest => rfl
  rw [make_toPath hroot, target?]
  dsimp only
  rw [Location.stripPrefix?_toPath (Location.isSpelled_append.2 ⟨hroot, hrest⟩) hroot,
    if_pos (List.prefix_append root rest), List.drop_left, hlead]
  simp only [hrelative, Bool.false_eq_true, if_false]
  rw [Location.join_toPath (isSpelled_placeFor hroot) hrest hne]

end Backup
end Uncomment

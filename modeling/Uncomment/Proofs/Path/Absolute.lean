import Uncomment.Proofs.Path.Location

/-!
# Absolute paths as they are written

A path that somebody has written may have empty segments and dots between its names, which
the path of a location has not.  What counts is its list of components: the operations on
absolute paths are described here by what they do to the components.

* `parent?` takes the last component away (`components_parent?`), and `join` puts those of
  the second path behind (`components_join`).
* `stripPrefix?` takes components away in front exactly if they are there
  (`isSome_stripPrefix?_iff`, `stripPrefix?_cases`).
* `Backup.isPlaceFor_of_target?` says where the content of a file goes: strictly below the backup
  directory, and never to the file itself.
-/

namespace Uncomment

namespace Component

/-- The name that a component is, if it is one. -/
def name? : Component → Option String
  | .normal name => some name
  | _ => none

end Component

namespace Path

/-- The names in a path, one after the other. -/
def names (path : Path) : Location :=
  path.components.filterMap Component.name?

/--
Absolute paths that only lead downwards: no component is two dots.  (A single dot behind the
slash at the front is no component.)
-/
structure IsPlain (path : Path) : Prop where
  absolute : path.isAbsolute = true
  noParent : Component.parent ∉ path.components

instance (path : Path) : Decidable path.IsPlain :=
  decidable_of_iff (path.isAbsolute = true ∧ Component.parent ∉ path.components)
    ⟨fun ⟨h₁, h₂⟩ => ⟨h₁, h₂⟩, fun ⟨h₁, h₂⟩ => ⟨h₁, h₂⟩⟩

/-- Paths that are spelled with a name at their end. -/
def EndsInName (path : Path) : Prop :=
  ∃ segment, path.segments.getLast? = some segment ∧ isIdle segment = false

variable {path base other : Path} {body : List String} {segment : String}

section Body

theorem bodyComponents_append (body more : List String) :
    bodyComponents (body ++ more) = bodyComponents body ++ bodyComponents more := by
  simp [bodyComponents]

theorem bodyComponents_cons_of_idle (h : isIdle segment = true) :
    bodyComponents (segment :: body) = bodyComponents body := by
  simp [bodyComponents, h]

theorem bodyComponents_cons (h : isIdle segment = false) :
    bodyComponents (segment :: body) = componentOf segment :: bodyComponents body := by
  simp [bodyComponents, h]

/-- Segments without a meaning stand for nothing at the front. -/
theorem bodyComponents_dropWhile (body : List String) :
    bodyComponents (body.dropWhile isIdle) = bodyComponents body := by
  induction body with
  | nil => rfl
  | cons segment body ih =>
      cases h : isIdle segment with
      | true => rw [List.dropWhile_cons_of_pos h, ih, bodyComponents_cons_of_idle h]
      | false => rw [List.dropWhile_cons_of_neg (by simp [h])]

/-- Segments without a meaning stand for nothing at the end. -/
theorem bodyComponents_trimBack (body : List String) :
    bodyComponents (trimBack body) = bodyComponents body := by
  have hreverse (body : List String) :
      bodyComponents body.reverse = (bodyComponents body).reverse := by
    simp [bodyComponents, List.filter_reverse]
  rw [trimBack, hreverse, bodyComponents_dropWhile, hreverse, List.reverse_reverse]

theorem isIdle_of_getLast?_trimBack (h : (trimBack body).getLast? = some segment) :
    isIdle segment = false := by
  rw [trimBack, List.getLast?_reverse] at h
  have hhead := List.head?_dropWhile_not isIdle body.reverse
  rw [h] at hhead
  simpa using hhead

end Body

/-- An absolute path is spelled with an empty segment in front of its body. -/
theorem exists_body (h : path.isAbsolute = true) :
    ∃ body, body ≠ [] ∧ path = ⟨"" :: body⟩ := by
  obtain ⟨segments⟩ := path
  unfold isAbsolute leadAndBody at h
  dsimp only at h
  split at h
  · next second more => exact ⟨second :: more, by simp, rfl⟩
  · cases h
  · cases h

theorem leadAndBody_root (h : body ≠ []) :
    (⟨"" :: body⟩ : Path).leadAndBody = (.root, body) := by
  cases body with
  | nil => exact absurd rfl h
  | cons second more => rfl

theorem isAbsolute_root (h : body ≠ []) : (⟨"" :: body⟩ : Path).isAbsolute = true := by
  rw [isAbsolute, leadAndBody_root h]
  rfl

theorem components_root (h : body ≠ []) :
    (⟨"" :: body⟩ : Path).components = .root :: bodyComponents body := by
  rw [components, leadAndBody_root h]

/-- A plain path consists of the root and its names. -/
theorem IsPlain.components_eq (h : path.IsPlain) :
    path.components = .root :: path.names.map .normal := by
  obtain ⟨body, hbody, rfl⟩ := exists_body h.absolute
  have hnoParent := h.noParent
  rw [names]
  rw [components_root hbody] at hnoParent ⊢
  have hnormal : ∀ component ∈ bodyComponents body, component ≠ .parent →
      ∃ name, component = .normal name := by
    intro component hmem hne
    obtain ⟨segment, -, rfl⟩ := List.mem_map.1 hmem
    unfold componentOf at hne ⊢
    split
    · next hdots => simp [hdots] at hne
    · exact ⟨segment, rfl⟩
  have hall : ∀ components : List Component,
      (∀ component ∈ components, ∃ name, component = .normal name) →
        components = (components.filterMap Component.name?).map .normal := by
    intro components hcomponents
    induction components with
    | nil => rfl
    | cons component more ih =>
        obtain ⟨name, rfl⟩ := hcomponents component (by simp)
        have hmore := ih fun other hother => hcomponents other (by simp [hother])
        exact congrArg (Component.normal name :: ·) hmore
  refine congrArg (Component.root :: ·) (hall _ fun component hmem => hnormal component hmem ?_)
  rintro rfl
  exact hnoParent (by simp [hmem])

theorem IsPlain.isSpelled_names (h : path.IsPlain) : path.names.IsSpelled := by
  intro name hname
  have hmem : .normal name ∈ path.components := by
    rw [h.components_eq]
    simp [hname]
  exact isWord_of_mem_components hmem

section Parent

/-- The parent of an absolute path lacks its last component. -/
theorem components_parent?
    (habsolute : path.isAbsolute = true)
    (h : path.parent? = some base) :
    base.isAbsolute = true ∧ ∃ last, path.components = base.components ++ [last] := by
  obtain ⟨body, hbody, rfl⟩ := exists_body habsolute
  rw [parent?, leadAndBody_root hbody] at h
  dsimp only at h
  split at h
  · next last front hreverse =>
      obtain rfl := Option.some.inj h
      have htrim : trimBack body = front.reverse ++ [last] := by
        rw [← List.reverse_reverse (trimBack body), hreverse, List.reverse_cons]
      have hend : (trimBack body).getLast? = some last := by
        rw [htrim, List.getLast?_concat]
      have hlast : isIdle last = false := isIdle_of_getLast?_trimBack hend
      have hcomponents : bodyComponents body =
          bodyComponents (trimBack front.reverse) ++ [componentOf last] := by
        rw [← bodyComponents_trimBack body, htrim, bodyComponents_append,
          bodyComponents_trimBack, bodyComponents_cons hlast]
        rfl
      rw [components_root hbody, hcomponents]
      by_cases hnil : trimBack front.reverse = []
      · rw [hnil]
        exact ⟨rfl, _, rfl⟩
      · have hparent : ofLead .root (trimBack front.reverse) = ⟨"" :: trimBack front.reverse⟩ := by
          cases hfront : trimBack front.reverse with
          | nil => exact absurd hfront hnil
          | cons => rfl
        rw [hparent, components_root hnil]
        exact ⟨isAbsolute_root hnil, _, rfl⟩
  · simp at h

theorem IsPlain.parent? (hplain : path.IsPlain) (h : path.parent? = some base) :
    base.IsPlain ∧ ∃ name, path.names = base.names ++ [name] := by
  obtain ⟨habsolute, last, hcomponents⟩ := components_parent? hplain.absolute h
  have hbase : base.IsPlain :=
    ⟨habsolute, fun hmem => hplain.noParent (by simp [hcomponents, hmem])⟩
  refine ⟨hbase, ?_⟩
  have hlast : Component.root :: path.names.map .normal =
      .root :: (base.names.map .normal ++ [last]) := by
    rw [← hplain.components_eq, hcomponents, hbase.components_eq, List.cons_append]
  have hmap := (List.cons.inj hlast).2
  obtain ⟨front, back, hnames, hfront, hback⟩ := List.map_eq_append_iff.1 hmap
  obtain ⟨name, rfl, -⟩ := List.map_eq_singleton_iff.1 hback
  obtain rfl := List.map_injective_iff.2 (fun _ _ => Component.normal.inj) hfront
  exact ⟨name, hnames⟩

end Parent

section Join

/-- A path without a lead is joined to an absolute one by its components. -/
theorem components_join
    (habsolute : path.isAbsolute = true)
    (hlead : (⟨body⟩ : Path).leadAndBody = (.none, body))
    (hbody : body ≠ []) :
    (path.join ⟨body⟩).isAbsolute = true ∧
      (path.join ⟨body⟩).components = path.components ++ bodyComponents body := by
  obtain ⟨front, hfront, rfl⟩ := exists_body habsolute
  have hrelative : (⟨body⟩ : Path).isAbsolute = false := by
    rw [isAbsolute, hlead]
    rfl
  rw [join, hrelative, if_neg Bool.false_ne_true, components_root hfront]
  split
  · next hlast =>
      obtain ⟨init, hinit⟩ : ∃ init, front = init ++ [""] := by
        rw [List.getLast?_cons, Option.some.injEq] at hlast
        cases front using List.reverseRecOn with
        | nil => exact absurd rfl hfront
        | append_singleton init last =>
            rw [List.getLast?_concat] at hlast
            exact ⟨init, by rw [show last = "" from hlast]⟩
      subst hinit
      have hdrop : ("" :: (init ++ [""])).dropLast = "" :: init := by
        rw [← List.cons_append, List.dropLast_concat]
      have hne : init ++ body ≠ [] := List.append_ne_nil_of_right_ne_nil init hbody
      have hidle : bodyComponents [""] = [] := rfl
      rw [hdrop, List.cons_append, components_root hne, bodyComponents_append,
        bodyComponents_append, hidle, List.append_nil]
      exact ⟨isAbsolute_root hne, rfl⟩
  · have hne : front ++ body ≠ [] := List.append_ne_nil_of_right_ne_nil front hbody
    rw [List.cons_append, components_root hne, bodyComponents_append]
    exact ⟨isAbsolute_root hne, rfl⟩

/-- A joined path ends as the second one does. -/
theorem getLast?_join
    (hrelative : (⟨body⟩ : Path).isAbsolute = false)
    (hbody : body ≠ []) :
    (path.join ⟨body⟩).segments.getLast? = body.getLast? := by
  rw [join, hrelative, if_neg Bool.false_ne_true]
  obtain ⟨last, hlast⟩ : ∃ last, body.getLast? = some last :=
    ⟨_, List.getLast?_eq_some_getLast hbody⟩
  split <;> simp [List.getLast?_append, hlast]

end Join

section StripPrefix

/-- What is left of a body without some components has the others. -/
theorem bodyComponents_of_dropComponents {components : List Component} {rest : List String}
    (h : dropComponents components body = some rest) :
    bodyComponents body = components ++ bodyComponents rest := by
  induction components generalizing body with
  | nil =>
      obtain rfl := Option.some.inj h
      rfl
  | cons component more ih =>
      rw [dropComponents] at h
      rw [← bodyComponents_dropWhile body]
      cases hbody : body.dropWhile isIdle with
      | nil =>
          rw [hbody] at h
          cases h
      | cons segment later =>
          rw [hbody] at h
          dsimp only at h
          have hidle : isIdle segment = false := by
            simpa [hbody] using List.head?_dropWhile_not isIdle body
          split at h
          · next heq => rw [bodyComponents_cons hidle, heq, ih h, List.cons_append]
          · cases h

theorem isSome_dropComponents {components : List Component}
    (h : components <+: bodyComponents body) :
    (dropComponents components body).isSome := by
  induction components generalizing body with
  | nil => rfl
  | cons component more ih =>
      rw [dropComponents]
      rw [← bodyComponents_dropWhile body] at h
      cases hbody : body.dropWhile isIdle with
      | nil => simp [hbody, bodyComponents] at h
      | cons segment later =>
          have hidle : isIdle segment = false := by
            simpa [hbody] using List.head?_dropWhile_not isIdle body
          rw [hbody, bodyComponents_cons hidle, List.cons_prefix_cons] at h
          dsimp only
          rw [if_pos h.1.symm]
          exact ih h.2

/-- What is left of a body, as a path: nothing, or segments that start and end with a meaning. -/
theorem remainder_cases (body : List String) :
    (remainder body).isEmpty = true ∧ bodyComponents body = [] ∨
      (remainder body).isEmpty = false ∧ ∃ rest, remainder body = ⟨rest⟩ ∧
        (⟨rest⟩ : Path).leadAndBody = (.none, rest) ∧ (⟨rest⟩ : Path).EndsInName ∧
          bodyComponents body = bodyComponents rest ∧ bodyComponents rest ≠ [] := by
  have hcomponents : bodyComponents (trimBack (body.dropWhile isIdle)) = bodyComponents body := by
    rw [bodyComponents_trimBack, bodyComponents_dropWhile]
  rw [remainder]
  cases hrest : trimBack (body.dropWhile isIdle) with
  | nil =>
      rw [hrest] at hcomponents
      exact .inl ⟨rfl, hcomponents.symm⟩
  | cons first more =>
      rw [hrest] at hcomponents
      have hfirst : isIdle first = false := by
        have hprefix : trimBack (body.dropWhile isIdle) <+: body.dropWhile isIdle := by
          rw [trimBack, ← List.reverse_suffix, List.reverse_reverse]
          exact List.dropWhile_suffix isIdle
        rw [hrest] at hprefix
        obtain ⟨later, hlater⟩ := hprefix
        have hhead := List.head?_dropWhile_not isIdle body
        rw [← hlater] at hhead
        simpa using hhead
      have hne : first ≠ "" ∧ first ≠ "." := by
        simpa [isIdle] using hfirst
      refine .inr ⟨?_, first :: more, rfl, ?_, ?_, hcomponents.symm, ?_⟩
      · simp [isEmpty, ofLead, hne.1]
      · unfold leadAndBody
        split
        · next heq => simp_all
        · next heq => simp_all
        · next heq => rfl
      · obtain ⟨last, hlast⟩ : ∃ last, (first :: more).getLast? = some last :=
          ⟨_, List.getLast?_eq_some_getLast (by simp)⟩
        exact ⟨last, hlast, isIdle_of_getLast?_trimBack (hrest ▸ hlast)⟩
      · simp [bodyComponents_cons hfirst]

/-- What is left of an absolute path behind another one. -/
theorem stripPrefix?_eq
    (habsolute : path.isAbsolute = true) (hbase : base.isAbsolute = true) :
    ∃ body more, path.components = .root :: bodyComponents body ∧
      base.components = .root :: more ∧
        path.stripPrefix? base = (dropComponents more body).map remainder := by
  obtain ⟨body, hbody, rfl⟩ := exists_body habsolute
  obtain ⟨front, hfront, rfl⟩ := exists_body hbase
  refine ⟨body, bodyComponents front, components_root hbody, components_root hfront, ?_⟩
  rw [stripPrefix?, leadAndBody_root hbody, components_root hfront]
  rfl

/-- An absolute path lies below another one exactly if it starts with its components. -/
theorem isSome_stripPrefix?_iff
    (habsolute : path.isAbsolute = true) (hbase : base.isAbsolute = true) :
    (path.stripPrefix? base).isSome ↔ base.components <+: path.components := by
  obtain ⟨body, more, hpath, hmore, heq⟩ := stripPrefix?_eq habsolute hbase
  rw [heq, hpath, hmore, Option.isSome_map, List.prefix_cons_inj]
  constructor
  · intro h
    obtain ⟨rest, hrest⟩ := Option.isSome_iff_exists.1 h
    rw [bodyComponents_of_dropComponents hrest]
    exact List.prefix_append _ _
  · exact isSome_dropComponents

/-- What an absolute path is relative to one above it: nothing, or the components behind it. -/
theorem stripPrefix?_cases
    {relative : Path}
    (habsolute : path.isAbsolute = true) (hbase : base.isAbsolute = true)
    (h : path.stripPrefix? base = some relative) :
    relative.isEmpty = true ∧ path.components = base.components ∨
      relative.isEmpty = false ∧ ∃ rest, relative = ⟨rest⟩ ∧
        (⟨rest⟩ : Path).leadAndBody = (.none, rest) ∧ (⟨rest⟩ : Path).EndsInName ∧
          bodyComponents rest ≠ [] ∧ path.components = base.components ++ bodyComponents rest := by
  obtain ⟨body, more, hpath, hmore, heq⟩ := stripPrefix?_eq habsolute hbase
  obtain ⟨later, hlater, rfl⟩ := Option.map_eq_some_iff.1 (heq.symm.trans h)
  have hbehind : path.components = base.components ++ bodyComponents later := by
    rw [hpath, hmore, bodyComponents_of_dropComponents hlater, List.cons_append]
  rw [hbehind]
  rcases remainder_cases later with ⟨hempty, hnil⟩ | ⟨hempty, rest, hrest, hlead, hends, hsame, hne⟩
  · exact .inl ⟨hempty, by rw [hnil, List.append_nil]⟩
  · exact .inr ⟨hempty, rest, hrest, hlead, hends, hne, by rw [hsame]⟩

end StripPrefix

end Path

theorem Location.names_toPath {location : Location} (h : location.IsSpelled) :
    location.toPath.names = location := by
  rw [Path.names, components_toPath h, List.filterMap_cons_none rfl, List.filterMap_map]
  exact List.filterMap_some

open Uncomment.Path

namespace Backup

variable {root file target : Path} {stamp : String}

/-- The backup directory of a root lies two names below it. -/
theorem components_dir_make (hroot : root.isAbsolute = true) :
    (make root stamp).dir.isAbsolute = true ∧
      (make root stamp).dir.components =
        root.components ++
          [.normal folder, .normal (root.fileName?.getD "root" ++ "_" ++ stamp)] := by
  have hword (name : String) (hname : IsWord name) :
      (⟨[name]⟩ : Path).leadAndBody = (.none, [name]) ∧
        bodyComponents [name] = [.normal name] := by
    have hwords : ∀ other ∈ [name], IsWord other := by simpa using hname
    exact ⟨leadAndBody_words hwords, bodyComponents_words hwords⟩
  have hname : IsWord (root.fileName?.getD "root" ++ "_" ++ stamp) := by
    have hmark : '_' ∈ (root.fileName?.getD "root" ++ "_" ++ stamp).toList := by simp
    refine ⟨?_, ?_, ?_⟩ <;>
      · intro heq
        rw [heq] at hmark
        revert hmark
        decide
  obtain ⟨hleadFolder, hfolder⟩ := hword folder (by decide)
  obtain ⟨hleadName, hlast⟩ := hword _ hname
  obtain ⟨habsolute, hcomponents⟩ := components_join hroot hleadFolder (by simp)
  obtain ⟨habsolute', hcomponents'⟩ := components_join habsolute hleadName (by simp)
  refine ⟨habsolute', ?_⟩
  rw [make, hcomponents', hcomponents, hfolder, hlast, List.append_assoc]
  rfl

/-- The last component of a path with a file name is that name. -/
theorem exists_components_of_fileName? {name : String} (h : file.fileName? = some name) :
    ∃ front, file.components = front ++ [.normal name] := by
  unfold fileName? at h
  split at h
  · next last hlast =>
      obtain rfl := Option.some.inj h
      exact ⟨_, (List.dropLast_append_getLast? _ hlast).symm⟩
  · cases h

/-- A place for the content of a file: strictly below a directory, and not at the file. -/
structure IsPlaceFor (dir file target : Path) : Prop where
  absolute : target.isAbsolute = true
  endsInName : target.EndsInName
  /-- Behind the directory there are components of the file. -/
  below : ∃ more, more ≠ [] ∧ more ⊆ file.components ∧
    target.components = dir.components ++ more
  apart : target.components ≠ file.components

theorem isPlaceFor_join
    {dir : Path} {rest : List String}
    (hdir : dir.isAbsolute = true)
    (hlead : (⟨rest⟩ : Path).leadAndBody = (.none, rest))
    (hends : (⟨rest⟩ : Path).EndsInName)
    (hsub : bodyComponents rest ⊆ file.components)
    (hne : bodyComponents rest ≠ [])
    (hapart : dir.components ++ bodyComponents rest ≠ file.components) :
    IsPlaceFor dir file (dir.join ⟨rest⟩) := by
  obtain ⟨last, hlast, hidle⟩ := hends
  have hrest : rest ≠ [] := by
    rintro rfl
    cases hlast
  have hrelative : (⟨rest⟩ : Path).isAbsolute = false := by
    rw [isAbsolute, hlead]
    rfl
  obtain ⟨habsolute, hjoined⟩ := components_join hdir hlead hrest
  exact {
    absolute := habsolute
    endsInName := ⟨last, (getLast?_join hrelative hrest).trans hlast, hidle⟩
    below := ⟨_, hne, hsub, hjoined⟩
    apart := by rwa [hjoined] }

/-- What is stored for a file goes to a place for it below the backup directory. -/
theorem isPlaceFor_of_target?
    (hroot : root.isAbsolute = true) (hfile : file.isAbsolute = true)
    (h : (make root stamp).target? file = some target) :
    IsPlaceFor (make root stamp).dir file target := by
  obtain ⟨hdir, hcomponents⟩ : (make root stamp).dir.isAbsolute = true ∧ _ :=
    components_dir_make hroot
  have hrootEq : (make root stamp).root = root := rfl
  rw [target?, hrootEq] at h
  split at h
  · next relative hrelative =>
      -- the file lies below the root, and is stored at the same place below the directory
      obtain rfl := Option.some.inj h
      split at hrelative
      · next found hfound =>
          split_ifs at hrelative with hempty
          obtain rfl := Option.some.inj hrelative
          rcases stripPrefix?_cases hfile hroot hfound with
            ⟨hnil, -⟩ | ⟨-, rest, rfl, hlead, hends, hne, hfileEq⟩
          · exact absurd hnil hempty
          · refine isPlaceFor_join hdir hlead hends ?_ hne fun heq => ?_
            · rw [hfileEq]
              exact List.subset_append_right _ _
            · have hlength := congrArg List.length heq
              rw [hfileEq, hcomponents] at hlength
              simp only [List.length_append, List.length_cons] at hlength
              omega
      · cases hrelative
  · next hnone =>
      -- the file is the root or lies elsewhere, and is stored under its name
      obtain ⟨name, hname, rfl⟩ := Option.map_eq_some_iff.1 h
      obtain ⟨front, hfront⟩ := exists_components_of_fileName? hname
      have hmem : .normal name ∈ file.components := by
        simp [hfront]
      have hword : IsWord name := isWord_of_mem_components hmem
      have hwords : ∀ other ∈ [name], IsWord other := by simpa using hword
      have hlast : bodyComponents [name] = [.normal name] := bodyComponents_words hwords
      refine isPlaceFor_join hdir (leadAndBody_words hwords)
        ⟨name, rfl, hword.not_isIdle⟩ ?_ (by simp [hlast]) fun heq => ?_
      · simp [hlast, hfront]
      · -- else the file would lie below the root
        rw [hcomponents, List.append_assoc] at heq
        have hprefix : root.components <+: file.components := by
          rw [← heq]
          exact List.prefix_append _ _
        obtain ⟨found, hfound⟩ :=
          Option.isSome_iff_exists.1 ((isSome_stripPrefix?_iff hfile hroot).2 hprefix)
        rw [hfound] at hnone
        rcases stripPrefix?_cases hfile hroot hfound with ⟨-, hsame⟩ | ⟨hempty, -⟩
        · rw [hsame] at heq
          have hlength := congrArg List.length heq
          simp at hlength
        · simp [hempty] at hnone

end Backup
end Uncomment

import Mathlib.Data.List.Infix
import Uncomment.Proofs.Disk.LinkFree
import Uncomment.Proofs.Path.Absolute
import Uncomment.Proofs.Run.Queue
import Uncomment.Proofs.Run.Refusal

/-!
# What exclude patterns take away

More exclude patterns take away the files that stand behind an entry which one of them
matches, and nothing else.  On a disk without links the entries on the way to a file are read
off its location (`Walk.CutOff`), so the two walks are compared directory by directory
(`Walk.files_below_append`): a directory that is passed over takes everything below it along,
and one that is entered has the same entries in both walks.

The root is no entry on the way, so a root that is a file is queued with all patterns.  The
result for the jobs of a root is `Run.jobs_append_excludes`.
-/

namespace Uncomment

/-- Whether an exclude pattern can be read and matches a text. -/
def Glob.Matches (glob : String) (text : Bytes) : Prop :=
  ∃ exclude ∈ (Glob.parse Glob.excludeStyle glob).toOption, exclude.pattern.accepts text = true

instance (glob : String) (text : Bytes) : Decidable (Glob.Matches glob text) :=
  inferInstanceAs (Decidable (∃ _ ∈ _, _))

namespace Walk

/--
The texts by which an entry is tried: its path seen from the root and, for a directory, that
path with a slash at its end.
-/
def texts (relative : Location) (isDir : Bool) : List Bytes :=
  let text := Bytes.ofString (Path.slashed ⟨relative⟩)
  if isDir && text.getLast? != some Byte.slash then [text, text ++ [Byte.slash]] else [text]

/--
Whether an entry on the way to a location is hit: the entries below the root down to the
location itself, each by its path seen from the root.
-/
def CutOff
    (disk : Disk)
    (hits : Location → Bool → Prop)
    (root location : Location) : Prop :=
  ∃ way ∈ (location.drop root.length).inits,
    way ≠ [] ∧ hits way (disk.get? (root ++ way) == some .dir)

instance (disk : Disk) (hits : Location → Bool → Prop)
    [∀ relative isDir, Decidable (hits relative isDir)] (root location : Location) :
    Decidable (CutOff disk hits root location) :=
  inferInstanceAs (Decidable (∃ _ ∈ _, _))

/-- The locations of the files that were found. -/
def Found.files : Found → List Location
  | .file location => [location]
  | .failure _ => []

theorem mem_files {found : List Found} {location : Location} :
    location ∈ found.flatMap Found.files ↔ .file location ∈ found := by
  rw [List.mem_flatMap]
  constructor
  · rintro ⟨_ | _, hmem, hlocation⟩
    · rwa [List.mem_singleton.1 hlocation]
    · cases hlocation
  · exact fun h => ⟨_, h, List.mem_singleton_self location⟩

section Texts

variable {excludes more : List Pattern} {relative : Location} {isDir : Bool}

theorem isExcluded_iff :
    isExcluded excludes relative isDir = true ↔
      ∃ exclude ∈ excludes, ∃ text ∈ texts relative isDir, exclude.accepts text = true := by
  unfold isExcluded texts
  dsimp only
  generalize Bytes.ofString (Path.slashed ⟨relative⟩) = text
  by_cases hslash : (isDir && text.getLast? != some Byte.slash) = true
  · simp [hslash, and_or_left, exists_or]
  · simp [hslash]

theorem isExcluded_append :
    isExcluded (excludes ++ more) relative isDir =
      (isExcluded excludes relative isDir || isExcluded more relative isDir) := by
  rw [Bool.eq_iff_iff, Bool.or_eq_true]
  simp only [isExcluded_iff, List.mem_append, or_and_right, exists_or]

end Texts

section CutOff

variable {disk : Disk} {hits : Location → Bool → Prop} {root front location : Location}
  {name : String}

theorem CutOff.of_isPrefix
    (h : CutOff disk hits root front) (hbelow : front <+: location) :
    CutOff disk hits root location := by
  obtain ⟨way, hway, hhit⟩ := h
  refine ⟨way, ?_, hhit⟩
  rw [List.mem_inits] at hway ⊢
  exact hway.trans (hbelow.drop _)

theorem not_cutOff_root : ¬CutOff disk hits root root := by
  rintro ⟨way, hway, hne, -⟩
  rw [List.mem_inits, List.drop_length, List.prefix_nil] at hway
  exact hne hway

/-- One name further on, the entry of that name is on the way too. -/
theorem cutOff_concat_iff (hbelow : root <+: front) :
    CutOff disk hits root (front ++ [name]) ↔
      CutOff disk hits root front ∨
        hits ((front ++ [name]).drop root.length)
          (disk.get? (front ++ [name]) == some .dir) := by
  obtain ⟨rest, rfl⟩ := hbelow
  unfold CutOff
  simp only [List.append_assoc, List.drop_left, List.mem_inits, List.prefix_concat_iff]
  constructor
  · rintro ⟨way, rfl | hway, hne, hhit⟩
    · exact .inr hhit
    · exact .inl ⟨way, hway, hne, hhit⟩
  · rintro (⟨way, hway, hne, hhit⟩ | hhit)
    · exact ⟨way, .inr hway, hne, hhit⟩
    · exact ⟨rest ++ [name], .inl rfl, by simp, hhit⟩

end CutOff

section Below

variable {disk : Disk} {options : Options} {root location : Location} {dir : Dir}

theorem isPrefix_of_mem_below {depth : Nat}
    (h : .file location ∈ below disk options root depth dir) :
    dir.location <+: location := by
  obtain ⟨last, name, entry, hlast, -, -, rfl⟩ :=
    exists_dir_of_mem_below (fun other => dir.location <+: other.location)
      (fun other name _ _ hother _ _ _ => hother.trans (List.prefix_append other.location [name]))
      List.prefix_rfl h
  exact hlast.trans (List.prefix_append _ _)

/-- The files that come from an entry of a directory that is not passed over. -/
def filesFrom
    (disk : Disk)
    (options : Options)
    (root : Location)
    (depth : Nat)
    (dir : Dir)
    (name : String) :
    Entry → List Location
  | .file _ => [dir.location ++ [name]]
  | .dir =>
      (below disk options root depth
        (dir.enter disk options name (dir.actual ++ [name]))).flatMap Found.files
  | .link _ => []

/-- On a disk without links every entry is passed over or gives its files. -/
theorem files_below_succ
    (htree : disk.IsTree) (hfree : disk.LinkFree) (depth : Nat) :
    (below disk options root (depth + 1) dir).flatMap Found.files =
      (disk.children dir.actual).flatMap fun child =>
        if isSkipped options root dir child.1 (child.2 == .dir) then []
        else filesFrom disk options root depth dir child.1 child.2 := by
  rw [below, List.flatMap_assoc]
  refine List.flatMap_congr ?_
  rintro ⟨name, entry⟩ hmem
  cases entry with
  | file content =>
      have hdir : (Entry.file content == Entry.dir) = false := rfl
      simp only [kindOf, hdir, filesFrom]
      split_ifs <;> rfl
  | dir =>
      have hdir : (Entry.dir == Entry.dir) = true := rfl
      simp only [kindOf, hdir, filesFrom]
      split_ifs <;> rfl
  | link target => exact absurd (htree.mem_children_iff.1 hmem) hfree.get?_ne_link

theorem isPrefix_of_mem_filesFrom {depth : Nat} {name : String} {entry : Entry}
    (h : location ∈ filesFrom disk options root depth dir name entry) :
    dir.location ++ [name] <+: location := by
  cases entry with
  | file content => rw [List.mem_singleton.1 h]
  | dir => exact isPrefix_of_mem_below (mem_files.1 h)
  | link target => cases h

variable {kept added : List Pattern} {hits : Location → Bool → Prop}
  [∀ relative isDir, Decidable (hits relative isDir)]

/-- With more patterns an entry is passed over if it was before, or if one of them matches. -/
theorem isSkipped_append_iff {name : String} {isDir : Bool} :
    isSkipped { options with excludes := kept ++ added } root dir name isDir = true ↔
      isSkipped { options with excludes := kept } root dir name isDir = true ∨
        isExcluded added ((dir.location ++ [name]).drop root.length) isDir = true := by
  simp only [isSkipped, isExcluded_append, Bool.or_eq_true, or_assoc]

/--
With more exclude patterns the same files are found below a directory, except those that stand
behind an entry which one of the added patterns matches.
-/
theorem files_below_append
    (htree : disk.IsTree) (hfree : disk.LinkFree)
    (hhits : ∀ relative isDir, isExcluded added relative isDir = true ↔ hits relative isDir)
    {depth : Nat}
    (hat : dir.actual = dir.location)
    (hbelow : root <+: dir.location)
    (hopen : ¬CutOff disk hits root dir.location) :
    (below disk { options with excludes := kept ++ added } root depth dir).flatMap Found.files =
      ((below disk { options with excludes := kept } root depth dir).flatMap Found.files).filter
        fun location => ¬CutOff disk hits root location := by
  induction depth generalizing dir with
  | zero => rfl
  | succ depth ih =>
      rw [files_below_succ htree hfree, files_below_succ htree hfree, List.filter_flatMap]
      refine List.flatMap_congr ?_
      rintro ⟨name, entry⟩ hmem
      have hget := htree.mem_children_iff.1 hmem
      rw [hat] at hget
      -- an entry is passed over in the first walk if it is in the second, or if it is hit
      have hskips : isSkipped { options with excludes := kept ++ added } root dir name
            (entry == .dir) = true ↔
          isSkipped { options with excludes := kept } root dir name (entry == .dir) = true ∨
            CutOff disk hits root (dir.location ++ [name]) := by
        rw [isSkipped_append_iff, cutOff_concat_iff hbelow, hhits, hget]
        simp only [hopen, false_or, Option.some_beq_some]
      dsimp only
      by_cases hskipped :
          isSkipped { options with excludes := kept } root dir name (entry == .dir) = true
      · rw [if_pos (hskips.2 (.inl hskipped)), if_pos hskipped, List.filter_nil]
      by_cases hhit : CutOff disk hits root (dir.location ++ [name])
      · rw [if_pos (hskips.2 (.inr hhit)), if_neg hskipped, eq_comm, List.filter_eq_nil_iff]
        intro location hlocation
        simpa using hhit.of_isPrefix (isPrefix_of_mem_filesFrom hlocation)
      · rw [if_neg fun h => (hskips.1 h).elim hskipped hhit, if_neg hskipped]
        cases entry with
        | file content => simp [filesFrom, hhit]
        | dir => exact ih (by rw [Dir.enter, hat]) (hbelow.trans (List.prefix_append _ _)) hhit
        | link target => rfl

/-- With more exclude patterns the same files are found, except those that are cut off. -/
theorem files_found_append
    (htree : disk.IsTree) (hfree : disk.LinkFree)
    (hhits : ∀ relative isDir, isExcluded added relative isDir = true ↔ hits relative isDir) :
    (found disk { options with excludes := kept ++ added } root).flatMap Found.files =
      ((found disk { options with excludes := kept } root).flatMap Found.files).filter
        fun location => ¬CutOff disk hits root location := by
  unfold found
  cases disk.get? root with
  | none => rfl
  | some entry =>
      cases entry with
      | file content => simp [Found.files, not_cutOff_root]
      | link target => rfl
      | dir =>
          have hbelow := fun levels => @files_below_append disk options root (.start root levels)
            kept added hits _ htree hfree hhits (depthBound disk) rfl List.prefix_rfl
            not_cutOff_root
          dsimp only
          rw [List.flatMap_append, List.flatMap_append, List.filter_append]
          refine congrArg₂ (· ++ ·) ?_ (hbelow _)
          split_ifs <;> rfl

end Below

end Walk

namespace Run

variable {disk : Disk} {here root : Location} {settings : Settings} {stamp : String}
  {written : Path} {excludes : List Pattern}

section Patterns

variable {kept added : List String}

/-- Whether one of the exclude patterns matches an entry, given by its path from the root. -/
def Excludes (written : List String) (relative : Location) (isDir : Bool) : Prop :=
  ∃ glob ∈ patterns written, ∃ text ∈ Walk.texts relative isDir, Glob.Matches glob text

instance (written : List String) (relative : Location) (isDir : Bool) :
    Decidable (Excludes written relative isDir) :=
  inferInstanceAs (Decidable (∃ _ ∈ _, ∃ _ ∈ _, _))

theorem excludePatterns_eq_ok_iff {written : List String} :
    excludePatterns written = .ok excludes ↔
      ∃ globs, List.Forall₂ (fun glob exclude => Glob.parse Glob.excludeStyle glob = .ok exclude)
          (patterns written) globs ∧
        Glob.excess? globs = none ∧ excludes = globs.map Glob.pattern := by
  simp only [← readExcludes_eq_ok_iff]
  rw [excludePatterns]
  cases readExcludes written with
  | error refusal => simp
  | ok globs =>
      dsimp only
      cases hexcess : Glob.excess? globs with
      | some excess => simp [hexcess]
      | none => simp [hexcess, eq_comm]

/-- What exclude patterns match once they have been read is what they match as written. -/
theorem isExcluded_iff_excludes {written : List String}
    (h : excludePatterns written = .ok excludes) (relative : Location) (isDir : Bool) :
    Walk.isExcluded excludes relative isDir = true ↔ Excludes written relative isDir := by
  obtain ⟨globs, hglobs, -, rfl⟩ := excludePatterns_eq_ok_iff.1 h
  obtain ⟨hparsed, horigin⟩ := exists_of_forall₂ hglobs
  rw [Walk.isExcluded_iff]
  constructor
  · rintro ⟨_, hmem, text, htext, haccepts⟩
    obtain ⟨exclude, hexclude, rfl⟩ := List.mem_map.1 hmem
    obtain ⟨glob, hglob, hparse⟩ := horigin exclude hexclude
    exact ⟨glob, hglob, text, htext, exclude, by rw [hparse]; rfl, haccepts⟩
  · rintro ⟨glob, hglob, text, htext, exclude, hexclude, haccepts⟩
    obtain ⟨other, hother, hparse⟩ := hparsed glob hglob
    rw [hparse] at hexclude
    obtain rfl := Option.some.inj hexclude
    exact ⟨_, List.mem_map_of_mem hother, text, htext, haccepts⟩

theorem excludePatterns_append {more : List Pattern}
    (h : excludePatterns kept = .ok excludes) (h' : excludePatterns added = .ok more) :
    excludePatterns (kept ++ added) = .ok (excludes ++ more) := by
  obtain ⟨globs, hglobs, hexcess, rfl⟩ := excludePatterns_eq_ok_iff.1 h
  obtain ⟨globs', hglobs', hexcess', rfl⟩ := excludePatterns_eq_ok_iff.1 h'
  rw [Glob.excess?_eq_none_iff] at hexcess hexcess'
  refine excludePatterns_eq_ok_iff.2 ⟨globs ++ globs', ?_, ?_, List.map_append.symm⟩
  · rw [patterns, List.map_append, List.filter_append]
    exact List.rel_append hglobs hglobs'
  · rw [Glob.excess?_eq_none_iff]
    exact fun glob hmem => (List.mem_append.1 hmem).elim (hexcess glob) (hexcess' glob)

theorem exists_excludePatterns {written : List String}
    (h : ∀ glob ∈ patterns written, ¬Unusable glob) :
    ∃ excludes, excludePatterns written = .ok excludes := by
  cases hexcludes : excludePatterns written with
  | ok excludes => exact ⟨excludes, rfl⟩
  | error refusal =>
      obtain ⟨glob, hglob, hunusable⟩ := excludePatterns_fails_iff.1 ⟨refusal, hexcludes⟩
      exact absurd hunusable (h glob hglob)

end Patterns

/-- The job for a file below a root, if its type is supported. -/
def jobAt
    (disk : Disk)
    (here : Location)
    (settings : Settings)
    (root : Location)
    (backup : Option Backup)
    (location : Location) :
    Option Job :=
  (eligible? disk here settings.force location.toPath).map fun language =>
    ⟨location.toPath, Path.display root.toPath location.toPath, language, backup⟩

/-- The jobs of a root are those for the files that the walk finds. -/
theorem jobs_planRoot (hroot : disk.locate here written = .ok root) :
    (planRoot disk here settings stamp excludes written).jobs =
      ((Walk.found disk ⟨here, settings.followLinks, !settings.noIgnore, excludes⟩ root).flatMap
        Walk.Found.files).filterMap
          (jobAt disk here settings root (backupFor settings stamp (baseOf disk root).toPath)) := by
  unfold planRoot
  rw [hroot]
  dsimp only
  rw [List.flatMap_map, List.filterMap_flatMap]
  refine List.flatMap_congr fun found _ => ?_
  cases found with
  | failure message => rfl
  | file location =>
      simp only [planFound, jobAt, baseOf, Walk.Found.files, List.filterMap_cons,
        List.filterMap_nil]
      cases eligible? disk here settings.force location.toPath <;> rfl

/--
On a disk without links the files that are queued for a root with more exclude patterns are those
that are queued without them and have no entry on their way, below the root and down to the file
itself, which one of the added patterns matches.  A root that is a file is queued with all
patterns.
-/
theorem jobs_append_excludes
    {kept added : List String}
    (htree : disk.IsTree)
    (hfree : disk.LinkFree)
    (hroot : disk.locate here written = .ok root)
    (husable : ∀ glob ∈ patterns (kept ++ added), ¬Unusable glob) :
    ∃ fewer more,
      excludePatterns kept = .ok fewer ∧
      excludePatterns (kept ++ added) = .ok more ∧
      (planRoot disk here settings stamp more written).jobs =
        (planRoot disk here settings stamp fewer written).jobs.filter (fun job =>
          ¬Walk.CutOff disk (Excludes added) root job.path.names) ∧
      ∀ excludes content, disk.get? root = some (.file content) →
        (planRoot disk here settings stamp excludes written).jobs =
          (jobAt disk here settings root (backupFor settings stamp (parentOf root).toPath)
            root).toList := by
  have hpatterns : patterns (kept ++ added) = patterns kept ++ patterns added := by
    rw [patterns, List.map_append, List.filter_append]
    rfl
  rw [hpatterns, List.forall_mem_append] at husable
  obtain ⟨fewer, hfewer⟩ := exists_excludePatterns husable.1
  obtain ⟨extra, hextra⟩ := exists_excludePatterns husable.2
  refine ⟨fewer, fewer ++ extra, hfewer, excludePatterns_append hfewer hextra, ?_,
    fun excludes content hget => ?_⟩
  · let options : Walk.Options := ⟨here, settings.followLinks, !settings.noIgnore, fewer⟩
    have hfiles := @Walk.files_found_append disk options root fewer extra _ _ htree hfree
      (isExcluded_iff_excludes hextra)
    rw [jobs_planRoot hroot, jobs_planRoot hroot, hfiles, List.filterMap_filter,
      List.filter_filterMap]
    refine List.filterMap_congr fun location hlocation => ?_
    have hspelled := (Walk.leads_of_mem_found htree (Walk.mem_files.1 hlocation)).2.1
    rw [jobAt]
    cases eligible? disk here settings.force location.toPath with
    | none => simp
    | some language =>
        simp only [Option.map_some, Option.filter_some, Location.names_toPath hspelled]
  · rw [jobs_planRoot hroot, Walk.found, hget, baseOf, hget]
    simp only [Walk.Found.files, List.flatMap_cons, List.flatMap_nil, List.append_nil,
      List.filterMap_cons, List.filterMap_nil]
    cases jobAt disk here settings root (backupFor settings stamp (parentOf root).toPath) root <;>
      rfl

/-- A pattern for what is below a directory, and one for a name; a blank one matches nothing. -/
theorem jobs_append_excludes_two_patterns :
    let disk : Disk :=
      { entries :=
          [(["a.py"], .file []), (["lib"], .dir), (["lib", "tests"], .dir),
           (["lib", "tests", "c.py"], .file []), (["lib", "tests.py"], .file []),
           (["old.py"], .file [])] }
    let kept := ["old*"]
    let added := [" lib/tests/** ", "  ", "b?.py"]
    ∃ fewer more,
      excludePatterns kept = .ok fewer ∧
      excludePatterns (kept ++ added) = .ok more ∧
      (planRoot disk [] {} "T" fewer ⟨["."]⟩).jobs.map Job.shown =
        ["a.py", "lib/tests/c.py", "lib/tests.py"] ∧
      (planRoot disk [] {} "T" more ⟨["."]⟩).jobs =
        (planRoot disk [] {} "T" fewer ⟨["."]⟩).jobs.filter (fun job =>
          ¬Walk.CutOff disk (Excludes added) [] job.path.names) ∧
      (planRoot disk [] {} "T" more ⟨["."]⟩).jobs.map Job.shown = ["a.py", "lib/tests.py"] := by
  intro disk kept added
  have husable : ∀ glob ∈ patterns (kept ++ added), ¬Unusable glob := by
    intro glob hglob hunusable
    obtain ⟨refusal, hrefusal⟩ := excludePatterns_fails_iff.2 ⟨glob, hglob, hunusable⟩
    have hreads : (excludePatterns (kept ++ added)).toOption.isSome = true := by decide +kernel
    rw [hrefusal] at hreads
    cases hreads
  obtain ⟨fewer, more, hfewer, hmore, hjobs, -⟩ :=
    @jobs_append_excludes disk [] [] {} "T" ⟨["."]⟩ kept added (by decide +kernel)
      (by decide +kernel) (by decide +kernel) husable
  let shown (excludes : List Pattern) : List String :=
    (planRoot disk [] {} "T" excludes ⟨["."]⟩).jobs.map Job.shown
  have hshown : (excludePatterns kept).toOption.map shown =
      some ["a.py", "lib/tests/c.py", "lib/tests.py"] := by
    decide +kernel
  have hshown' : (excludePatterns (kept ++ added)).toOption.map shown =
      some ["a.py", "lib/tests.py"] := by
    decide +kernel
  rw [hfewer] at hshown
  rw [hmore] at hshown'
  exact ⟨fewer, more, hfewer, hmore, Option.some.inj hshown, hjobs, Option.some.inj hshown'⟩

end Run
end Uncomment

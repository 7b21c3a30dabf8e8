import Mathlib.Data.List.Infix
import Mathlib.Data.String.Basic
import Uncomment.Proofs.Path.Location

/-!
# What is found on a disk

A disk is a sorted list of entries, and only `Disk.get?` is asked what stands where.
Putting an entry changes the answer at its location and nowhere else (`Disk.get?_put`),
and storing a content changes it at the names of one file (`Disk.IsTree.get?_store`).

A `Disk.IsTree` is a disk as a file system keeps it: sorted, with names that a directory
can hold, with a directory above every entry, and with one content under all the names of
a file.  Making a directory and storing a content keep it one.  Two of them with the same
shared and guarded names are equal if the same is found everywhere (`Disk.IsTree.ext`).
-/

namespace Uncomment

namespace Location

theorem precedes_irrefl (location : Location) : location.precedes location = false := by
  induction location with
  | nil => rfl
  | cons name rest ih => simp [precedes, ih]

theorem precedes_trans {a b c : Location}
    (hab : a.precedes b = true) (hbc : b.precedes c = true) : a.precedes c = true := by
  fun_induction precedes a b generalizing c with
  | case1 => cases hab
  | case2 =>
      cases c with
      | nil => cases hbc
      | cons => rfl
  | case3 as name bs ih =>
      cases c with
      | nil => cases hbc
      | cons other cs =>
          unfold precedes at hbc ⊢
          split at hbc
          · next heq => simpa [heq] using ih hab hbc
          · next hne => simpa [hne] using hbc
  | case4 a as b bs hne =>
      cases c with
      | nil => cases hbc
      | cons other cs =>
          have hlt : a < b := of_decide_eq_true hab
          unfold precedes at hbc ⊢
          split at hbc
          · next heq =>
              subst heq
              simp [hne, hlt]
          · have hlt' := hlt.trans (of_decide_eq_true hbc)
            simp [hlt'.ne, hlt']

theorem precedes_total {a b : Location}
    (hne : b ≠ a) (hab : a.precedes b = false) : b.precedes a = true := by
  fun_induction precedes a b with
  | case1 a =>
      cases a with
      | nil => exact absurd rfl hne
      | cons => rfl
  | case2 => cases hab
  | case3 as name bs ih =>
      simpa [precedes] using ih (fun heq => hne (heq ▸ rfl)) hab
  | case4 a as b bs hne' =>
      have hle : b ≤ a := not_lt.1 (of_decide_eq_false hab)
      simp [precedes, Ne.symm hne', lt_of_le_of_ne hle (Ne.symm hne')]

theorem nameIn?_eq_some_iff {dir location : Location} {name : String} :
    dir.nameIn? location = some name ↔ location = dir ++ [name] := by
  induction dir generalizing location with
  | nil =>
      rcases location with _ | ⟨other, _ | ⟨second, rest⟩⟩ <;> simp [nameIn?]
  | cons first dir ih =>
      cases location with
      | nil => simp [nameIn?]
      | cons other rest =>
          by_cases heq : first = other
          · simp [nameIn?, heq, ih]
          · simp [nameIn?, heq, Ne.symm heq]

end Location

/-- Whether an entry is a link. -/
def Entry.isLink : Entry → Bool
  | .link _ => true
  | _ => false

/-- Whether an entry is a file. -/
def Entry.isFile : Entry → Bool
  | .file _ => true
  | _ => false

/-- Names that a directory can hold. -/
def IsName (name : String) : Prop :=
  Path.IsWord name ∧ name.utf8ByteSize ≤ Disk.nameLimit

instance (name : String) : Decidable (IsName name) :=
  inferInstanceAs (Decidable (_ ∧ _))

namespace Disk

variable {disk other : Disk} {location dir : Location} {name : String} {entry : Entry}
  {content : Bytes}

namespace SameFile

theorem refl (disk : Disk) (location : Location) : disk.SameFile location location := .inl rfl

theorem symm {a b : Location} (h : disk.SameFile a b) : disk.SameFile b a := by
  rcases h with rfl | ⟨hsome, heq⟩
  · exact .refl disk a
  · exact .inr ⟨heq ▸ hsome, heq.symm⟩

theorem trans {a b c : Location} (h : disk.SameFile a b) (h' : disk.SameFile b c) :
    disk.SameFile a c := by
  rcases h with rfl | ⟨hsome, heq⟩
  · exact h'
  · rcases h' with rfl | ⟨-, heq'⟩
    · exact .inr ⟨hsome, heq⟩
    · exact .inr ⟨hsome, heq.trans heq'⟩

theorem congr_left {a b c : Location} (h : disk.SameFile a b) :
    disk.SameFile a c ↔ disk.SameFile b c :=
  ⟨h.symm.trans, h.trans⟩

/-- A file that has a second name has a number under the first. -/
theorem exists_mem_numbers {a b : Location} (h : disk.SameFile a b) (hne : a ≠ b) :
    ∃ number, (a, number) ∈ disk.numbers := by
  obtain ⟨number, hnumber⟩ := Option.isSome_iff_exists.1 (h.resolve_left hne).1
  obtain ⟨front, back, heq, -⟩ := List.lookup_eq_some_iff.1 hnumber
  exact ⟨number, by simp [heq]⟩

end SameFile

@[simp] theorem sameFile_store {a b : Location} :
    (disk.store location content).SameFile a b ↔ disk.SameFile a b :=
  Iff.rfl

/-- A file is guarded under all its names or under none. -/
theorem SameFile.isGuarded_eq {a b : Location} (h : disk.SameFile a b) :
    disk.isGuarded a = disk.isGuarded b := by
  have hsame (other : Location) : disk.SameFile a other ↔ disk.SameFile b other := h.congr_left
  simp only [isGuarded, hsame]

/-- The names of the file at a location. -/
def namesOf (disk : Disk) (location : Location) : List Location :=
  location :: (disk.numbers.map Prod.fst).filter fun other => disk.SameFile location other

theorem mem_namesOf_iff {place : Location} :
    place ∈ disk.namesOf location ↔ disk.SameFile location place := by
  rw [namesOf, List.mem_cons, List.mem_filter, decide_eq_true_iff]
  constructor
  · rintro (rfl | ⟨-, hsame⟩)
    · exact .refl disk place
    · exact hsame
  · intro hsame
    by_cases heq : place = location
    · exact .inl heq
    · obtain ⟨number, hnumber⟩ := hsame.symm.exists_mem_numbers heq
      exact .inr ⟨List.mem_map.2 ⟨_, hnumber, rfl⟩, hsame⟩

/-- The file at a location has no second name. -/
def HasOneName (disk : Disk) (location : Location) : Prop :=
  ∀ name ∈ disk.namesOf location, name = location

instance (disk : Disk) (location : Location) : Decidable (disk.HasOneName location) :=
  inferInstanceAs (Decidable (∀ _ ∈ _, _))

theorem HasOneName.eq_of_sameFile {place : Location}
    (h : disk.HasOneName location) (hsame : disk.SameFile location place) : location = place :=
  (h place (mem_namesOf_iff.2 hsame)).symm

theorem lookup_entry (place location : Location) (entry : Entry)
    (entries : List (Location × Entry)) :
    ((place, entry) :: entries).lookup location =
      if location = place then some entry else entries.lookup location := by
  rw [List.lookup_cons]
  split <;> simp_all

theorem lookup_insertEntry
    (location other : Location) (entry : Entry) (entries : List (Location × Entry)) :
    (insertEntry location entry entries).lookup other =
      if other = location then some entry else entries.lookup other := by
  induction entries with
  | nil =>
      rw [insertEntry, lookup_entry]
  | cons first rest ih =>
      obtain ⟨place, old⟩ := first
      rw [insertEntry, lookup_entry]
      split_ifs with hplace <;> grind [lookup_entry]

/-- Putting an entry changes what is found at its location and nothing else. -/
theorem get?_put (hne : location ≠ []) (entry : Entry) (other : Location) :
    (disk.put location entry).get? other =
      if other = location then some entry else disk.get? other := by
  unfold get? put
  rw [lookup_insertEntry]
  split_ifs <;> simp_all

theorem get?_put_of_ne {place : Location} (hne : place ≠ location) (entry : Entry) :
    (disk.put location entry).get? place = disk.get? place := by
  unfold get? put
  rw [lookup_insertEntry, if_neg hne]

theorem lookup_mapEntry (change : Location → Entry → Entry) (entries : List (Location × Entry))
    (location : Location) :
    (entries.map fun (other, entry) => (other, change other entry)).lookup location =
      (entries.lookup location).map (change location) := by
  induction entries with
  | nil => rfl
  | cons first rest ih =>
      obtain ⟨place, old⟩ := first
      rw [List.map_cons, lookup_entry, lookup_entry]
      split_ifs with heq
      · simp [heq]
      · exact ih

theorem lookup_store (disk : Disk) (location : Location) (content : Bytes) (other : Location) :
    (disk.store location content).entries.lookup other =
      if other = location then some (.file content)
      else (disk.entries.lookup other).map fun entry =>
        if disk.SameFile location other then .file content else entry := by
  refine (lookup_mapEntry (fun place entry =>
    if disk.SameFile location place then .file content else entry) _ other).trans ?_
  rw [lookup_insertEntry]
  split_ifs <;> simp_all

theorem get?_store_self (hne : location ≠ []) (content : Bytes) :
    (disk.store location content).get? location = some (.file content) := by
  rw [get?, if_neg hne, lookup_store, if_pos rfl]

/-- Storing a content changes nothing but the names of one file. -/
theorem get?_store_of_not_sameFile {place : Location}
    (h : ¬ disk.SameFile location place) (content : Bytes) :
    (disk.store location content).get? place = disk.get? place := by
  have hne : place ≠ location := fun heq => h (.inl heq.symm)
  rw [get?, get?, lookup_store, if_neg hne]
  simp [h]

theorem mem_insertEntry
    {entries : List (Location × Entry)} {item : Location × Entry}
    (h : item ∈ insertEntry location entry entries) :
    item = (location, entry) ∨ item ∈ entries := by
  induction entries with
  | nil => simpa [insertEntry] using h
  | cons first rest ih =>
      rw [insertEntry] at h
      split_ifs at h <;> grind

theorem pairwise_insertEntry
    {entries : List (Location × Entry)}
    (h : entries.Pairwise fun a b => a.1.precedes b.1 = true) :
    (insertEntry location entry entries).Pairwise fun a b => a.1.precedes b.1 = true := by
  induction entries with
  | nil => exact List.pairwise_singleton _ _
  | cons first rest ih =>
      obtain ⟨place, old⟩ := first
      obtain ⟨hfirst, hrest⟩ := List.pairwise_cons.1 h
      rw [insertEntry]
      split_ifs with hplace hbefore
      · subst hplace
        exact List.pairwise_cons.2 ⟨hfirst, hrest⟩
      · refine List.pairwise_cons.2 ⟨fun item hitem => ?_, h⟩
        rcases List.mem_cons.1 hitem with rfl | hitem
        · exact hbefore
        · exact Location.precedes_trans hbefore (hfirst item hitem)
      · refine List.pairwise_cons.2 ⟨fun item hitem => ?_, ih hrest⟩
        rcases mem_insertEntry hitem with rfl | hitem
        · exact Location.precedes_total hplace (Bool.eq_false_iff.2 hbefore)
        · exact hfirst item hitem

/-- A disk as a file system keeps it. -/
structure IsTree (disk : Disk) : Prop where
  /-- The entries stand in the order of their locations, each location once. -/
  sorted : disk.entries.Pairwise fun a b => a.1.precedes b.1 = true
  /-- Directories can hold the names. -/
  named : ∀ item ∈ disk.entries, ∀ name ∈ item.1, IsName name
  /-- The top is no entry, and above every entry there is a directory. -/
  rooted : ∀ item ∈ disk.entries, item.1 ≠ [] ∧ disk.get? item.1.dropLast = some .dir
  /-- Only files have numbers, and one file has one content. -/
  shared : ∀ item ∈ disk.numbers, ∀ other ∈ disk.numbers, disk.SameFile item.1 other.1 →
    (disk.get? item.1).any Entry.isFile = true ∧ disk.get? other.1 = disk.get? item.1

instance (disk : Disk) : Decidable disk.IsTree :=
  decidable_of_iff
    ((disk.entries.Pairwise fun a b => a.1.precedes b.1 = true) ∧
      (∀ item ∈ disk.entries, ∀ name ∈ item.1, IsName name) ∧
        (∀ item ∈ disk.entries, item.1 ≠ [] ∧ disk.get? item.1.dropLast = some .dir) ∧
          ∀ item ∈ disk.numbers, ∀ other ∈ disk.numbers, disk.SameFile item.1 other.1 →
            (disk.get? item.1).any Entry.isFile = true ∧ disk.get? other.1 = disk.get? item.1)
    ⟨fun ⟨h₁, h₂, h₃, h₄⟩ => ⟨h₁, h₂, h₃, h₄⟩, fun ⟨h₁, h₂, h₃, h₄⟩ => ⟨h₁, h₂, h₃, h₄⟩⟩

theorem get?_top (disk : Disk) : disk.get? [] = some .dir := rfl

theorem mem_entries_of_get? (h : disk.get? location = some entry) (hne : location ≠ []) :
    (location, entry) ∈ disk.entries := by
  rw [get?, if_neg hne, List.lookup_eq_some_iff] at h
  obtain ⟨front, back, heq, -⟩ := h
  simp [heq]

/-- Whether a name leads to an entry or stands on the way to one. -/
def HasName (disk : Disk) (name : String) : Prop :=
  ∃ item ∈ disk.entries, name ∈ item.1

theorem hasName_of_get? (h : disk.get? location = some entry) (hname : name ∈ location) :
    disk.HasName name :=
  ⟨_, mem_entries_of_get? h (List.ne_nil_of_mem hname), hname⟩

theorem ne_nil_of_get? (h : disk.get? location = some entry) (hentry : entry ≠ .dir) :
    location ≠ [] := by
  rintro rfl
  exact hentry (Option.some.inj h).symm

/-- What is listed is what is found, as long as nothing is listed twice. -/
theorem lookup_eq_some_iff
    {entries : List (Location × Entry)}
    (h : entries.Pairwise fun a b => a.1.precedes b.1 = true) :
    entries.lookup location = some entry ↔ (location, entry) ∈ entries := by
  induction entries with
  | nil => simp
  | cons first rest ih =>
      obtain ⟨place, old⟩ := first
      obtain ⟨hfirst, hrest⟩ := List.pairwise_cons.1 h
      rw [lookup_entry, List.mem_cons, Prod.mk.injEq]
      split_ifs with heq
      · subst heq
        have hnot : (location, entry) ∉ rest := fun hmem => by
          have hself := hfirst _ hmem
          rw [Location.precedes_irrefl] at hself
          cases hself
        simp [hnot, eq_comm]
      · rw [ih hrest]
        simp [heq]

namespace IsTree

theorem mem_entries_iff (h : disk.IsTree) :
    (location, entry) ∈ disk.entries ↔ location ≠ [] ∧ disk.get? location = some entry := by
  rw [← lookup_eq_some_iff h.sorted, get?]
  constructor
  · intro hlookup
    have hne := (h.rooted _ ((lookup_eq_some_iff h.sorted).1 hlookup)).1
    exact ⟨hne, by rwa [if_neg hne]⟩
  · rintro ⟨hne, hget⟩
    rwa [if_neg hne] at hget

theorem mem_children_iff (h : disk.IsTree) :
    (name, entry) ∈ disk.children dir ↔ disk.get? (dir ++ [name]) = some entry := by
  rw [children, List.mem_filterMap]
  constructor
  · rintro ⟨⟨location, found⟩, hmem, hname⟩
    obtain ⟨word, hword, heq⟩ := Option.map_eq_some_iff.1 hname
    cases heq
    rw [Location.nameIn?_eq_some_iff.1 hword] at hmem
    exact (h.mem_entries_iff.1 hmem).2
  · intro hget
    exact ⟨(dir ++ [name], entry), h.mem_entries_iff.2 ⟨by simp, hget⟩,
      Option.map_eq_some_iff.2 ⟨name, Location.nameIn?_eq_some_iff.2 rfl, rfl⟩⟩

theorem isName_of_mem (h : disk.IsTree) (hget : disk.get? location = some entry)
    (hname : name ∈ location) : IsName name := by
  have hne : location ≠ [] := List.ne_nil_of_mem hname
  exact h.named _ (h.mem_entries_iff.2 ⟨hne, hget⟩) name hname

theorem isSpelled (h : disk.IsTree) (hget : disk.get? location = some entry) :
    location.IsSpelled :=
  fun _ hname => (h.isName_of_mem hget hname).1

/-- Above what is found there are directories. -/
theorem get?_of_isPrefix (h : disk.IsTree)
    (hget : disk.get? location = some entry) (hdir : dir <+: location) (hne : dir ≠ location) :
    disk.get? dir = some .dir := by
  induction location using List.reverseRecOn generalizing entry with
  | nil => exact absurd (List.prefix_nil.1 hdir) hne
  | append_singleton front name ih =>
      have hfront : disk.get? front = some .dir := by
        have hmem := h.mem_entries_iff.2 ⟨by simp, hget⟩
        simpa using (h.rooted _ hmem).2
      rcases List.prefix_concat_iff.1 hdir with heq | hdir
      · exact absurd heq hne
      · by_cases heq : dir = front
        · rwa [heq]
        · exact ih hfront hdir heq

theorem get?_parent (h : disk.IsTree) (hget : disk.get? (dir ++ [name]) = some entry) :
    disk.get? dir = some .dir :=
  h.get?_of_isPrefix hget (List.prefix_append dir [name]) (by simp)

theorem exists_file_of_mem_numbers {number : Nat} (h : disk.IsTree)
    (hnumber : (location, number) ∈ disk.numbers) :
    ∃ content, disk.get? location = some (.file content) := by
  obtain ⟨entry, hget, hfile⟩ :=
    (Option.any_eq_true _ _).1 (h.shared _ hnumber _ hnumber (.refl disk location)).1
  cases entry with
  | file content => exact ⟨content, hget⟩
  | dir | link _ => cases hfile

/-- Two names of one file stand for the same. -/
theorem get?_eq_of_sameFile {place : Location} (h : disk.IsTree)
    (hsame : disk.SameFile location place) : disk.get? place = disk.get? location := by
  by_cases hne : location = place
  · rw [hne]
  · obtain ⟨number, hnumber⟩ := hsame.exists_mem_numbers hne
    obtain ⟨number', hnumber'⟩ := hsame.symm.exists_mem_numbers (Ne.symm hne)
    exact (h.shared _ hnumber _ hnumber' hsame).2

/-- Only files have a second name. -/
theorem exists_file_of_sameFile {place : Location} (h : disk.IsTree)
    (hsame : disk.SameFile location place) (hne : location ≠ place) :
    ∃ content, disk.get? location = some (.file content) :=
  let ⟨_, hnumber⟩ := hsame.exists_mem_numbers hne
  h.exists_file_of_mem_numbers hnumber

/-- A stored content is found under all the names of its file, and nothing else changes. -/
theorem get?_store (h : disk.IsTree) (hne : location ≠ []) (content : Bytes)
    (other : Location) :
    (disk.store location content).get? other =
      if disk.SameFile location other then some (.file content) else disk.get? other := by
  split_ifs with hsame
  · by_cases heq : location = other
    · rw [← heq, get?_store_self hne]
    · obtain ⟨old, hget⟩ := h.exists_file_of_sameFile hsame.symm (Ne.symm heq)
      have hother : other ≠ [] := ne_nil_of_get? hget (by simp)
      rw [get?, if_neg hother] at hget ⊢
      rw [lookup_store, if_neg (Ne.symm heq), hget]
      simp [hsame]
  · exact get?_store_of_not_sameFile hsame content

theorem putDir (h : disk.IsTree) (hname : IsName name)
    (hdir : disk.get? dir = some .dir)
    (hnone : disk.get? (dir ++ [name]) = none) :
    (disk.put (dir ++ [name]) .dir).IsTree where
  sorted := pairwise_insertEntry h.sorted
  named item hitem other hother := by
    rcases mem_insertEntry hitem with rfl | hitem
    · rcases List.mem_append.1 hother with hother | hother
      · exact h.isName_of_mem hdir hother
      · rwa [List.mem_singleton.1 hother]
    · exact h.named item hitem other hother
  rooted item hitem := by
    rcases mem_insertEntry hitem with rfl | hitem
    · refine ⟨by simp, ?_⟩
      rw [List.dropLast_concat, get?_put_of_ne (by simp)]
      exact hdir
    · obtain ⟨hne, habove⟩ := h.rooted item hitem
      refine ⟨hne, ?_⟩
      rw [get?_put_of_ne (by rintro heq; simp [heq, hnone] at habove)]
      exact habove
  shared item hitem other hother hsame := by
    have hkept {place : Location} {number : Nat} (hnumber : (place, number) ∈ disk.numbers) :
        (disk.put (dir ++ [name]) .dir).get? place = disk.get? place := by
      obtain ⟨content, hget⟩ := h.exists_file_of_mem_numbers hnumber
      exact get?_put_of_ne (by rintro rfl; simp [hnone] at hget) _
    rw [hkept hitem, hkept hother]
    exact h.shared item hitem other hother hsame

theorem store (h : disk.IsTree) (hname : IsName name)
    (hdir : disk.get? dir = some .dir)
    (hplace : disk.get? (dir ++ [name]) ≠ some .dir) :
    (disk.store (dir ++ [name]) content).IsTree := by
  have hstore := h.get?_store (by simp : dir ++ [name] ≠ []) content
  have hkept {place : Location} (hget : disk.get? place = some .dir) :
      (disk.store (dir ++ [name]) content).get? place = some .dir := by
    rw [hstore, if_neg, hget]
    intro hsame
    exact hplace (h.get?_eq_of_sameFile hsame ▸ hget)
  refine ⟨?_, ?_, ?_, ?_⟩
  · exact List.pairwise_map.2 ((pairwise_insertEntry h.sorted).imp fun hab => hab)
  · intro item hitem other hother
    obtain ⟨old, hold, rfl⟩ := List.mem_map.1 hitem
    rcases mem_insertEntry hold with rfl | hold
    · rcases List.mem_append.1 hother with hother | hother
      · exact h.isName_of_mem hdir hother
      · rwa [List.mem_singleton.1 hother]
    · exact h.named old hold other hother
  · intro item hitem
    obtain ⟨old, hold, rfl⟩ := List.mem_map.1 hitem
    rcases mem_insertEntry hold with rfl | hold
    · refine ⟨by simp, hkept ?_⟩
      rwa [List.dropLast_concat]
    · obtain ⟨hne, habove⟩ := h.rooted old hold
      exact ⟨hne, hkept habove⟩
  · intro item hitem other hother hsame
    replace hsame : disk.SameFile item.1 other.1 := hsame
    rw [hstore, hstore]
    by_cases hstored : disk.SameFile (dir ++ [name]) item.1
    · rw [if_pos hstored, if_pos (hstored.trans hsame)]
      exact ⟨rfl, rfl⟩
    · rw [if_neg hstored, if_neg fun hother => hstored (hother.trans hsame.symm)]
      exact h.shared item hitem other hother hsame

/-- Two disks with the same numbers and guards on which the same is found are equal. -/
theorem ext (h : disk.IsTree) (h' : other.IsTree)
    (hnumbers : disk.numbers = other.numbers) (hguarded : disk.guarded = other.guarded)
    (hget : ∀ location, disk.get? location = other.get? location) : disk = other := by
  have hnodup {entries : List (Location × Entry)}
      (hsorted : entries.Pairwise fun a b => a.1.precedes b.1 = true) : entries.Nodup :=
    hsorted.imp fun {a b} hab heq => by
      rw [heq, Location.precedes_irrefl] at hab
      cases hab
  have hperm : disk.entries.Perm other.entries := by
    refine (List.perm_ext_iff_of_nodup (hnodup h.sorted) (hnodup h'.sorted)).2 fun item => ?_
    obtain ⟨location, entry⟩ := item
    rw [h.mem_entries_iff, h'.mem_entries_iff, hget]
  have heq : disk.entries = other.entries := by
    refine hperm.eq_of_pairwise (fun a b _ _ hab hba => ?_) h.sorted h'.sorted
    have hself := Location.precedes_trans hab hba
    rw [Location.precedes_irrefl] at hself
    cases hself
  cases disk
  cases other
  simp_all

end IsTree
end Disk
end Uncomment

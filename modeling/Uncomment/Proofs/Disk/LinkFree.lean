import Uncomment.Proofs.Disk.Directories

/-!
# Disks without links

On a disk without links a location is reached by its own names and by no others, so that
what comes of writing a file depends on a few things only: whether the system takes the path,
whether the name fits, what stands at the location, and whether it is guarded
(`write_concat`).
-/

namespace Uncomment
namespace Disk

variable {disk old new : Disk} {here location base : Location} {name : String}
  {content : Bytes} {target : Path}

/-- No entry is a link. -/
def LinkFree (disk : Disk) : Prop :=
  ∀ item ∈ disk.entries, item.2.isLink = false

instance (disk : Disk) : Decidable disk.LinkFree :=
  inferInstanceAs (Decidable (∀ _ ∈ _, _))

namespace LinkFree

theorem get?_ne_link (h : disk.LinkFree) : disk.get? location ≠ some (.link target) := by
  intro hget
  have hmem := mem_entries_of_get? hget (ne_nil_of_get? hget (by simp))
  exact Bool.noConfusion (h _ hmem)

theorem direct (h : disk.LinkFree) (location : Location) : disk.Direct location :=
  fun _ _ _ => h.get?_ne_link

theorem grows (h : old.LinkFree) (hgrows : old.Grows new) (htree : new.IsTree) :
    new.LinkFree := by
  rintro ⟨location, entry⟩ hitem
  cases entry with
  | link target =>
      exact absurd (hgrows.link.1 (htree.mem_entries_iff.1 hitem).2) h.get?_ne_link
  | file _ | dir => rfl

/-- Where no file is, there is a directory or nothing. -/
theorem free (h : disk.LinkFree)
    (hnone : ∀ front, front <+: location → ∀ content, disk.get? front ≠ some (.file content)) :
    disk.Free location := by
  intro front hfront
  cases hget : disk.get? front with
  | none => exact .inl rfl
  | some entry =>
      cases entry with
      | file content => exact absurd hget (hnone front hfront content)
      | dir => exact .inr rfl
      | link target => exact absurd hget h.get?_ne_link

end LinkFree

/-- What comes of writing a file where the given entry stands, which may be guarded. -/
def writable
    (path : Path)
    (name : String)
    (guarded : Bool)
    (standing : Option Entry) :
    Except OsError Unit :=
  match rejection? path with
  | some e => .error e
  | none =>
      if nameLimit < name.utf8ByteSize then .error .nameTooLong
      else if standing = some .dir then .error .isDirectory
      else if guarded then .error .permissionDenied
      else .ok ()

/-- Of what stands at the place it matters only whether it is a directory. -/
theorem writable_congr {path : Path} {guarded : Bool} {standing other : Option Entry}
    (h : standing = some .dir ↔ other = some .dir) :
    writable path name guarded standing = writable path name guarded other := by
  unfold writable
  simp only [h]

/-- In a directory a file is written where neither a directory nor a link stands. -/
theorem write_concat
    (htree : disk.IsTree)
    (hspelled : Location.IsSpelled (base ++ [name]))
    (hhere : disk.get? here = some .dir)
    (hbase : disk.get? base = some .dir)
    (hnoLink : ∀ target, disk.get? (base ++ [name]) ≠ some (.link target)) :
    disk.write here (Location.toPath (base ++ [name])) content =
      (writable (Location.toPath (base ++ [name])) name (disk.isGuarded (base ++ [name]))
        (disk.get? (base ++ [name]))).map fun () => disk.store (base ++ [name]) content := by
  unfold write writable
  cases rejection? (Location.toPath (base ++ [name])) with
  | some e => rfl
  | none =>
      have htop : disk.get? ([] ++ base) = some .dir := hbase
      dsimp only
      rw [Location.steps_toPath hspelled, follow_root hhere, linkBudget, follow,
        followUntilLink_append htree htop (by simp), List.nil_append]
      simp only [Location.steps, List.map_cons, List.map_nil, followUntilLink, hbase]
      by_cases hlong : nameLimit < name.utf8ByteSize
      · simp [hlong, Except.map]
      · cases hget : disk.get? (base ++ [name]) with
        | none =>
            cases hguarded : disk.isGuarded (base ++ [name]) <;>
              simp [hlong, hget, hguarded, Except.map]
        | some entry =>
            cases entry with
            | link target => exact absurd hget (hnoLink target)
            | dir => simp [hlong, hget, Except.map]
            | file _ =>
                cases hguarded : disk.isGuarded (base ++ [name]) <;>
                  simp [hlong, hget, hguarded, Except.map]

end Disk
end Uncomment

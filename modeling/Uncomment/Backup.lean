import Uncomment.Path

/-!
# Backup directories

Before a file is overwritten its bytes go to a backup directory
`bak/<name>_<time>` under the root of the run, at the same place relative to
that root.  `Backup.target?` says where.
-/

namespace Uncomment

/-- A moment, by calendar and clock. -/
structure Moment where
  year : Nat
  month : Nat
  day : Nat
  hour : Nat
  minute : Nat
  second : Nat
deriving DecidableEq, Repr

namespace Moment

/-- A number with zeros before it up to a width. -/
def padded (width n : Nat) : String :=
  let digits := (toString n).toList
  String.ofList (List.replicate (width - digits.length) '0' ++ digits)

/-- Date and time to the second, with a sign before a year of more than four digits. -/
def stamp (moment : Moment) : String :=
  (if moment.year < 10000 then "" else "+") ++ padded 4 moment.year ++ padded 2 moment.month ++
    padded 2 moment.day ++ "_" ++ padded 2 moment.hour ++ padded 2 moment.minute ++
    padded 2 moment.second

end Moment

/-- A directory for the contents that a run overwrites under one root. -/
structure Backup where
  /-- The root of the files it is for. -/
  root : Path
  /-- The directory itself. -/
  dir : Path
deriving DecidableEq, Repr

namespace Backup

/-- The name of the directory that holds all backups of a root. -/
def folder : String := "bak"

/-- The backup directory of a root for a time stamp. -/
def make (root : Path) (stamp : String) : Backup where
  root := root
  dir :=
    (root.join ⟨[folder]⟩).join ⟨[root.fileName?.getD "root" ++ "_" ++ stamp]⟩

/--
Where the content of a file goes: to its place relative to the root, or under its
name if it does not lie below the root.
-/
def target? (backup : Backup) (file : Path) : Option Path :=
  let relative? :=
    match file.stripPrefix? backup.root with
    | some relative => if relative.isEmpty then none else some relative
    | none => none
  match relative? with
  | some relative => some (backup.dir.join relative)
  | none => file.fileName?.map fun name => backup.dir.join ⟨[name]⟩

end Backup
end Uncomment

/-!
# Paths

A `Path` is a path as somebody wrote it, cut at its slashes: `/a//b` has the
segments empty, `a`, empty and `b`.  Empty segments and dots mean nothing except
at the front, so the meaning of a path is its list of `components`.  The
operations here work on components but leave the spelling of what they keep
alone, since paths are shown to the user.
-/

namespace Uncomment

/-- A path as written, cut at its slashes. -/
structure Path where
  segments : List String
deriving DecidableEq, Repr

/-- A meaningful part of a path. -/
inductive Component where
  /-- The slash at the front. -/
  | root
  /-- The dot at the front. -/
  | current
  /-- Two dots. -/
  | parent
  /-- A name. -/
  | normal (name : String)
deriving DecidableEq, Repr

namespace Path

/-- Cut characters at slashes. -/
def splitSlash : List Char → List (List Char)
  | [] => [[]]
  | c :: rest =>
      if c = '/' then [] :: splitSlash rest
      else
        match splitSlash rest with
        | [] => [[c]]
        | segment :: more => (c :: segment) :: more

/-- The path spelled by a string. -/
def ofString (s : String) : Path :=
  ⟨(splitSlash s.toList).map String.ofList⟩

/-- The spelling of a path. -/
def toString (path : Path) : String :=
  "/".intercalate path.segments

/-- What stands before the body of a path. -/
inductive Lead where
  | none
  | root
  | current
deriving DecidableEq, Repr

/-- Whether a segment means nothing inside a path. -/
def isIdle (segment : String) : Bool :=
  segment == "" || segment == "."

/-- The lead of a path and its body: the segments after the lead. -/
def leadAndBody (path : Path) : Lead × List String :=
  match path.segments with
  | "" :: second :: more => (.root, second :: more)
  | "." :: more => (.current, more)
  | segments => (.none, segments)

/-- Put a lead and a body together. -/
def ofLead (lead : Lead) (body : List String) : Path :=
  match lead, body with
  | .none, [] => ⟨[""]⟩
  | .none, body => ⟨body⟩
  | .root, [] => ⟨["", ""]⟩
  | .root, body => ⟨"" :: body⟩
  | .current, body => ⟨"." :: body⟩

/-- The component that a segment with a meaning stands for. -/
def componentOf (segment : String) : Component :=
  if segment == ".." then .parent else .normal segment

/-- The components of a body. -/
def bodyComponents (body : List String) : List Component :=
  (body.filter fun segment => !isIdle segment).map componentOf

/-- The components of a path. -/
def components (path : Path) : List Component :=
  match path.leadAndBody with
  | (.none, body) => bodyComponents body
  | (.root, body) => .root :: bodyComponents body
  | (.current, body) => .current :: bodyComponents body

/-- Whether a path starts with a slash. -/
def isAbsolute (path : Path) : Bool :=
  path.leadAndBody.1 == .root

/-- Whether a path is spelled by the empty string. -/
def isEmpty (path : Path) : Bool :=
  path.segments.all (· == "") && path.segments.length ≤ 1

/-- Segments without the meaningless ones at the end. -/
def trimBack (segments : List String) : List String :=
  (segments.reverse.dropWhile isIdle).reverse

/-- The last component of a path if it is a name. -/
def fileName? (path : Path) : Option String :=
  match path.components.getLast? with
  | some (.normal name) => some name
  | _ => none

/-- The part of a file name after its last dot, if there is text before that dot. -/
def extensionOf? (name : String) : Option String :=
  let reversed := name.toList.reverse
  let tail := reversed.takeWhile (· != '.')
  match reversed.drop tail.length with
  | _dot :: _ :: _ => some (String.ofList tail.reverse)
  | _ => none

/-- The extension of the file that a path names. -/
def extension? (path : Path) : Option String :=
  path.fileName?.bind extensionOf?

/-- The path without its last component. -/
def parent? (path : Path) : Option Path :=
  let (lead, body) := path.leadAndBody
  match (trimBack body).reverse with
  | _last :: front => some (ofLead lead (trimBack front.reverse))
  | [] => if lead = .current then some ⟨[""]⟩ else none

/-- The second path seen from the first. -/
def join (path other : Path) : Path :=
  if other.isAbsolute then other
  else if path.segments.getLast? = some "" then ⟨path.segments.dropLast ++ other.segments⟩
  else ⟨path.segments ++ other.segments⟩

/-- Remove components from the front of a body. -/
def dropComponents : List Component → List String → Option (List String)
  | [], body => some body
  | component :: more, body =>
      match body.dropWhile isIdle with
      | [] => none
      | segment :: rest =>
          if componentOf segment = component then dropComponents more rest else none

/-- What is left of a body, spelled without meaningless segments at its ends. -/
def remainder (body : List String) : Path :=
  ofLead .none (trimBack (body.dropWhile isIdle))

/-- The path seen from a directory whose components it starts with. -/
def stripPrefix? (path base : Path) : Option Path :=
  let (lead, body) := path.leadAndBody
  match base.components with
  | [] => some (ofLead lead (trimBack body))
  | first :: more =>
      match lead with
      | .none => (dropComponents (first :: more) body).map remainder
      | .root =>
          if first = .root then (dropComponents more body).map remainder else none
      | .current =>
          if first = .current then (dropComponents more body).map remainder else none

/-- The spelling of a path with slashes for backslashes. -/
def slashed (path : Path) : String :=
  String.ofList (path.toString.toList.map fun c => if c = '\\' then '/' else c)

/-- A path shown relative to a root; the root itself is shown by its name. -/
def display (root path : Path) : String :=
  let relative := (path.stripPrefix? root).getD path
  if relative.isEmpty then path.fileName?.getD path.toString
  else relative.slashed

end Path
end Uncomment

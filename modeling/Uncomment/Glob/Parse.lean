import Uncomment.Glob.Basic

/-!
# Reading globs

`Glob.parse` reads a glob from left to right.  Braces may be nested, so the
reader keeps, for every open brace, the alternatives read so far and what stood
before the brace.
-/

namespace Uncomment
namespace Glob

/-- What is wrong with a glob. -/
inductive Error where
  | unclosedClass
  | invalidRange (low high : Char)
  | danglingEscape
  | unclosedAlternates
  | unopenedAlternates
deriving DecidableEq, Repr

/-- What is wrong, in words. -/
def Error.message : Error → String
  | .unclosedClass => "unclosed character class; missing ']'"
  | .invalidRange low high =>
      "invalid range; '" ++ low.toString ++ "' > '" ++ high.toString ++ "'"
  | .danglingEscape => "dangling '\\'"
  | .unclosedAlternates =>
      "unclosed alternate group; missing '\x7d' (maybe escape '\x7b' with '[\x7b]'?)"
  | .unopenedAlternates =>
      "unopened alternate group; missing '\x7b' (maybe escape '\x7d' with '[\x7d]'?)"

/-- The byte ranges of a range of characters, read byte by byte. -/
def byteRanges (low high : Char) : List (UInt8 × UInt8) :=
  let first := String.utf8EncodeChar low
  let last := String.utf8EncodeChar high
  if low = high then first.map fun b => (b, b)
  else
    first.dropLast.map (fun b => (b, b)) ++ [(first.getLast?.getD 0, last.head?.getD 0)] ++
      last.tail.map fun b => (b, b)

/--
Read a class of characters after its opening bracket and negation.  `ranges` are
those read so far, reversed; `count` characters have been read.  The answer is
none if the class is not closed.
-/
def readClass
    (isFirst inRange : Bool)
    (ranges : List (Char × Char))
    (count : Nat) :
    List Char → Except Error (Option (List (Char × Char) × Nat))
  | [] => .ok none
  | c :: rest =>
      if c = ']' && !isFirst then
        .ok (some ((if inRange then ('-', '-') :: ranges else ranges).reverse, count + 1))
      else if c = '-' && !isFirst && !inRange then
        readClass false true ranges (count + 1) rest
      else
        match inRange, ranges with
        | true, (low, _) :: older =>
            if c < low then .error (.invalidRange low c)
            else readClass false false ((low, c) :: older) (count + 1) rest
        | _, _ => readClass false false ((c, c) :: ranges) (count + 1) rest

/-- Read a class after its opening bracket: the class and the number of characters it takes. -/
def readByteClass (rest : List Char) : Except Error (Option (ByteClass × Nat)) :=
  let (negated, inner, skipped) :=
    match rest with
    | '!' :: inner | '^' :: inner => (true, inner, 1)
    | inner => (false, inner, 0)
  match readClass true false [] 0 inner with
  | .error e => .error e
  | .ok none => .ok none
  | .ok (some (ranges, count)) =>
      .ok (some (⟨negated, ranges.flatMap fun (low, high) => byteRanges low high⟩,
        skipped + count))

/-- An open brace: what stood before it, and the alternatives before the current one, reversed. -/
structure Group where
  outer : List Token
  done : List Expression
deriving DecidableEq, Repr

/-- What has been read of a glob. -/
structure State where
  /-- The tokens of the current alternative, reversed. -/
  tokens : List Token
  /-- The open braces, innermost first. -/
  groups : List Group
  /-- Whether brackets are ordinary characters because one was not closed. -/
  plainBrackets : Bool
deriving DecidableEq, Repr

/-- One more token. -/
def State.push (state : State) (token : Token) : State :=
  { state with tokens := token :: state.tokens }

/-- The expression of the current alternative. -/
def State.current (style : Style) (state : State) : Expression :=
  expressionOf style state.tokens.reverse

/--
Read two stars or one, after the character `prev` and before `rest`.  The answer
has the number of characters of `rest` that were taken.
-/
def readStar
    (prev : Option Char)
    (state : State)
    (rest : List Char) :
    State × Nat :=
  let inGroup := !state.groups.isEmpty
  match rest with
  | '*' :: after =>
      let two := (state.push .star).push .star
      if state.tokens.isEmpty then
        match after with
        | [] => (state.push .leadingDirs, 1)
        | '/' :: _ => (state.push .leadingDirs, 2)
        | _ => (two, 1)
      else if prev ≠ some '/' && !(inGroup && (prev = some ',' || prev = some '\x7b')) then
        (two, 1)
      else
        let replaced (token : Token) : State :=
          match state.tokens with
          | .leadingDirs :: _ | .anythingBelow :: _ => state
          | _ :: older => { state with tokens := token :: older }
          | [] => state.push token
        match after with
        | [] => (replaced .anythingBelow, 1)
        | '/' :: _ => (replaced (.other innerDirs), 2)
        | c :: _ =>
            if inGroup && (c = ',' || c = '\x7d') then (replaced .anythingBelow, 1)
            else (two, 1)
  | _ => (state.push .star, 0)

/-- Read on from a state, after the character `prev`, passing over `skip` characters first. -/
def readFrom
    (style : Style) :
    Nat → Option Char → State → List Char → Except Error State
  | _, _, state, [] => .ok state
  | skip + 1, _, state, c :: rest => readFrom style skip (some c) state rest
  | 0, prev, state, c :: rest =>
      if c = '?' then
        readFrom style 0 (some c) (state.push (.other style.anyByte)) rest
      else if c = '*' then
        let (next, taken) := readStar prev state rest
        readFrom style taken (some c) next rest
      else if c = '[' && !state.plainBrackets then
        match readByteClass rest with
        | .error e => .error e
        | .ok (some (cls, taken)) =>
            readFrom style taken (some c) (state.push (.other (.oneOf cls))) rest
        | .ok none =>
            if style.allowsUnclosedClass then
              readFrom style 0 (some c) { state.push (.literal c) with plainBrackets := true } rest
            else .error .unclosedClass
      else if c = '\x7b' then
        readFrom style 0 (some c)
          { state with tokens := [], groups := ⟨state.tokens, []⟩ :: state.groups } rest
      else if c = '\x7d' then
        match state.groups with
        | [] => .error .unopenedAlternates
        | group :: outer =>
            let inner := Expression.alternatives (state.current style :: group.done).reverse
            readFrom style 0 (some c)
              { state with tokens := .other inner :: group.outer, groups := outer } rest
      else if c = ',' then
        match state.groups with
        | [] => readFrom style 0 (some c) (state.push (.literal c)) rest
        | group :: outer =>
            readFrom style 0 (some c)
              { state with
                  tokens := []
                  groups := ⟨group.outer, state.current style :: group.done⟩ :: outer } rest
      else if c = '\\' then
        match rest with
        | [] => .error .danglingEscape
        | escaped :: _ => readFrom style 1 (some c) (state.push (.literal escaped)) rest
      else readFrom style 0 (some c) (state.push (.literal c)) rest

/-- Read a whole glob. -/
def parse (style : Style) (written : String) : Except Error Glob :=
  match readFrom style 0 none ⟨[], [], false⟩ written.toList with
  | .error e => .error e
  | .ok state =>
      if state.groups.isEmpty then .ok ⟨style, state.tokens.reverse⟩
      else .error .unclosedAlternates

end Glob
end Uncomment

import Uncomment.Lexer.Span

/-!
# Cursor

A `Cursor` reads a line from left to right.  One step consumes a delimiter, an
escape or a single byte; the list of all stops is the `trail` of the cursor.  A
cursor can also jump over a removed comment and go on in code
(`Cursor.resume`); then the bytes it has jumped over count as no code.

The unread bytes get fewer with every step (`Cursor.length_rest_step_lt`), which
is why trails end.
-/

namespace Uncomment

/-- A position in a line together with what reading on depends on. -/
structure Cursor where
  /-- The unread bytes. -/
  rest : Bytes
  /-- The number of bytes before them. -/
  offset : Nat
  /-- The byte right before the unread ones. -/
  before : Option UInt8
  /-- The context of the next byte. -/
  span : Span
  /-- The last byte of code that was not blank. -/
  lastCode : Option UInt8
  /-- The length of the run of backslashes in code that ends here. -/
  backslashes : Nat
deriving DecidableEq, Repr

namespace Cursor

/-- The cursor at the start of a line. -/
def start (line : Bytes) : Cursor where
  rest := line
  offset := 0
  before := none
  span := .code
  lastCode := none
  backslashes := 0

/-- The last byte of `b` and the first `more` bytes of `rest`. -/
def lastOf (b : UInt8) (rest : Bytes) (more : Nat) : UInt8 :=
  ((rest.take more).getLast?).getD b

/-- Move past `b` and the first `more` bytes of `rest`, the context unchanged. -/
def move
    (cursor : Cursor)
    (b : UInt8)
    (rest : Bytes)
    (more : Nat) :
    Cursor :=
  { cursor with
      rest := rest.drop more
      offset := cursor.offset + more + 1
      before := some (lastOf b rest more) }

/-- One step in code at the unread bytes `b :: rest`. -/
def stepCode
    (dialect : Dialect)
    (cursor : Cursor)
    (b : UInt8)
    (rest : Bytes) :
    Cursor :=
  let opened :=
    if cursor.backslashes % 2 == 1 then none
    else Lexer.opening? dialect cursor.before cursor.lastCode b rest
  match opened with
  | some (more, span) =>
      { cursor.move b rest more with span := span, backslashes := 0 }
  | none =>
      { cursor.move b rest 0 with
          lastCode := if Byte.isBlank b then cursor.lastCode else some b
          backslashes := if b == Byte.backslash then cursor.backslashes + 1 else 0 }

/-- One step inside a literal at the unread bytes `b :: rest`. -/
def stepLiteral
    (dialect : Dialect)
    (cursor : Cursor)
    (b : UInt8)
    (rest : Bytes) :
    Cursor :=
  if b == Byte.backslash && cursor.span.escapes dialect then
    cursor.move b rest (min 1 rest.length)
  else
    match cursor.span.closing? b rest with
    | some more =>
        { cursor.move b rest more with
            span := .code, lastCode := some (lastOf b rest more) }
    | none => cursor.move b rest 0

/-- One step at the unread bytes `b :: rest`. -/
def step
    (dialect : Dialect)
    (cursor : Cursor)
    (b : UInt8)
    (rest : Bytes) :
    Cursor :=
  if cursor.span = .code then cursor.stepCode dialect b rest
  else cursor.stepLiteral dialect b rest

/-- Jump past `b` and the first `more` bytes of `rest`, and go on in code. -/
def resume
    (cursor : Cursor)
    (b : UInt8)
    (rest : Bytes)
    (more : Nat) :
    Cursor :=
  { cursor.move b rest more with span := .code, backslashes := 0 }

@[simp] theorem rest_move
    (cursor : Cursor) (b : UInt8) (rest : Bytes) (more : Nat) :
    (cursor.move b rest more).rest = rest.drop more := by
  rfl

/-- A step in code leaves a tail of the bytes after the first unread one. -/
theorem exists_rest_stepCode
    (dialect : Dialect) (cursor : Cursor) (b : UInt8) (rest : Bytes) :
    ∃ more, (cursor.stepCode dialect b rest).rest = rest.drop more := by
  unfold stepCode
  dsimp only
  split
  · exact ⟨_, rfl⟩
  · exact ⟨0, rfl⟩

theorem exists_rest_stepLiteral
    (dialect : Dialect) (cursor : Cursor) (b : UInt8) (rest : Bytes) :
    ∃ more, (cursor.stepLiteral dialect b rest).rest = rest.drop more := by
  unfold stepLiteral
  split
  · exact ⟨_, rfl⟩
  · split
    · exact ⟨_, rfl⟩
    · exact ⟨0, rfl⟩

/-- Every step reads at least one byte. -/
theorem length_rest_step_lt
    (dialect : Dialect) (cursor : Cursor) (b : UInt8) (rest : Bytes) :
    (cursor.step dialect b rest).rest.length < (b :: rest).length := by
  have h : ∃ more, (cursor.step dialect b rest).rest = rest.drop more := by
    unfold step
    split
    · exact exists_rest_stepCode dialect cursor b rest
    · exact exists_rest_stepLiteral dialect cursor b rest
  obtain ⟨more, h⟩ := h
  rw [h, List.length_drop, List.length_cons]
  omega

/-- Every jump leaves fewer bytes unread. -/
theorem length_rest_resume_lt
    (cursor : Cursor) (b : UInt8) (rest : Bytes) (more : Nat) :
    (cursor.resume b rest more).rest.length < (b :: rest).length := by
  simp only [resume, rest_move, List.length_drop, List.length_cons]
  omega

/-- All stops of a cursor, from where it stands to the end of the line. -/
def trail (dialect : Dialect) (cursor : Cursor) : List Cursor :=
  match _rest : cursor.rest with
  | [] => [cursor]
  | b :: rest => cursor :: trail dialect (cursor.step dialect b rest)
termination_by cursor.rest.length
decreasing_by
  rw [_rest]
  exact length_rest_step_lt dialect cursor b rest

end Cursor
end Uncomment

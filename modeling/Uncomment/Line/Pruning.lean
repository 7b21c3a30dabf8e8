import Uncomment.Lexer.Cursor
import Uncomment.Line.Mode
import Uncomment.Veto.Basic

/-!
# Pruning a line

`Pruning.ofLine` removes the comments of a line that starts in code.  A cursor
reads the line; wherever it stands in code and an unkept start token begins, the
comment is removed:

* a line comment, or a block comment without a stop token, up to the end of the
  line;
* a block comment otherwise just past its stop token, where reading goes on in
  code.  A space takes its place if the bytes around it would be glued together.

The result lists the removals beside the text that is left and the mode.
-/

namespace Uncomment

/-- A comment removed from a line. -/
structure Removal where
  /-- The offset of its first byte. -/
  start : Nat
  /-- The offset just after its last byte. -/
  stop : Nat
  /-- The rule it follows. -/
  rule : Rule
  /-- Whether a space was put in its place. -/
  gap : Bool
deriving DecidableEq, Repr

/-- The removal of everything from where a cursor stands. -/
def Removal.toEnd (cursor : Cursor) (rule : Rule) : Removal :=
  ⟨cursor.offset, cursor.offset + cursor.rest.length, rule, false⟩

/-- A line without its comments. -/
structure Pruning where
  /-- The text that is left. -/
  text : Bytes
  /-- The comments that were removed, left to right. -/
  removals : List Removal
  /-- What the line leaves open. -/
  mode : Mode
deriving DecidableEq, Repr

namespace Pruning

/-- The first rule whose start token begins the text `rest` at an offset and is not kept there. -/
def firstRule?
    (language : Language)
    (facts : LineFacts)
    (offset : Nat)
    (rest : Bytes) :
    List Rule → Except Fault (Option Rule)
  | [] => .ok none
  | rule :: more =>
      if rule.start.isPrefixOf rest then
        match Veto.keeps language facts offset rule.start with
        | .error fault => .error fault
        | .ok true => firstRule? language facts offset rest more
        | .ok false => .ok (some rule)
      else firstRule? language facts offset rest more

/-- The rule of the comment that starts where a cursor stands, if one does. -/
def commentAt?
    (language : Language)
    (facts : LineFacts)
    (cursor : Cursor) :
    Except Fault (Option Rule) :=
  if cursor.span = .code then
    firstRule? language facts cursor.offset cursor.rest language.rules
  else .ok none

/-- Whether removing a comment between two bytes would glue text together that it kept apart. -/
def fuses (language : Language) (last next : Option UInt8) : Bool :=
  if language = .html ∨ language = .markdown then false
  else last.any (fun b => !Byte.isBlank b) && next.any (fun b => !Byte.isBlank b)

/--
Remove the comments from where the cursor stands.  The text kept so far and the
removals so far are given reversed.
-/
def fromCursor
    (language : Language)
    (facts : LineFacts)
    (cursor : Cursor)
    (kept : Bytes)
    (removals : List Removal) :
    Except Fault Pruning :=
  match _rest : cursor.rest with
  | [] => .ok ⟨kept.reverse, removals.reverse, .ofSpan language.dialect cursor.span⟩
  | b :: rest =>
      match commentAt? language facts cursor with
      | .error fault => .error fault
      | .ok none =>
          let next := cursor.step language.dialect b rest
          let read := (b :: rest).take (next.offset - cursor.offset)
          fromCursor language facts next (read.reverse ++ kept) removals
      | .ok (some rule) =>
          match Utf8.checkClean (b :: rest) with
          | .error fault => .error fault
          | .ok () =>
              match rule with
              | .line _ =>
                  .ok ⟨kept.reverse, (.toEnd cursor rule :: removals).reverse, .normal⟩
              | .block start stop =>
                  let body := (b :: rest).drop start.length
                  match Utf8.checkClean body with
                  | .error fault => .error fault
                  | .ok () =>
                      match Bytes.find? stop body with
                      | none =>
                          .ok ⟨kept.reverse, (.toEnd cursor rule :: removals).reverse,
                            .blockComment stop⟩
                      | some found =>
                          let width := start.length + found + stop.length
                          let next := cursor.resume b rest (width - 1)
                          match Utf8.checkClean next.rest with
                          | .error fault => .error fault
                          | .ok () =>
                              let gap := fuses language kept.head? next.rest.head?
                              let removal : Removal :=
                                ⟨cursor.offset, cursor.offset + width, rule, gap⟩
                              fromCursor language facts next
                                (if gap then Byte.space :: kept else kept)
                                (removal :: removals)
termination_by cursor.rest.length
decreasing_by
  · rw [_rest]
    exact Cursor.length_rest_step_lt language.dialect cursor b rest
  · rw [_rest]
    exact Cursor.length_rest_resume_lt cursor b rest _

/-- Remove the comments of a line that starts in code. -/
def ofLine (language : Language) (line : Bytes) : Except Fault Pruning :=
  fromCursor language (LineFacts.ofLine line) (Cursor.start line) [] []

end Pruning
end Uncomment

import Uncomment.Proofs.Line.Modes
import Uncomment.Proofs.Line.Outcome
import Uncomment.Proofs.Line.Rereading
import Uncomment.Proofs.Strip.Rows
import Uncomment.Proofs.Lexer.Closing
import Uncomment.Proofs.Veto.Total

/-!
# Stripping comes to an end without a fault

Outside YAML no well-placed line ends in a fault: every cut is next to a byte of a
token or of a delimiter, which are of the ASCII range.  So every well-formed text can
be stripped (`strip_succeeds`).

The one thing to know about the mode is that an open block comment waits for a stop
token of the language (`Mode.Possible`).
-/

namespace Uncomment

namespace Pruning

variable {language : Language} {line : Bytes}

theorem firstRule?_succeeds
    {rules : List Rule} {offset : Nat}
    (hyaml : language ≠ .yaml)
    (hplaced : Utf8.Placed line)
    (hrules : ∀ rule ∈ rules, rule ∈ language.rules) :
    Succeeds (firstRule? language (LineFacts.ofLine line) offset (line.drop offset) rules) := by
  induction rules with
  | nil =>
      exact .ok _
  | cons rule more ih =>
      have hmore := ih fun other hother => hrules other (List.mem_cons_of_mem rule hother)
      rw [firstRule?]
      split
      · next hpre =>
          obtain ⟨kept, hkeeps⟩ := Veto.keeps_succeeds hyaml hplaced
            (hrules rule List.mem_cons_self) (List.isPrefixOf_iff_prefix.1 hpre)
          rw [hkeeps]
          cases kept with
          | true => exact hmore
          | false => exact .ok _
      · exact hmore

/-- It can be told whether a comment starts at a cursor. -/
theorem commentAt?_succeeds
    {cursor : Cursor}
    (hyaml : language ≠ .yaml)
    (hplaced : Utf8.Placed line)
    (hat : cursor.At line) :
    Succeeds (commentAt? language (LineFacts.ofLine line) cursor) := by
  rw [commentAt?, hat.2]
  exact .ite (firstRule?_succeeds hyaml hplaced fun _ h => h) (.ok _)

theorem startsClean_body
    {facts : LineFacts} {cursor : Cursor} {rule : Rule}
    (hplaced : Utf8.Placed line)
    (hat : cursor.At line)
    (hrule : commentAt? language facts cursor = .ok (some rule)) :
    Utf8.startsClean (cursor.rest.drop rule.start.length) = true := by
  obtain ⟨hmem, hstart⟩ := mem_rules_of_commentAt? hrule
  rw [hat.2] at hstart ⊢
  rw [List.drop_drop]
  exact hplaced.startsClean_drop (Language.start_ne_nil hmem) (Language.isInk_of_mem_start hmem)
    hstart

/-- Behind a stop token reading goes on in the line, where a character starts. -/
theorem at_resume_of_find?
    {facts : LineFacts} {cursor : Cursor} {b : UInt8} {rest start stop : Bytes} {found : Nat}
    (hplaced : Utf8.Placed line)
    (hat : cursor.At line)
    (hrest : cursor.rest = b :: rest)
    (hrule : commentAt? language facts cursor = .ok (some (.block start stop)))
    (hfind : Bytes.find? stop (cursor.rest.drop start.length) = some found) :
    (cursor.resume b rest (start.length + found + stop.length - 1)).At line ∧
      Utf8.startsClean
        (cursor.resume b rest (start.length + found + stop.length - 1)).rest = true := by
  obtain ⟨hmem, hstart⟩ := mem_rules_of_commentAt? hrule
  obtain ⟨hne, hink⟩ := Language.isInk_of_mem_stop hmem
  have hstop := (Bytes.find?_eq_some_iff.1 hfind).1
  obtain ⟨hpos, hwidth⟩ := width_of_find? hrule hfind
  obtain ⟨hnext, hoffset⟩ := Reading.at_resume hat hrest hpos hwidth
  refine ⟨hnext, ?_⟩
  rw [hat.2, List.drop_drop, List.drop_drop] at hstop
  have hclean := hplaced.startsClean_drop hne hink hstop
  rw [hnext.2, hoffset]
  rwa [show cursor.offset + (start.length + found + stop.length) =
    cursor.offset + (start.length + found) + stop.length by omega]

theorem fromCursor_succeeds
    {cursor : Cursor} {kept : Bytes} {removals : List Removal}
    (hyaml : language ≠ .yaml)
    (hplaced : Utf8.Placed line)
    (hat : cursor.At line) :
    Succeeds (fromCursor language (LineFacts.ofLine line) cursor kept removals) := by
  generalize hfacts : LineFacts.ofLine line = facts
  fun_induction fromCursor language facts cursor kept removals with
  | case1 | case5 | case7 =>
      exact .ok _
  | case2 cursor kept removals b rest hrest fault hfault =>
      obtain ⟨answer, hanswer⟩ := commentAt?_succeeds hyaml hplaced hat
      rw [hfacts, hfault] at hanswer
      cases hanswer
  | case3 cursor kept removals b rest hrest hnone next read ih =>
      obtain ⟨more, hmore, hstep, hoffset⟩ := Cursor.exists_step language.dialect cursor b rest
      exact ih (Cursor.at_of_move hat hrest hmore hstep hoffset)
  | case4 cursor kept removals b rest hrest rule hrule fault hfault =>
      obtain ⟨hmem, hstart⟩ := mem_rules_of_commentAt? hrule
      rw [hrest] at hstart
      have hclean := Veto.startsClean_of_isPrefix hmem hstart
      rw [Utf8.checkClean_eq_ok hclean] at hfault
      cases hfault
  | case6 cursor kept removals b rest hrest hclean start stop body fault hfault hrule =>
      have hbody : Utf8.startsClean body = true := by
        have hdrop := startsClean_body hplaced hat hrule
        rwa [hrest] at hdrop
      rw [Utf8.checkClean_eq_ok hbody] at hfault
      cases hfault
  | case8 cursor kept removals b rest hrest hclean start stop body hbody found hfind width next
      fault hfault hrule =>
      rw [show body = cursor.rest.drop start.length by rw [hrest]] at hfind
      have hnext := (at_resume_of_find? hplaced hat hrest hrule hfind).2
      rw [Utf8.checkClean_eq_ok hnext] at hfault
      cases hfault
  | case9 cursor kept removals b rest hrest hclean start stop body hbody found hfind width
      next hnext gap hrule removal ih =>
      rw [show body = cursor.rest.drop start.length by rw [hrest]] at hfind
      exact ih (at_resume_of_find? hplaced hat hrest hrule hfind).1

/-- The comments of a well-placed line can be removed. -/
theorem ofLine_succeeds
    (hyaml : language ≠ .yaml)
    (hplaced : Utf8.Placed line) :
    Succeeds (ofLine language line) := by
  exact fromCursor_succeeds hyaml hplaced (Cursor.at_start line)

end Pruning

namespace Line

variable {language : Language} {line : Bytes}

/-- A well-placed line can be processed in mode `normal`. -/
theorem processNormal_succeeds
    (hyaml : language ≠ .yaml)
    (hplaced : Utf8.Placed line) :
    Succeeds (processNormal language line) := by
  obtain ⟨pruning, hpruning⟩ := Pruning.ofLine_succeeds hyaml hplaced
  rw [processNormal, hpruning]
  exact .ite (.ok _) (.ok _)

theorem startingAt_of_find?
    {stop : Bytes} {found : Nat}
    (hplaced : Utf8.Placed line)
    (hne : stop ≠ [])
    (hink : ∀ b ∈ stop, Blank.isInk b = true)
    (hfind : Bytes.find? stop line = some found) :
    Utf8.startingAt line (found + stop.length) = .ok (line.drop (found + stop.length)) := by
  have hclean := hplaced.startsClean_drop hne hink (Bytes.find?_eq_some_iff.1 hfind).1
  exact (Utf8.startingAt_eq_ok_iff _ _ _).2
    ⟨Or.inr ⟨Bytes.find?_add_length_le hfind, hclean⟩, rfl⟩

/-- Behind the delimiter that closes a literal a well-placed line can be cut. -/
theorem startingAt_of_findClose
    {dialect : Dialect} {span : Span} {close : Nat}
    (hplaced : Utf8.Placed line)
    (hclose : Lexer.findClose dialect span line = some close) :
    Utf8.startingAt line close = .ok (line.drop close) := by
  obtain ⟨width, b, rfl, hget, hink⟩ := Lexer.exists_ink_of_findCloseFrom hclose
  obtain ⟨hlt, rfl⟩ := List.getElem?_eq_some_iff.1 hget
  have hpre : [(line)[width]] <+: line.drop width := by
    rw [List.drop_eq_getElem_cons hlt]
    exact ⟨_, rfl⟩
  have hclean := hplaced.startsClean_drop (List.cons_ne_nil _ _) (by simpa using hink) hpre
  rw [List.length_singleton] at hclean
  rw [Nat.zero_add]
  exact (Utf8.startingAt_eq_ok_iff _ _ _).2 ⟨Or.inr ⟨Nat.succ_le_of_lt hlt, hclean⟩, rfl⟩

/-- A well-placed line can be processed in any mode that can come about. -/
theorem process_succeeds
    {mode : Mode}
    (hyaml : language ≠ .yaml)
    (hplaced : Utf8.Placed line)
    (hmode : mode.Possible language) :
    Succeeds (process language mode line) := by
  have hcode (offset : Nat) : Succeeds (Pruning.ofLine language (line.drop offset)) :=
    Pruning.ofLine_succeeds hyaml (hplaced.of_isInfix (List.drop_suffix _ _).isInfix)
  cases mode with
  | normal =>
      exact processNormal_succeeds hyaml hplaced
  | blockScalar indent =>
      exact .ite (.ok _) (processNormal_succeeds hyaml hplaced)
  | blockComment stop =>
      rw [process, processComment]
      cases hfind : Bytes.find? stop line with
      | none =>
          exact .ok _
      | some found =>
          obtain ⟨start, hrule⟩ := hmode
          obtain ⟨hne, hink⟩ := Language.isInk_of_mem_stop hrule
          obtain ⟨pruning, hpruning⟩ := hcode (found + stop.length)
          dsimp only
          rw [startingAt_of_find? hplaced hne hink hfind]
          dsimp only
          rw [hpruning]
          exact .ok _
  | literal kind =>
      rw [process, processLiteral]
      cases hclose : Lexer.findClose language.dialect kind.span line with
      | none =>
          exact .ok _
      | some close =>
          obtain ⟨pruning, hpruning⟩ := hcode close
          dsimp only
          rw [startingAt_of_findClose hplaced hclose]
          dsimp only
          rw [hpruning]
          exact .ite (.ok _) (.ok _)

end Line

theorem Strip.rowsFrom_succeeds
    {language : Language} {mode : Mode} {found rows : List Bytes}
    (hyaml : language ≠ .yaml)
    (hmode : mode.Possible language)
    (hrows : ∀ row ∈ rows, Utf8.Placed row) :
    Succeeds (rowsFrom language mode found rows) := by
  induction rows generalizing mode found with
  | nil =>
      exact .ok _
  | cons row more ih =>
      have hplaced : Utf8.Placed (splitReturn row).1 :=
        (hrows row List.mem_cons_self).of_isInfix (splitReturn_isPrefix row).isInfix
      obtain ⟨⟨result, next⟩, hprocess⟩ := Line.process_succeeds hyaml hplaced hmode
      have hmore (found : List Bytes) : Succeeds (rowsFrom language next found more) :=
        ih (Line.possible_of_process hmode hprocess)
          fun other hother => hrows other (List.mem_cons_of_mem row hother)
      rw [rowsFrom]
      dsimp only
      rw [hprocess]
      dsimp only
      split
      · exact hmore _
      · exact hmore _

/-- Outside YAML every text in which characters start where they should can be stripped. -/
theorem strip_succeeds_of_placed
    {language : Language} {text : Bytes}
    (hyaml : language ≠ .yaml)
    (hplaced : Utf8.Placed text) :
    Succeeds (strip language text) := by
  have hrows : Succeeds (Strip.rows language text) := by
    refine Strip.rowsFrom_succeeds hyaml trivial fun row hrow => ?_
    exact hplaced.of_isInfix (Bytes.isInfix_of_mem_lines hrow).2
  obtain ⟨outs, houts⟩ := hrows
  rw [strip, houts]
  exact .ok _

/-- Outside YAML every well-formed text can be stripped. -/
theorem strip_succeeds
    {language : Language} {text : Bytes}
    (hyaml : language ≠ .yaml)
    (hvalid : Utf8.valid text = true) :
    Succeeds (strip language text) := by
  exact strip_succeeds_of_placed hyaml (Utf8.placed_of_valid hvalid)

end Uncomment

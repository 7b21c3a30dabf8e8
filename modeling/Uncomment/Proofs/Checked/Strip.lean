import Uncomment.Proofs.Checked.Scan
import Uncomment.Proofs.Checked.Veto
import Uncomment.Proofs.Strip.Shrink

/-!
# Stripping with checked reads

Lines and texts once more, with the checked scanner and the checked vetoes: code is read
by offsets, and what is kept of it are the pieces of the line between the comments.

In a text of characters every read succeeds but the one for addresses
(`Checked.strip_agrees`): a piece starts at the start of the line or behind a stop token,
and it ends before a start token.
-/

namespace Uncomment
namespace Checked

/-- The first rule whose start token begins a text and is not kept there. -/
def firstRule? (language : Language) (facts : LineFacts) (offset : Nat) (text : Bytes) :
    List Rule → Except Place (Option Rule)
  | [] => .ok none
  | rule :: more => do
      if rule.start.isPrefixOf text then
        if ← keeps language facts offset rule.start then
          firstRule? language facts offset text more
        else return some rule
      else firstRule? language facts offset text more

/-- The rule of the comment that starts where a scan stands, if one does. -/
def commentAt? (language : Language) (line : Bytes) (facts : LineFacts) (scan : Scan) :
    Except Place (Option Rule) := do
  if scan.span = .code then
    let text ← bytesFrom .candidate line scan.offset
    firstRule? language facts scan.offset text language.rules
  else return none

theorem mem_of_firstRule?
    {language : Language} {facts : LineFacts} {offset : Nat} {text : Bytes} {rules : List Rule}
    {rule : Rule}
    (h : firstRule? language facts offset text rules = .ok (some rule)) :
    rule ∈ rules := by
  induction rules with
  | nil =>
      cases h
  | cons first more ih =>
      rw [firstRule?] at h
      split at h
      · obtain ⟨kept, -, h⟩ := bind_eq_ok_iff.1 h
        cases kept with
        | true =>
            exact List.mem_cons_of_mem first (ih h)
        | false =>
            cases h
            exact List.mem_cons_self
      · exact List.mem_cons_of_mem first (ih h)

theorem mem_of_commentAt?
    {language : Language} {line : Bytes} {facts : LineFacts} {scan : Scan} {rule : Rule}
    (h : commentAt? language line facts scan = .ok (some rule)) :
    rule ∈ language.rules := by
  unfold commentAt? at h
  split at h
  · obtain ⟨text, -, h⟩ := bind_eq_ok_iff.1 h
    exact mem_of_firstRule? h
  · cases h

/--
Rewrite code from where a scan stands: the text put out so far is given, and the offset
up to which the line has been dealt with.
-/
def rewriteFrom
    (language : Language)
    (line : Bytes)
    (facts : LineFacts)
    (scan : Scan)
    (keptFrom : Nat)
    (out : Bytes) :
    Except Place (Bytes × Mode) :=
  if _inside : scan.offset < line.length then
    match _rule : commentAt? language line facts scan with
    | .error place => .error place
    | .ok none =>
        match _next : advance language.dialect line scan with
        | .error place => .error place
        | .ok next => rewriteFrom language line facts next keptFrom out
    | .ok (some (.line _)) =>
        match cutBetween .kept line keptFrom scan.offset with
        | .error place => .error place
        | .ok piece => .ok (out ++ piece, .normal)
    | .ok (some (.block start stop)) =>
        match cutBetween .kept line keptFrom scan.offset with
        | .error place => .error place
        | .ok piece =>
            match cutFrom .body line (scan.offset + start.length) with
            | .error place => .error place
            | .ok body =>
                match Bytes.find? stop body with
                | none => .ok (out ++ piece, .blockComment stop)
                | some found =>
                    let after := scan.offset + start.length + found + stop.length
                    let gap := Pruning.fuses language (out ++ piece).getLast? (line)[after]?
                    rewriteFrom language line facts (scan.skipTo line after) after
                      (out ++ piece ++ if gap then [Byte.space] else [])
  else
    match cutFrom .kept line keptFrom with
    | .error place => .error place
    | .ok piece => .ok (out ++ piece, .ofSpan language.dialect scan.span)
termination_by line.length - scan.offset
decreasing_by
  · have hlt := lt_of_advance _next
    omega
  · have hpos := List.length_pos_iff.2 (Language.start_ne_nil (mem_of_commentAt? _rule))
    simp only [Rule.start] at hpos
    simp only [Scan.skipTo]
    omega

/-- Rewriting looks for a comment, and goes on behind the next byte or the comment. -/
theorem rewriteFrom_eq
    (language : Language) (line : Bytes) (facts : LineFacts) (scan : Scan) (keptFrom : Nat)
    (out : Bytes) :
    rewriteFrom language line facts scan keptFrom out =
      if scan.offset < line.length then do
        match ← commentAt? language line facts scan with
        | none =>
            let next ← advance language.dialect line scan
            rewriteFrom language line facts next keptFrom out
        | some (.line _) =>
            let piece ← cutBetween .kept line keptFrom scan.offset
            return (out ++ piece, .normal)
        | some (.block start stop) =>
            let piece ← cutBetween .kept line keptFrom scan.offset
            let body ← cutFrom .body line (scan.offset + start.length)
            match Bytes.find? stop body with
            | none => return (out ++ piece, .blockComment stop)
            | some found =>
                let after := scan.offset + start.length + found + stop.length
                let gap := Pruning.fuses language (out ++ piece).getLast? (line)[after]?
                rewriteFrom language line facts (scan.skipTo line after) after
                  (out ++ piece ++ if gap then [Byte.space] else [])
      else do
        let piece ← cutFrom .kept line keptFrom
        return (out ++ piece, .ofSpan language.dialect scan.span) := by
  rw [rewriteFrom]
  split
  · split
    · next hrule =>
        rw [hrule]
        rfl
    · next hrule =>
        rw [hrule]
        dsimp only
        split <;> simp_all
    · next hrule =>
        rw [hrule]
        dsimp only
        split <;> simp_all
    · next hrule =>
        rw [hrule]
        dsimp only
        split
        · simp_all
        · split <;> simp_all
  · split <;> simp_all

/-- Strip every comment from a line that starts in code. -/
def rewrite (language : Language) (line : Bytes) : Except Place (Bytes × Mode) :=
  rewriteFrom language line (LineFacts.ofLine line) .start 0 []

/-- The mode after a line that is rewritten. -/
def modeAfter (language : Language) (line text : Bytes) (mode : Mode) : Mode :=
  Line.modeAfter language line ⟨text, [], mode⟩

/-- Process a line in mode `normal`. -/
def processNormal (language : Language) (line : Bytes) : Except Place (LineResult × Mode) := do
  if Blank.isAllWhite line then return (.unchanged, .normal)
  else
    let (text, mode) ← rewrite language line
    return (Line.finish line text, modeAfter language line text mode)

/-- Process a line inside a block comment. -/
def processComment (language : Language) (stop line : Bytes) :
    Except Place (LineResult × Mode) := do
  match Bytes.find? stop line with
  | none => return (.dropped, .blockComment stop)
  | some found =>
      let code ← cutFrom .behindComment line (found + stop.length)
      let (text, mode) ← rewrite language code
      let outcome :=
        match Line.finish [] text with
        | .unchanged => .dropped
        | other => other
      return (outcome, modeAfter language line text mode)

/-- Process a line inside a literal. -/
def processLiteral (language : Language) (kind : LongLiteral) (line : Bytes) :
    Except Place (LineResult × Mode) := do
  match ← findClose language.dialect kind.span line with
  | none => return (.unchanged, .literal kind)
  | some close =>
      let head ← cutUpTo .behindLiteral line close
      let code ← cutFrom .behindLiteral line close
      let (text, mode) ← rewrite language code
      if text = code then return (.unchanged, mode)
      else return (Line.finish line (head ++ text), mode)

/-- Process a line in a mode. -/
def process (language : Language) (mode : Mode) (line : Bytes) :
    Except Place (LineResult × Mode) :=
  match mode with
  | .normal => processNormal language line
  | .blockComment stop => processComment language stop line
  | .literal kind => processLiteral language kind line
  | .blockScalar indent =>
      if Blank.isAllWhite line || indent < Blank.indentation line then
        .ok (.unchanged, .blockScalar indent)
      else processNormal language line

/-- Strip lines from a mode on, the lines put out so far being given reversed. -/
def rowsFrom (language : Language) (mode : Mode) (out : List Bytes) :
    List Bytes → Except Place (List Bytes)
  | [] => .ok out.reverse
  | row :: more => do
      let (result, next) ← process language mode (Strip.splitReturn row).1
      match Strip.emit row (Strip.splitReturn row).2 result with
      | some kept => rowsFrom language next (kept :: out) more
      | none => rowsFrom language next out more

/-- A text without its comments. -/
def strip (language : Language) (text : Bytes) : Except Place Bytes := do
  let rows ← rowsFrom language .normal [] (Bytes.lines text)
  return Bytes.unlines rows

variable {language : Language} {cs : List Char} {cursor : Cursor}

theorem commentAt?_agrees
    (hat : cursor.At (Utf8.encode cs)) :
    Agrees
      (commentAt? language (Utf8.encode cs) (LineFacts.ofLine (Utf8.encode cs)) (.ofCursor cursor))
      (Pruning.commentAt? language (LineFacts.ofLine (Utf8.encode cs)) cursor) := by
  have hrules (rules : List Rule) (hrules : ∀ rule ∈ rules, rule ∈ language.rules) :
      Agrees
        (firstRule? language (LineFacts.ofLine (Utf8.encode cs)) cursor.offset
          ((Utf8.encode cs).drop cursor.offset) rules)
        (Pruning.firstRule? language (LineFacts.ofLine (Utf8.encode cs)) cursor.offset
          ((Utf8.encode cs).drop cursor.offset) rules) := by
    induction rules with
    | nil =>
        exact .ok none
    | cons rule more ih =>
        rw [List.forall_mem_cons] at hrules
        rw [firstRule?, Pruning.firstRule?]
        split
        · next hpre =>
            have hkeeps := keeps_agrees hrules.1 (List.isPrefixOf_iff_prefix.1 hpre)
            rw [hkeeps]
            cases Veto.keeps language (LineFacts.ofLine (Utf8.encode cs)) cursor.offset
              rule.start with
            | error fault =>
                rfl
            | ok kept =>
                cases kept with
                | true => exact ih hrules.2
                | false => exact .ok _
        · exact ih hrules.2
  rw [commentAt?, Pruning.commentAt?]
  refine .ite ?_ (.pure none)
  refine .ok_bind (bytesFrom_of_le hat.1) ?_
  rw [hat.2]
  exact hrules _ fun _ h => h

/-- Where a comment starts the piece of the line before it can be cut out. -/
theorem piece_of_comment
    {b : UInt8} {rest : Bytes} {rule : Rule} {keptFrom : Nat}
    (hat : cursor.At (Utf8.encode cs))
    (hrest : cursor.rest = b :: rest)
    (hrule : Pruning.commentAt? language (LineFacts.ofLine (Utf8.encode cs)) cursor =
      .ok (some rule))
    (hle : keptFrom ≤ cursor.offset)
    (hboundary : Utf8.Boundary (Utf8.encode cs) keptFrom) :
    cursor.offset < (Utf8.encode cs).length ∧
      commentAt? language (Utf8.encode cs) (LineFacts.ofLine (Utf8.encode cs))
        (.ofCursor cursor) = .ok (some rule) ∧
      cutBetween .kept (Utf8.encode cs) keptFrom cursor.offset =
        .ok (((Utf8.encode cs).take cursor.offset).drop keptFrom) := by
  have hdrop : (Utf8.encode cs).drop cursor.offset = b :: rest := hat.2.symm.trans hrest
  have hlen := length_of_drop hdrop
  obtain ⟨hmem, hstart⟩ := Pruning.mem_rules_of_commentAt? hrule
  have hclean := Veto.startsClean_of_isPrefix hmem hstart
  have hhere : Utf8.Boundary (Utf8.encode cs) cursor.offset := by
    rw [hat.2] at hclean
    exact Or.inr ⟨hat.1, hclean⟩
  exact ⟨by omega, (commentAt?_agrees hat).eq_ok hrule,
    cutBetween_of_boundary hboundary hhere hle⟩

/-- Behind a start token the line can be cut. -/
theorem cutFrom_body
    {start stop : Bytes}
    (hat : cursor.At (Utf8.encode cs))
    (hrule : Pruning.commentAt? language (LineFacts.ofLine (Utf8.encode cs)) cursor =
      .ok (some (.block start stop))) :
    cutFrom .body (Utf8.encode cs) (cursor.offset + start.length) =
      .ok (cursor.rest.drop start.length) := by
  have hclean := Pruning.startsClean_body (Utf8.placed_encode cs) hat hrule
  obtain ⟨hmem, hstart⟩ := Pruning.mem_rules_of_commentAt? hrule
  have hle := hstart.length_le
  rw [hat.2] at hle hclean ⊢
  rw [List.length_drop] at hle
  rw [List.drop_drop] at hclean ⊢
  exact cutFrom_of_boundary (Or.inr ⟨by have := hat.1; simp only [Rule.start] at hle; omega, hclean⟩)

/-- A piece of a line that goes on gets longer by the bytes that are read. -/
theorem drop_take_of_drop
    {line rest : Bytes} {b : UInt8} {low offset more : Nat}
    (hdrop : line.drop offset = b :: rest)
    (hle : low ≤ offset) :
    (line.take (offset + more + 1)).drop low =
      (line.take offset).drop low ++ b :: rest.take more := by
  have hlen := length_of_drop hdrop
  have htake : line.take (offset + more + 1) = line.take offset ++ b :: rest.take more := by
    rw [Nat.add_assoc, List.take_add, hdrop, List.take_succ_cons]
  rw [htake, List.drop_append_of_le_length]
  rw [List.length_take]
  omega

/-- Code is rewritten as it is pruned. -/
theorem rewriteFrom_agrees
    {kept : Bytes}
    (removals : List Removal)
    (hwithin : cursor.Within (Utf8.encode cs)) :
    ∀ keptFrom out, keptFrom ≤ cursor.offset → Utf8.Boundary (Utf8.encode cs) keptFrom →
      kept.reverse = out ++ ((Utf8.encode cs).take cursor.offset).drop keptFrom →
      Agrees
        (rewriteFrom language (Utf8.encode cs) (LineFacts.ofLine (Utf8.encode cs))
          (.ofCursor cursor) keptFrom out)
        ((Pruning.fromCursor language (LineFacts.ofLine (Utf8.encode cs)) cursor kept
          removals).map fun pruning => (pruning.text, pruning.mode)) := by
  generalize hfacts : LineFacts.ofLine (Utf8.encode cs) = facts
  have hplaced := Utf8.placed_encode cs
  fun_induction Pruning.fromCursor language facts cursor kept removals with
  | case1 cursor kept removals hrest =>
      intro keptFrom out hle hboundary hkept
      have hend : (Utf8.encode cs).length ≤ cursor.offset := by
        rw [← List.drop_eq_nil_iff, ← hwithin.at_line.2, hrest]
      rw [rewriteFrom_eq, Scan.offset_ofCursor, if_neg (by omega), cutFrom_of_boundary hboundary,
        hkept, List.take_of_length_le hend]
      rfl
  | case2 cursor kept removals b rest hrest fault hfault =>
      intro keptFrom out hle hboundary hkept
      have hdrop := hwithin.at_line.2.symm.trans hrest
      have hlen := length_of_drop hdrop
      have hcomment := @commentAt?_agrees language _ _ hwithin.at_line
      subst hfacts
      rw [rewriteFrom_eq, Scan.offset_ofCursor, if_pos (by omega), hcomment, hfault]
      rfl
  | case3 cursor kept removals b rest hrest hnone next read ih =>
      intro keptFrom out hle hboundary hkept
      have hdrop := hwithin.at_line.2.symm.trans hrest
      have hlen := length_of_drop hdrop
      obtain ⟨more, hmore, hstep, hoffset⟩ := Cursor.exists_step language.dialect cursor b rest
      have hnext : next.Within (Utf8.encode cs) := hwithin.step hrest language.dialect
      have hoffset' : next.offset = cursor.offset + more + 1 := hoffset
      have hread : read = b :: rest.take more := by
        simp only [read, next, hoffset]
        rw [show cursor.offset + more + 1 - cursor.offset = more + 1 by omega, List.take_succ_cons]
      subst hfacts
      have hcomment := (commentAt?_agrees hwithin.at_line).eq_ok hnone
      rw [rewriteFrom_eq, Scan.offset_ofCursor, if_pos (by omega), hcomment, ok_bind]
      dsimp only
      rw [advance_eq _ hwithin hrest, ok_bind]
      refine ih hnext keptFrom out (by omega) hboundary ?_
      rw [hoffset', drop_take_of_drop hdrop hle, ← hread, ← List.append_assoc, ← hkept,
        List.reverse_append, List.reverse_reverse]
  | case4 cursor kept removals b rest hrest rule hrule fault hfault =>
      obtain ⟨hmem, hstart⟩ := Pruning.mem_rules_of_commentAt? hrule
      rw [hrest] at hstart
      rw [Utf8.checkClean_eq_ok (Veto.startsClean_of_isPrefix hmem hstart)] at hfault
      cases hfault
  | case5 cursor kept removals b rest hrest _ start hrule =>
      intro keptFrom out hle hboundary hkept
      subst hfacts
      obtain ⟨hinside, hcomment, hpiece⟩ :=
        piece_of_comment hwithin.at_line hrest hrule hle hboundary
      rw [rewriteFrom_eq, Scan.offset_ofCursor, if_pos hinside, hcomment]
      simp only [ok_bind, hpiece, ← hkept]
      rfl
  | case6 cursor kept removals b rest hrest hclean start stop body fault hfault hrule =>
      have hbody : Utf8.startsClean body = true := by
        have hdrop := Pruning.startsClean_body hplaced hwithin.at_line hrule
        rwa [hrest] at hdrop
      rw [Utf8.checkClean_eq_ok hbody] at hfault
      cases hfault
  | case7 cursor kept removals b rest hrest _ start stop body _ hfind hrule =>
      intro keptFrom out hle hboundary hkept
      subst hfacts
      obtain ⟨hinside, hcomment, hpiece⟩ :=
        piece_of_comment hwithin.at_line hrest hrule hle hboundary
      have hbody := cutFrom_body hwithin.at_line hrule
      have hnone : Bytes.find? stop (cursor.rest.drop start.length) = none := by
        rw [hrest]
        exact hfind
      rw [rewriteFrom_eq, Scan.offset_ofCursor, if_pos hinside, hcomment]
      simp only [ok_bind, hpiece, hbody, hnone, ← hkept]
      rfl
  | case8 cursor kept removals b rest hrest hclean start stop body hbody found hfind width next
      fault hfault hrule =>
      rw [show body = cursor.rest.drop start.length by rw [hrest]] at hfind
      have hnext := (Pruning.at_resume_of_find? hplaced hwithin.at_line hrest hrule hfind).2
      rw [Utf8.checkClean_eq_ok hnext] at hfault
      cases hfault
  | case9 cursor kept removals b rest hrest hclean start stop body hbody found hfind width
      next hnext gap hrule removal ih =>
      intro keptFrom out hle hboundary hkept
      subst hfacts
      obtain ⟨hinside, hcomment, hpiece⟩ :=
        piece_of_comment hwithin.at_line hrest hrule hle hboundary
      have hcut := cutFrom_body hwithin.at_line hrule
      rw [show body = cursor.rest.drop start.length by rw [hrest]] at hfind
      obtain ⟨hat, hclean⟩ := Pruning.at_resume_of_find? hplaced hwithin.at_line hrest hrule hfind
      obtain ⟨hpos, hwidth⟩ := Pruning.width_of_find? hrule hfind
      rw [hrest, List.length_cons] at hwidth
      have hlater : next.Within (Utf8.encode cs) :=
        Cursor.within_of_move hwithin hrest (show width - 1 ≤ rest.length by omega) rfl rfl rfl
      have hafter : next.offset = cursor.offset + start.length + found + stop.length := by
        change cursor.offset + (width - 1) + 1 = _
        omega
      have hskip : (Scan.ofCursor cursor).skipTo (Utf8.encode cs)
          (cursor.offset + start.length + found + stop.length) = .ofCursor next := by
        rw [← hafter, Scan.skipTo, Nat.min_eq_left hat.1]
        rfl
      have hgap : Pruning.fuses language (List.getLast? kept.reverse)
          (Utf8.encode cs)[cursor.offset + start.length + found + stop.length]? = gap := by
        rw [List.getLast?_reverse, ← hafter, ← List.head?_drop, ← hlater.at_line.2]
      rw [rewriteFrom_eq, Scan.offset_ofCursor, if_pos hinside, hcomment]
      simp only [ok_bind, hpiece, hcut, hfind, ← hkept, hskip, hgap]
      simp only [dite_eq_ite] at ih
      refine ih hlater _ _ (Nat.le_of_eq hafter.symm) ?_ ?_
      · rw [← hafter]
        exact Or.inr ⟨hat.1, hat.2 ▸ hclean⟩
      · rw [← hafter, List.drop_eq_nil_of_le (by rw [List.length_take]; omega), List.append_nil]
        split <;> simp

theorem rewrite_agrees
    (language : Language) (cs : List Char) :
    Agrees (rewrite language (Utf8.encode cs))
      ((Pruning.ofLine language (Utf8.encode cs)).map
        fun pruning => (pruning.text, pruning.mode)) := by
  exact rewriteFrom_agrees [] (Cursor.within_start _) 0 [] (Nat.zero_le _) (Or.inl rfl) (by
    simp [Cursor.start])

theorem processNormal_agrees
    (language : Language) (cs : List Char) :
    Agrees (processNormal language (Utf8.encode cs))
      (Line.processNormal language (Utf8.encode cs)) := by
  unfold processNormal Line.processNormal
  refine .ite (.pure _) ?_
  rw [rewrite_agrees]
  cases Pruning.ofLine language (Utf8.encode cs) with
  | error fault => rfl
  | ok pruning => rfl

theorem processComment_agrees
    {stop : Bytes}
    (hmode : (Mode.blockComment stop).Possible language) :
    Agrees (processComment language stop (Utf8.encode cs))
      (Line.processComment language stop (Utf8.encode cs)) := by
  unfold processComment Line.processComment
  cases hfind : Bytes.find? stop (Utf8.encode cs) with
  | none =>
      rfl
  | some found =>
      obtain ⟨start, hrule⟩ := hmode
      obtain ⟨hne, hink⟩ := Language.isInk_of_mem_stop hrule
      have hcut := Line.startingAt_of_find? (Utf8.placed_encode cs) hne hink hfind
      have hboundary := ((Utf8.startingAt_eq_ok_iff _ _ _).1 hcut).1
      obtain ⟨bs, hbs⟩ := hboundary.exists_encode_eq_drop
      dsimp only
      rw [hcut, cutFrom_of_boundary hboundary, ← hbs, ok_bind, rewrite_agrees]
      dsimp only
      cases Pruning.ofLine language (Utf8.encode bs) with
      | error fault => rfl
      | ok pruning => rfl

theorem processLiteral_agrees
    (language : Language) (kind : LongLiteral) (cs : List Char) :
    Agrees (processLiteral language kind (Utf8.encode cs))
      (Line.processLiteral language kind (Utf8.encode cs)) := by
  unfold processLiteral Line.processLiteral
  rw [findClose_eq, ok_bind]
  cases hclose : Lexer.findClose language.dialect kind.span (Utf8.encode cs) with
  | none =>
      rfl
  | some close =>
      have hcut := Line.startingAt_of_findClose (Utf8.placed_encode cs) hclose
      have hboundary := ((Utf8.startingAt_eq_ok_iff _ _ _).1 hcut).1
      obtain ⟨bs, hbs⟩ := hboundary.exists_encode_eq_drop
      dsimp only
      rw [hcut, cutUpTo_of_boundary hboundary, cutFrom_of_boundary hboundary, ← hbs, ok_bind,
        ok_bind, rewrite_agrees]
      dsimp only
      cases Pruning.ofLine language (Utf8.encode bs) with
      | error fault => rfl
      | ok pruning => exact .ite (.ok _) (.ok _)

/-- A line of characters is processed as it is without checks. -/
theorem process_agrees
    {mode : Mode}
    (hmode : mode.Possible language) :
    Agrees (process language mode (Utf8.encode cs)) (Line.process language mode (Utf8.encode cs)) := by
  cases mode with
  | normal =>
      exact processNormal_agrees language cs
  | blockComment stop =>
      exact processComment_agrees hmode
  | literal kind =>
      exact processLiteral_agrees language kind cs
  | blockScalar indent =>
      exact .ite (.ok _) (processNormal_agrees language cs)

theorem rowsFrom_agrees
    {mode : Mode} {out : List Bytes} {css : List (List Char)}
    (hmode : mode.Possible language) :
    Agrees (rowsFrom language mode out (css.map Utf8.encode))
      (Strip.rowsFrom language mode out (css.map Utf8.encode)) := by
  induction css generalizing mode out with
  | nil =>
      exact .ok _
  | cons cs css ih =>
      obtain ⟨as, has, -⟩ := Strip.exists_of_splitReturn_encode (Prod.eta _).symm
      rw [List.map_cons, rowsFrom, Strip.rowsFrom]
      dsimp only
      rw [has, process_agrees hmode]
      cases hprocess : Line.process language mode (Utf8.encode as) with
      | error fault =>
          rfl
      | ok step =>
          have hnext := Line.possible_of_process hmode hprocess
          rw [located_ok, ok_bind]
          dsimp only
          cases Strip.emit (Utf8.encode cs) (Strip.splitReturn (Utf8.encode cs)).2 step.1 with
          | some kept => exact ih hnext
          | none => exact ih hnext

/-- In a text of characters every read succeeds, but the one for addresses. -/
theorem strip_agrees
    (language : Language) (cs : List Char) :
    Agrees (strip language (Utf8.encode cs)) (Uncomment.strip language (Utf8.encode cs)) := by
  obtain ⟨css, hcss, -⟩ := Strip.exists_lines_encode cs
  have hnormal : Mode.normal.Possible language := trivial
  rw [strip, Uncomment.strip, Strip.rows, hcss, rowsFrom_agrees hnormal]
  cases Strip.rowsFrom language .normal [] (css.map Utf8.encode) with
  | error fault => rfl
  | ok outs => rfl

end Checked
end Uncomment

import Mathlib.Tactic.Common
import Uncomment.Detect
import Uncomment.Strip

/-!
# The families of a shared extension

The text at the head of a file chooses between a few families, which depend on the extension
only (`Detect.sniff_families`).  A family that is chosen for want of any hint need not be the
one of the extension, but it may still strip as that one does: two languages with the same
grammar (`Language.SameGrammar`) strip every text alike (`Language.SameGrammar.strip_eq`).  So
it is for `r`; for `v` it is not, because in a file without a hint a number sign starts a
comment.
-/

namespace Uncomment

/-- Two languages whose comments and literals are read and removed by the same rules. -/
structure Language.SameGrammar (one two : Language) : Prop where
  /-- The comments start and end alike. -/
  rules : one.rules = two.rules
  /-- The literals are the same. -/
  dialect : one.dialect = two.dialect
  /-- The same comment tokens are kept. -/
  keeps : Veto.keeps one = Veto.keeps two
  /-- A space takes the place of the same comments. -/
  fuses : Pruning.fuses one = Pruning.fuses two
  /-- The same lines open a block scalar. -/
  modeAfter : Line.modeAfter one = Line.modeAfter two

/-- Files without a hint that they are R are read as R all the same. -/
theorem Language.sameGrammar_unknown_r :
    Language.SameGrammar .unknown .r where
  rules := rfl
  dialect := rfl
  keeps := rfl
  fuses := rfl
  modeAfter := rfl

namespace Pruning

theorem fromCursor_of_nil
    {language : Language} {facts : LineFacts} {cursor : Cursor}
    (hrest : cursor.rest = [])
    (kept : Bytes) (removals : List Removal) :
    fromCursor language facts cursor kept removals =
      .ok ⟨kept.reverse, removals.reverse, .ofSpan language.dialect cursor.span⟩ := by
  rw [fromCursor]
  split <;> simp_all

/-- Code is pruned by looking for a comment and going on behind the next byte or the comment. -/
theorem fromCursor_of_cons
    {language : Language} {facts : LineFacts} {cursor : Cursor} {b : UInt8} {rest : Bytes}
    (hrest : cursor.rest = b :: rest)
    (kept : Bytes) (removals : List Removal) :
    fromCursor language facts cursor kept removals = (do
      match ← commentAt? language facts cursor with
      | none =>
          let next := cursor.step language.dialect b rest
          fromCursor language facts next
            (((b :: rest).take (next.offset - cursor.offset)).reverse ++ kept) removals
      | some (.line start) =>
          Utf8.checkClean (b :: rest)
          return ⟨kept.reverse, (.toEnd cursor (.line start) :: removals).reverse, .normal⟩
      | some (.block start stop) =>
          Utf8.checkClean (b :: rest)
          let body := (b :: rest).drop start.length
          Utf8.checkClean body
          match Bytes.find? stop body with
          | none =>
              return ⟨kept.reverse, (.toEnd cursor (.block start stop) :: removals).reverse,
                .blockComment stop⟩
          | some found =>
              let width := start.length + found + stop.length
              let next := cursor.resume b rest (width - 1)
              Utf8.checkClean next.rest
              let gap := fuses language kept.head? next.rest.head?
              fromCursor language facts next (if gap then Byte.space :: kept else kept)
                (⟨cursor.offset, cursor.offset + width, .block start stop, gap⟩ :: removals)) := by
  rw [fromCursor]
  split
  · next hnil =>
      rw [hrest] at hnil
      cases hnil
  · next c more hcons =>
      cases hrest.symm.trans hcons
      cases commentAt? language facts cursor with
      | error fault =>
          rfl
      | ok found =>
          rcases found with _ | ⟨start⟩ | ⟨start, stop⟩
          · rfl
          · cases Utf8.checkClean (b :: rest) <;> rfl
          · cases Utf8.checkClean (b :: rest) with
            | error fault =>
                rfl
            | ok _ =>
                simp only [bind, Except.bind]
                cases Utf8.checkClean ((b :: rest).drop start.length) with
                | error fault =>
                    rfl
                | ok _ =>
                    cases Bytes.find? stop ((b :: rest).drop start.length) with
                    | none =>
                        rfl
                    | some found =>
                        dsimp only
                        cases Utf8.checkClean (cursor.resume b rest
                          (start.length + found + stop.length - 1)).rest <;> rfl

end Pruning

namespace Language.SameGrammar

variable {one two : Language}

theorem firstRule?_eq
    (h : one.SameGrammar two)
    (facts : LineFacts) (offset : Nat) (rest : Bytes) (rules : List Rule) :
    Pruning.firstRule? one facts offset rest rules =
      Pruning.firstRule? two facts offset rest rules := by
  induction rules with
  | nil =>
      rfl
  | cons rule more ih =>
      rw [Pruning.firstRule?, Pruning.firstRule?, h.keeps, ih]

theorem commentAt?_eq
    (h : one.SameGrammar two)
    (facts : LineFacts) (cursor : Cursor) :
    Pruning.commentAt? one facts cursor = Pruning.commentAt? two facts cursor := by
  rw [Pruning.commentAt?, Pruning.commentAt?, h.rules, h.firstRule?_eq]

theorem fromCursor_eq
    (h : one.SameGrammar two)
    (facts : LineFacts) (cursor : Cursor) (kept : Bytes) (removals : List Removal) :
    Pruning.fromCursor one facts cursor kept removals =
      Pruning.fromCursor two facts cursor kept removals := by
  induction hlen : cursor.rest.length using Nat.strongRecOn
    generalizing cursor kept removals with
  | ind n ih =>
      subst hlen
      cases hrest : cursor.rest with
      | nil =>
          rw [Pruning.fromCursor_of_nil hrest, Pruning.fromCursor_of_nil hrest, h.dialect]
      | cons b rest =>
          rw [hrest] at ih
          have hstep (kept : Bytes) (removals : List Removal) :=
            ih _ (Cursor.length_rest_step_lt two.dialect cursor b rest) _ kept removals rfl
          have hresume (more : Nat) (kept : Bytes) (removals : List Removal) :=
            ih _ (Cursor.length_rest_resume_lt cursor b rest more) _ kept removals rfl
          rw [Pruning.fromCursor_of_cons hrest, Pruning.fromCursor_of_cons hrest, h.commentAt?_eq,
            h.dialect, h.fuses]
          simp only [hstep, hresume]

theorem ofLine_eq
    (h : one.SameGrammar two)
    (line : Bytes) :
    Pruning.ofLine one line = Pruning.ofLine two line :=
  h.fromCursor_eq _ _ _ _

theorem processNormal_eq
    (h : one.SameGrammar two)
    (line : Bytes) :
    Line.processNormal one line = Line.processNormal two line := by
  rw [Line.processNormal, Line.processNormal, h.ofLine_eq, h.modeAfter]

theorem process_eq
    (h : one.SameGrammar two)
    (mode : Mode) (line : Bytes) :
    Line.process one mode line = Line.process two mode line := by
  cases mode with
  | normal =>
      exact h.processNormal_eq line
  | blockComment stop =>
      simp only [Line.process, Line.processComment, h.ofLine_eq, h.modeAfter]
  | literal kind =>
      simp only [Line.process, Line.processLiteral, h.ofLine_eq, h.dialect]
  | blockScalar indent =>
      simp only [Line.process, h.processNormal_eq]

theorem rowsFrom_eq
    (h : one.SameGrammar two)
    (mode : Mode) (out rows : List Bytes) :
    Strip.rowsFrom one mode out rows = Strip.rowsFrom two mode out rows := by
  induction rows generalizing mode out with
  | nil =>
      rfl
  | cons row more ih =>
      simp only [Strip.rowsFrom, h.process_eq, ih]

/-- Languages with the same grammar strip every text alike. -/
theorem strip_eq
    (h : one.SameGrammar two)
    (text : Bytes) :
    strip one text = strip two text := by
  rw [strip, strip, Strip.rows, Strip.rows, h.rowsFrom_eq]

end Language.SameGrammar

/-- A delay is cut off where the language is unknown, and not where it is Verilog. -/
theorem strip_unknown_ne_verilog :
    strip .unknown (Bytes.ofString "assign #5 y = a;") ≠
      strip .verilog (Bytes.ofString "assign #5 y = a;") := by
  decide +kernel

namespace Detect

/-- Whether the head of a file has a word that tells Verilog. -/
def TellsVerilog (head : Bytes) : Prop :=
  hasAny ["module", "endmodule", "always"] (Bytes.lower head) = true

instance (head : Bytes) : Decidable (TellsVerilog head) :=
  inferInstanceAs (Decidable (_ = true))

theorem sniff_v
    (head : Bytes) :
    sniff "v" head = if TellsVerilog head then .verilog else .unknown :=
  rfl

/-- A file with the extension of R is stripped as R, whatever its head says. -/
theorem strip_sniff_r
    (head text : Bytes) :
    strip (sniff "r" head) text = strip .r text := by
  simp only [sniff]
  split
  · rfl
  · exact Language.sameGrammar_unknown_r.strip_eq text

/-- A file with the extension of Verilog is stripped as Verilog if its head tells Verilog. -/
theorem strip_sniff_v_iff
    (head : Bytes) :
    (∀ text, strip (sniff "v" head) text = strip .verilog text) ↔ TellsVerilog head := by
  rw [sniff_v]
  split
  · next htells => simp [htells]
  · next htells => exact iff_of_false (fun h => strip_unknown_ne_verilog (h _)) htells

/--
The head of a file chooses among the families of its extension.  The extension of R always
leads to stripping as R, that of Verilog to stripping as Verilog only if the head tells so.
-/
theorem sniff_families
    (head : Bytes) :
    sniff "m" head ∈ [.c, .matlab] ∧
    sniff "pl" head ∈ [.perl, .prolog] ∧
    sniff "pro" head ∈ [.prolog, .hash, .unknown] ∧
    sniff "pp" head ∈ [.pascal, .hash] ∧
    sniff "s" head ∈ [.assembly, .lisp] ∧
    (∀ text, strip (sniff "r" head) text = strip .r text) ∧
    ((∀ text, strip (sniff "v" head) text = strip .verilog text) ↔ TellsVerilog head) := by
  refine ⟨?m, ?pl, ?pro, ?pp, ?s, strip_sniff_r head, strip_sniff_v_iff head⟩
  all_goals
    simp only [sniff]
    split_ifs <;> decide

end Detect
end Uncomment

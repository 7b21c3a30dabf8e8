import Uncomment.Proofs.Line.Modes
import Uncomment.Proofs.Veto.Address

/-!
# Lines that end in a fault

The number signs in the code of a YAML line are asked about from left to right until one
is not kept, and the line fails if the veto fails at one of them.  `Veto.Stumbles` says in
terms of the line where this comes about, and `Line.process_fails_iff` that nothing else
makes a line fail.
-/

namespace Uncomment

theorem Language.rules_yaml :
    Language.yaml.rules = [.line [Byte.hash]] := by
  rfl

namespace Cursor

/-- A cursor that stands in code at a number sign. -/
def AtHash (cursor : Cursor) : Prop :=
  cursor.span = .code ∧ cursor.rest.head? = some Byte.hash

instance :
    DecidablePred AtHash :=
  fun _ => inferInstanceAs (Decidable (_ ∧ _))

variable {cursor : Cursor}

theorem singleton_prefix_of_atHash
    (h : cursor.AtHash) :
    [Byte.hash] <+: cursor.rest := by
  obtain ⟨rest, hrest⟩ := List.head?_eq_some_iff.1 h.2
  exact ⟨rest, hrest.symm⟩

end Cursor

namespace Pruning

variable {facts : LineFacts} {cursor : Cursor}

/-- In YAML a comment starts only at a number sign in code. -/
theorem commentAt?_of_not_atHash
    (h : ¬ cursor.AtHash) :
    commentAt? .yaml facts cursor = .ok none := by
  unfold commentAt?
  split
  · next hcode =>
      refine firstRule?_eq_none_iff.2 fun rule hrule hpre => ?_
      rw [Language.rules_yaml, List.mem_singleton] at hrule
      subst hrule
      obtain ⟨rest, hrest⟩ := hpre
      exact absurd ⟨hcode, by rw [← hrest]; rfl⟩ h
  · rfl

/-- At a number sign in code a comment starts unless the sign is kept. -/
theorem keeps_eq_of_atHash
    (h : cursor.AtHash) :
    Veto.keeps .yaml facts cursor.offset [Byte.hash] =
      (commentAt? .yaml facts cursor).map Option.isNone := by
  have hpre := List.isPrefixOf_iff_prefix.2 (Cursor.singleton_prefix_of_atHash h)
  rw [commentAt?, if_pos h.1, Language.rules_yaml, firstRule?, Rule.start, if_pos hpre]
  cases Veto.keeps .yaml facts cursor.offset [Byte.hash] with
  | error fault => rfl
  | ok kept => cases kept <;> rfl

/--
What stops a trail with a fault: a number sign at which the veto fails, every earlier one
being kept.
-/
def FailsAt (facts : LineFacts) (cursor stop : Cursor) : Prop :=
  stop ∈ cursor.trail Language.yaml.dialect ∧ stop.AtHash ∧
    Fails (Veto.keeps .yaml facts stop.offset [Byte.hash]) ∧
    ∀ earlier ∈ cursor.trail Language.yaml.dialect, earlier.offset < stop.offset →
      earlier.AtHash → Veto.keeps .yaml facts earlier.offset [Byte.hash] = .ok true

/-- Where the veto fails the trail stops. -/
theorem failsAt_of_error
    {fault : Fault}
    (h : commentAt? .yaml facts cursor = .error fault) :
    FailsAt facts cursor cursor := by
  have hhash : cursor.AtHash := by
    by_contra hhash
    rw [commentAt?_of_not_atHash hhash] at h
    cases h
  refine ⟨Cursor.mem_trail_self, hhash, ⟨fault, ?_⟩, fun earlier hearlier hlt => ?_⟩
  · rw [keeps_eq_of_atHash hhash, h]
    rfl
  · have hle := Cursor.le_of_mem_trail hearlier
    omega

/-- Past a stop without a comment a trail fails where it does from there on. -/
theorem failsAt_step_iff
    {b : UInt8} {rest : Bytes} {stop : Cursor}
    (hrest : cursor.rest = b :: rest)
    (hnone : commentAt? .yaml facts cursor = .ok none) :
    FailsAt facts cursor stop ↔ FailsAt facts (cursor.step Language.yaml.dialect b rest) stop := by
  have hkept (hhash : cursor.AtHash) :
      Veto.keeps .yaml facts cursor.offset [Byte.hash] = .ok true := by
    rw [keeps_eq_of_atHash hhash, hnone]
    rfl
  unfold FailsAt
  rw [Cursor.trail_of_cons hrest]
  constructor
  · rintro ⟨hmem, hhash, hfails, hearlier⟩
    rcases List.mem_cons.1 hmem with rfl | hmem
    · exact absurd ⟨true, hkept hhash⟩ hfails.not_succeeds
    · exact ⟨hmem, hhash, hfails, fun earlier h => hearlier earlier (List.mem_cons_of_mem _ h)⟩
  · rintro ⟨hmem, hhash, hfails, hearlier⟩
    refine ⟨List.mem_cons_of_mem _ hmem, hhash, hfails, fun earlier h hlt hat => ?_⟩
    rcases List.mem_cons.1 h with rfl | h
    · exact hkept hat
    · exact hearlier earlier h hlt hat

theorem not_failsAt_of_comment
    {rule : Rule} {stop : Cursor}
    (hrule : commentAt? .yaml facts cursor = .ok (some rule)) :
    ¬ FailsAt facts cursor stop := by
  rintro ⟨hmem, -, hfails, hearlier⟩
  have hhash : cursor.AtHash := by
    by_contra hhash
    rw [commentAt?_of_not_atHash hhash] at hrule
    cases hrule
  have hnotKept : Veto.keeps .yaml facts cursor.offset [Byte.hash] = .ok false := by
    rw [keeps_eq_of_atHash hhash, hrule]
    rfl
  have hle := Cursor.le_of_mem_trail hmem
  rcases Nat.lt_or_ge cursor.offset stop.offset with hlt | hge
  · rw [hearlier cursor Cursor.mem_trail_self hlt hhash] at hnotKept
    cases hnotKept
  · rw [Nat.le_antisymm hge hle] at hfails
    exact hfails.not_succeeds ⟨false, hnotKept⟩

/-- Pruning fails exactly if its trail stops with a fault. -/
theorem fromCursor_fails_iff
    (facts : LineFacts) (cursor : Cursor) (kept : Bytes) (removals : List Removal) :
    Fails (fromCursor .yaml facts cursor kept removals) ↔ ∃ stop, FailsAt facts cursor stop := by
  have hline {start stop : Bytes} {cursor : Cursor} :
      commentAt? .yaml facts cursor ≠ .ok (some (.block start stop)) := by
    intro hrule
    have hmem := (mem_rules_of_commentAt? hrule).1
    simp [Language.rules_yaml] at hmem
  fun_induction fromCursor Language.yaml facts cursor kept removals with
  | case1 cursor kept removals hrest =>
      constructor
      · intro hfails
        exact absurd hfails (Fails.not_ok _)
      · rintro ⟨stop, hmem, hhash, -⟩
        rw [Cursor.trail_of_nil hrest, List.mem_singleton] at hmem
        subst hmem
        rw [Cursor.AtHash, hrest] at hhash
        cases hhash.2
  | case2 cursor kept removals b rest hrest fault hfault =>
      exact ⟨fun _ => ⟨cursor, failsAt_of_error hfault⟩, fun _ => .error fault⟩
  | case3 cursor kept removals b rest hrest hnone next read ih =>
      exact ih.trans (exists_congr fun stop => (failsAt_step_iff hrest hnone).symm)
  | case4 cursor kept removals b rest hrest rule hrule fault hfault =>
      obtain ⟨hmem, hstart⟩ := mem_rules_of_commentAt? hrule
      rw [hrest] at hstart
      rw [Utf8.checkClean_eq_ok (Veto.startsClean_of_isPrefix hmem hstart)] at hfault
      cases hfault
  | case5 cursor kept removals b rest hrest _ start hrule =>
      constructor
      · intro hfails
        exact absurd hfails (Fails.not_ok _)
      · rintro ⟨stop, hstop⟩
        exact absurd hstop (not_failsAt_of_comment hrule)
  | case6 | case7 | case8 | case9 =>
      exact absurd ‹_› hline

end Pruning

namespace Veto

/--
A stop of the cursor in the code of a YAML line at which the last word is cut out and
cannot be: a number sign outside of expansions, whose last white space before it is wide,
every earlier number sign of the code being kept.
-/
structure Stumbles (code : Bytes) (stop : Cursor) : Prop where
  reached : stop ∈ (Cursor.start code).trail Language.yaml.dialect
  at_hash : stop.AtHash
  earlier_kept : ∀ earlier ∈ (Cursor.start code).trail Language.yaml.dialect,
    earlier.offset < stop.offset → earlier.AtHash →
      keeps .yaml (LineFacts.ofLine code) earlier.offset [Byte.hash] = .ok true
  not_expanded : (hashAt code stop.offset).inClosedExpansion = false
  ends_wide : Blank.EndsWide (code.take stop.offset)

end Veto

/-- The code of a YAML line cannot be pruned exactly if the cursor stumbles. -/
theorem Pruning.ofLine_fails_iff
    (cs : List Char) :
    Fails (ofLine .yaml (Utf8.encode cs)) ↔ ∃ stop, Veto.Stumbles (Utf8.encode cs) stop := by
  have hpre {stop : Cursor}
      (hmem : stop ∈ (Cursor.start (Utf8.encode cs)).trail Language.yaml.dialect)
      (hhash : stop.AtHash) :
      [Byte.hash] <+: (Utf8.encode cs).drop stop.offset := by
    rw [← (Cursor.at_of_mem_trail (Cursor.at_start _) hmem).2]
    exact Cursor.singleton_prefix_of_atHash hhash
  rw [ofLine, fromCursor_fails_iff]
  refine exists_congr fun stop => ?_
  constructor
  · rintro ⟨hmem, hhash, hfails, hearlier⟩
    obtain ⟨hexpansion, hwide⟩ := (Veto.keeps_yaml_fails_iff (hpre hmem hhash)).1 hfails
    exact ⟨hmem, hhash, hearlier, hexpansion, hwide⟩
  · rintro ⟨hmem, hhash, hearlier, hexpansion, hwide⟩
    exact ⟨hmem, hhash, (Veto.keeps_yaml_fails_iff (hpre hmem hhash)).2 ⟨hexpansion, hwide⟩,
      hearlier⟩

namespace Line

/-- The part of a line that is read as code. -/
def code? (language : Language) (mode : Mode) (line : Bytes) : Option Bytes :=
  match mode with
  | .normal => if Blank.isAllWhite line then none else some line
  | .blockComment stop =>
      (Bytes.find? stop line).map fun found => line.drop (found + stop.length)
  | .literal kind =>
      (Lexer.findClose language.dialect kind.span line).map fun close => line.drop close
  | .blockScalar indent =>
      if Blank.isAllWhite line || indent < Blank.indentation line then none else some line

/-- YAML has modes in which a line is all code or no code. -/
theorem process_yaml
    {mode : Mode}
    (hmode : mode.Possible .yaml)
    (line : Bytes) :
    code? .yaml mode line = none ∧ Succeeds (process .yaml mode line) ∨
      code? .yaml mode line = some line ∧
        (Fails (process .yaml mode line) ↔ Fails (Pruning.ofLine .yaml line)) := by
  have hnormal (hwhite : Blank.isAllWhite line = false) :
      Fails (processNormal .yaml line) ↔ Fails (Pruning.ofLine .yaml line) := by
    rw [processNormal, hwhite, if_neg (by decide)]
    cases Pruning.ofLine .yaml line with
    | error fault =>
        exact ⟨fun _ => .error fault, fun _ => .error fault⟩
    | ok pruning =>
        exact ⟨fun h => absurd h (Fails.not_ok _), fun h => absurd h (Fails.not_ok _)⟩
  cases mode with
  | normal =>
      rw [process, code?]
      cases hwhite : Blank.isAllWhite line with
      | true => exact Or.inl ⟨rfl, by rw [processNormal, hwhite]; exact .ok _⟩
      | false => exact Or.inr ⟨rfl, hnormal hwhite⟩
  | blockComment stop =>
      obtain ⟨start, hrule⟩ := hmode
      simp [Language.rules_yaml] at hrule
  | literal kind =>
      cases kind with
      | tripleDouble | tripleSingle => cases hmode
      | template => cases hmode.2
  | blockScalar indent =>
      rw [process, code?]
      cases hkept : Blank.isAllWhite line || indent < Blank.indentation line with
      | true => exact Or.inl ⟨rfl, .ok _⟩
      | false =>
          rw [Bool.or_eq_false_iff] at hkept
          exact Or.inr ⟨rfl, hnormal hkept.1⟩

/-- A YAML line cannot be processed exactly if the cursor stumbles in its code. -/
theorem process_fails_iff
    {mode : Mode}
    (hmode : mode.Possible .yaml)
    (cs : List Char) :
    Fails (process .yaml mode (Utf8.encode cs)) ↔
      ∃ code stop, code? .yaml mode (Utf8.encode cs) = some code ∧ Veto.Stumbles code stop := by
  rcases process_yaml hmode (Utf8.encode cs) with ⟨hcode, hsucceeds⟩ | ⟨hcode, hfails⟩
  · constructor
    · intro hfails
      exact absurd hsucceeds hfails.not_succeeds
    · rintro ⟨code, stop, hsome, -⟩
      rw [hcode] at hsome
      cases hsome
  · rw [hfails, Pruning.ofLine_fails_iff, hcode]
    simp

end Line
end Uncomment

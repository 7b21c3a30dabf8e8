import Mathlib.Data.List.Chain
import Uncomment.Proofs.Text.White
import Uncomment.Text.Utf8

/-!
# Where characters start

In a well-formed text a character starts after every byte of the ASCII range.  That
is all the vetoes and the pruning of a line need: they cut a line only next to such a
byte.  The property passes on to every part of a text (`Utf8.Placed`), which being
well-formed does not.
-/

namespace Uncomment
namespace Utf8

/-- After a byte of the ASCII range a character starts. -/
def Placed (text : Bytes) : Prop :=
  text.IsChain fun b next => b < 0x80 → isContinuation next = false

theorem checkClean_eq_ok
    {rest : Bytes}
    (h : startsClean rest = true) :
    checkClean rest = .ok () := by
  rw [checkClean, if_pos h]

theorem State.eq_between_of_step
    {state next : State} {b : UInt8}
    (hb : b < 0x80)
    (h : state.step b = some next) :
    next = .between := by
  have hwithin {low high : UInt8} {target : State} (hlow : 0x80 ≤ low)
      (hstep : State.within low high b target = some next) : next = .between := by
    rw [State.within] at hstep
    split at hstep
    · next hin =>
        rw [Bool.and_eq_true, decide_eq_true_eq, decide_eq_true_eq] at hin
        exact absurd (UInt8.lt_of_lt_of_le hb (UInt8.le_trans hlow hin.1)) (UInt8.lt_irrefl b)
    · cases hstep
  cases state with
  | between =>
      rw [State.step, State.first, if_pos hb] at h
      exact (Option.some.inj h).symm
  | owesOne | owesTwo | owesThree | afterE0 | afterED | afterF0 | afterF4 =>
      exact hwithin (by decide) h

theorem isContinuation_of_first
    {b : UInt8} {next : State}
    (h : State.first b = some next) :
    isContinuation b = false := by
  rw [isContinuation, Bool.and_eq_false_iff, decide_eq_false_iff_not, decide_eq_false_iff_not]
  rw [State.first] at h
  by_cases hascii : b < 0x80
  · exact Or.inl (UInt8.not_le.2 hascii)
  · rw [if_neg hascii] at h
    by_cases hlow : b < 0xC2
    · rw [if_pos hlow] at h
      cases h
    · exact Or.inr fun hle => hlow (UInt8.lt_of_le_of_lt hle (by decide))

/-- In a text that the machine accepts characters start where they should. -/
theorem placed_of_run
    {state final : State} {text : Bytes}
    (h : State.run state text = some final) :
    Placed text := by
  induction text generalizing state with
  | nil =>
      exact .nil
  | cons b rest ih =>
      rw [State.run] at h
      cases hstep : state.step b with
      | none =>
          rw [hstep] at h
          cases h
      | some next =>
          rw [hstep] at h
          cases rest with
          | nil =>
              exact .singleton b
          | cons c more =>
              refine List.isChain_cons_cons.2 ⟨fun hb => ?_, ih h⟩
              obtain rfl := State.eq_between_of_step hb hstep
              cases hfirst : State.first c with
              | none =>
                  simp only [State.run, State.step, hfirst] at h
                  cases h
              | some after =>
                  exact isContinuation_of_first hfirst

/-- In a well-formed text characters start where they should. -/
theorem placed_of_valid
    {text : Bytes}
    (h : valid text = true) :
    Placed text := by
  rw [valid, beq_iff_eq] at h
  exact placed_of_run h

/-- A part of a text has its characters where the text has them. -/
theorem Placed.of_isInfix
    {text part : Bytes}
    (h : Placed text)
    (hpart : part <:+: text) :
    Placed part := by
  exact List.IsChain.infix h hpart

/-- Behind a token of ink a character starts. -/
theorem Placed.startsClean_drop
    {line token : Bytes} {offset : Nat}
    (h : Placed line)
    (hne : token ≠ [])
    (hink : ∀ b ∈ token, Blank.isInk b = true)
    (hpre : token <+: line.drop offset) :
    startsClean (line.drop (offset + token.length)) = true := by
  obtain ⟨rest, hrest⟩ := hpre
  have hdrop : line.drop (offset + token.length) = rest := by
    rw [← List.drop_drop, ← hrest, List.drop_left]
  have hchain : Placed (token ++ rest) := by
    rw [hrest]
    exact h.of_isInfix (List.drop_suffix offset line).isInfix
  rcases List.eq_nil_or_concat token with hnil | ⟨front, b, htoken⟩
  · exact absurd hnil hne
  rw [List.concat_eq_append] at htoken
  subst htoken
  rw [hdrop]
  cases rest with
  | nil =>
      rfl
  | cons c more =>
      rw [List.append_assoc] at hchain
      have hnext := (List.isChain_cons_cons.1 (List.IsChain.right_of_append hchain)).1
      rw [startsClean, hnext (Blank.lt_of_isInk (hink b (by simp)))]
      rfl

end Utf8
end Uncomment

import Uncomment.Proofs.Text.Cut
import Uncomment.Proofs.Text.Placement

/-!
# Bytes that divide a text

A text can be searched in two parts if a byte stands between them that is no part of what
is searched for:

* a byte of the ASCII range divides a well-formed text (`Utf8.valid_append_cons`);
* a byte that a needle lacks divides its occurrences (`Bytes.occurrences_append_cons`);
* ink ends white space from either side (`Blank.leadingFrom_append_ink`,
  `Blank.trimEnd_append_cons`).
-/

namespace Uncomment

/-- A text without a byte that begins a divided text begins the part before that byte. -/
theorem Bytes.isPrefix_of_not_mem
    {text front back : Bytes} {c : UInt8}
    (hc : c ∉ text) :
    text <+: front ++ c :: back ↔ text <+: front := by
  constructor
  · intro h
    rcases List.prefix_or_prefix_of_prefix h (List.prefix_append front (c :: back)) with
      hfront | ⟨later, rfl⟩
    · exact hfront
    · rw [List.prefix_append_right_inj] at h
      cases later with
      | nil => simp
      | cons b more =>
          obtain ⟨rfl, -⟩ := List.cons_prefix_cons.1 h
          simp at hc
  · exact fun h => h.trans (List.prefix_append _ _)

namespace Utf8
namespace State

/-- Only between two characters a byte of the ASCII range may come. -/
theorem between_of_step
    {state next : State} {b : UInt8}
    (hb : b < 0x80)
    (h : state.step b = some next) :
    state = .between := by
  have hwithin {low high : UInt8} {target : State} (hlow : 0x80 ≤ low) :
      State.within low high b target = none := by
    refine if_neg fun hin => ?_
    rw [Bool.and_eq_true, decide_eq_true_eq, decide_eq_true_eq] at hin
    exact absurd (UInt8.lt_of_lt_of_le hb (UInt8.le_trans hlow hin.1)) (UInt8.lt_irrefl b)
  cases state with
  | between => rfl
  | owesOne | owesTwo | owesThree | afterE0 | afterED | afterF0 | afterF4 =>
      rw [step, hwithin (by decide)] at h
      cases h

/-- The machine reads a text from where it has left the text before. -/
theorem run_append
    (state : State) (front back : Bytes) :
    run state (front ++ back) = (run state front).bind fun next => run next back := by
  induction front generalizing state with
  | nil => rfl
  | cons b rest ih =>
      rw [List.cons_append, run, run]
      cases state.step b with
      | none => rfl
      | some next => exact ih next

/-- The number of continuation bytes that are owed. -/
def owed : State → Nat
  | .between => 0
  | .owesOne => 1
  | .owesTwo | .afterE0 | .afterED => 2
  | .owesThree | .afterF0 | .afterF4 => 3

/-- Inside a character every byte pays for one. -/
theorem owed_of_step
    {state next : State} {b : UInt8}
    (hstate : state ≠ .between)
    (h : state.step b = some next) :
    state.owed = next.owed + 1 := by
  cases state with
  | between => exact absurd rfl hstate
  | owesOne | owesTwo | owesThree | afterE0 | afterED | afterF0 | afterF4 =>
      rw [step, within] at h
      split at h
      · cases h
        rfl
      · cases h

/-- The bytes that are owed come, and behind them the machine is between two characters. -/
theorem run_drop_owed
    {state : State} {text : Bytes}
    (h : run state text = some .between) :
    state.owed ≤ text.length ∧ run .between (text.drop state.owed) = some .between := by
  induction text generalizing state with
  | nil =>
      cases h
      exact ⟨Nat.le_refl _, rfl⟩
  | cons b rest ih =>
      by_cases hstate : state = .between
      · subst hstate
        exact ⟨Nat.zero_le _, h⟩
      · rw [run] at h
        cases hstep : state.step b with
        | none =>
            rw [hstep] at h
            cases h
        | some next =>
            rw [hstep] at h
            obtain ⟨hle, hrun⟩ := ih h
            rw [owed_of_step hstate hstep, List.length_cons, List.drop_succ_cons]
            exact ⟨Nat.succ_le_succ hle, hrun⟩

/-- The first byte of a character tells how many bytes follow. -/
theorem owed_of_first
    {b : UInt8} {next : State}
    (h : first b = some next) :
    next.owed = tailLength b := by
  have hall : ∀ code < 256, ((first (UInt8.ofNat code)).all fun state =>
      state.owed == tailLength (UInt8.ofNat code)) = true := by
    decide +kernel
  have hbyte := hall b.toNat b.toNat_lt
  rw [UInt8.ofNat_toNat, h] at hbyte
  exact eq_of_beq hbyte

end State

theorem valid_append
    {front back : Bytes}
    (hfront : valid front = true)
    (hback : valid back = true) :
    valid (front ++ back) = true := by
  rw [valid, beq_iff_eq] at hfront hback ⊢
  rw [State.run_append, hfront]
  exact hback

/-- A byte of the ASCII range divides a well-formed text. -/
theorem valid_append_cons
    {front back : Bytes} {c : UInt8}
    (hc : c < 0x80) :
    valid (front ++ c :: back) = true ↔ valid front = true ∧ valid back = true := by
  have hstep : State.step .between c = some .between := by
    rw [State.step, State.first, if_pos hc]
  simp only [valid, beq_iff_eq, State.run_append]
  constructor
  · intro h
    obtain ⟨state, hfront, hrun⟩ := Option.bind_eq_some_iff.1 h
    rw [State.run] at hrun
    cases hnext : state.step c with
    | none =>
        rw [hnext] at hrun
        cases hrun
    | some next =>
        rw [hnext] at hrun
        obtain rfl := State.between_of_step hc hnext
        obtain rfl := Option.some.inj (hstep.symm.trans hnext)
        exact ⟨hfront, hrun⟩
  · rintro ⟨hfront, hback⟩
    rw [hfront, Option.bind_some, State.run, hstep]
    exact hback

/-- A character that lies in a text takes the bytes which its first one announces. -/
theorem front_append
    {b : UInt8} {rest : Bytes}
    (h : tailLength b ≤ rest.length)
    (back : Bytes) :
    front b (rest ++ back) = front b rest ∧ (front b rest).2 = tailLength b := by
  unfold front
  unfold tailLength at h ⊢
  by_cases hascii : b < 0x80
  · have hlow : b < 0xC0 := UInt8.lt_trans hascii (by decide)
    simp only [if_pos hascii, if_pos hlow, and_self]
  · rw [if_neg hascii, if_neg hascii]
    by_cases hlow : b < 0xC0
    · simp only [if_pos hlow, and_self]
    · simp only [if_neg hlow] at h ⊢
      by_cases htwo : b < 0xE0
      · simp only [if_pos htwo] at h ⊢
        obtain _ | ⟨b₁, rest⟩ := rest
        · simp at h
        · exact ⟨rfl, rfl⟩
      · simp only [if_neg htwo] at h ⊢
        by_cases hthree : b < 0xF0
        · simp only [if_pos hthree] at h ⊢
          obtain _ | ⟨b₁, _ | ⟨b₂, rest⟩⟩ := rest
          · simp at h
          · simp at h
          · exact ⟨rfl, rfl⟩
        · simp only [if_neg hthree] at h ⊢
          obtain _ | ⟨b₁, _ | ⟨b₂, _ | ⟨b₃, rest⟩⟩⟩ := rest
          · simp at h
          · simp at h
          · simp at h
          · exact ⟨rfl, rfl⟩

/--
The first character of a well-formed text lies in the text, what follows it is well-formed,
and more text behind does not change it.
-/
theorem front_of_valid
    {b : UInt8} {rest : Bytes}
    (h : valid (b :: rest) = true) :
    (front b rest).2 ≤ rest.length ∧ valid (rest.drop (front b rest).2) = true ∧
      ∀ back, front b (rest ++ back) = front b rest := by
  rw [valid, beq_iff_eq, State.run] at h
  cases hstep : State.first b with
  | none =>
      rw [State.step, hstep] at h
      cases h
  | some next =>
      rw [State.step, hstep] at h
      obtain ⟨hle, hrun⟩ := State.run_drop_owed h
      rw [State.owed_of_first hstep] at hle hrun
      rw [(front_append hle []).2, valid, beq_iff_eq]
      exact ⟨hle, hrun, fun back => (front_append hle back).1⟩

end Utf8

namespace Bytes

/-- The offset from which occurrences are counted only shifts them. -/
theorem occurrencesFrom_add
    (needle : Bytes) (low offset skip : Nat) (text : Bytes) :
    occurrencesFrom needle (low + offset) skip text =
      (occurrencesFrom needle offset skip text).map (low + ·) := by
  induction text generalizing offset skip with
  | nil =>
      cases skip <;> rfl
  | cons b rest ih =>
      have hrest := ih (offset + 1)
      cases skip with
      | succ skip =>
          exact hrest skip
      | zero =>
          rw [occurrencesFrom, occurrencesFrom]
          split
          · rw [List.map_cons, ← hrest]
            rfl
          · exact hrest 0

/-- A byte that a needle lacks divides the search for it. -/
theorem occurrencesFrom_append_cons
    {needle front back : Bytes} {c : UInt8} {offset skip : Nat}
    (hneedle : needle ≠ [])
    (hc : c ∉ needle)
    (hskip : skip ≤ front.length) :
    occurrencesFrom needle offset skip (front ++ c :: back) =
      occurrencesFrom needle offset skip front ++
        occurrencesFrom needle (offset + front.length + 1) 0 back := by
  induction front generalizing offset skip with
  | nil =>
      obtain rfl : skip = 0 := by simpa using hskip
      have hno : ¬ needle <+: c :: back := by
        cases needle with
        | nil => exact absurd rfl hneedle
        | cons b more =>
            rw [List.cons_prefix_cons]
            rintro ⟨rfl, -⟩
            exact hc List.mem_cons_self
      rw [← List.isPrefixOf_iff_prefix] at hno
      simp only [List.nil_append, occurrencesFrom, if_neg hno, List.length_nil, Nat.add_zero]
  | cons b rest ih =>
      have hlater {skip : Nat} (hskip : skip ≤ rest.length) :
          occurrencesFrom needle (offset + 1) skip (rest ++ c :: back) =
            occurrencesFrom needle (offset + 1) skip rest ++
              occurrencesFrom needle (offset + (b :: rest).length + 1) 0 back := by
        rw [ih hskip, List.length_cons, Nat.add_right_comm offset 1, Nat.add_assoc offset]
      cases skip with
      | succ skip =>
          exact hlater (by simpa using hskip)
      | zero =>
          rw [List.cons_append, occurrencesFrom, occurrencesFrom]
          simp only [List.isPrefixOf_iff_prefix, ← List.cons_append, isPrefix_of_not_mem hc]
          split
          · next hpre =>
              have hle := hpre.length_le
              rw [List.length_cons] at hle
              rw [hlater (by omega), List.cons_append]
          · exact hlater (Nat.zero_le _)

/-- A byte that a needle lacks divides the occurrences of the needle. -/
theorem occurrences_append_cons
    {needle : Bytes} {c : UInt8}
    (hneedle : needle ≠ [])
    (hc : c ∉ needle)
    (front back : Bytes) :
    occurrences needle (front ++ c :: back) =
      occurrences needle front ++ (occurrences needle back).map (front.length + 1 + ·) := by
  rw [occurrences, occurrencesFrom_append_cons hneedle hc (Nat.zero_le _), Nat.zero_add,
    ← Nat.add_zero (front.length + 1), occurrencesFrom_add]
  rfl

end Bytes

namespace Blank

/-- Ink ends the white space at the front of a text. -/
theorem leadingFrom_append_ink
    {c : UInt8} {front : Bytes} {count skip : Nat}
    (hc : isInk c = true)
    (hskip : skip ≤ front.length)
    (back : Bytes) :
    leadingFrom count skip (front ++ c :: back) = leadingFrom count skip front := by
  induction front generalizing count skip with
  | nil =>
      obtain rfl : skip = 0 := by simpa using hskip
      have hwidth : whiteWidth (c :: back) = 0 := by
        rw [isInk, Bool.and_eq_true, decide_eq_true_eq, Bool.not_eq_true'] at hc
        rw [whiteWidth.eq_def]
        dsimp only
        rw [hc.2, if_neg (by decide), if_pos hc.1]
      simp only [List.nil_append, leadingFrom, hwidth]
  | cons b rest ih =>
      cases skip with
      | succ skip =>
          exact ih (by simpa using hskip)
      | zero =>
          have hle := whiteWidth_le (b :: rest)
          simp only [List.cons_append, leadingFrom, whiteWidth_append (lt_of_isInk hc)]
          split
          · rfl
          · next more hwidth =>
              rw [hwidth, List.length_cons] at hle
              exact ih (by omega)

/-- An ASCII byte before a text does not belong to the last white-space character of the text. -/
theorem whiteWidthBack_append
    {b : UInt8}
    (hb : b < 0x80)
    (last : UInt8) (rest back : Bytes) :
    whiteWidthBack (last :: (rest ++ b :: back)) = whiteWidthBack (last :: rest) := by
  have hne {c : UInt8} (hc : 0x80 ≤ c) : ¬ b = c := by
    rintro rfl
    exact absurd hb (UInt8.not_lt.2 hc)
  have hpair (c : UInt8) : isPair b c = false := by
    simp [isPair, hne]
  have htriple (c d : UInt8) : isTriple b c d = false ∧ isTriple c b d = false := by
    simp [isTriple, hne]
  cases rest with
  | nil =>
      cases back with
      | nil => simp [whiteWidthBack, hpair]
      | cons second back => simp [whiteWidthBack, hpair, htriple]
  | cons second rest =>
      cases rest with
      | nil =>
          simp [whiteWidthBack, htriple]
      | cons third rest =>
          rfl

theorem whiteWidthBack_le
    (text : Bytes) :
    whiteWidthBack text ≤ text.length := by
  unfold whiteWidthBack
  repeat' split
  all_goals simp

theorem trailingFrom_append_ink
    {c : UInt8} {front : Bytes} {count skip : Nat}
    (hc : isInk c = true)
    (hskip : skip ≤ front.length)
    (back : Bytes) :
    trailingFrom count skip (front ++ c :: back) = trailingFrom count skip front ∧
      trailingFrom count skip front ≤ count + front.length := by
  induction front generalizing count skip with
  | nil =>
      obtain rfl : skip = 0 := by simpa using hskip
      have hwidth : whiteWidthBack (c :: back) = 0 := by
        rw [isInk, Bool.and_eq_true, decide_eq_true_eq, Bool.not_eq_true'] at hc
        rw [whiteWidthBack.eq_def]
        dsimp only
        rw [hc.2, if_neg (by decide), if_pos hc.1]
      simp only [List.nil_append, trailingFrom, hwidth, List.length_nil, Nat.add_zero,
        Nat.le_refl, and_self]
  | cons b rest ih =>
      have hlater {skip : Nat} (hskip : skip ≤ rest.length) :
          trailingFrom (count + 1) skip (rest ++ c :: back) = trailingFrom (count + 1) skip rest ∧
            trailingFrom (count + 1) skip rest ≤ count + (b :: rest).length := by
        rw [List.length_cons, ← Nat.add_assoc, Nat.add_right_comm]
        exact ih hskip
      cases skip with
      | succ skip =>
          exact hlater (by simpa using hskip)
      | zero =>
          have hle := whiteWidthBack_le (b :: rest)
          simp only [List.cons_append, trailingFrom, whiteWidthBack_append (lt_of_isInk hc)]
          split
          · exact ⟨rfl, Nat.le_add_right _ _⟩
          · next more hwidth =>
              rw [hwidth, List.length_cons] at hle
              exact hlater (by omega)

/-- Only what is behind the last ink of a text is trimmed at its end. -/
theorem trimEnd_append_cons
    {c : UInt8}
    (hc : isInk c = true)
    (front back : Bytes) :
    trimEnd (front ++ c :: back) = front ++ c :: trimEnd back := by
  obtain ⟨htrailing, hle⟩ :=
    @trailingFrom_append_ink c back.reverse 0 0 hc (Nat.zero_le _) front.reverse
  have hreverse : (front ++ c :: back).reverse = back.reverse ++ c :: front.reverse := by
    simp
  rw [trimEnd, trimEnd, hreverse, htrailing, List.drop_append_of_le_length (by omega)]
  simp

end Blank
end Uncomment

import Uncomment.Proofs.Text.Words
import Uncomment.Proofs.Veto.Total

/-!
# Where the veto of YAML fails

The veto of YAML cuts the line at a number sign, which always succeeds, and cuts out the
last word before it, which does not.  It gets as far as the word unless the number sign is
in an expansion that is closed behind it (`Veto.keeps_yaml_fails_iff`).
-/

namespace Uncomment

/-- A computation that ends with a fault. -/
def Fails {α : Type} (result : Except Fault α) : Prop :=
  ∃ fault, result = .error fault

namespace Fails

variable {α β : Type} {result : Except Fault α}

theorem error
    (fault : Fault) :
    Fails (.error fault : Except Fault α) := by
  exact ⟨fault, rfl⟩

theorem not_succeeds
    (h : Fails result) :
    ¬ Succeeds result := by
  rintro ⟨value, hvalue⟩
  obtain ⟨fault, hfault⟩ := h
  rw [hvalue] at hfault
  cases hfault

theorem not_ok
    (value : α) :
    ¬ Fails (.ok value) := by
  exact fun h => h.not_succeeds (.ok value)

theorem map_iff
    {f : α → β} :
    Fails (result.map f) ↔ Fails result := by
  cases result with
  | error fault => exact ⟨fun _ => .error fault, fun _ => .error fault⟩
  | ok value => exact ⟨fun h => absurd h (not_ok _), fun h => absurd h (not_ok _)⟩

/-- Where nothing else can fail, only the first computation does. -/
theorem bind_iff
    {next : α → Except Fault β}
    (hnext : ∀ value, Succeeds (next value)) :
    Fails (result >>= next) ↔ Fails result := by
  cases result with
  | error fault =>
      exact ⟨fun _ => .error fault, fun _ => .error fault⟩
  | ok value =>
      exact ⟨fun h => absurd (hnext value) h.not_succeeds, fun h => absurd h (not_ok value)⟩

end Fails

namespace Veto

/-- Whether the token is in an expansion that is closed behind it. -/
def Site.inClosedExpansion (site : Site) : Bool :=
  site.inExpansion &&
    site.facts.seenBetween (Bytes.ofString "\x7d") (site.offset + site.token.length)
      site.facts.line.length

/-- A number sign at an offset of a line. -/
abbrev hashAt (line : Bytes) (offset : Nat) : Site :=
  ⟨LineFacts.ofLine line, offset, [Byte.hash]⟩

variable {cs : List Char} {offset : Nat}

/-- A number sign is part of an address if the last word before it has `http`. -/
theorem inAddress_eq
    (site : Site) :
    inAddress site = do
      let text ← site.before
      let word ← Blank.lastWord text
      return Bytes.contains (Bytes.ofString "http") word := by
  unfold inAddress Blank.lastWord
  congr 1
  funext text
  cases Blank.lastWhite? text <;> rfl

/-- At a number sign in a text of characters the line can be cut. -/
theorem readable_hashAt
    (hpre : [Byte.hash] <+: (Utf8.encode cs).drop offset) :
    (hashAt (Utf8.encode cs) offset).Readable := by
  have hrule : Rule.line [Byte.hash] ∈ Language.yaml.rules := by decide
  exact Site.readable (Utf8.placed_encode cs) hrule hpre

/-- The search for an address fails where the last word cannot be cut out. -/
theorem inAddress_fails_iff
    (hpre : [Byte.hash] <+: (Utf8.encode cs).drop offset) :
    Fails (inAddress (hashAt (Utf8.encode cs) offset)) ↔
      Blank.EndsWide ((Utf8.encode cs).take offset) := by
  obtain ⟨text, htext⟩ := (readable_hashAt hpre).before
  obtain ⟨hboundary, rfl⟩ := (Utf8.upTo_eq_ok_iff _ _ _).1 htext
  obtain ⟨as, has⟩ := hboundary.exists_encode_eq_take
  rw [inAddress_eq, htext]
  dsimp only [LineFacts.ofLine]
  rw [← has]
  exact (Fails.bind_iff fun _ => .pure _).trans (Blank.lastWord_fails_iff as)

/-- What the veto of YAML asks about a number sign. -/
theorem keeps_yaml_eq
    (line : Bytes) (offset : Nat) :
    keeps .yaml (LineFacts.ofLine line) offset [Byte.hash] =
      if (hashAt line offset).inClosedExpansion then .ok true
      else do
        if ← inAddress (hashAt line offset) then return true
        if ← (hashAt line offset).isLeading then
          let comment := Blank.trim (← Utf8.startingAt line offset)
          return (Bytes.ofString "##").isPrefixOf comment ||
            (Bytes.ofString "# #").isPrefixOf comment || Heading.isStructural comment
        return false := by
  have hshebang : (hasShebang .yaml) = false := rfl
  rw [keeps, hshebang, Bool.and_false]
  rfl

/--
At a number sign the veto of YAML fails exactly if the sign is in no expansion that is
closed behind it and the last white space before it is wide.
-/
theorem keeps_yaml_fails_iff
    (hpre : [Byte.hash] <+: (Utf8.encode cs).drop offset) :
    Fails (keeps .yaml (LineFacts.ofLine (Utf8.encode cs)) offset [Byte.hash]) ↔
      (hashAt (Utf8.encode cs) offset).inClosedExpansion = false ∧
        Blank.EndsWide ((Utf8.encode cs).take offset) := by
  have hreadable := readable_hashAt hpre
  rw [keeps_yaml_eq, ← inAddress_fails_iff hpre]
  cases (hashAt (Utf8.encode cs) offset).inClosedExpansion with
  | true =>
      simp [Fails]
  | false =>
      rw [if_neg (by decide), Fails.bind_iff]
      · simp
      · intro found
        refine .ite (.pure _) (hreadable.isLeading.bind fun leading => ?_)
        exact .ite (hreadable.fromHere.bind fun _ => .pure _) (.pure _)

end Veto
end Uncomment

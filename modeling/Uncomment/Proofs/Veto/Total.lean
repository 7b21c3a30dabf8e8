import Uncomment.Proofs.Text.Placement
import Uncomment.Proofs.Veto.Cut

/-!
# Vetoes answer

A veto cuts the line before and after a token, which may end in a `Fault`.  At a start
token that stands in a well-placed line every veto answers, the one of YAML apart
(`Veto.keeps_succeeds`): start tokens are of the ASCII range.
-/

namespace Uncomment

/-- A computation that ends without a fault. -/
def Succeeds {α : Type} (result : Except Fault α) : Prop :=
  ∃ value, result = .ok value

namespace Succeeds

variable {α β : Type}

theorem ok
    (value : α) :
    Succeeds (.ok value) := by
  exact ⟨value, rfl⟩

theorem pure
    (value : α) :
    Succeeds (Pure.pure value) := by
  exact ⟨value, rfl⟩

theorem bind
    {result : Except Fault α} {next : α → Except Fault β}
    (h : Succeeds result)
    (hnext : ∀ value, Succeeds (next value)) :
    Succeeds (result >>= next) := by
  obtain ⟨value, rfl⟩ := h
  exact hnext value

theorem ite
    {condition : Prop} [Decidable condition] {yes no : Except Fault α}
    (hyes : Succeeds yes)
    (hno : Succeeds no) :
    Succeeds (if condition then yes else no) := by
  split
  · exact hyes
  · exact hno

end Succeeds

namespace Veto

/-- A site at which the line can be cut before and after the token. -/
structure Site.Readable (site : Site) : Prop where
  before : Succeeds site.before
  after : Succeeds site.after
  previousByte : Succeeds site.previousByte

/-- Where a start token stands in a well-placed line the line can be cut. -/
theorem Site.readable
    {language : Language} {rule : Rule} {line : Bytes} {offset : Nat}
    (hplaced : Utf8.Placed line)
    (hrule : rule ∈ language.rules)
    (hpre : rule.start <+: line.drop offset) :
    (Site.mk (LineFacts.ofLine line) offset rule.start).Readable := by
  have hne := Language.start_ne_nil hrule
  have hle := le_of_isPrefix_drop hne hpre
  have hclean := hplaced.startsClean_drop hne (Language.isInk_of_mem_start hrule) hpre
  refine ⟨⟨_, before_eq hne (startsClean_of_mem_rules hrule) hpre⟩, ?_, ?_⟩
  · exact ⟨_, (Utf8.startingAt_eq_ok_iff line (offset + rule.start.length) _).2
      ⟨Or.inr ⟨hle, hclean⟩, rfl⟩⟩
  · rw [previousByte, Utf8.byteBefore]
    refine .ite (.ok _) ?_
    dsimp only [LineFacts.ofLine]
    have hpos := List.length_pos_iff.2 hne
    rw [List.getElem?_eq_getElem (by omega : offset - 1 < line.length)]
    exact .ok _

variable {site : Site}

namespace Site.Readable

theorem nextByte
    (h : site.Readable) :
    Succeeds site.nextByte := by
  exact h.after.bind fun _ => .pure _

theorem isLeading
    (h : site.Readable) :
    Succeeds site.isLeading := by
  exact h.before.bind fun _ => .pure _

theorem fromHere
    (h : site.Readable) :
    Succeeds (Utf8.startingAt site.facts.line site.offset) := by
  obtain ⟨text, htext⟩ := h.before
  have hboundary := ((Utf8.upTo_eq_ok_iff _ _ _).1 htext).1
  exact ⟨_, (Utf8.startingAt_eq_ok_iff _ _ _).2 ⟨hboundary, rfl⟩⟩

end Site.Readable

theorem followedBy_succeeds
    (h : site.Readable) (mark : String) (accepts : UInt8 → Bool) :
    Succeeds (followedBy mark accepts site) := by
  exact .ite (.pure _) (h.nextByte.bind fun _ => .pure _)

theorem cFamily_succeeds
    (h : site.Readable) (bang : Bool) :
    Succeeds (cFamily bang site) := by
  have hheader : Succeeds (headerOpen site) := by
    rw [headerOpen]
    split
    · exact .pure _
    · exact .ite (.pure _) (h.before.bind fun _ => .pure _)
  exact .ite (.pure _) (hheader.bind fun _ => .ite (.pure _) (.pure _))

theorem shell_succeeds
    (h : site.Readable) :
    Succeeds (shell site) := by
  exact .ite (.pure _) (h.after.bind fun _ => .ite (.pure _)
    (h.previousByte.bind fun _ => .ite (.pure _) (.pure _)))

theorem python_succeeds
    (h : site.Readable) :
    Succeeds (python site) := by
  exact .ite (.pure _) (.ite (.pure _)
    (.ite (h.before.bind fun _ => .ite (.pure _) (.pure _)) (.pure _)))

theorem batch_succeeds
    (h : site.Readable) :
    Succeeds (batch site) := by
  exact h.before.bind fun _ => .ite
    (.ite (.pure _) (h.nextByte.bind fun _ => .pure _)) (.pure _)

theorem phpHash_succeeds
    (h : site.Readable) :
    Succeeds (phpHash site) := by
  exact .ite (.pure _) (h.isLeading.bind fun _ => .ite (.pure _)
    (h.nextByte.bind fun _ => .pure _))

/-- Every veto answers, the one of YAML apart. -/
theorem family_succeeds
    {language : Language}
    (hyaml : language ≠ .yaml)
    (h : site.Readable) :
    Succeeds (family language site) := by
  cases language with
  | yaml => exact absurd rfl hyaml
  | shell | perl => exact shell_succeeds h
  | python => exact python_succeeds h
  | php => exact (cFamily_succeeds h false).bind fun _ => .ite (.pure _) (phpHash_succeeds h)
  | c | java | swift | dart | javaScript | typeScript | go | json | verilog =>
      exact cFamily_succeeds h false
  | rust => exact cFamily_succeeds h true
  | batch => exact batch_succeeds h
  | haskell | pascal | assembly | coffeeScript => exact followedBy_succeeds h _ _
  | erlang | lisp => exact h.previousByte.bind fun _ => .pure _
  | css | scss | html | markdown | latex | fortran | ruby | r | tcl | powerShell | julia | hash
  | toml | hcl | sql | lua | ada | vhdl | ocaml | fsharp | matlab | prolog | fortranFree | cobol
  | rst | unknown => exact .ok _

/-- At a start token in a well-placed line it can be told whether the token is kept. -/
theorem keeps_succeeds
    {language : Language} {rule : Rule} {line : Bytes} {offset : Nat}
    (hyaml : language ≠ .yaml)
    (hplaced : Utf8.Placed line)
    (hrule : rule ∈ language.rules)
    (hpre : rule.start <+: line.drop offset) :
    Succeeds (keeps language (LineFacts.ofLine line) offset rule.start) := by
  exact .ite (.ok _) (family_succeeds hyaml (Site.readable hplaced hrule hpre))

end Veto
end Uncomment

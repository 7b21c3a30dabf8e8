import Mathlib.Data.List.Forall2
import Uncomment.Run.Basic

/-!
# Refused runs

A run is refused while its plan is made, so nothing has been written by then.  `Refusable`
says when that happens: the single file cannot be found or has no supported type, or there
is no single file and an exclude pattern is unusable (`run_refused_iff`).

Exclude patterns are read one after the other (`readExcludes_eq_ok_iff`), and then all of
them are made ready for matching (`excludePatterns_fails_iff`).
-/

namespace Uncomment
namespace Run

/-- The exclude patterns that are not blank, without the white space around them. -/
def patterns (written : List String) : List String :=
  (written.map fun glob => String.ofList (Blank.trimChars glob.toList)).filter (!·.isEmpty)

/-- A pattern that cannot be read, or that goes down too many levels to be searched for. -/
def Unusable (glob : String) : Prop :=
  (∃ e, Glob.parse Glob.excludeStyle glob = .error e) ∨
    ∃ exclude, Glob.parse Glob.excludeStyle glob = .ok exclude ∧
      exclude.preparation ≠ .direct ∧ exclude.isTooDeep = true

/-- What makes a run impossible before it has started. -/
def Refusable (disk : Disk) (here : Location) (settings : Settings) : Prop :=
  match settings.file with
  | some file =>
      (∃ e, disk.locate here file = .error e) ∨
        ∃ location, disk.locate here file = .ok location ∧
          eligible? disk here settings.force location.toPath = none
  | none => ∃ glob ∈ patterns settings.excludes, Unusable glob

/-- The exclude patterns are read if each of them is. -/
theorem readExcludes_eq_ok_iff {written : List String} {excludes : List Glob} :
    readExcludes written = .ok excludes ↔
      List.Forall₂ (fun glob exclude => Glob.parse Glob.excludeStyle glob = .ok exclude)
        (patterns written) excludes := by
  induction written generalizing excludes with
  | nil =>
      simp [readExcludes, patterns, eq_comm]
  | cons first more ih =>
      rw [readExcludes]
      by_cases hblank : (String.ofList (Blank.trimChars first.toList)).isEmpty = true
      · have hpatterns : patterns (first :: more) = patterns more := by
          simp [patterns, hblank]
        rw [if_pos hblank, hpatterns, ih]
      · have hpatterns : patterns (first :: more) =
            String.ofList (Blank.trimChars first.toList) :: patterns more := by
          simp [patterns, hblank]
        rw [if_neg hblank, hpatterns, List.forall₂_cons_left_iff]
        cases hparse : Glob.parse Glob.excludeStyle
            (String.ofList (Blank.trimChars first.toList)) with
        | error e =>
            simp
        | ok exclude =>
            cases hmore : readExcludes more with
            | error refusal =>
                simp [← ih, hmore]
            | ok rest =>
                simp only [Except.ok.injEq, ← ih, hmore]
                constructor
                · rintro rfl
                  exact ⟨exclude, rest, rfl, rfl, rfl⟩
                · rintro ⟨_, _, rfl, rfl, rfl⟩
                  rfl

/-- Items of which each is related to something are related to a list. -/
theorem exists_forall₂ {α β : Type} {R : α → β → Prop} {items : List α}
    (h : ∀ a ∈ items, ∃ b, R a b) :
    ∃ others, List.Forall₂ R items others := by
  induction items with
  | nil => exact ⟨[], .nil⟩
  | cons a more ih =>
      rw [List.forall_mem_cons] at h
      obtain ⟨b, hb⟩ := h.1
      obtain ⟨others, hothers⟩ := ih h.2
      exact ⟨b :: others, .cons hb hothers⟩

theorem exists_of_forall₂ {α β : Type} {R : α → β → Prop} {items : List α} {others : List β}
    (h : List.Forall₂ R items others) :
    (∀ a ∈ items, ∃ b ∈ others, R a b) ∧ ∀ b ∈ others, ∃ a ∈ items, R a b := by
  induction h with
  | nil => simp
  | cons hab _ ih =>
      simp only [List.mem_cons, forall_eq_or_imp, exists_eq_or_imp]
      exact ⟨⟨.inl hab, fun a ha => .inr (ih.1 a ha)⟩, .inl hab, fun b hb => .inr (ih.2 b hb)⟩

theorem excludePatterns_fails_iff {written : List String} :
    (∃ refusal, excludePatterns written = .error refusal) ↔
      ∃ glob ∈ patterns written, Unusable glob := by
  rw [excludePatterns]
  cases hread : readExcludes written with
  | error refusal =>
      refine iff_of_true ⟨refusal, rfl⟩ ?_
      by_contra hnone
      push Not at hnone
      have hparse : ∀ glob ∈ patterns written,
          ∃ exclude, Glob.parse Glob.excludeStyle glob = .ok exclude := by
        intro glob hglob
        cases hresult : Glob.parse Glob.excludeStyle glob with
        | error e => exact absurd (.inl ⟨e, hresult⟩) (hnone glob hglob)
        | ok exclude => exact ⟨exclude, rfl⟩
      obtain ⟨excludes, hexcludes⟩ := exists_forall₂ hparse
      rw [readExcludes_eq_ok_iff.2 hexcludes] at hread
      cases hread
  | ok excludes =>
      obtain ⟨hparsed, horigin⟩ := exists_of_forall₂ (readExcludes_eq_ok_iff.1 hread)
      dsimp only
      cases hexcess : Glob.excess? excludes with
      | none =>
          refine iff_of_false (by simp) ?_
          rintro ⟨glob, hglob, hunusable⟩
          obtain ⟨exclude, hexclude, hresult⟩ := hparsed glob hglob
          rcases hunusable with ⟨e, herror⟩ | ⟨other, hother, hsearched, hdeep⟩
          · rw [hresult] at herror
            cases herror
          · rw [hresult] at hother
            cases hother
            rw [(Glob.excess?_eq_none_iff excludes).1 hexcess exclude hexclude hsearched] at hdeep
            cases hdeep
      | some excess =>
          refine iff_of_true ⟨_, rfl⟩ ?_
          by_contra hnone
          push Not at hnone
          have hshallow : Glob.excess? excludes = none := by
            refine (Glob.excess?_eq_none_iff excludes).2 fun exclude hexclude hsearched => ?_
            obtain ⟨glob, hglob, hresult⟩ := horigin exclude hexclude
            by_contra hdeep
            exact hnone glob hglob
              (.inr ⟨exclude, hresult, hsearched, by simpa using hdeep⟩)
          rw [hexcess] at hshallow
          cases hshallow

/-- No plan is made for what has to be refused. -/
theorem plan_fails_iff {disk : Disk} {here : Location} {settings : Settings} {stamp : String} :
    (∃ refusal, plan disk here settings stamp = .error refusal) ↔
      Refusable disk here settings := by
  unfold plan Refusable
  cases settings.file with
  | some file =>
      dsimp only
      rw [planFile]
      cases hlocate : disk.locate here file with
      | error e => simp
      | ok location =>
          dsimp only
          cases heligible : eligible? disk here settings.force location.toPath <;> simp [heligible]
  | none =>
      dsimp only
      rw [← excludePatterns_fails_iff]
      cases excludePatterns settings.excludes <;> simp

/-- A run is refused if it is impossible, and then it leaves the disk as it is. -/
theorem run_refused_iff {disk : Disk} {here : Location} {settings : Settings} {stamp : String} :
    ((∃ refusal left, run disk here settings stamp = (.refused refusal, left)) ↔
        Refusable disk here settings) ∧
      ∀ refusal left, run disk here settings stamp = (.refused refusal, left) → left = disk := by
  rw [← @plan_fails_iff disk here settings stamp, run]
  cases plan disk here settings stamp with
  | error refusal => simp
  | ok queue =>
      dsimp only
      split <;> simp

end Run
end Uncomment

import Uncomment.Proofs.Line.BlockComment

/-!
# Bodies of block comments that can be told apart

Two bodies of block comments are interchangeable if no line becomes different when the one
takes the place of the other in a comment that is removed first.  In a language without
character literals that is so exactly if both leave the same open for the vetoes of the
tokens behind them (`Line.interchangeable_iff`): in most languages always, in the C family,
PHP, style sheets and markup not.

For what tells two bodies apart it is enough to look at one sample body for each thing that
can be left (`Line.samples`), and at a few texts around it (`Line.probes`).
-/

namespace Uncomment

namespace Pruning

/-- The first comment that is removed from a line is the one with the given body. -/
def RemovesFirst (language : Language) (before start body stop behind : Bytes) : Prop :=
  ∃ gap, (ofLine language (before ++ start ++ body ++ stop ++ behind)).map (·.removals.head?) =
    .ok (some (.ofBody before start body stop gap))

instance
    (language : Language) (before start body stop behind : Bytes) :
    Decidable (RemovesFirst language before start body stop behind) :=
  inferInstanceAs (Decidable (∃ _, _))

end Pruning

namespace Line

/--
No line becomes different if the one body takes the place of the other in the comment that
is removed first, provided the comment is not kept for that.
-/
def Interchangeable (language : Language) (start stop body body' : Bytes) : Prop :=
  ∀ before behind : Bytes,
    Utf8.valid before = true →
    Utf8.valid behind = true →
    Pruning.RemovesFirst language before start body stop behind →
    Veto.keeps language (LineFacts.ofLine (before ++ start ++ body' ++ stop ++ behind))
      before.length start = .ok false →
    ∃ result next,
      process language .normal (before ++ start ++ body ++ stop ++ behind) = .ok (result, next) ∧
        process language .normal (before ++ start ++ body' ++ stop ++ behind) = .ok (result, next)

variable {language : Language} {before start stop body body' behind : Bytes}

/-- If a comment is removed first it is with any body that leaves the same. -/
theorem removesFirst_of_leaves
    (hblock : .block start stop ∈ language.rules)
    (hsingle : language.dialect.single ≠ .charLiteral)
    (hbefore : Utf8.valid before = true)
    (hbody : Pruning.IsBody stop body)
    (hbody' : Pruning.IsBody stop body')
    (hbehind : Utf8.valid behind = true)
    (hleaves : Veto.leaves language body = Veto.leaves language body')
    (hkeeps : Veto.keeps language
      (LineFacts.ofLine (before ++ start ++ body' ++ stop ++ behind)) before.length start =
        .ok false)
    (hfirst : Pruning.RemovesFirst language before start body stop behind) :
    Pruning.RemovesFirst language before start body' stop behind ∧
      ∃ result next,
        process language .normal (before ++ start ++ body ++ stop ++ behind) =
            .ok (result, next) ∧
          process language .normal (before ++ start ++ body' ++ stop ++ behind) =
            .ok (result, next) := by
  obtain ⟨gap, hhead⟩ := hfirst
  cases hpruning : Pruning.ofLine language (before ++ start ++ body ++ stop ++ behind) with
  | error fault =>
      rw [hpruning] at hhead
      cases hhead
  | ok pruning =>
      rw [hpruning] at hhead
      replace hhead : pruning.removals.head? = some (.ofBody before start body stop gap) :=
        Except.ok.inj hhead
      obtain ⟨pruning', earlier, later, later', gap', hpruning', htext, hmode, hremovals,
        hremovals'⟩ := Pruning.exists_of_leaves hblock hsingle hbefore hbody hbody' hbehind
          hkeeps hleaves hpruning (List.mem_of_mem_head? hhead) rfl rfl
      refine ⟨?_, process_of_same_left (Pruning.ne_yaml_of_block hblock) hpruning hpruning' ?_ ?_
        htext hmode⟩
      · cases earlier with
        | nil => exact ⟨gap', by rw [hpruning', Except.map, hremovals', List.nil_append]; rfl⟩
        | cons first more =>
            have hordered := (Pruning.reading_of_ofLine hpruning).ordered (Cursor.at_start _)
            rw [hremovals, List.cons_append, List.pairwise_cons] at hordered
            rw [hremovals] at hhead
            obtain rfl : first = .ofBody before start body stop gap := Option.some.inj hhead
            have hle := hordered.1 _ (List.mem_append_right _ List.mem_cons_self)
            have hpos : 0 < start.length := List.length_pos_iff.2 (Language.start_ne_nil hblock)
            simp only [Removal.ofBody, List.length_append] at hle
            omega
      · rw [hremovals]
        simp
      · rw [hremovals']
        simp

/-- Bodies that leave the same are interchangeable. -/
theorem interchangeable_of_leaves
    (hblock : .block start stop ∈ language.rules)
    (hsingle : language.dialect.single ≠ .charLiteral)
    (hbody : Pruning.IsBody stop body)
    (hbody' : Pruning.IsBody stop body')
    (hleaves : Veto.leaves language body = Veto.leaves language body') :
    Interchangeable language start stop body body' :=
  fun _ _ hbefore hbehind hfirst hkeeps =>
    (removesFirst_of_leaves hblock hsingle hbefore hbody hbody' hbehind hleaves hkeeps hfirst).2

/-- A text before and a text behind that tell two bodies apart. -/
def TellsApart
    (language : Language)
    (start stop body body' : Bytes)
    (probe : Bytes × Bytes) : Prop :=
  Pruning.RemovesFirst language probe.1 start body stop probe.2 ∧
    Pruning.RemovesFirst language probe.1 start body' stop probe.2 ∧
    Veto.keeps language (LineFacts.ofLine (probe.1 ++ start)) probe.1.length start = .ok false ∧
    process language .normal (probe.1 ++ start ++ body ++ stop ++ probe.2) ≠
      process language .normal (probe.1 ++ start ++ body' ++ stop ++ probe.2)

instance
    (language : Language) (start stop body body' : Bytes) (probe : Bytes × Bytes) :
    Decidable (TellsApart language start stop body body' probe) :=
  inferInstanceAs (Decidable (_ ∧ _ ∧ _ ∧ _))

/-- For each thing that a body can leave open one body that does. -/
def samples : Language → List Bytes
  | .c | .java | .swift | .dart | .javaScript | .typeScript | .go | .json | .verilog | .php =>
      [[], Bytes.ofString "\x7b", Bytes.ofString "if ("]
  | .css | .scss =>
      [[], Bytes.ofString "url(", Bytes.ofString "content:", Bytes.ofString "url(content:"]
  | .html | .markdown => [[], Bytes.ofString "<![CDATA["]
  | _ => [[]]

/-- Texts before and behind a comment that show what its body has left. -/
def probes : Language → List (Bytes × Bytes)
  | .c | .java | .swift | .dart | .javaScript | .typeScript | .go | .json | .verilog | .php =>
      [([], Bytes.ofString "//"), (Bytes.ofString "if (x) y;", Bytes.ofString "//")]
  | .css | .scss => [([], Bytes.ofString ";/*z*/"), ([], Bytes.ofString ")/*z*/")]
  | .html | .markdown => [([], Bytes.ofString "<!--z-->")]
  | _ => []

theorem isBody_of_mem_samples
    {sample : Bytes}
    (hblock : .block start stop ∈ language.rules)
    (hsample : sample ∈ samples language) :
    Pruning.IsBody stop sample := by
  have hall : language.rules.all (fun rule => (samples language).all fun sample =>
      rule.casesOn (fun _ => true) fun _ stop => Utf8.valid sample &&
        Bytes.find? stop (sample ++ stop) == some sample.length) = true := by
    cases language <;> decide +kernel
  have hboth := List.all_eq_true.1 (List.all_eq_true.1 hall _ hblock) sample hsample
  simp only [Bool.and_eq_true, beq_iff_eq] at hboth
  exact ⟨hboth.1, hboth.2⟩

/-- There is a sample for everything that a body can leave. -/
theorem exists_sample
    (language : Language) (body : Bytes) :
    ∃ sample ∈ samples language, Veto.leaves language sample = Veto.leaves language body := by
  have hheader : ∃ sample ∈ [[], Bytes.ofString "\x7b", Bytes.ofString "if ("],
      [Mark.header sample] = [Mark.header body] := by
    generalize Mark.header body = mark
    rcases mark with _ | left
    · exact ⟨_, List.mem_cons_self, by decide +kernel⟩
    · revert left
      decide +kernel
  cases language with
  | c | java | swift | dart | javaScript | typeScript | go | json | verilog | php =>
      exact hheader
  | css | scss =>
      simp only [samples, Veto.leaves]
      generalize Mark.unclosed "url(" ")" body = url
      generalize Mark.unclosed "content:" ";" body = content
      revert url content
      decide +kernel
  | html | markdown =>
      simp only [samples, Veto.leaves]
      generalize Mark.unclosed "<![CDATA[" "]]>" body = data
      revert data
      decide +kernel
  | _ =>
      exact ⟨[], List.mem_singleton_self _, rfl⟩

/-- Samples that leave different things can be told apart by a probe. -/
theorem tellsApart_samples
    (hblock : .block start stop ∈ language.rules) :
    ∀ sample ∈ samples language, ∀ sample' ∈ samples language,
      Veto.leaves language sample ≠ Veto.leaves language sample' →
        ∃ probe ∈ probes language, TellsApart language start stop sample sample' probe := by
  cases language with
  | c | java | swift | dart | javaScript | typeScript | go | json | verilog | php | css | scss =>
      obtain ⟨rfl, rfl⟩ : start = Bytes.ofString "/*" ∧ stop = Bytes.ofString "*/" := by
        simpa [Language.rules, Rule.ofBlock, Rule.ofLine] using hblock
      decide +kernel
  | html | markdown =>
      obtain ⟨rfl, rfl⟩ : start = Bytes.ofString "<!--" ∧ stop = Bytes.ofString "-->" := by
        simpa [Language.rules, Rule.ofBlock, Rule.ofLine] using hblock
      decide +kernel
  | _ =>
      intro sample hsample sample' hsample' hne
      exact absurd rfl hne

theorem valid_of_mem_probes :
    ∀ probe ∈ probes language, Utf8.valid probe.1 = true ∧ Utf8.valid probe.2 = true := by
  cases language <;> decide +kernel

/-- Bodies that are interchangeable leave the same. -/
theorem leaves_of_interchangeable
    (hblock : .block start stop ∈ language.rules)
    (hsingle : language.dialect.single ≠ .charLiteral)
    (hbody : Pruning.IsBody stop body)
    (hbody' : Pruning.IsBody stop body')
    (h : Interchangeable language start stop body body') :
    Veto.leaves language body = Veto.leaves language body' := by
  by_contra hne
  obtain ⟨sample, hmem, hsample⟩ := exists_sample language body
  obtain ⟨sample', hmem', hsample'⟩ := exists_sample language body'
  obtain ⟨⟨before, behind⟩, hprobe, hfirst, hfirst', hkeeps, hapart⟩ :=
    tellsApart_samples hblock sample hmem sample' hmem' (by rwa [hsample, hsample'])
  obtain ⟨hbefore, hbehind⟩ := valid_of_mem_probes _ hprobe
  have hnot (text : Bytes) : Veto.keeps language
      (LineFacts.ofLine (before ++ start ++ text ++ stop ++ behind)) before.length start =
        .ok false := by
    rw [List.append_assoc, List.append_assoc,
      Veto.keeps_start_append hblock (Veto.leaves_ne_nil hne) hbefore, hkeeps]
  obtain ⟨hbodyFirst, result, next, hleft, hright⟩ :=
    removesFirst_of_leaves hblock hsingle hbefore (isBody_of_mem_samples hblock hmem) hbody
      hbehind hsample (hnot body) hfirst
  obtain ⟨-, result', next', hleft', hright'⟩ :=
    removesFirst_of_leaves hblock hsingle hbefore (isBody_of_mem_samples hblock hmem') hbody'
      hbehind hsample' (hnot body') hfirst'
  obtain ⟨_, _, hboth, hboth'⟩ := h before behind hbefore hbehind hbodyFirst (hnot body')
  refine hapart ?_
  calc
    process language .normal (before ++ start ++ sample ++ stop ++ behind)
    _ = process language .normal (before ++ start ++ body ++ stop ++ behind) :=
      hleft.trans hright.symm
    _ = process language .normal (before ++ start ++ body' ++ stop ++ behind) :=
      hboth.trans hboth'.symm
    _ = process language .normal (before ++ start ++ sample' ++ stop ++ behind) :=
      hright'.trans hleft'.symm

/--
In a language without character literals two bodies of block comments are interchangeable
exactly if they leave the same open for the vetoes of the tokens behind the comment.
-/
theorem interchangeable_iff
    (hblock : .block start stop ∈ language.rules)
    (hsingle : language.dialect.single ≠ .charLiteral)
    (hbody : Pruning.IsBody stop body)
    (hbody' : Pruning.IsBody stop body') :
    Interchangeable language start stop body body' ↔
      Veto.leaves language body = Veto.leaves language body' :=
  ⟨leaves_of_interchangeable hblock hsingle hbody hbody',
    interchangeable_of_leaves hblock hsingle hbody hbody'⟩

/-- An example of `interchangeable_iff`: in C it matters if a body ends with an open header. -/
theorem interchangeable_iff_c :
    Interchangeable .c (Bytes.ofString "/*") (Bytes.ofString "*/") (Bytes.ofString " a ")
        (Bytes.ofString " \" ") ∧
      ¬ Interchangeable .c (Bytes.ofString "/*") (Bytes.ofString "*/") (Bytes.ofString " a ")
        (Bytes.ofString " if ( ") := by
  have hblock : .block (Bytes.ofString "/*") (Bytes.ofString "*/") ∈ Language.c.rules := by
    decide
  have hbody : Pruning.IsBody (Bytes.ofString "*/") (Bytes.ofString " a ") :=
    ⟨by decide +kernel, by decide +kernel⟩
  have hquote : Pruning.IsBody (Bytes.ofString "*/") (Bytes.ofString " \" ") :=
    ⟨by decide +kernel, by decide +kernel⟩
  have hheader : Pruning.IsBody (Bytes.ofString "*/") (Bytes.ofString " if ( ") :=
    ⟨by decide +kernel, by decide +kernel⟩
  exact ⟨(interchangeable_iff hblock (by decide) hbody hquote).2 (by decide +kernel),
    mt (interchangeable_iff hblock (by decide) hbody hheader).1 (by decide +kernel)⟩

end Line
end Uncomment

import Uncomment.Proofs.Veto.Front

/-!
# Vetoes behind a comment

In a language with block comments and without character literals the veto of a token
depends on the text from the token on and on a few facts about the text before it
(`Veto.sees`, `Veto.keeps_of_sees`).  If that text has a comment, all that its body adds
to these facts is what it leaves open (`Veto.leaves`, `Veto.sees_behind`).  In most of
these languages a body leaves nothing; in the C family, PHP, style sheets and markup it may.
-/

namespace Uncomment

/-- Behind an offset two texts are cut alike where they go on alike. -/
theorem Utf8.startingAt_congr
    {text text' : Bytes} {offset offset' : Nat}
    (hpos : 0 < offset)
    (hpos' : 0 < offset')
    (hlast : text.drop (offset - 1) = text'.drop (offset' - 1)) :
    startingAt text offset = startingAt text' offset' := by
  obtain ⟨offset, rfl⟩ := Nat.exists_eq_add_of_lt hpos
  obtain ⟨offset', rfl⟩ := Nat.exists_eq_add_of_lt hpos'
  rw [Nat.zero_add, Nat.add_sub_cancel, Nat.zero_add, Nat.add_sub_cancel] at hlast
  rw [Nat.zero_add, Nat.zero_add, startingAt, startingAt, hlast]

/-- A text is a suffix of another if it is one of a part at the end that is long enough. -/
theorem Bytes.isSuffixOf_append
    {needle back : Bytes}
    (hle : needle.length ≤ back.length)
    (front : Bytes) :
    needle.isSuffixOf (front ++ back) = needle.isSuffixOf back := by
  rw [Bool.eq_iff_iff, List.isSuffixOf_iff_suffix, List.isSuffixOf_iff_suffix]
  exact ⟨fun h => List.suffix_of_suffix_length_le h (List.suffix_append _ _) hle,
    fun h => h.trans (List.suffix_append _ _)⟩

/-- A text whose last byte does not occur in the second part of a text ends in the first. -/
theorem Bytes.occurrences_append_of_last
    {needle back : Bytes} {c : UInt8}
    (hlast : needle.getLast? = some c)
    (hc : c ∉ back)
    (front : Bytes) :
    occurrences needle (front ++ back) = occurrences needle front := by
  have hne : needle ≠ [] := by
    rintro rfl
    cases hlast
  obtain ⟨more, heq, hmore⟩ := occurrences_append hne front back
  suffices hnil : more = [] by rw [heq, hnil, List.append_nil]
  refine List.eq_nil_iff_forall_not_mem.2 fun start hstart => hc ?_
  have hmem : start ∈ occurrences needle (front ++ back) := by
    rw [heq]
    exact List.mem_append_right _ hstart
  obtain ⟨later, hlater⟩ := isPrefix_of_mem_occurrencesFrom hmem
  obtain ⟨most, rfl⟩ := List.getLast?_eq_some_iff.1 hlast
  have hlong := hmore start hstart
  rw [List.length_append, List.length_singleton] at hlong
  have hdrop : (front ++ back).drop (start + most.length) = c :: later := by
    rw [← List.drop_drop, ← Nat.sub_zero start, ← hlater, List.append_assoc, List.drop_left]
    rfl
  rw [List.drop_append, List.drop_eq_nil_of_le (by omega), List.nil_append] at hdrop
  have hin : c ∈ back.drop (start + most.length - front.length) := by
    rw [hdrop]
    exact List.mem_cons_self
  exact List.mem_of_mem_drop hin

/-- Whether a text leaves something open that it opens itself. -/
def Mark.unclosed (opener closer : String) (text : Bytes) : Bool :=
  (Mark.pair (Bytes.ofString opener) (Bytes.ofString closer) text).getD false

namespace Veto

/-- What the vetoes ask about the text before a token. -/
def sees (language : Language) (text : Bytes) : List Bool :=
  match language with
  | .c | .java | .swift | .dart | .javaScript | .typeScript | .go | .json | .verilog =>
      [headerLeft text]
  | .php => [headerLeft text, Blank.isAllWhite text]
  | .css | .scss => [Mark.unclosed "url(" ")" text, Mark.unclosed "content:" ";" text]
  | .html | .markdown => [Mark.unclosed "<![CDATA[" "]]>" text]
  | _ => []

/-- What the body of a comment leaves open for the tokens behind the comment. -/
def leaves (language : Language) (body : Bytes) : List Mark :=
  match language with
  | .c | .java | .swift | .dart | .javaScript | .typeScript | .go | .json | .verilog | .php =>
      [Mark.header body]
  | .css | .scss =>
      [some (Mark.unclosed "url(" ")" body), some (Mark.unclosed "content:" ";" body)]
  | .html | .markdown => [some (Mark.unclosed "<![CDATA[" "]]>" body)]
  | _ => []

/-- In a language in which two bodies leave different things no body leaves nothing. -/
theorem leaves_ne_nil
    {language : Language} {body body' : Bytes}
    (hne : leaves language body ≠ leaves language body') :
    leaves language body ≠ [] := by
  cases language with
  | c | java | swift | dart | javaScript | typeScript | go | json | verilog | php | css | scss
  | html | markdown =>
      exact List.cons_ne_nil _ _
  | _ =>
      exact absurd rfl hne

section

variable {language : Language} {line line' token : Bytes} {offset offset' : Nat}

theorem Site.nextByte_congr
    (hne : token ≠ [])
    (hrest : line.drop offset = line'.drop offset') :
    (Site.mk (LineFacts.ofLine line) offset token).nextByte =
      (Site.mk (LineFacts.ofLine line') offset' token).nextByte := by
  have hpos := List.length_pos_iff.2 hne
  have hafter : (Site.mk (LineFacts.ofLine line) offset token).after =
      (Site.mk (LineFacts.ofLine line') offset' token).after := by
    refine Utf8.startingAt_congr (by dsimp only; omega) (by dsimp only; omega) ?_
    have hdrop := congrArg (List.drop (token.length - 1)) hrest
    rw [List.drop_drop, List.drop_drop] at hdrop
    dsimp only
    rw [Nat.add_sub_assoc hpos, Nat.add_sub_assoc hpos]
    exact hdrop
  rw [Site.nextByte, Site.nextByte, hafter]

theorem followedBy_congr
    {mark : String} {accepts : UInt8 → Bool}
    (hne : token ≠ [])
    (hrest : line.drop offset = line'.drop offset') :
    followedBy mark accepts ⟨LineFacts.ofLine line, offset, token⟩ =
      followedBy mark accepts ⟨LineFacts.ofLine line', offset', token⟩ := by
  rw [followedBy, followedBy, Site.nextByte_congr hne hrest]
  rfl

theorem cFamily_congr
    (hpre : token <+: line.drop offset)
    (hrest : line.drop offset = line'.drop offset')
    (hvalid : Utf8.valid (line.take offset) = true)
    (hvalid' : Utf8.valid (line'.take offset') = true)
    (hsees : headerLeft (line.take offset) = headerLeft (line'.take offset')) :
    cFamily false ⟨LineFacts.ofLine line, offset, token⟩ =
      cFamily false ⟨LineFacts.ofLine line', offset', token⟩ := by
  by_cases htoken : token = Bytes.ofString "//" ∨ token = Bytes.ofString "/*"
  · rw [cFamily_eq hpre htoken hvalid, cFamily_eq (hrest ▸ hpre) htoken hvalid', hsees]
  · rw [cFamily_of_ne htoken, cFamily_of_ne htoken]

theorem phpHash_congr
    (hne : token ≠ [])
    (hclean : Utf8.startsClean token = true)
    (hpre : token <+: line.drop offset)
    (hrest : line.drop offset = line'.drop offset')
    (hsees : Blank.isAllWhite (line.take offset) = Blank.isAllWhite (line'.take offset')) :
    phpHash ⟨LineFacts.ofLine line, offset, token⟩ =
      phpHash ⟨LineFacts.ofLine line', offset', token⟩ := by
  rw [phpHash, phpHash, Site.isLeading, Site.isLeading, Site.before_eq hne hclean hpre,
    Site.before_eq hne hclean (hrest ▸ hpre), Site.nextByte_congr hne hrest]
  simp only [bind, Except.bind, pure, Except.pure, hsees]
  rfl

/-- What a text before an offset leaves unclosed. -/
theorem unclosedBefore_eq
    {opener closer : String}
    (hopener : Bytes.ofString opener ≠ [])
    (hcloser : Bytes.ofString closer ≠ [])
    (hle : offset ≤ line.length) :
    (LineFacts.ofLine line).unclosedBefore (Bytes.ofString opener) (Bytes.ofString closer) offset =
      Mark.unclosed opener closer (line.take offset) :=
  LineFacts.unclosedBefore_eq_mark hopener hcloser hle

/-- The veto of style sheets goes by what is unclosed before the token. -/
theorem css_eq
    (hle : offset ≤ line.length) :
    css ⟨LineFacts.ofLine line, offset, token⟩ =
      (Mark.unclosed "url(" ")" (line.take offset) ||
        Mark.unclosed "content:" ";" (line.take offset)) := by
  rw [css, ← unclosedBefore_eq (by decide) (by decide) hle,
    ← unclosedBefore_eq (by decide) (by decide) hle]

/--
In a language with block comments and without character literals two tokens are kept
alike if the lines go on alike from them and the vetoes see the same before them.
-/
theorem keeps_of_sees
    {rule : Rule}
    (hblock : ∃ block ∈ language.rules, block.isLine = false)
    (hsingle : language.dialect.single ≠ .charLiteral)
    (hrule : rule ∈ language.rules)
    (hpos : 0 < offset)
    (hpos' : 0 < offset')
    (hpre : rule.start <+: line.drop offset)
    (hrest : line.drop offset = line'.drop offset')
    (hvalid : Utf8.valid (line.take offset) = true)
    (hvalid' : Utf8.valid (line'.take offset') = true)
    (hsees : sees language (line.take offset) = sees language (line'.take offset')) :
    keeps language (LineFacts.ofLine line) offset rule.start =
      keeps language (LineFacts.ofLine line') offset' rule.start := by
  have hne := Language.start_ne_nil hrule
  have hclean := startsClean_of_mem_rules hrule
  have hle := Site.le_of_isPrefix_drop hne hpre
  have hle' := Site.le_of_isPrefix_drop hne (hrest ▸ hpre)
  have hfamily : family language ⟨LineFacts.ofLine line, offset, rule.start⟩ =
      family language ⟨LineFacts.ofLine line', offset', rule.start⟩ := by
    cases language with
    | rust | haskell | ocaml | fsharp => exact absurd rfl hsingle
    | python | ruby | shell | perl | r | tcl | batch | hash | toml | yaml | ada | vhdl | latex
    | erlang | assembly | fortran | fortranFree | lisp | cobol | rst | unknown =>
        exact absurd hblock (by decide)
    | powerShell | julia | hcl | sql | lua | matlab | prolog => rfl
    | c | java | swift | dart | javaScript | typeScript | go | json | verilog =>
        exact cFamily_congr hpre hrest hvalid hvalid' (List.cons_eq_cons.1 hsees).1
    | php =>
        obtain ⟨hheader, hwhite⟩ := List.cons_eq_cons.1 hsees
        rw [family, family, cFamily_congr hpre hrest hvalid hvalid' hheader,
          phpHash_congr hne hclean hpre hrest (List.cons_eq_cons.1 hwhite).1]
    | css | scss =>
        obtain ⟨hurl, hcontent⟩ := List.cons_eq_cons.1 hsees
        rw [family, family, css_eq (by omega), css_eq (by omega), hurl,
          (List.cons_eq_cons.1 hcontent).1]
    | html | markdown =>
        simp only [family]
        rw [unclosedBefore_eq (by decide) (by decide) (by omega),
          unclosedBefore_eq (by decide) (by decide) (by omega), (List.cons_eq_cons.1 hsees).1]
        rfl
    | pascal | coffeeScript => exact followedBy_congr hne hrest
  have hshebang {text : Bytes} {low : Nat} (hlow : 0 < low) :
      (Site.mk (LineFacts.ofLine text) low rule.start).isShebang = false := by
    rw [Site.isShebang, beq_false_of_ne (Nat.ne_of_gt hlow), Bool.false_and]
  rw [keeps, keeps, hfamily, hshebang hpos, hshebang hpos']
  simp only [Bool.and_false, Bool.false_and]

end

variable {language : Language} {before body body' behind : Bytes}

/-- Where a text has a comment of the C family. -/
theorem slashed_eq
    (before body behind : Bytes) :
    before ++ Bytes.ofString "/*" ++ body ++ Bytes.ofString "*/" ++ behind =
      (before ++ [Byte.slash]) ++ 0x2A :: (body ++ 0x2A :: (Byte.slash :: behind)) := by
  have hstart : Bytes.ofString "/*" = [Byte.slash, 0x2A] := by decide
  have hstop : Bytes.ofString "*/" = [0x2A, Byte.slash] := by decide
  simp [hstart, hstop]

/-- Behind a comment of the C family only the mark of its body counts. -/
theorem headerLeft_slashed
    (hbefore : Utf8.valid before = true)
    (hbody : Utf8.valid body = true)
    (hbody' : Utf8.valid body' = true)
    (hmark : Mark.header body = Mark.header body') :
    headerLeft (before ++ Bytes.ofString "/*" ++ body ++ Bytes.ofString "*/" ++ behind) =
      headerLeft (before ++ Bytes.ofString "/*" ++ body' ++ Bytes.ofString "*/" ++ behind) := by
  have hvalid : Utf8.valid (before ++ [Byte.slash]) = true :=
    (Utf8.valid_append_cons (by decide)).2 ⟨hbefore, rfl⟩
  have hheader {text : Bytes} (htext : Utf8.valid text = true) :
      Mark.header ((before ++ [Byte.slash]) ++ 0x2A :: (text ++ 0x2A :: (Byte.slash :: behind))) =
        ((Mark.header (Byte.slash :: behind)).or (Mark.header text)).or
          (Mark.header (before ++ [Byte.slash])) := by
    rw [Mark.header_append_cons (by decide) (by decide) hvalid,
      Mark.header_append_cons (by decide) (by decide) htext]
  -- The slash of the stop token ends the search for a semicolon.
  have hsemicolon (text : Bytes) :
      (Bytes.ofString ";").isSuffixOf (Blank.trimEnd
        ((before ++ [Byte.slash]) ++ 0x2A :: (text ++ 0x2A :: (Byte.slash :: behind)))) =
        (Bytes.ofString ";").isSuffixOf (Byte.slash :: Blank.trimEnd behind) := by
    have hsplit : (before ++ [Byte.slash]) ++ 0x2A :: (text ++ 0x2A :: (Byte.slash :: behind)) =
        ((before ++ [Byte.slash]) ++ 0x2A :: (text ++ [0x2A])) ++ Byte.slash :: behind := by
      simp
    rw [hsplit, Blank.trimEnd_append_cons (by decide),
      Bytes.isSuffixOf_append (Nat.le_add_left 1 _)]
  rw [slashed_eq, slashed_eq, headerLeft, headerLeft, hheader hbody, hheader hbody', hsemicolon,
    hsemicolon, hmark]

/-- Behind a comment at which nothing is unclosed only what its body leaves unclosed counts. -/
theorem unclosed_behind
    {opener closer : String} {c d e f : UInt8} {first : Bytes}
    (hopener : (Bytes.ofString opener).getLast? = some e)
    (hcloser : (Bytes.ofString closer).getLast? = some f)
    (hfirst : e ∉ first ∧ f ∉ first)
    (hc : c ∉ Bytes.ofString opener ++ Bytes.ofString closer)
    (hd : d ∉ Bytes.ofString opener ++ Bytes.ofString closer)
    (hbefore : Mark.unclosed opener closer before = false)
    (hbody : Mark.unclosed opener closer body = Mark.unclosed opener closer body') :
    Mark.unclosed opener closer (before ++ first ++ c :: (body ++ d :: behind)) =
      Mark.unclosed opener closer (before ++ first ++ c :: (body' ++ d :: behind)) := by
  have hfirst : Mark.pair (Bytes.ofString opener) (Bytes.ofString closer) (before ++ first) =
      Mark.pair (Bytes.ofString opener) (Bytes.ofString closer) before := by
    rw [Mark.pair, Mark.pair, Bytes.occurrences_append_of_last hopener hfirst.1,
      Bytes.occurrences_append_of_last hcloser hfirst.2]
  have hne {needle : Bytes} {b : UInt8} (hlast : needle.getLast? = some b) : needle ≠ [] := by
    rintro rfl
    cases hlast
  have heach (text : Bytes) :
      Mark.unclosed opener closer (before ++ first ++ c :: (text ++ d :: behind)) =
        (Mark.pair (Bytes.ofString opener) (Bytes.ofString closer) behind).getD
          (Mark.unclosed opener closer text) := by
    rw [Mark.unclosed, Mark.pair_append_cons (hne hopener) (hne hcloser) hc,
      Mark.pair_append_cons (hne hopener) (hne hcloser) hd, hfirst]
    unfold Mark.unclosed at hbefore ⊢
    cases Mark.pair (Bytes.ofString opener) (Bytes.ofString closer) behind with
    | some left => rfl
    | none =>
        cases Mark.pair (Bytes.ofString opener) (Bytes.ofString closer) text with
        | some left => rfl
        | none => exact hbefore
  rw [heach, heach, hbody]

theorem isAllWhite_slashed
    (before body behind : Bytes) :
    Blank.isAllWhite (before ++ Bytes.ofString "/*" ++ body ++ Bytes.ofString "*/" ++ behind) =
      false := by
  rw [slashed_eq]
  refine Bool.eq_false_iff.2 fun hwhite => ?_
  have hink := Blank.isInk_of_isAllWhite hwhite 0x2A (by simp)
  exact absurd hink (by decide)

/--
Where a body can leave something, whether the start token of a block comment is kept does
not depend on what is behind it.
-/
theorem keeps_start_append
    {start stop : Bytes}
    (hblock : .block start stop ∈ language.rules)
    (hlanguage : leaves language body ≠ [])
    (hbefore : Utf8.valid before = true)
    (back : Bytes) :
    keeps language (LineFacts.ofLine (before ++ start ++ back)) before.length start =
      keeps language (LineFacts.ofLine (before ++ start)) before.length start := by
  have hpre : start <+: (before ++ start).drop before.length := by
    simp
  have htake : (before ++ start).take before.length = before := List.take_left
  have hle : before.length ≤ (before ++ start).length := by
    rw [List.length_append]
    exact Nat.le_add_right _ _
  have hne : start ≠ [] := Language.start_ne_nil hblock
  rw [← htake] at hbefore
  cases language with
  | c | java | swift | dart | javaScript | typeScript | go | json | verilog =>
      rw [keeps_eq_family rfl, keeps_eq_family rfl]
      exact cFamily_append hne hpre hbefore
  | php =>
      obtain ⟨rfl, rfl⟩ : start = Bytes.ofString "/*" ∧ stop = Bytes.ofString "*/" := by
        simpa [Language.rules, Rule.ofBlock, Rule.ofLine] using hblock
      have hother (facts : LineFacts) : keeps .php facts before.length (Bytes.ofString "/*") = (do
          if ← cFamily false ⟨facts, before.length, Bytes.ofString "/*"⟩ then return true
          return false) := rfl
      rw [hother, hother, cFamily_append hne hpre hbefore]
  | css | scss =>
      rw [keeps_eq_family rfl, keeps_eq_family rfl]
      exact congrArg Except.ok (css_append hle)
  | html | markdown =>
      rw [keeps_eq_family rfl, keeps_eq_family rfl]
      simp only [family]
      rw [LineFacts.unclosedBefore_append (by decide) (by decide) (before ++ start) back hle]
      rfl
  | _ => exact absurd rfl hlanguage

/-- What the vetoes see behind a comment depends on its body by what that leaves open. -/
theorem sees_behind
    {start stop back : Bytes}
    (hrule : .block start stop ∈ language.rules)
    (hsingle : language.dialect.single ≠ .charLiteral)
    (hbefore : Utf8.valid before = true)
    (hbody : Utf8.valid body = true)
    (hbody' : Utf8.valid body' = true)
    (hkeeps : keeps language (LineFacts.ofLine (before ++ start ++ back)) before.length start =
      .ok false)
    (hleaves : leaves language body = leaves language body') :
    sees language (before ++ start ++ body ++ stop ++ behind) =
      sees language (before ++ start ++ body' ++ stop ++ behind) := by
  have htake : (before ++ start ++ back).take before.length = before := by
    rw [List.append_assoc, List.take_left]
  cases language with
  | rust | haskell | ocaml | fsharp => exact absurd rfl hsingle
  | python | ruby | shell | perl | r | tcl | batch | hash | toml | yaml | ada | vhdl | latex
  | erlang | assembly | fortran | fortranFree | lisp | cobol | rst | unknown | powerShell | julia
  | hcl | sql | lua | matlab | prolog | pascal | coffeeScript => rfl
  | c | java | swift | dart | javaScript | typeScript | go | json | verilog =>
      obtain ⟨rfl, rfl⟩ : start = Bytes.ofString "/*" ∧ stop = Bytes.ofString "*/" := by
        simpa [Language.rules, Rule.ofBlock, Rule.ofLine] using hrule
      exact congrArg (fun left => [left])
        (headerLeft_slashed hbefore hbody hbody' (List.cons_eq_cons.1 hleaves).1)
  | php =>
      obtain ⟨rfl, rfl⟩ : start = Bytes.ofString "/*" ∧ stop = Bytes.ofString "*/" := by
        simpa [Language.rules, Rule.ofBlock, Rule.ofLine] using hrule
      rw [sees, sees, isAllWhite_slashed, isAllWhite_slashed,
        headerLeft_slashed hbefore hbody hbody' (List.cons_eq_cons.1 hleaves).1]
  | css | scss =>
      obtain ⟨rfl, rfl⟩ : start = Bytes.ofString "/*" ∧ stop = Bytes.ofString "*/" := by
        simpa [Language.rules, Rule.ofBlock, Rule.ofLine] using hrule
      rw [keeps_eq_family rfl, family, css_eq (by simp), htake, Except.ok.injEq,
        Bool.or_eq_false_iff] at hkeeps
      obtain ⟨hurl, hcontent⟩ := List.cons_eq_cons.1 hleaves
      rw [sees, sees, slashed_eq, slashed_eq,
        unclosed_behind rfl rfl (by decide) (by decide) (by decide) hkeeps.1
          (Option.some.inj hurl),
        unclosed_behind rfl rfl (by decide) (by decide) (by decide) hkeeps.2
          (Option.some.inj (List.cons_eq_cons.1 hcontent).1)]
  | html | markdown =>
      obtain ⟨rfl, rfl⟩ : start = Bytes.ofString "<!--" ∧ stop = Bytes.ofString "-->" := by
        simpa [Language.rules, Rule.ofBlock, Rule.ofLine] using hrule
      have hnot : Mark.unclosed "<![CDATA[" "]]>" before = false := by
        rw [keeps_eq_family rfl] at hkeeps
        simp only [family] at hkeeps
        rw [unclosedBefore_eq (by decide) (by decide) (by simp), htake] at hkeeps
        exact Except.ok.inj hkeeps
      have hsplit (text : Bytes) :
          before ++ Bytes.ofString "<!--" ++ text ++ Bytes.ofString "-->" ++ behind =
            before ++ Bytes.ofString "<!-" ++
              0x2D :: (text ++ 0x2D :: (Bytes.ofString "->" ++ behind)) := by
        have hstart : Bytes.ofString "<!--" = Bytes.ofString "<!-" ++ [0x2D] := by decide
        have hstop : Bytes.ofString "-->" = 0x2D :: Bytes.ofString "->" := by decide
        simp [hstart, hstop]
      rw [sees, sees, hsplit, hsplit,
        unclosed_behind rfl rfl (by decide) (by decide) (by decide) hnot
          (Option.some.inj (List.cons_eq_cons.1 hleaves).1)]

end Veto
end Uncomment

import Uncomment.Proofs.Veto.Mark

/-!
# Vetoes look at what surrounds a token

Outside YAML and Rust the vetoes of a token look at the text before the token, and behind
it no further than to the end of the word that may come there.  So what a line has behind
that does not count (`Veto.keeps_append`).
-/

namespace Uncomment

/-- Where a text is cut before its end, more text comes with the second part. -/
theorem Utf8.startingAt_append
    {front : Bytes} {offset : Nat}
    (back : Bytes)
    (hlt : offset < front.length) :
    startingAt (front ++ back) offset = (startingAt front offset).map (· ++ back) := by
  cases offset with
  | zero =>
      rfl
  | succ offset =>
      rw [startingAt, startingAt, List.drop_append_of_le_length (by omega)]
      cases hdrop : front.drop offset with
      | nil =>
          have hle := List.drop_eq_nil_iff.1 hdrop
          omega
      | cons b rest =>
          cases rest with
          | nil =>
              have hlen := congrArg List.length hdrop
              rw [List.length_drop, List.length_singleton] at hlen
              omega
          | cons c more =>
              cases hclean : isContinuation c <;> simp [startsClean, hclean, Except.map]

namespace Veto

variable {language : Language} {front back line : Bytes} {offset : Nat} {token : Bytes}

theorem Site.nextByte_append
    (hlt : offset + token.length < front.length) :
    (Site.mk (LineFacts.ofLine (front ++ back)) offset token).nextByte =
      (Site.mk (LineFacts.ofLine front) offset token).nextByte := by
  have hafter : (Site.mk (LineFacts.ofLine (front ++ back)) offset token).after =
      ((Site.mk (LineFacts.ofLine front) offset token).after).map (· ++ back) :=
    Utf8.startingAt_append back hlt
  rw [Site.nextByte, Site.nextByte, hafter]
  cases htext : (Site.mk (LineFacts.ofLine front) offset token).after with
  | error fault =>
      rfl
  | ok text =>
      obtain ⟨-, rfl⟩ := (Utf8.startingAt_eq_ok_iff _ _ _).1 htext
      have hne : front.drop (offset + token.length) ≠ [] := by
        rw [Ne, List.drop_eq_nil_iff]
        omega
      exact congrArg Except.ok (List.head?_append_of_ne_nil _ hne)

/-- A word that ends in the front part of a text is a colour there or nowhere. -/
theorem isHexColour_append
    {text : Bytes}
    (hstop : ∃ b ∈ text, Byte.isAlphanumeric b = false)
    (back : Bytes) :
    isHexColour (text ++ back) = isHexColour text := by
  obtain ⟨b, hb, hnot⟩ := hstop
  have hdigit : Byte.isHexDigit b = false := by
    by_contra hdigit
    rw [isAlphanumeric_of_isHexDigit (Bool.not_eq_false _ ▸ hdigit)] at hnot
    cases hnot
  have hall {other : Bytes} (hin : b ∈ other) : other.all Byte.isHexDigit = false :=
    List.all_eq_false.2 ⟨b, hin, by rw [hdigit]; decide⟩
  have hsame (count : Nat) : startsHex (text ++ back) count = startsHex text count := by
    rcases Nat.lt_or_ge count text.length with hlt | hge
    · have hne : text.drop count ≠ [] := by
        rw [Ne, List.drop_eq_nil_iff]
        omega
      rw [startsHex, startsHex, List.take_append_of_le_length (by omega),
        List.drop_append_of_le_length (by omega), List.head?_append_of_ne_nil _ hne]
    · have hboth : b ∈ (text ++ back).take count := by
        rw [List.take_append, List.take_of_length_le hge]
        exact List.mem_append_left _ hb
      rw [startsHex, startsHex, hall hboth, List.take_of_length_le hge, hall hb]
      simp
  rw [isHexColour, isHexColour, hsame, hsame]

/-- Whether a text ends behind the header of a control statement whose body has not begun. -/
def headerLeft (text : Bytes) : Bool :=
  (Mark.header text).getD false && !(Bytes.ofString ";").isSuffixOf (Blank.trimEnd text)

/-- The last header that ends before a sign is the last one of the text before it. -/
theorem lastHit?_headers
    {c : UInt8}
    (hget : (line)[offset]? = some c)
    (hc : Pattern.IsSign c)
    (hvalid : Utf8.valid (line.take offset) = true) :
    LineFacts.lastHit? (LineFacts.ofLine line).headers offset =
      (Pattern.headers (line.take offset)).getLast? := by
  obtain ⟨hlt, rfl⟩ := List.getElem?_eq_some_iff.1 hget
  have hlen : (line.take offset).length = offset := by
    rw [List.length_take]
    omega
  have hheaders : (LineFacts.ofLine line).headers = Pattern.headers (line.take offset) ++
      (Pattern.headers (line.drop (offset + 1))).map (.shift (offset + 1)) := by
    have hsplit := Pattern.headers_append_cons hc hvalid (line.drop (offset + 1))
    rwa [← List.drop_eq_getElem_cons hlt, List.take_append_drop, hlen] at hsplit
  have hbefore : (Pattern.headers (line.take offset)).filter (·.stop ≤ offset) =
      Pattern.headers (line.take offset) := by
    refine List.filter_eq_self.2 fun hit hhit => decide_eq_true ?_
    have hle := Mark.stop_le_of_mem_headers hhit
    omega
  have hbehind : ((Pattern.headers (line.drop (offset + 1))).map (Hit.shift (offset + 1))).filter
      (fun hit => hit.stop ≤ offset) = [] := by
    refine List.filter_eq_nil_iff.2 fun hit hhit => ?_
    obtain ⟨inner, -, rfl⟩ := List.mem_map.1 hhit
    have hbehind : offset < (inner.shift (offset + 1)).stop := by
      rw [Hit.shift]
      dsimp only
      omega
    simpa using hbehind
  rw [LineFacts.lastHit?, hheaders, List.filter_append, hbefore, hbehind, List.append_nil]

/-- The veto of an open header looks at the text before the token. -/
theorem headerOpen_eq
    {c : UInt8} {more : Bytes}
    (hc : Pattern.IsSign c)
    (hpre : c :: more <+: line.drop offset)
    (hvalid : Utf8.valid (line.take offset) = true) :
    headerOpen ⟨LineFacts.ofLine line, offset, c :: more⟩ =
      .ok (headerLeft (line.take offset)) := by
  have hclean : Utf8.startsClean (c :: more) = true := by
    have hascii := Blank.lt_of_isInk hc.1
    rw [Utf8.startsClean, Utf8.isContinuation, decide_eq_false (UInt8.not_le.2 hascii)]
    rfl
  have hget : (line)[offset]? = some c := by
    obtain ⟨rest, hrest⟩ := hpre
    rw [← List.head?_drop, ← hrest]
    rfl
  have hle := Site.le_of_isPrefix_drop (List.cons_ne_nil c more) hpre
  have hlen : (line.take offset).length = offset := by
    rw [List.length_take]
    omega
  have hbefore := Site.before_eq (List.cons_ne_nil c more) hclean hpre
  have hseen (low : Nat) : (LineFacts.ofLine line).seenBetween [Byte.openBrace] low offset =
      (Bytes.occurrences [Byte.openBrace] (line.take offset)).any (low ≤ ·) := by
    have hcut := @LineFacts.seenBetween_append [Byte.openBrace] offset (List.cons_ne_nil _ _)
      (line.take offset) (line.drop offset) low (by omega)
    have hall := @LineFacts.seenBetween_length (line.take offset) [Byte.openBrace] low
    rw [List.take_append_drop] at hcut
    rw [hlen] at hall
    rw [hcut, hall]
  have hbrace : Bytes.ofString "\x7b" = [Byte.openBrace] := rfl
  rw [headerOpen]
  dsimp only
  rw [lastHit?_headers hget hc hvalid, headerLeft, Mark.header, Mark.ofHits, hbefore, hbrace]
  cases (Pattern.headers (line.take offset)).getLast? with
  | none =>
      dsimp only
      split <;> rfl
  | some hit =>
      dsimp only
      rw [hseen]
      cases (Bytes.occurrences [Byte.openBrace] (line.take offset)).any (hit.stop ≤ ·) <;> rfl

/-- The veto of the C family looks at the text before the token. -/
theorem cFamily_eq
    (hpre : token <+: line.drop offset)
    (htoken : token = Bytes.ofString "//" ∨ token = Bytes.ofString "/*")
    (hvalid : Utf8.valid (line.take offset) = true) :
    cFamily false ⟨LineFacts.ofLine line, offset, token⟩ =
      .ok (headerLeft (line.take offset)) := by
  rw [cFamily_eq_headerOpen htoken]
  rcases htoken with rfl | rfl
  · exact headerOpen_eq (by decide) hpre hvalid
  · exact headerOpen_eq (by decide) hpre hvalid

theorem cFamily_of_ne
    {facts : LineFacts}
    (htoken : ¬ (token = Bytes.ofString "//" ∨ token = Bytes.ofString "/*")) :
    cFamily false ⟨facts, offset, token⟩ = .ok false := by
  rw [not_or] at htoken
  have hat : (!(Site.mk facts offset token).isAt "//" &&
      !(Site.mk facts offset token).isAt "/*") = true := by
    simp only [Site.isAt, Bool.and_eq_true, Bool.not_eq_true', beq_eq_false_iff_ne]
    exact htoken
  rw [cFamily, hat]
  rfl

theorem cFamily_append
    (hne : token ≠ [])
    (hpre : token <+: front.drop offset)
    (hvalid : Utf8.valid (front.take offset) = true) :
    cFamily false ⟨LineFacts.ofLine (front ++ back), offset, token⟩ =
      cFamily false ⟨LineFacts.ofLine front, offset, token⟩ := by
  have hle := Site.le_of_isPrefix_drop hne hpre
  by_cases htoken : token = Bytes.ofString "//" ∨ token = Bytes.ofString "/*"
  · have htake : (front ++ back).take offset = front.take offset :=
      List.take_append_of_le_length (by omega)
    have hboth : token <+: (front ++ back).drop offset := by
      rw [List.drop_append_of_le_length (by omega)]
      exact hpre.trans (List.prefix_append _ _)
    rw [cFamily_eq hpre htoken hvalid, cFamily_eq hboth htoken (by rwa [htake]), htake]
  · rw [cFamily_of_ne htoken, cFamily_of_ne htoken]

theorem phpHash_append
    (hclean : Utf8.startsClean token = true)
    (hne : token ≠ [])
    (hpre : token <+: front.drop offset)
    (hlt : offset + token.length < front.length) :
    phpHash ⟨LineFacts.ofLine (front ++ back), offset, token⟩ =
      phpHash ⟨LineFacts.ofLine front, offset, token⟩ := by
  rw [phpHash, phpHash, Site.isLeading, Site.isLeading, Site.before_append hne hclean hpre,
    Site.nextByte_append hlt]
  rfl

theorem css_append
    (hle : offset ≤ front.length) :
    css ⟨LineFacts.ofLine (front ++ back), offset, token⟩ =
      css ⟨LineFacts.ofLine front, offset, token⟩ := by
  simp only [css]
  rw [LineFacts.unclosedBefore_append (by decide) (by decide) front back hle,
    LineFacts.unclosedBefore_append (by decide) (by decide) front back hle]

/-- A part of a text that has a byte begins before the end. -/
theorem lt_of_stop
    {start : Nat}
    (hstop : ∃ b ∈ front.drop start, Byte.isAlphanumeric b = false) :
    start < front.length := by
  obtain ⟨b, hb, -⟩ := hstop
  have hpos := List.length_pos_of_mem hb
  rw [List.length_drop] at hpos
  omega

/-- What is kept in shell scripts does not depend on what is behind a word. -/
theorem shell_append
    (hstop : ∃ b ∈ front.drop (offset + token.length), Byte.isAlphanumeric b = false) :
    shell ⟨LineFacts.ofLine (front ++ back), offset, token⟩ =
      shell ⟨LineFacts.ofLine front, offset, token⟩ := by
  have hlt := lt_of_stop hstop
  have hat : (Site.mk (LineFacts.ofLine (front ++ back)) offset token).isAt "#" =
      (Site.mk (LineFacts.ofLine front) offset token).isAt "#" := rfl
  have hafter : (Site.mk (LineFacts.ofLine (front ++ back)) offset token).after =
      ((Site.mk (LineFacts.ofLine front) offset token).after).map (· ++ back) :=
    Utf8.startingAt_append back hlt
  rw [shell, shell, hat, hafter, Site.previousByte_append (by omega),
    Site.inExpansion_append (by omega)]
  dsimp only
  rw [LineFacts.seenBefore_append (by decide) front back (by omega),
    LineFacts.seenBefore_append (by decide) front back (by omega)]
  cases htext : (Site.mk (LineFacts.ofLine front) offset token).after with
  | error fault =>
      rfl
  | ok text =>
      obtain ⟨-, rfl⟩ := (Utf8.startingAt_eq_ok_iff _ _ _).1 htext
      have hcolour := isHexColour_append hstop back
      have hline : (LineFacts.ofLine front).line = front := rfl
      simp only [Except.map, bind, Except.bind, hline, hcolour]

theorem batch_append
    (hclean : Utf8.startsClean token = true)
    (hne : token ≠ [])
    (hpre : token <+: front.drop offset)
    (hlt : offset + token.length < front.length) :
    batch ⟨LineFacts.ofLine (front ++ back), offset, token⟩ =
      batch ⟨LineFacts.ofLine front, offset, token⟩ := by
  rw [batch, batch, Site.before_append hne hclean hpre, Site.nextByte_append hlt]
  rfl

theorem followedBy_append
    {mark : String} {accepts : UInt8 → Bool}
    (hlt : offset + token.length < front.length) :
    followedBy mark accepts ⟨LineFacts.ofLine (front ++ back), offset, token⟩ =
      followedBy mark accepts ⟨LineFacts.ofLine front, offset, token⟩ := by
  rw [followedBy, followedBy, Site.nextByte_append hlt]
  rfl

/-- The veto of a language does not look beyond the word behind a token. -/
theorem family_append
    {rule : Rule}
    (hyaml : language ≠ .yaml)
    (hrust : language ≠ .rust)
    (hrule : rule ∈ language.rules)
    (hpre : rule.start <+: front.drop offset)
    (hstop : ∃ b ∈ front.drop (offset + rule.start.length), Byte.isAlphanumeric b = false)
    (hvalid : Utf8.valid (front.take offset) = true) :
    family language ⟨LineFacts.ofLine (front ++ back), offset, rule.start⟩ =
      family language ⟨LineFacts.ofLine front, offset, rule.start⟩ := by
  have hne := Language.start_ne_nil hrule
  have hclean := startsClean_of_mem_rules hrule
  have hlt := lt_of_stop hstop
  cases language with
  | yaml => exact absurd rfl hyaml
  | rust => exact absurd rfl hrust
  | ruby | r | tcl | powerShell | julia | hash | toml | hcl | sql | lua | ada | vhdl | ocaml
  | fsharp | matlab | prolog | fortranFree | cobol | rst | unknown | fortran =>
      rfl
  | c | java | swift | dart | javaScript | typeScript | go | json | verilog =>
      exact cFamily_append hne hpre hvalid
  | php =>
      rw [family, family, cFamily_append hne hpre hvalid, phpHash_append hclean hne hpre hlt]
  | python =>
      exact python_append hne hclean hpre
  | shell | perl =>
      exact shell_append hstop
  | css | scss =>
      exact congrArg Except.ok (css_append (by omega))
  | html | markdown =>
      simp only [family]
      rw [LineFacts.unclosedBefore_append (by decide) (by decide) front back (by omega)]
      rfl
  | haskell | pascal | assembly | coffeeScript =>
      exact followedBy_append hlt
  | latex =>
      simp only [family, Lexer.isEscaped]
      have htake : (LineFacts.ofLine (front ++ back)).line.take offset =
          (LineFacts.ofLine front).line.take offset :=
        List.take_append_of_le_length (by omega)
      rw [htake]
  | batch =>
      exact batch_append hclean hne hpre hlt
  | erlang | lisp =>
      simp only [family, precededBy]
      rw [Site.previousByte_append (by omega)]

/-- What a language keeps does not depend on what is behind the word that follows the token. -/
theorem keeps_append
    {rule : Rule}
    (hyaml : language ≠ .yaml)
    (hrust : language ≠ .rust)
    (hrule : rule ∈ language.rules)
    (hpre : rule.start <+: front.drop offset)
    (hstop : ∃ b ∈ front.drop (offset + rule.start.length), Byte.isAlphanumeric b = false)
    (hvalid : Utf8.valid (front.take offset) = true)
    (back : Bytes) :
    keeps language (LineFacts.ofLine (front ++ back)) offset rule.start =
      keeps language (LineFacts.ofLine front) offset rule.start := by
  have hlt := lt_of_stop hstop
  have hlong : 2 ≤ front.length := by
    have hpos := List.length_pos_iff.2 (Language.start_ne_nil hrule)
    omega
  have hscript : (Bytes.ofString "#!").isPrefixOf (front ++ back) =
      (Bytes.ofString "#!").isPrefixOf front := by
    rw [Bool.eq_iff_iff, List.isPrefixOf_iff_prefix, List.isPrefixOf_iff_prefix]
    exact ⟨fun h => List.prefix_of_prefix_length_le h (List.prefix_append _ _) hlong,
      fun h => h.trans (List.prefix_append _ _)⟩
  have hshebang : (Site.mk (LineFacts.ofLine (front ++ back)) offset rule.start).isShebang =
      (Site.mk (LineFacts.ofLine front) offset rule.start).isShebang :=
    congrArg (offset == 0 && ·) hscript
  rw [keeps, keeps, family_append hyaml hrust hrule hpre hstop hvalid, hshebang]
  rfl

end Veto
end Uncomment

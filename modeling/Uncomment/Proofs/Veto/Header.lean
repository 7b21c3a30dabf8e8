import Uncomment.Proofs.Veto.Cut

/-!
# Headers that stay open

The veto of the C family keeps slashes behind the header of a control statement whose body
has not begun.  A header ends with a parenthesis, and its body begins with a brace or is
ended by a semicolon, so a slash neither opens nor closes a header
(`Veto.headerOpen_succ`): where two slashes are kept, a comment that starts with the
second one is kept as well.
-/

namespace Uncomment

theorem Bytes.isPrefix_of_mem_occurrencesFrom
    {needle text : Bytes} {offset skip start : Nat}
    (h : start ∈ occurrencesFrom needle offset skip text) :
    needle <+: text.drop (start - offset) := by
  induction text generalizing offset skip with
  | nil =>
      cases skip <;> cases h
  | cons b rest ih =>
      have hlater {skip : Nat} (hrest : start ∈ occurrencesFrom needle (offset + 1) skip rest) :
          needle <+: (b :: rest).drop (start - offset) := by
        have hle := (within_of_mem_occurrencesFrom hrest).1
        rw [show start - offset = start - (offset + 1) + 1 by omega, List.drop_succ_cons]
        exact ih hrest
      cases skip with
      | succ skip =>
          exact hlater h
      | zero =>
          rw [occurrencesFrom] at h
          split at h
          · next hpre =>
              rcases List.mem_cons.1 h with rfl | h
              · rw [Nat.sub_self, List.drop_zero]
                exact List.isPrefixOf_iff_prefix.1 hpre
              · exact hlater h
          · exact hlater h

namespace Pattern

/-- The last byte of a header is a parenthesis. -/
theorem getElem?_of_headerWidth?
    {text : Bytes} {width : Nat}
    (h : headerWidth? text = some width) :
    ∃ index, width = index + 1 ∧ text[index]? = some 0x28 := by
  unfold headerWidth? at h
  split at h
  · cases h
  · dsimp only at h
    split at h
    · next hparen =>
        cases h
        refine ⟨_, rfl, ?_⟩
        rw [← List.head?_drop]
        exact eq_of_beq hparen
    · cases h

theorem getElem?_of_mem_headersFrom
    {offset skip : Nat} {afterWord : Bool} {text : Bytes} {hit : Hit}
    (h : hit ∈ headersFrom offset skip afterWord text) :
    ∃ index, hit.stop = offset + index + 1 ∧ text[index]? = some 0x28 := by
  induction text generalizing offset skip afterWord with
  | nil =>
      cases skip <;> cases h
  | cons b rest ih =>
      have hlater {skip : Nat} {afterWord : Bool}
          (hrest : hit ∈ headersFrom (offset + 1) skip afterWord rest) :
          ∃ index, hit.stop = offset + index + 1 ∧ (b :: rest)[index]? = some 0x28 := by
        obtain ⟨index, hstop, hparen⟩ := ih hrest
        exact ⟨index + 1, by omega, by rwa [List.getElem?_cons_succ]⟩
      cases skip with
      | succ skip =>
          exact hlater h
      | zero =>
          rw [headersFrom] at h
          split at h
          · next width hwidth =>
              have hheader : headerWidth? (b :: rest) = some width := by
                split at hwidth
                · cases hwidth
                · exact hwidth
              rcases List.mem_cons.1 h with rfl | h
              · obtain ⟨index, rfl, hparen⟩ := getElem?_of_headerWidth? hheader
                exact ⟨index, (Nat.add_assoc _ _ _).symm, hparen⟩
              · exact hlater h
          · exact hlater h

end Pattern

namespace LineFacts

variable {line : Bytes} {offset : Nat}

/-- Only behind a parenthesis a header ends. -/
theorem lastHit?_headers_succ
    (h : (line)[offset]? ≠ some 0x28) :
    lastHit? (ofLine line).headers (offset + 1) = lastHit? (ofLine line).headers offset := by
  rw [lastHit?, lastHit?]
  congr 1
  refine List.filter_congr fun hit hhit => ?_
  obtain ⟨index, hstop, hparen⟩ := Pattern.getElem?_of_mem_headersFrom hhit
  have hne : index ≠ offset := by
    rintro rfl
    exact h hparen
  rw [decide_eq_decide]
  omega

/-- Only behind its byte a landmark of one byte ends. -/
theorem seenBetween_succ
    {b : UInt8}
    (h : (line)[offset]? ≠ some b)
    (low : Nat) :
    (ofLine line).seenBetween [b] low (offset + 1) = (ofLine line).seenBetween [b] low offset := by
  rw [seenBetween, seenBetween, positions_ofLine]
  cases hfind : (Bytes.occurrences [b] line).find? (low ≤ ·) with
  | none =>
      rfl
  | some start =>
      have hmark := Bytes.isPrefix_of_mem_occurrencesFrom (List.mem_of_find?_eq_some hfind)
      have hne : start ≠ offset := by
        rintro rfl
        refine h ?_
        obtain ⟨later, hlater⟩ := hmark
        rw [← List.head?_drop, show start = start - 0 from rfl, ← hlater]
        rfl
      rw [Option.any_some, Option.any_some, decide_eq_decide, List.length_singleton]
      omega

end LineFacts

namespace Veto

/-- A text that ends with ink other than a semicolon does not end with a semicolon once trimmed. -/
theorem isSuffixOf_trimEnd_append_ink
    (front : Bytes) {b : UInt8}
    (hink : Blank.isInk b = true)
    (hb : b ≠ 0x3B) :
    (Bytes.ofString ";").isSuffixOf (Blank.trimEnd (front ++ [b])) = false := by
  have hsemicolon : Bytes.ofString ";" = [0x3B] := rfl
  rw [Blank.trimEnd_append_ink front hink, hsemicolon, Bool.eq_false_iff, Ne,
    List.isSuffixOf_iff_suffix]
  rintro ⟨more, hmore⟩
  have hlast := (List.append_inj' hmore rfl).2
  exact hb (List.cons.inj hlast).1.symm

/-- A header that is open before a slash is open behind it. -/
theorem headerOpen_succ
    {line token other : Bytes} {offset : Nat} {c : UInt8}
    (hslash : [Byte.slash, c] <+: line.drop offset)
    (hclean : Utf8.startsClean [c] = true)
    (h : headerOpen ⟨LineFacts.ofLine line, offset, token⟩ = .ok true) :
    headerOpen ⟨LineFacts.ofLine line, offset + 1, other⟩ = .ok true := by
  obtain ⟨later, hlater⟩ := hslash
  have hget : (line)[offset]? = some Byte.slash := by
    rw [← List.head?_drop, ← hlater]
    rfl
  have hnext : [c] <+: line.drop (offset + 1) := by
    rw [← List.drop_drop, ← hlater]
    exact ⟨later, rfl⟩
  have hne (b : UInt8) (hb : Byte.slash ≠ b) : (line)[offset]? ≠ some b := by
    rw [hget]
    exact fun heq => hb (Option.some.inj heq)
  have hbrace : Bytes.ofString "\x7b" = [Byte.openBrace] := rfl
  rw [headerOpen] at h ⊢
  dsimp only at h ⊢
  rw [LineFacts.lastHit?_headers_succ (hne 0x28 (by decide))]
  cases hhit : LineFacts.lastHit? (LineFacts.ofLine line).headers offset with
  | none =>
      rw [hhit] at h
      cases h
  | some header =>
      rw [hhit] at h
      dsimp only at h ⊢
      rw [hbrace] at h ⊢
      rw [LineFacts.seenBetween_succ (hne Byte.openBrace (by decide))]
      cases hbody : (LineFacts.ofLine line).seenBetween [Byte.openBrace] header.stop offset with
      | true =>
          rw [hbody] at h
          cases h
      | false =>
          have htext : line.take (offset + 1) = line.take offset ++ [Byte.slash] := by
            rw [List.take_add_one, hget]
            rfl
          have hbefore :
              (Site.mk (LineFacts.ofLine line) (offset + 1) other).before =
                .ok (line.take offset ++ [Byte.slash]) := by
            have hcut := Site.before_eq (List.cons_ne_nil c []) hclean hnext
            rw [← htext]
            exact hcut
          rw [hbefore]
          have hsuffix := isSuffixOf_trimEnd_append_ink (line.take offset)
            (by decide : Blank.isInk Byte.slash = true) (by decide)
          change Except.ok (!_) = _
          rw [hsuffix]
          rfl

/-- Without calls to look for, the veto of the C family looks for an open header. -/
theorem cFamily_eq_headerOpen
    {facts : LineFacts} {offset : Nat} {token : Bytes}
    (htoken : token = Bytes.ofString "//" ∨ token = Bytes.ofString "/*") :
    cFamily false ⟨facts, offset, token⟩ = headerOpen ⟨facts, offset, token⟩ := by
  have hat : (!(Site.mk facts offset token).isAt "//" &&
      !(Site.mk facts offset token).isAt "/*") = false := by
    rcases htoken with rfl | rfl <;> rfl
  rw [cFamily, hat]
  cases hopen : headerOpen ⟨facts, offset, token⟩ with
  | error fault => rfl
  | ok kept => cases kept <;> rfl

/-- Where the C family keeps two slashes it keeps a comment that starts with the second one. -/
theorem cFamily_succ
    {line token : Bytes} {offset : Nat} {c : UInt8}
    (hslash : [Byte.slash, c] <+: line.drop offset)
    (hclean : Utf8.startsClean [c] = true)
    (htoken : token = Bytes.ofString "//" ∨ token = Bytes.ofString "/*")
    (h : cFamily false ⟨LineFacts.ofLine line, offset, Bytes.ofString "//"⟩ = .ok true) :
    cFamily false ⟨LineFacts.ofLine line, offset + 1, token⟩ = .ok true := by
  rw [cFamily_eq_headerOpen (Or.inl rfl)] at h
  rw [cFamily_eq_headerOpen htoken]
  exact headerOpen_succ hslash hclean h

end Veto
end Uncomment

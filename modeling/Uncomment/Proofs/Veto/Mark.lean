import Uncomment.Proofs.Text.Divide
import Uncomment.Proofs.Veto.Header
import Uncomment.Proofs.Veto.Order

/-!
# What a text leaves open

The vetoes of the C family, of style sheets and of markup ask whether something that was
opened before a token has been closed: the header of a control statement, an address, a
content value, a character data section.  The last thing that happened decides.  `Mark`
says what a text leaves: open, closed, or as it was before.

A mark can be taken piece by piece, because a byte that belongs to none of the landmarks
divides a text (`Mark.header_append_cons`, `Mark.pair_append_cons`).
-/

namespace Uncomment

/-- A stretch of a part of a line that starts at an offset. -/
def Hit.shift (low : Nat) (hit : Hit) : Hit :=
  ⟨low + hit.start, low + hit.stop⟩

namespace Pattern

/-- A sign that is neither a parenthesis nor a part of a word nor white space. -/
def IsSign (c : UInt8) : Prop :=
  Blank.isInk c = true ∧ c ≠ 0x28 ∧ Letter.isWord (Char.ofNat c.toNat) = false

instance :
    DecidablePred IsSign :=
  fun _ => inferInstanceAs (Decidable (_ ∧ _ ∧ _))

variable {front back : Bytes} {c : UInt8}

/-- The letters of the keywords are parts of words. -/
theorem not_mem_of_isSign
    (hc : IsSign c) :
    c ∉ Bytes.ofString "if" ∧ c ∉ Bytes.ofString "for" ∧ c ∉ Bytes.ofString "while" := by
  have hletter (word : String)
      (hword : ∀ b ∈ Bytes.ofString word, Letter.isWord (Char.ofNat b.toNat) = true) :
      c ∉ Bytes.ofString word := by
    intro hmem
    exact absurd ((hword c hmem).symm.trans hc.2.2) (by decide)
  exact ⟨hletter "if" (by decide +kernel), hletter "for" (by decide +kernel),
    hletter "while" (by decide +kernel)⟩

/-- No keyword goes on over a sign. -/
theorem keywordWidth?_append_cons
    (hc : IsSign c) :
    keywordWidth? (front ++ c :: back) = keywordWidth? front := by
  obtain ⟨hif, hfor, hwhile⟩ := not_mem_of_isSign hc
  simp only [keywordWidth?, List.isPrefixOf_iff_prefix, Bytes.isPrefix_of_not_mem hif,
    Bytes.isPrefix_of_not_mem hfor, Bytes.isPrefix_of_not_mem hwhile]

theorem le_of_keywordWidth?
    {text : Bytes} {width : Nat}
    (h : keywordWidth? text = some width) :
    width ≤ text.length := by
  unfold keywordWidth? at h
  simp only [List.isPrefixOf_iff_prefix] at h
  repeat' split at h
  all_goals cases h
  all_goals
    next hpre => exact hpre.length_le

/-- No header goes on over a sign. -/
theorem headerWidth?_append_cons
    (hc : IsSign c) :
    headerWidth? (front ++ c :: back) = headerWidth? front := by
  rw [headerWidth?, headerWidth?, keywordWidth?_append_cons hc]
  cases hwidth : keywordWidth? front with
  | none => rfl
  | some width =>
      have hle := le_of_keywordWidth? hwidth
      have hblank : Blank.leading (front.drop width) ≤ 0 + (front.drop width).length :=
        Blank.leadingFrom_le 0 0 _
      rw [List.length_drop] at hblank
      have hleading : Blank.leading (front.drop width ++ c :: back) =
          Blank.leading (front.drop width) :=
        Blank.leadingFrom_append_ink hc.1 (Nat.zero_le _) back
      dsimp only
      rw [List.drop_append_of_le_length hle, hleading, List.drop_append_of_le_length (by omega)]
      cases front.drop (width + Blank.leading (front.drop width)) with
      | cons b more => rfl
      | nil => simp [hc.2.1]

/-- The offset from which headers are counted only shifts them. -/
theorem headersFrom_add
    (low offset skip : Nat) (afterWord : Bool) (text : Bytes) :
    headersFrom (low + offset) skip afterWord text =
      (headersFrom offset skip afterWord text).map (.shift low) := by
  induction text generalizing offset skip afterWord with
  | nil =>
      cases skip <;> rfl
  | cons b rest ih =>
      have hrest := ih (offset + 1)
      cases skip with
      | succ skip =>
          exact hrest skip afterWord
      | zero =>
          rw [headersFrom, headersFrom]
          split
          · rw [List.map_cons, ← hrest, Hit.shift, Nat.add_assoc, Nat.add_assoc]
          · exact hrest _ _

/-- Behind the end of a header in a well-formed text the text is well-formed. -/
theorem valid_drop_of_headerWidth?
    {text : Bytes} {width : Nat}
    (hvalid : Utf8.valid text = true)
    (h : headerWidth? text = some width) :
    width ≤ text.length ∧ Utf8.valid (text.drop width) = true := by
  obtain ⟨index, rfl, hparen⟩ := getElem?_of_headerWidth? h
  obtain ⟨hlt, hget⟩ := List.getElem?_eq_some_iff.1 hparen
  refine ⟨hlt, ?_⟩
  rw [← List.take_append_drop index text, List.drop_eq_getElem_cons hlt, hget,
    Utf8.valid_append_cons (by decide)] at hvalid
  exact hvalid.2

/-- A sign divides the search for headers. -/
theorem headersFrom_append_cons
    {offset skip : Nat} {afterWord : Bool}
    (hc : IsSign c)
    (hskip : skip ≤ front.length)
    (hvalid : Utf8.valid (front.drop skip) = true) :
    headersFrom offset skip afterWord (front ++ c :: back) =
      headersFrom offset skip afterWord front ++
        headersFrom (offset + front.length + 1) 0 false back := by
  induction front generalizing offset skip afterWord with
  | nil =>
      obtain rfl : skip = 0 := by simpa using hskip
      have hascii : c < 0x80 := Blank.lt_of_isInk hc.1
      have hnone : headerWidth? (c :: back) = none :=
        @headerWidth?_append_cons [] back c hc
      have hfront : Utf8.front c back = (Char.ofNat c.toNat, 0) := by
        rw [Utf8.front.eq_def, if_pos hascii]
      simp only [List.nil_append, headersFrom, hnone, ite_self, hfront, hc.2.2, List.length_nil,
        Nat.add_zero]
  | cons b rest ih =>
      have hlater {skip : Nat} {afterWord : Bool} (hskip : skip ≤ rest.length)
          (hvalid : Utf8.valid (rest.drop skip) = true) :
          headersFrom (offset + 1) skip afterWord (rest ++ c :: back) =
            headersFrom (offset + 1) skip afterWord rest ++
              headersFrom (offset + (b :: rest).length + 1) 0 false back := by
        rw [ih hskip hvalid, List.length_cons, Nat.add_right_comm offset 1, Nat.add_assoc offset]
      cases skip with
      | succ skip =>
          exact hlater (by simpa using hskip) hvalid
      | zero =>
          have hwidth := @headerWidth?_append_cons (b :: rest) back c hc
          obtain ⟨hle, hmore, hfront⟩ := Utf8.front_of_valid hvalid
          rw [List.cons_append] at hwidth ⊢
          rw [headersFrom, headersFrom, hwidth, hfront]
          split
          · next width hheader =>
              have hheader' : headerWidth? (b :: rest) = some width := by
                split at hheader
                · cases hheader
                · exact hheader
              have hpos := pos_of_headerWidth? hheader'
              obtain ⟨hin, hbehind⟩ := valid_drop_of_headerWidth? hvalid hheader'
              obtain ⟨more, rfl⟩ := Nat.exists_eq_add_of_lt hpos
              rw [Nat.zero_add] at hin hbehind ⊢
              rw [Nat.add_sub_cancel, List.cons_append, hlater (by simpa using hin) hbehind]
          · exact hlater hle hmore

/-- A sign divides the headers of control statements in a well-formed text. -/
theorem headers_append_cons
    (hc : IsSign c)
    (hvalid : Utf8.valid front = true)
    (back : Bytes) :
    headers (front ++ c :: back) =
      headers front ++ (headers back).map (.shift (front.length + 1)) := by
  rw [headers, headersFrom_append_cons hc (Nat.zero_le _) (by rwa [List.drop_zero]), Nat.zero_add,
    ← Nat.add_zero (front.length + 1), headersFrom_add]
  rfl

end Pattern

/-- What a text leaves: something open or closed, or whatever was open before it. -/
abbrev Mark :=
  Option Bool

namespace Mark

/-- The mark of a text with the given openers and the offsets of the given closers. -/
def ofHits (openers : List Hit) (closers : List Nat) : Mark :=
  match openers.getLast? with
  | some hit => some (!closers.any fun start => decide (hit.stop ≤ start))
  | none => if closers.isEmpty then none else some false

/-- The second of two pieces decides, unless it leaves everything as it was. -/
theorem ofHits_append
    {width : Nat} {openers openers' : List Hit} {closers closers' : List Nat}
    (hopeners : ∀ hit ∈ openers, hit.stop ≤ width)
    (hclosers : ∀ start ∈ closers, start < width) :
    ofHits (openers ++ openers'.map (.shift width)) (closers ++ closers'.map (width + ·)) =
      (ofHits openers' closers').or (ofHits openers closers) := by
  unfold ofHits
  rw [List.getLast?_append, List.getLast?_map]
  cases hlast : openers'.getLast? with
  | some hit =>
      have hnone : (closers.any fun start => decide (width + hit.stop ≤ start)) = false := by
        refine List.any_eq_false.2 fun start hstart => ?_
        have hlt := hclosers start hstart
        simp only [decide_eq_true_eq]
        omega
      simp [hnone, List.any_map, Function.comp_def, Hit.shift]
  | none =>
      simp only [Option.map_none, Option.none_or]
      cases closers' with
      | nil =>
          simp
      | cons start more =>
          cases hfront : openers.getLast? with
          | none => simp
          | some hit =>
              have hle := hopeners hit (List.mem_of_getLast? hfront)
              have hlater : hit.stop ≤ width + start := by omega
              simp [hlater]

/-- The mark of the headers of control statements, which a brace closes. -/
def header (text : Bytes) : Mark :=
  ofHits (Pattern.headers text) (Bytes.occurrences [Byte.openBrace] text)

/-- The mark of an opening and a closing text. -/
def pair (opener closer text : Bytes) : Mark :=
  ofHits ((Bytes.occurrences opener text).map fun start => ⟨start, start + opener.length⟩)
    (Bytes.occurrences closer text)

theorem stop_le_of_mem_headers
    {text : Bytes} {hit : Hit}
    (h : hit ∈ Pattern.headers text) :
    hit.stop ≤ text.length := by
  obtain ⟨index, hstop, hparen⟩ := Pattern.getElem?_of_mem_headersFrom h
  have hlt := (List.getElem?_eq_some_iff.1 hparen).1
  omega

theorem within_of_mem_occurrences
    {needle text : Bytes} {start : Nat}
    (h : start ∈ Bytes.occurrences needle text) :
    start + needle.length ≤ text.length := by
  have hwithin := (Bytes.within_of_mem_occurrencesFrom h).2
  omega

/-- A sign divides the mark of the headers of a well-formed text. -/
theorem header_append_cons
    {front : Bytes} {c : UInt8}
    (hc : Pattern.IsSign c)
    (hbrace : c ≠ Byte.openBrace)
    (hvalid : Utf8.valid front = true)
    (back : Bytes) :
    header (front ++ c :: back) = (header back).or (header front) := by
  rw [header, Pattern.headers_append_cons hc hvalid,
    Bytes.occurrences_append_cons (List.cons_ne_nil _ _) (by simpa using hbrace)]
  refine ofHits_append (fun hit hhit => ?_) (fun start hstart => ?_)
  · have hle := stop_le_of_mem_headers hhit
    omega
  · have hle := within_of_mem_occurrences hstart
    omega

/-- A byte that is part of neither text divides the mark of an opening and a closing text. -/
theorem pair_append_cons
    {opener closer : Bytes} {c : UInt8}
    (hopener : opener ≠ [])
    (hcloser : closer ≠ [])
    (hc : c ∉ opener ++ closer)
    (front back : Bytes) :
    pair opener closer (front ++ c :: back) =
      (pair opener closer back).or (pair opener closer front) := by
  rw [List.mem_append, not_or] at hc
  rw [pair, Bytes.occurrences_append_cons hopener hc.1, Bytes.occurrences_append_cons hcloser hc.2]
  have hmap : ((Bytes.occurrences opener back).map (front.length + 1 + ·)).map
      (fun start => (⟨start, start + opener.length⟩ : Hit)) =
        ((Bytes.occurrences opener back).map fun start =>
          (⟨start, start + opener.length⟩ : Hit)).map (.shift (front.length + 1)) := by
    simp only [List.map_map, Function.comp_def, Hit.shift, Nat.add_assoc]
  rw [List.map_append, hmap]
  refine ofHits_append (fun hit hhit => ?_) (fun start hstart => ?_)
  · obtain ⟨start, hstart, rfl⟩ := List.mem_map.1 hhit
    have hle := within_of_mem_occurrences hstart
    dsimp only
    omega
  · have hle := within_of_mem_occurrences hstart
    have hpos := List.length_pos_iff.2 hcloser
    omega

end Mark

namespace LineFacts

variable {line needle : Bytes} {offset : Nat}

theorem seenBetween_append
    (hneedle : needle ≠ [])
    (front back : Bytes) (low : Nat)
    (hle : offset ≤ front.length) :
    (ofLine (front ++ back)).seenBetween needle low offset =
      (ofLine front).seenBetween needle low offset := by
  obtain ⟨more, heq, hmore⟩ := Bytes.occurrences_append hneedle front back
  rw [seenBetween, seenBetween, positions_ofLine, positions_ofLine, heq, List.find?_append]
  cases (Bytes.occurrences needle front).find? (low ≤ ·) with
  | some start =>
      rfl
  | none =>
      cases hfind : more.find? (low ≤ ·) with
      | none =>
          rfl
      | some start =>
          have hlt := hmore start (List.mem_of_find?_eq_some hfind)
          simp
          omega

/-- What is unclosed before an offset depends on the line up to there. -/
theorem unclosedBefore_append
    {opener closer : Bytes}
    (hopener : opener ≠ [])
    (hcloser : closer ≠ [])
    (front back : Bytes)
    (hle : offset ≤ front.length) :
    (ofLine (front ++ back)).unclosedBefore opener closer offset =
      (ofLine front).unclosedBefore opener closer offset := by
  obtain ⟨more, heq, hmore⟩ := Bytes.occurrences_append hopener front back
  have hnone : more.filter (fun start => start + opener.length ≤ offset) = [] := by
    refine List.filter_eq_nil_iff.2 fun start hstart => ?_
    have hlt := hmore start hstart
    simp only [decide_eq_true_eq]
    omega
  simp only [unclosedBefore, positions_ofLine, heq, List.filter_append, hnone, List.append_nil,
    seenBetween_append hcloser front back _ hle]

/-- Something is seen in the rest of a line if one of its occurrences starts there. -/
theorem seenBetween_length
    (low : Nat) :
    (ofLine line).seenBetween needle low line.length =
      (Bytes.occurrences needle line).any (low ≤ ·) := by
  rw [seenBetween, positions_ofLine, Bool.eq_iff_iff, Option.any_eq_true, List.any_eq_true]
  constructor
  · rintro ⟨start, hfind, -⟩
    have hlow := List.find?_some hfind
    exact ⟨start, List.mem_of_find?_eq_some hfind, hlow⟩
  · rintro ⟨start, hstart, hlow⟩
    have hsome : ((Bytes.occurrences needle line).find? (low ≤ ·)).isSome = true :=
      List.find?_isSome.2 ⟨start, hstart, hlow⟩
    obtain ⟨first, hfind⟩ := Option.isSome_iff_exists.1 hsome
    refine ⟨first, hfind, decide_eq_true ?_⟩
    exact Mark.within_of_mem_occurrences (List.mem_of_find?_eq_some hfind)

/-- What a text leaves unclosed is told by its mark. -/
theorem unclosedBefore_eq_mark
    {opener closer : Bytes}
    (hopener : opener ≠ [])
    (hcloser : closer ≠ [])
    (hle : offset ≤ line.length) :
    (ofLine line).unclosedBefore opener closer offset =
      (Mark.pair opener closer (line.take offset)).getD false := by
  have hlen : (line.take offset).length = offset := by
    rw [List.length_take, Nat.min_eq_left hle]
  have hcut := @unclosedBefore_append offset opener closer hopener hcloser (line.take offset)
    (line.drop offset) (by omega)
  rw [List.take_append_drop] at hcut
  have hall : (Bytes.occurrences opener (line.take offset)).filter
      (fun start => start + opener.length ≤ offset) =
        Bytes.occurrences opener (line.take offset) := by
    refine List.filter_eq_self.2 fun start hstart => decide_eq_true ?_
    have hwithin := Mark.within_of_mem_occurrences hstart
    omega
  rw [hcut, unclosedBefore, positions_ofLine, Mark.pair, Mark.ofHits, List.getLast?_map, hall]
  cases (Bytes.occurrences opener (line.take offset)).getLast? with
  | none =>
      simp only [Option.any_none, Option.map_none]
      split <;> rfl
  | some start =>
      have hseen := @seenBetween_length (line.take offset) closer (start + opener.length)
      rw [hlen] at hseen
      simp [hseen]

end LineFacts
end Uncomment

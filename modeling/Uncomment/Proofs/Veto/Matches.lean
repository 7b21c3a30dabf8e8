import Uncomment.Proofs.Veto.Mark

/-!
# Matches in the front part of a line

The headers of control statements and the calls with an exclamation mark end with a bracket
and have no other one of its kind in them (`Pattern.ClosedBy`).  So a match that goes on behind
a front part of a line hides none that lies within that part: the whole line has the matches
of the front part, and more that end behind it (`Pattern.headers_append`,
`Pattern.bangCalls_append`).  The last match that ends before an offset is the last one of the
text before it (`LineFacts.lastHit?_headers`, `LineFacts.lastHit?_bangCalls`).
-/

namespace Uncomment
namespace Pattern

/-- A pattern at the front of a text, told by its width, that ends with the first byte of a class. -/
structure ClosedBy (closes : UInt8 → Prop) (width? : Bytes → Option Nat) : Prop where
  /-- The last byte of a match is of the class. -/
  last {text : Bytes} {width : Nat} : width? text = some width →
    ∃ index c, width = index + 1 ∧ text[index]? = some c ∧ closes c
  /-- What comes behind a byte of the class does not count. -/
  cut {c : UInt8} : closes c → ∀ front back, width? (front ++ c :: back) = width? (front ++ [c])

namespace ClosedBy

variable {closes : UInt8 → Prop} {width? : Bytes → Option Nat} {text front : Bytes} {width : Nat}

theorem le_length
    (h : ClosedBy closes width?)
    (hwidth : width? text = some width) :
    width ≤ text.length := by
  obtain ⟨index, c, rfl, hget, -⟩ := h.last hwidth
  exact (List.getElem?_eq_some_iff.1 hget).1

/-- No byte of the class stands before the last one of a match. -/
theorem not_closes_of_mem_take
    {c : UInt8}
    (h : ClosedBy closes width?)
    (hwidth : width? text = some width)
    (hmem : c ∈ text.take (width - 1)) :
    ¬ closes c := by
  intro hc
  obtain ⟨front, back, hsplit⟩ := List.append_of_mem hmem
  have hlen : (text.take (width - 1)).length ≤ width - 1 := by
    rw [List.length_take]
    exact Nat.min_le_left _ _
  have htext : text = front ++ c :: (back ++ text.drop (width - 1)) := by
    rw [← List.cons_append, ← List.append_assoc, ← hsplit, List.take_append_drop]
  rw [htext, h.cut hc] at hwidth
  have hle := h.le_length hwidth
  rw [List.length_append, List.length_singleton] at hle
  rw [hsplit, List.length_append, List.length_cons] at hlen
  omega

/-- A text and a front part of it have the same match if it lies within the front part. -/
theorem append_iff
    (h : ClosedBy closes width?)
    (hle : width ≤ front.length)
    (back : Bytes) :
    width? (front ++ back) = some width ↔ width? front = some width := by
  have heq {index : Nat} {c : UInt8} (hget : front[index]? = some c) (hc : closes c) :
      width? (front ++ back) = width? front := by
    obtain ⟨hlt, rfl⟩ := List.getElem?_eq_some_iff.1 hget
    have hsplit : front = front.take index ++ front[index] :: front.drop (index + 1) := by
      rw [← List.drop_eq_getElem_cons, List.take_append_drop]
    rw [hsplit, List.append_assoc, List.cons_append, h.cut hc,
      ← h.cut hc _ (front.drop (index + 1))]
  constructor
  · intro hboth
    obtain ⟨index, c, rfl, hget, hc⟩ := h.last hboth
    rw [List.getElem?_append_left (by omega)] at hget
    rwa [heq hget hc] at hboth
  · intro hfront
    obtain ⟨index, c, rfl, hget, hc⟩ := h.last hfront
    rwa [heq hget hc]

/-- In a front part that ends within a match no byte of the class stands. -/
theorem not_closes_of_lt
    {back : Bytes} {c : UInt8}
    (h : ClosedBy closes width?)
    (hwidth : width? (front ++ back) = some width)
    (hlt : front.length < width)
    (hmem : c ∈ front) :
    ¬ closes c := by
  have hpre : front <+: (front ++ back).take (width - 1) :=
    List.prefix_take_iff.2 ⟨List.prefix_append _ _, by omega⟩
  exact h.not_closes_of_mem_take hwidth (hpre.subset hmem)

/-- A text and a front part have no match or one in common, or that of the text goes on behind. -/
theorem append_cases
    (h : ClosedBy closes width?)
    (front back : Bytes) :
    (width? (front ++ back) = none ∧ width? front = none) ∨
    (∃ width ≤ front.length,
      width? (front ++ back) = some width ∧ width? front = some width) ∨
    (∃ width > front.length,
      width? (front ++ back) = some width ∧ width? front = none ∧ ∀ c ∈ front, ¬ closes c) := by
  cases hwidth : width? (front ++ back) with
  | none =>
      refine Or.inl ⟨rfl, Option.eq_none_iff_forall_ne_some.2 fun width hfront => ?_⟩
      rw [(h.append_iff (h.le_length hfront) back).2 hfront] at hwidth
      cases hwidth
  | some width =>
      by_cases hle : width ≤ front.length
      · exact Or.inr (Or.inl ⟨width, hle, rfl, (h.append_iff hle back).1 hwidth⟩)
      · have hno : ∀ c ∈ front, ¬ closes c := fun c hmem =>
          h.not_closes_of_lt hwidth (by omega) hmem
        refine Or.inr (Or.inr ⟨width, by omega, rfl, ?_, hno⟩)
        refine Option.eq_none_iff_forall_ne_some.2 fun width' hfront => ?_
        obtain ⟨index, c, -, hget, hc⟩ := h.last hfront
        exact hno c (List.mem_of_getElem? hget) hc

end ClosedBy

section Headers

variable {front : Bytes}

theorem keywordWidth?_append_paren
    (front back : Bytes) :
    keywordWidth? (front ++ 0x28 :: back) = keywordWidth? front := by
  have hno : (0x28 : UInt8) ∉ Bytes.ofString "if" ∧ (0x28 : UInt8) ∉ Bytes.ofString "for" ∧
      (0x28 : UInt8) ∉ Bytes.ofString "while" := by
    decide +kernel
  simp only [keywordWidth?, List.isPrefixOf_iff_prefix, Bytes.isPrefix_of_not_mem hno.1,
    Bytes.isPrefix_of_not_mem hno.2.1, Bytes.isPrefix_of_not_mem hno.2.2]

/-- A header ends with the first parenthesis. -/
theorem headerWidth?_append_paren
    (front back : Bytes) :
    headerWidth? (front ++ 0x28 :: back) = headerWidth? (front ++ [0x28]) := by
  rw [headerWidth?, headerWidth?, keywordWidth?_append_paren, keywordWidth?_append_paren]
  cases hwidth : keywordWidth? front with
  | none =>
      rfl
  | some width =>
      have hle := le_of_keywordWidth? hwidth
      have hblank : Blank.leading (front.drop width) ≤ 0 + (front.drop width).length :=
        Blank.leadingFrom_le 0 0 _
      rw [List.length_drop] at hblank
      have hleading (back : Bytes) : Blank.leading (front.drop width ++ 0x28 :: back) =
          Blank.leading (front.drop width) :=
        Blank.leadingFrom_append_ink (by decide) (Nat.zero_le _) back
      dsimp only
      rw [List.drop_append_of_le_length hle, List.drop_append_of_le_length hle, hleading,
        hleading, List.drop_append_of_le_length (by omega),
        List.drop_append_of_le_length (by omega)]
      cases front.drop (width + Blank.leading (front.drop width)) with
      | cons b more => rfl
      | nil => rfl

theorem closedBy_headerWidth? :
    ClosedBy (· = 0x28) headerWidth? where
  last h :=
    have ⟨index, hwidth, hparen⟩ := getElem?_of_headerWidth? h
    ⟨index, 0x28, hwidth, hparen, rfl⟩
  cut := by
    rintro _ rfl front back
    exact headerWidth?_append_paren front back

theorem headersFrom_eq_nil
    {offset skip : Nat} {afterWord : Bool} {text : Bytes}
    (h : (0x28 : UInt8) ∉ text) :
    headersFrom offset skip afterWord text = [] := by
  refine List.eq_nil_iff_forall_not_mem.2 fun hit hhit => ?_
  obtain ⟨index, -, hparen⟩ := getElem?_of_mem_headersFrom hhit
  exact h (List.mem_of_getElem? hparen)

/-- More text adds only headers that end in it. -/
theorem headersFrom_append
    {offset skip : Nat} {afterWord : Bool}
    (hvalid : Utf8.valid (front.drop skip) = true)
    (back : Bytes) :
    ∃ more, headersFrom offset skip afterWord (front ++ back) =
        headersFrom offset skip afterWord front ++ more ∧
      ∀ hit ∈ more, offset + front.length < hit.stop := by
  induction front generalizing offset skip afterWord with
  | nil =>
      refine ⟨headersFrom offset skip afterWord back, ?_, fun hit hhit => ?_⟩
      · cases skip <;> rfl
      · have hlt := lt_stop_of_mem_headersFrom hhit
        rw [List.length_nil]
        omega
  | cons b rest ih =>
      have hlater {skip : Nat} {afterWord : Bool}
          (hvalid : Utf8.valid (rest.drop skip) = true) :
          ∃ more, headersFrom (offset + 1) skip afterWord (rest ++ back) =
              headersFrom (offset + 1) skip afterWord rest ++ more ∧
            ∀ hit ∈ more, offset + (b :: rest).length < hit.stop := by
        obtain ⟨more, heq, hmore⟩ := @ih (offset + 1) skip afterWord hvalid
        refine ⟨more, heq, fun hit hhit => ?_⟩
        have hlt := hmore hit hhit
        rw [List.length_cons]
        omega
      cases skip with
      | succ skip =>
          exact hlater hvalid
      | zero =>
          rw [List.drop_zero] at hvalid
          obtain ⟨-, hbehind, hfront⟩ := Utf8.front_of_valid hvalid
          cases afterWord with
          | true =>
              rw [List.cons_append, headersFrom, headersFrom, hfront]
              exact hlater hbehind
          | false =>
              rcases closedBy_headerWidth?.append_cases (b :: rest) back with
                ⟨hboth, hheader⟩ | ⟨width, -, hboth, hheader⟩ | ⟨width, hlt, hboth, -, hno⟩
              · rw [List.cons_append] at hboth ⊢
                rw [headersFrom, headersFrom, hfront, hboth, hheader]
                exact hlater hbehind
              · have hpos := pos_of_headerWidth? hheader
                have hvalid' := (valid_drop_of_headerWidth? hvalid hheader).2
                obtain ⟨more, rfl⟩ := Nat.exists_eq_add_of_lt hpos
                rw [Nat.zero_add] at hboth hheader hvalid'
                obtain ⟨others, heq, hothers⟩ := @hlater more false hvalid'
                rw [List.cons_append] at hboth ⊢
                rw [headersFrom, headersFrom, hboth, hheader]
                exact ⟨others, congrArg _ heq, hothers⟩
              · -- The front part ends within the header, so it has no parenthesis.
                have hnone : headersFrom offset 0 false (b :: rest) = [] :=
                  headersFrom_eq_nil fun hmem => hno _ hmem rfl
                rw [List.cons_append] at hboth ⊢
                rw [hnone, headersFrom, hboth]
                refine ⟨_, rfl, fun hit hhit => ?_⟩
                rcases List.mem_cons.1 hhit with rfl | hhit
                · dsimp only
                  omega
                · have hlt := lt_stop_of_mem_headersFrom hhit
                  omega

theorem headers_append
    (hvalid : Utf8.valid front = true)
    (back : Bytes) :
    ∃ more, headers (front ++ back) = headers front ++ more ∧
      ∀ hit ∈ more, front.length < hit.stop := by
  obtain ⟨more, heq, hmore⟩ := @headersFrom_append front 0 0 false hvalid back
  exact ⟨more, heq, fun hit hhit => by simpa using hmore hit hhit⟩

end Headers

section BangCalls

/-- The brackets that may open the arguments of a call. -/
def IsBracket (c : UInt8) : Prop :=
  c = 0x28 ∨ c = 0x5B ∨ c = Byte.openBrace

/-- White space with a bracket behind it ends with the first bracket. -/
theorem bracketWidth?_append_bracket
    {c : UInt8}
    (hc : IsBracket c)
    (front back : Bytes) :
    bracketWidth? (front ++ c :: back) = bracketWidth? (front ++ [c]) := by
  have hink : Blank.isInk c = true := by
    rcases hc with rfl | rfl | rfl <;> decide
  have hblank : Blank.leading front ≤ 0 + front.length :=
    Blank.leadingFrom_le 0 0 _
  have hleading (back : Bytes) : Blank.leading (front ++ c :: back) = Blank.leading front :=
    Blank.leadingFrom_append_ink hink (Nat.zero_le _) back
  rw [bracketWidth?, bracketWidth?, hleading, hleading,
    List.drop_append_of_le_length (by omega), List.drop_append_of_le_length (by omega)]
  cases front.drop (Blank.leading front) with
  | cons b more => rfl
  | nil => rfl

theorem closedBy_bracketWidth? :
    ClosedBy IsBracket bracketWidth? where
  last {text width} h := by
    rw [bracketWidth?] at h
    split at h
    · next b hhead =>
        split at h
        · next hbracket =>
            cases h
            rw [List.head?_drop] at hhead
            simp only [Bool.or_eq_true, beq_iff_eq, or_assoc] at hbracket
            exact ⟨_, b, rfl, hhead, hbracket⟩
        · cases h
    · cases h
  cut := bracketWidth?_append_bracket

theorem exists_bracket_of_mem_bangCallsFrom
    {offset skip : Nat} {name : Option Nat} {text : Bytes} {hit : Hit}
    (h : hit ∈ bangCallsFrom offset skip name text) :
    ∃ index c, hit.stop = offset + index + 1 ∧ text[index]? = some c ∧ IsBracket c := by
  induction text generalizing offset skip name with
  | nil =>
      cases skip <;> cases h
  | cons b rest ih =>
      have hlater {skip : Nat} {name : Option Nat}
          (hrest : hit ∈ bangCallsFrom (offset + 1) skip name rest) :
          ∃ index c, hit.stop = offset + index + 1 ∧ (b :: rest)[index]? = some c ∧
            IsBracket c := by
        obtain ⟨index, c, hstop, hget, hc⟩ := ih hrest
        exact ⟨index + 1, c, by omega, by rwa [List.getElem?_cons_succ], hc⟩
      cases skip with
      | succ skip =>
          exact hlater h
      | zero =>
          cases name with
          | none =>
              exact hlater h
          | some name =>
              rw [bangCallsFrom] at h
              split at h
              · exact hlater h
              · split at h
                · next width hwidth =>
                    have hbracket : bracketWidth? rest = some width := by
                      split at hwidth
                      · exact hwidth
                      · cases hwidth
                    rcases List.mem_cons.1 h with rfl | h
                    · obtain ⟨index, c, rfl, hget, hc⟩ := closedBy_bracketWidth?.last hbracket
                      exact ⟨index + 1, c, by dsimp only; omega, by rwa [List.getElem?_cons_succ],
                        hc⟩
                    · exact hlater h
                · exact hlater h

theorem bangCallsFrom_eq_nil
    {offset skip : Nat} {name : Option Nat} {text : Bytes}
    (h : ∀ c ∈ text, ¬ IsBracket c) :
    bangCallsFrom offset skip name text = [] := by
  refine List.eq_nil_iff_forall_not_mem.2 fun hit hhit => ?_
  obtain ⟨index, c, -, hget, hc⟩ := exists_bracket_of_mem_bangCallsFrom hhit
  exact h c (List.mem_of_getElem? hget) hc

/-- More text adds only calls that end in it. -/
theorem bangCallsFrom_append
    (offset skip : Nat) (name : Option Nat) (front back : Bytes) :
    ∃ more, bangCallsFrom offset skip name (front ++ back) =
        bangCallsFrom offset skip name front ++ more ∧
      ∀ hit ∈ more, offset + front.length < hit.stop := by
  induction front generalizing offset skip name with
  | nil =>
      refine ⟨bangCallsFrom offset skip name back, ?_, fun hit hhit => ?_⟩
      · cases skip <;> rfl
      · have hlt := lt_stop_of_mem_bangCallsFrom hhit
        rw [List.length_nil]
        omega
  | cons b rest ih =>
      have hlater (skip : Nat) (name : Option Nat) :
          ∃ more, bangCallsFrom (offset + 1) skip name (rest ++ back) =
              bangCallsFrom (offset + 1) skip name rest ++ more ∧
            ∀ hit ∈ more, offset + (b :: rest).length < hit.stop := by
        obtain ⟨more, heq, hmore⟩ := ih (offset + 1) skip name
        refine ⟨more, heq, fun hit hhit => ?_⟩
        have hlt := hmore hit hhit
        rw [List.length_cons]
        omega
      rw [List.cons_append]
      cases skip with
      | succ skip =>
          exact hlater skip name
      | zero =>
          cases name with
          | none =>
              exact hlater 0 _
          | some name =>
              rw [bangCallsFrom, bangCallsFrom]
              by_cases hident : Byte.isIdentifier b = true
              · rw [if_pos hident, if_pos hident]
                exact hlater 0 _
              rw [if_neg hident, if_neg hident]
              by_cases hbang : (b == 0x21) = true
              · rw [if_pos hbang, if_pos hbang]
                rcases closedBy_bracketWidth?.append_cases rest back with
                  ⟨hboth, hcall⟩ | ⟨width, -, hboth, hcall⟩ | ⟨width, hlt, hboth, hcall, hno⟩
                · rw [hboth, hcall]
                  exact hlater 0 none
                · rw [hboth, hcall]
                  obtain ⟨others, heq, hothers⟩ := hlater width none
                  exact ⟨others, congrArg _ heq, hothers⟩
                · -- The front part ends within the call, so it has no bracket.
                  rw [hboth, hcall, bangCallsFrom_eq_nil hno]
                  refine ⟨_, rfl, fun hit hhit => ?_⟩
                  rw [List.length_cons]
                  rcases List.mem_cons.1 hhit with rfl | hhit
                  · dsimp only
                    omega
                  · have hlt := lt_stop_of_mem_bangCallsFrom hhit
                    omega
              · rw [if_neg hbang, if_neg hbang]
                exact hlater 0 none

theorem bangCalls_append
    (front back : Bytes) :
    ∃ more, bangCalls (front ++ back) = bangCalls front ++ more ∧
      ∀ hit ∈ more, front.length < hit.stop := by
  obtain ⟨more, heq, hmore⟩ := bangCallsFrom_append 0 0 none front back
  exact ⟨more, heq, fun hit hhit => by simpa using hmore hit hhit⟩

theorem stop_le_of_mem_bangCalls
    {text : Bytes} {hit : Hit}
    (h : hit ∈ bangCalls text) :
    hit.stop ≤ text.length := by
  obtain ⟨index, c, hstop, hget, -⟩ := exists_bracket_of_mem_bangCallsFrom h
  have hlt := (List.getElem?_eq_some_iff.1 hget).1
  omega

end BangCalls

end Pattern

namespace LineFacts

/-- The last stretch before an offset is the last one of the text before it. -/
theorem lastHit?_append
    {front more : List Hit} {offset : Nat}
    (hfront : ∀ hit ∈ front, hit.stop ≤ offset)
    (hmore : ∀ hit ∈ more, offset < hit.stop) :
    lastHit? (front ++ more) offset = front.getLast? := by
  have hall : front.filter (fun hit => hit.stop ≤ offset) = front :=
    List.filter_eq_self.2 fun hit hhit => decide_eq_true (hfront hit hhit)
  have hnone : more.filter (fun hit => hit.stop ≤ offset) = [] := by
    refine List.filter_eq_nil_iff.2 fun hit hhit => ?_
    have hlt := hmore hit hhit
    simp only [decide_eq_true_eq]
    omega
  rw [lastHit?, List.filter_append, hall, hnone, List.append_nil]

variable {line : Bytes} {offset : Nat}

/-- The last header before an offset is the last one of the text before it, read on its own. -/
theorem lastHit?_headers
    (hvalid : Utf8.valid (line.take offset) = true)
    (hle : offset ≤ line.length) :
    lastHit? (ofLine line).headers offset = (Pattern.headers (line.take offset)).getLast? := by
  have hlen : (line.take offset).length = offset := by
    rw [List.length_take, Nat.min_eq_left hle]
  obtain ⟨more, heq, hmore⟩ := Pattern.headers_append hvalid (line.drop offset)
  rw [List.take_append_drop] at heq
  rw [show (ofLine line).headers = Pattern.headers line from rfl, heq]
  refine lastHit?_append (fun hit hhit => ?_) (fun hit hhit => ?_)
  · exact hlen ▸ Mark.stop_le_of_mem_headers hhit
  · exact hlen ▸ hmore hit hhit

/-- The last call before an offset is the last one of the text before it, read on its own. -/
theorem lastHit?_bangCalls
    (hle : offset ≤ line.length) :
    lastHit? (ofLine line).bangCalls offset =
      (Pattern.bangCalls (line.take offset)).getLast? := by
  have hlen : (line.take offset).length = offset := by
    rw [List.length_take, Nat.min_eq_left hle]
  obtain ⟨more, heq, hmore⟩ := Pattern.bangCalls_append (line.take offset) (line.drop offset)
  rw [List.take_append_drop] at heq
  rw [show (ofLine line).bangCalls = Pattern.bangCalls line from rfl, heq]
  refine lastHit?_append (fun hit hhit => ?_) (fun hit hhit => ?_)
  · exact hlen ▸ Pattern.stop_le_of_mem_bangCalls hhit
  · exact hlen ▸ hmore hit hhit

end LineFacts
end Uncomment

import Uncomment.Proofs.Lexer.Enclosed
import Uncomment.Proofs.Line.Carried
import Uncomment.Proofs.Line.FirstRemoval
import Uncomment.Proofs.Line.Front
import Uncomment.Proofs.Strip.Total

/-!
# Literals broken over two lines

The end of an open literal is found in two ways: by the cursor of the line that opens it, and
by `Lexer.findClose` in a line that starts inside it.  From any stop of a cursor inside a
literal both come to the same offset (`Line.literal_closes_where_cursor_does`).

So it makes no difference to a literal of several lines where it is broken:

* the front part of the line leaves it open (`Cursor.exists_open_of_extend`), since up to a
  stop inside a literal no delimiter depends on what comes behind;
* the back part, as a line of its own, is kept up to the byte at which the cursor of the
  whole line is in code again, and is code from there on.
-/

namespace Uncomment

namespace Cursor

variable {dialect : Dialect} {cursor here stop : Cursor} {line : Bytes}

/-- The offsets behind `low` at which the cursor of a line stops in code. -/
def codeBehind (dialect : Dialect) (line : Bytes) (low : Nat) : Set Nat :=
  {offset | low < offset ∧
    ∃ stop ∈ (start line).trail dialect, stop.offset = offset ∧ stop.span = .code}

theorem eq_of_mem_trail
    (hstop : stop ∈ cursor.trail dialect)
    (hoffset : stop.offset = cursor.offset) :
    stop = cursor := by
  cases hrest : cursor.rest with
  | nil =>
      rw [trail_of_nil hrest] at hstop
      exact List.mem_singleton.1 hstop
  | cons b rest =>
      rw [trail_of_cons hrest] at hstop
      rcases List.mem_cons.1 hstop with rfl | hstop
      · rfl
      · obtain ⟨more, -, -, hnext⟩ := exists_step dialect cursor b rest
        have hle := le_of_mem_trail hstop
        omega

/-- The stops that come behind a stop of a trail are stops of it. -/
theorem mem_trail_trans
    (hhere : here ∈ cursor.trail dialect)
    (hstop : stop ∈ here.trail dialect) :
    stop ∈ cursor.trail dialect := by
  fun_induction trail dialect cursor with
  | case1 cursor hrest =>
      rw [List.mem_singleton.1 hhere, trail_of_nil hrest] at hstop
      exact hstop
  | case2 cursor b rest hrest ih =>
      rcases List.mem_cons.1 hhere with rfl | hhere
      · rw [← trail_of_cons hrest]
        exact hstop
      · exact List.mem_cons_of_mem _ (ih hhere)

/-- The search in the rest of a line, counted from the start of the line. -/
theorem findCloseFrom_offset
    (dialect : Dialect)
    (hat : here.At line) :
    Lexer.findCloseFrom dialect here.span here.offset 0 here.rest =
      (Lexer.findClose dialect here.span (line.drop here.offset)).map (here.offset + ·) := by
  rw [Lexer.findCloseFrom_eq_map, hat.2]
  rfl

/-- Where the search comes to an end a cursor inside a literal is next in code. -/
theorem isLeast_codeBehind
    {close : Nat}
    (hhere : here ∈ (start line).trail dialect)
    (hliteral : here.span ≠ .code)
    (hclose : Lexer.findClose dialect here.span (line.drop here.offset) = some close) :
    IsLeast (codeBehind dialect line here.offset) (here.offset + close) := by
  have hsearch := findCloseFrom_offset dialect (at_of_mem_trail (at_start line) hhere)
  rw [hclose, Option.map_some] at hsearch
  obtain ⟨inside, next, htrail, hinside, hcode, hoffset⟩ :=
    exists_trail_of_findCloseFrom hliteral hsearch
  have hnext : next ∈ here.trail dialect := by
    rw [htrail]
    exact List.mem_append_right _ mem_trail_self
  have hlt : here.offset < next.offset := by
    refine lt_of_le_of_ne (le_of_mem_trail hnext) fun hsame => hliteral ?_
    rw [← eq_of_mem_trail hnext hsame.symm, hcode]
  rw [← hoffset]
  refine ⟨⟨hlt, next, mem_trail_trans hhere hnext, rfl, hcode⟩, ?_⟩
  rintro _ ⟨hbehind, stop, hstop, rfl, hspan⟩
  have hlater := mem_trail_of_le hhere hstop (Nat.le_of_lt hbehind)
  rw [htrail] at hlater
  rcases List.mem_append.1 hlater with hlater | hlater
  · exact absurd hspan (hinside stop hlater)
  · exact le_of_mem_trail hlater

/-- Where the search comes to nothing a cursor stays inside the literal. -/
theorem span_of_findClose_eq_none
    (hhere : here ∈ (start line).trail dialect)
    (hliteral : here.span ≠ .code)
    (hclose : Lexer.findClose dialect here.span (line.drop here.offset) = none)
    (hstop : stop ∈ (start line).trail dialect)
    (hle : here.offset ≤ stop.offset) :
    stop.span = here.span := by
  have hsearch := findCloseFrom_offset dialect (at_of_mem_trail (at_start line) hhere)
  rw [hclose, Option.map_none] at hsearch
  exact span_of_findCloseFrom_eq_none hliteral hsearch (mem_trail_of_le hhere hstop hle)

/-- The search finds the offset at which a cursor inside a literal is next in code. -/
theorem findClose_eq_some_iff
    (hhere : here ∈ (start line).trail dialect)
    (hliteral : here.span ≠ .code)
    (close : Nat) :
    Lexer.findClose dialect here.span (line.drop here.offset) = some close ↔
      IsLeast (codeBehind dialect line here.offset) (here.offset + close) := by
  refine ⟨isLeast_codeBehind hhere hliteral, fun hleast => ?_⟩
  cases hclose : Lexer.findClose dialect here.span (line.drop here.offset) with
  | none =>
      obtain ⟨hbehind, stop, hstop, hoffset, hcode⟩ := hleast.1
      have hspan := span_of_findClose_eq_none hhere hliteral hclose hstop (by omega)
      rw [hcode] at hspan
      exact absurd hspan.symm hliteral
  | some other =>
      have hsame := (isLeast_codeBehind hhere hliteral hclose).unique hleast
      rw [Nat.add_left_cancel hsame]

/-- The search finds nothing if a cursor inside a literal stays there. -/
theorem findClose_eq_none_iff
    (hhere : here ∈ (start line).trail dialect)
    (hliteral : here.span ≠ .code) :
    Lexer.findClose dialect here.span (line.drop here.offset) = none ↔
      ∀ stop ∈ (start line).trail dialect, here.offset ≤ stop.offset →
        stop.span = here.span := by
  refine ⟨fun hclose stop hstop => span_of_findClose_eq_none hhere hliteral hclose hstop,
    fun hstays => ?_⟩
  rw [Option.eq_none_iff_forall_ne_some]
  intro close hclose
  obtain ⟨⟨-, stop, hstop, hoffset, hcode⟩, -⟩ := isLeast_codeBehind hhere hliteral hclose
  exact hliteral ((hstays stop hstop (by omega)).symm.trans hcode)

section

variable {b : UInt8} {text back : Bytes}

theorem opened?_slash
    {c : UInt8} {more : Bytes}
    (hnear : dialect.IsNear)
    (hc : c ∈ [Byte.slash, 0x2A]) :
    cursor.opened? dialect Byte.slash (c :: more) = none := by
  rw [Option.eq_none_iff_forall_ne_some]
  rintro ⟨width, span⟩ hopened
  cases Lexer.opening_of_opening? (opening?_of_opened hopened) with
  | raw hraw =>
      rw [hnear.rawStrings] at hraw
      cases hraw
  | regex _ hopens =>
      rw [Lexer.regexOpens_of_mem _ hc] at hopens
      cases hopens

/--
What a cursor opens in the front part of a line does not depend on what is behind it, if
the delimiter lies in that part, and some byte does where nothing opens.
-/
theorem opened?_append
    (hnear : dialect.IsNear)
    (hwithin : ∀ more span, cursor.opened? dialect b (text ++ back) = some (more, span) →
      more ≤ text.length)
    (hinside : cursor.opened? dialect b (text ++ back) = none → text ≠ []) :
    cursor.opened? dialect b text = cursor.opened? dialect b (text ++ back) := by
  -- At the end of the front part a slash opens what it opens behind, or nothing is asked.
  have hhead (c : UInt8) (hc : c ∈ [Byte.slash, 0x2A]) (hslash : b = Byte.slash)
      (hback : (text ++ back).head? = some c) : text.head? = some c := by
    obtain ⟨more, hmore⟩ := List.head?_eq_some_iff.1 hback
    have hne : text ≠ [] := by
      apply hinside
      rw [hmore, hslash]
      exact opened?_slash hnear hc
    rwa [List.head?_append_of_ne_nil _ hne] at hback
  rw [opened?, opened?] at *
  split
  · rfl
  · next hescaped =>
      rw [if_neg hescaped] at hwithin
      refine Lexer.opening?_of_agree hnear (fun more span hopening => ?_) (fun token _ htoken => ?_)
        fun _ hslash => Lexer.regexOpens_of_agree _ (fun c hc => hhead c hc hslash) fun c _ h => ?_
      · rw [List.take_append_of_le_length (hwithin more span hopening)]
        exact List.take_prefix _ _
      · exact htoken.trans (List.prefix_append (b :: text) back)
      · rw [List.head?_append, h, Option.some_or]

/--
A step to a stop in the front part of a line, or to its end inside a literal, does not
depend on what comes behind.
-/
theorem step_extend
    (hnear : dialect.IsNear)
    (hle : (cursor.step dialect b (text ++ back)).offset ≤ cursor.offset + text.length + 1)
    (hend : (cursor.step dialect b (text ++ back)).offset = cursor.offset + text.length + 1 →
      (cursor.step dialect b (text ++ back)).span ≠ .code) :
    cursor.step dialect b (text ++ back) = (cursor.step dialect b text).extend back := by
  unfold step at hle hend
  refine step_append_of_eq (fun hcode => ?_) (fun hliteral hbackslash => ?_)
    fun hliteral hbackslash => ?_
  · rw [if_pos hcode] at hle hend
    refine (opened?_append hnear (fun more span hopened => ?_) fun hnone hnil => ?_).symm
    · rw [stepCode_of_opened hopened] at hle
      simp only [move] at hle
      omega
    · rw [stepCode_of_not_opened hnone, hnil] at hend
      exact hend rfl hcode
  · rw [if_neg hliteral, stepLiteral, if_pos hbackslash] at hle
    simp only [move, List.length_append] at hle
    rw [List.length_append]
    omega
  · rw [if_neg hliteral, stepLiteral, if_neg hbackslash] at hle
    refine (Span.closing?_of_agree (fun more hmore => ?_) fun token _ htoken => ?_).symm
    · rw [hmore] at hle
      simp only [move] at hle
      rw [List.take_append_of_le_length (by omega)]
      exact List.take_prefix _ _
    · exact htoken.trans (List.prefix_append (b :: text) back)

end

/-- The front part of a line up to a stop inside a literal leaves that literal open. -/
theorem exists_open_of_extend
    {front back : Bytes}
    (hnear : dialect.IsNear)
    (hat : cursor.At front)
    (hhere : here ∈ (cursor.extend back).trail dialect)
    (hoffset : here.offset = front.length)
    (hliteral : here.span ≠ .code) :
    ∃ final, (cursor.trail dialect).getLast? = some final ∧ final.span = here.span := by
  fun_induction trail dialect cursor with
  | case1 cursor hrest =>
      have hend : front.length ≤ cursor.offset := by
        rw [← List.drop_eq_nil_iff, ← hat.2, hrest]
      obtain rfl := eq_of_mem_trail hhere (hoffset.trans (Nat.le_antisymm hend hat.1))
      exact ⟨cursor, rfl, rfl⟩
  | case2 cursor b rest hrest ih =>
      obtain ⟨more, hmore, hstep, hnext⟩ := exists_step dialect cursor b rest
      have hlength : front.length = cursor.offset + rest.length + 1 := by
        have hunread := congrArg List.length (hat.2.symm.trans hrest)
        rw [List.length_drop, List.length_cons] at hunread
        omega
      have hrest' : (cursor.extend back).rest = b :: (rest ++ back) := by
        rw [extend, hrest]
        rfl
      rw [trail_of_cons hrest'] at hhere
      rcases List.mem_cons.1 hhere with rfl | hhere
      · change cursor.offset = front.length at hoffset
        omega
      · have hsame : (cursor.extend back).step dialect b (rest ++ back) =
            cursor.step dialect b (rest ++ back) := rfl
        rw [hsame] at hhere
        have hle := le_of_mem_trail hhere
        rw [step_extend hnear (by omega) fun hend => ?_] at hhere
        · rw [getLast?_cons_trail]
          exact ih (at_of_move hat hrest hmore hstep hnext) hhere
        · rw [← eq_of_mem_trail hhere (by omega)]
          exact hliteral

/-- The front part of a line up to a stop inside a literal ends in that literal. -/
theorem atEnd_take
    (hnear : dialect.IsNear)
    (hhere : here ∈ (start line).trail dialect)
    (hliteral : here.span ≠ .code) :
    (SpanTable.ofLine dialect (line.take here.offset)).atEnd = here.span := by
  have hlength : here.offset = (line.take here.offset).length := by
    rw [List.length_take, Nat.min_eq_left (at_of_mem_trail (at_start line) hhere).1]
  have hwhole : (start (line.take here.offset)).extend (line.drop here.offset) = start line := by
    rw [extend, start, start, List.take_append_drop]
  obtain ⟨final, hfinal, hspan⟩ :=
    exists_open_of_extend hnear (at_start _) (by rwa [hwhole]) hlength hliteral
  rw [SpanTable.atEnd_ofLine hfinal, hspan]

end Cursor

namespace Pruning

/-- Code that stays as it is leaves the mode of the span that is open at its end. -/
theorem mode_of_text_eq
    {language : Language} {code : Bytes} {pruning : Pruning}
    (h : ofLine language code = .ok pruning)
    (htext : pruning.text = code) :
    pruning.mode = .ofSpan language.dialect (SpanTable.ofLine language.dialect code).atEnd := by
  have hnil : pruning.removals = [] := by
    by_contra hne
    have hlt := length_lt_of_removals h hne
    rw [htext] at hlt
    exact Nat.lt_irrefl _ hlt
  obtain ⟨-, hnone⟩ := (reading_of_ofLine h).eq_of_removals_nil hnil
  obtain ⟨final, hfinal⟩ :=
    Cursor.exists_getLast?_trail language.dialect (Cursor.start code)
  rw [ofLine, fromCursor_of_trail hnone hfinal, Except.ok.injEq] at h
  rw [SpanTable.atEnd_ofLine hfinal, ← h]

end Pruning

/-- The span of a literal that goes on in the next line. -/
theorem Mode.span_of_ofSpan
    {dialect : Dialect} {span : Span} {kind : LongLiteral}
    (h : ofSpan dialect span = .literal kind) :
    kind.span = span := by
  cases span with
  | tripleDouble | tripleSingle =>
      cases h
      rfl
  | backtick =>
      rw [ofSpan] at h
      split at h
      · cases h
        rfl
      · cases h
  | code | single | double | regex | raw =>
      cases h

namespace Line

variable {language : Language} {kind : LongLiteral} {line : Bytes}

/-- Where a literal of several lines is open the dialect is near. -/
theorem isNear_of_ofSpan
    {here : Cursor}
    (hhere : here ∈ (Cursor.start line).trail language.dialect)
    (hkind : Mode.ofSpan language.dialect here.span = .literal kind) :
    language.dialect.IsNear := by
  rcases Pruning.isNear_or_single language with hnear | ⟨hdouble, hsingle, htemplate⟩
  · exact hnear
  · have hstart : (Cursor.start line).span.Possible language.dialect := trivial
    have hmode := Mode.possible_ofSpan (Cursor.possible_of_mem_trail hstart hhere)
    rw [hkind] at hmode
    have hnormal := hmode.eq_normal_of_ne (by simp) (by simp) hdouble hsingle htemplate
    cases hnormal

/-- A line that stays as it is leaves a literal of several lines open if its table does. -/
theorem mode_of_unchanged
    {next : Mode}
    (h : process language .normal line = .ok (.unchanged, next))
    (hkind : Mode.ofSpan language.dialect (SpanTable.ofLine language.dialect line).atEnd =
      .literal kind) :
    next = .literal kind := by
  generalize hresult : LineResult.unchanged = result at h
  cases outcome_of_process h with
  | white hwhite =>
      obtain ⟨final, hfinal⟩ :=
        Cursor.exists_getLast?_trail language.dialect (Cursor.start line)
      have hspan := Cursor.span_of_mem_trail_of_isInk (Blank.isInk_of_isAllWhite hwhite)
        (List.mem_of_getLast? hfinal)
      rw [SpanTable.atEnd_ofLine hfinal, hspan] at hkind
      cases hkind
  | @code _ pruning _ hpruning =>
      rcases finish_cases line pruning.text with ⟨-, htext⟩ | hsettle
      · have hmode := Pruning.mode_of_text_eq hpruning htext
        rw [hkind] at hmode
        rw [modeAfter, if_neg (by simp [hmode]), hmode]
      · rw [hsettle] at hresult
        exact absurd hresult.symm (settle_ne_unchanged _)

/-- A line behind the end of a literal is kept up to there, and code from there on. -/
theorem process_literal
    {close : Nat}
    (hplaced : Utf8.Placed line)
    (hclose : Lexer.findClose language.dialect kind.span line = some close) :
    process language (.literal kind) line =
      (Pruning.ofLine language (line.drop close)).map fun result =>
        (finish line (line.take close ++ result.text), result.mode) := by
  rw [process, processLiteral, hclose]
  dsimp only
  rw [startingAt_of_findClose hplaced hclose]
  dsimp only
  cases Pruning.ofLine language (line.drop close) with
  | error fault => rfl
  | ok result =>
      dsimp only [Except.map]
      split
      · next htext =>
          rw [htext, List.take_append_drop, finish, if_pos rfl]
      · rfl

/--
A line that is broken at an offset inside a literal of several lines.  The front part leaves
the literal open, and with it its mode if the part stays as it is.  The back part in that
mode closes the literal at the same byte as the whole line: it is kept up to where the cursor
of the whole line is in code again, and is code from there on, or it stays and leaves the
literal open.
-/
structure BreaksAlike
    (language : Language)
    (kind : LongLiteral)
    (line : Bytes)
    (offset : Nat) : Prop where
  atEnd_front :
    (SpanTable.ofLine language.dialect (line.take offset)).atEnd = kind.span
  mode_front : ∀ next,
    process language .normal (line.take offset) = .ok (.unchanged, next) → next = .literal kind
  closes_back : ∀ next, IsLeast (Cursor.codeBehind language.dialect line offset) next →
    process language (.literal kind) (line.drop offset) =
      (Pruning.ofLine language (line.drop next)).map fun result =>
        (finish (line.drop offset) ((line.take next).drop offset ++ result.text), result.mode)
  stays_back : Cursor.codeBehind language.dialect line offset = ∅ →
    process language (.literal kind) (line.drop offset) = .ok (.unchanged, .literal kind)

/-- Broken at a stop inside a literal of several lines a line is read alike. -/
theorem breaksAlike
    {here : Cursor}
    (hhere : here ∈ (Cursor.start line).trail language.dialect)
    (hkind : Mode.ofSpan language.dialect here.span = .literal kind)
    (hplaced : Utf8.Placed line) :
    BreaksAlike language kind line here.offset := by
  have hspan := Mode.span_of_ofSpan hkind
  have hliteral : here.span ≠ .code := by
    intro hcode
    rw [hcode] at hkind
    cases hkind
  have hback : Utf8.Placed (line.drop here.offset) :=
    hplaced.of_isInfix (List.drop_suffix _ _).isInfix
  have hfront := Cursor.atEnd_take (isNear_of_ofSpan hhere hkind) hhere hliteral
  constructor
  · rw [hspan]
    exact hfront
  · intro next hprocess
    refine mode_of_unchanged hprocess ?_
    rw [hfront]
    exact hkind
  · intro next hleast
    obtain ⟨close, rfl⟩ := Nat.exists_eq_add_of_le (Nat.le_of_lt hleast.1.1)
    have hclose := (Cursor.findClose_eq_some_iff hhere hliteral close).2 hleast
    rw [← hspan] at hclose
    rw [process_literal hback hclose, List.drop_drop, List.drop_take, Nat.add_sub_cancel_left]
  · intro hnone
    have hclose : Lexer.findClose language.dialect kind.span (line.drop here.offset) = none := by
      rw [hspan, Option.eq_none_iff_forall_ne_some]
      intro close hclose
      have hmem := (Cursor.isLeast_codeBehind hhere hliteral hclose).1
      rw [hnone] at hmem
      exact hmem
    rw [process, processLiteral, hclose]

/--
From a stop of a cursor inside a literal the search for the closing delimiter finds the
offset at which the cursor is next in code, and finds nothing if the cursor stays inside the
literal up to the end of the line.  So it does not matter to a literal of several lines
whether the line is broken at the stop.
-/
theorem literal_closes_where_cursor_does
    {dialect : Dialect} {line : Bytes} {here : Cursor}
    (hhere : here ∈ (Cursor.start line).trail dialect)
    (hliteral : here.span ≠ .code) :
    (∀ close, Lexer.findClose dialect here.span (line.drop here.offset) = some close ↔
      IsLeast (Cursor.codeBehind dialect line here.offset) (here.offset + close)) ∧
    (Lexer.findClose dialect here.span (line.drop here.offset) = none ↔
      ∀ stop ∈ (Cursor.start line).trail dialect, here.offset ≤ stop.offset →
        stop.span = here.span) ∧
    ∀ language kind, language.dialect = dialect →
      Mode.ofSpan dialect here.span = .literal kind →
      Utf8.valid line = true →
      BreaksAlike language kind line here.offset := by
  refine ⟨Cursor.findClose_eq_some_iff hhere hliteral,
    Cursor.findClose_eq_none_iff hhere hliteral, ?_⟩
  rintro language kind rfl hkind hvalid
  exact breaksAlike hhere hkind (Utf8.placed_of_valid hvalid)

/-- A template that is broken before an escaped backtick. -/
theorem literal_closes_where_cursor_does_template :
    ⟨Bytes.ofString "\\`b` // c", 6, some 0x61, .backtick, some 0x3D, 0⟩ ∈
        (Cursor.start (Bytes.ofString "x = `a\\`b` // c")).trail Language.javaScript.dialect ∧
      Span.backtick ≠ .code ∧
      Mode.ofSpan Language.javaScript.dialect .backtick = .literal .template ∧
      Utf8.valid (Bytes.ofString "x = `a\\`b` // c") = true ∧
      Lexer.findClose Language.javaScript.dialect .backtick (Bytes.ofString "\\`b` // c") =
        some 4 ∧
      IsLeast (Cursor.codeBehind Language.javaScript.dialect
        (Bytes.ofString "x = `a\\`b` // c") 6) 10 ∧
      (SpanTable.ofLine Language.javaScript.dialect (Bytes.ofString "x = `a")).atEnd =
        .backtick ∧
      process .javaScript (.literal .template) (Bytes.ofString "\\`b` // c") =
        .ok (.replaced (Bytes.ofString "\\`b`"), .normal) := by
  have hhere : (⟨Bytes.ofString "\\`b` // c", 6, some 0x61, .backtick, some 0x3D, 0⟩ : Cursor) ∈
      (Cursor.start (Bytes.ofString "x = `a\\`b` // c")).trail Language.javaScript.dialect := by
    decide +kernel
  have hvalid : Utf8.valid (Bytes.ofString "x = `a\\`b` // c") = true := by
    decide +kernel
  have hclose : Lexer.findClose Language.javaScript.dialect .backtick
      (Bytes.ofString "\\`b` // c") = some 4 := by
    decide +kernel
  obtain ⟨hsome, -, hbroken⟩ := literal_closes_where_cursor_does hhere (by decide)
  have hleast := (hsome 4).1 hclose
  have hbreaks := hbroken .javaScript .template rfl rfl hvalid
  refine ⟨hhere, by decide, rfl, hvalid, hclose, hleast, hbreaks.atEnd_front, ?_⟩
  exact (hbreaks.closes_back 10 hleast).trans (by decide +kernel)

end Line
end Uncomment

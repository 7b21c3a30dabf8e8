import Uncomment.Proofs.Line.Front
import Uncomment.Proofs.Strip.Total

/-!
# The text of a line comment

What a line comment says does not matter, if a space stands between its start token and
its text and the language is not YAML and has no character literals
(`Line.process_of_line_comment`).  No veto and no delimiter looks beyond the space, so the
front of the line decides what is removed, and the comment takes the rest with it.
-/

namespace Uncomment

namespace Pruning

variable {language : Language}

theorem decided_of_space
    {front : Bytes} {offset : Nat}
    (hspace : Byte.space ∈ front.drop offset) :
    Decided language front offset := by
  intro back rule hrule hstart
  have hnot : Byte.space ∉ rule.start := fun hmem =>
    absurd (Language.isBlank_of_mem_start hrule _ hmem) (by decide)
  exact decided_of_mem hspace hnot (by decide) hstart

end Pruning

namespace Line

variable {language : Language}

/--
The text of a line comment does not matter: in a language without character literals,
YAML apart, a line that is cut at a line comment whose start token is followed by a
space becomes the same whatever comes behind that space.
-/
theorem process_of_line_comment
    {before token comment other : Bytes} {pruning : Pruning} {removal : Removal}
    (hyaml : language ≠ .yaml)
    (hrust : language ≠ .rust)
    (hocaml : language ≠ .ocaml)
    (hfsharp : language ≠ .fsharp)
    (hhaskell : language ≠ .haskell)
    (hvalid : Utf8.valid (before ++ token ++ Byte.space :: comment) = true)
    (hother : Utf8.valid other = true)
    (hpruning : Pruning.ofLine language (before ++ token ++ Byte.space :: comment) = .ok pruning)
    (hmem : removal ∈ pruning.removals)
    (hstart : removal.start = before.length)
    (hrule : removal.rule = .line token) :
    ∃ result next,
      process language .normal (before ++ token ++ Byte.space :: comment) = .ok (result, next) ∧
        process language .normal (before ++ token ++ Byte.space :: other) =
          .ok (result, next) := by
  have hnear : language.dialect.IsNear := by
    refine Language.isNear_dialect ?_
    revert hrust hocaml hfsharp hhaskell
    cases language <;> decide
  have hspace : (Byte.space : UInt8) < 0x80 := by decide
  have hvalid' : Utf8.valid (before ++ token ++ Byte.space :: other) = true :=
    (Utf8.valid_append_cons hspace).2 ⟨((Utf8.valid_append_cons hspace).1 hvalid).1, hother⟩
  have hline (back : Bytes) :
      before ++ token ++ Byte.space :: back = before ++ token ++ [Byte.space] ++ back :=
    List.append_cons _ _ _
  have hfront {offset : Nat} (hle : offset ≤ removal.start) :
      Byte.space ∈ (before ++ token ++ [Byte.space]).drop offset := by
    rw [List.drop_append_of_le_length]
    · exact List.mem_append_right _ (List.mem_singleton_self _)
    · rw [List.length_append]
      omega
  obtain ⟨pruning', hpruning'⟩ :=
    Pruning.ofLine_succeeds hyaml (Utf8.placed_of_valid hvalid')
  have hreading := Pruning.reading_of_ofLine hpruning
  have hreading' := Pruning.reading_of_ofLine hpruning'
  have hboth := hvalid
  have hboth' := hvalid'
  rw [hline] at hreading hreading' hboth hboth'
  have hfork := hreading.fork hnear hyaml hboth hboth'
    (fun offset hlt => Pruning.decided_of_space (hfront (Nat.le_of_lt hlt)))
    ⟨Byte.space, hfront (Nat.le_refl _), by decide, by decide⟩
    (Cursor.at_start _) trivial hreading' hmem
  obtain ⟨there, last, later, later', kept, earlier, hat, hoffset, hlater, hlater', hcomment,
    rfl, rfl⟩ := hfork.exists_later
  rw [hrule] at hcomment
  have hdecided : Pruning.Decided language (before ++ token ++ [Byte.space]) there.offset :=
    Pruning.decided_of_space (hfront (Nat.le_of_eq hoffset))
  have hcomment' := (Pruning.commentAt?_extend hyaml hrust hat hdecided hboth').trans
    ((Pruning.commentAt?_extend hyaml hrust hat hdecided hboth).symm.trans hcomment)
  obtain rfl := hlater.eq_of_line hcomment
  obtain rfl := hlater'.eq_of_line hcomment'
  exact process_of_same_left hyaml hpruning hpruning' (List.ne_nil_of_mem hmem)
    (List.append_ne_nil_of_right_ne_nil _ (List.cons_ne_nil _ _)) rfl rfl

/-- An example of `process_of_line_comment`: a line of C with a block comment before. -/
theorem process_of_line_comment_c :
    Pruning.ofLine .c
        (Bytes.ofString "x /* a */ y " ++ Bytes.ofString "//" ++ Byte.space :: Bytes.ofString "b") =
      .ok ⟨Bytes.ofString "x  y ",
        [⟨2, 9, .ofBlock "/*" "*/", false⟩, ⟨12, 16, .ofLine "//", false⟩], .normal⟩ ∧
      ∃ result next,
        process .c .normal
            (Bytes.ofString "x /* a */ y " ++ Bytes.ofString "//" ++
              Byte.space :: Bytes.ofString "b") = .ok (result, next) ∧
          process .c .normal
            (Bytes.ofString "x /* a */ y " ++ Bytes.ofString "//" ++
              Byte.space :: Bytes.ofString "if ( /* \" */") = .ok (result, next) := by
  have hpruning : Pruning.ofLine .c
      (Bytes.ofString "x /* a */ y " ++ Bytes.ofString "//" ++ Byte.space :: Bytes.ofString "b") =
        .ok ⟨Bytes.ofString "x  y ",
          [⟨2, 9, .ofBlock "/*" "*/", false⟩, ⟨12, 16, .ofLine "//", false⟩], .normal⟩ := by
    decide +kernel
  exact ⟨hpruning, process_of_line_comment (by decide) (by decide) (by decide) (by decide)
    (by decide) (by decide +kernel) (by decide +kernel) hpruning
    (List.mem_cons_of_mem _ List.mem_cons_self) rfl rfl⟩

end Line
end Uncomment

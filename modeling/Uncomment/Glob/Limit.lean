import Uncomment.Glob.Basic

/-!
# The nest limit

Globs that apply together are made ready for matching before the first path is
looked at.  There are three ways:

* a glob that compares a path with a text, or with its beginning or its end, is
  looked up directly;
* a glob for paths with one extension is searched for on its own;
* all other globs are searched for together, numbered from zero.

An expression that goes down more than `nestLimit` levels cannot be searched for,
and one such glob makes the whole list useless.  `Glob.excess?` finds it;
globs on their own go before globs that are searched for together.
-/

namespace Uncomment
namespace Glob

/-- How many levels an expression may go down. -/
def nestLimit : Nat := 250

/-- The expression as it is written for a search in whole paths. -/
def searchText (glob : Glob) : String :=
  "(?-u)^" ++ glob.expression.text ++ "$"

/-- How many levels a search goes down; what stands between both ends of a path is a row. -/
def depth (glob : Glob) : Nat :=
  1 + glob.expression.nesting

/-- Whether a glob goes down too many levels. -/
def isTooDeep (glob : Glob) : Bool :=
  nestLimit < glob.depth

/-- The character of a token that stands for itself. -/
def Token.literal? : Token → Option Char
  | .literal c => some c
  | _ => none

/-- The text of tokens that all stand for themselves. -/
def textOf? (tokens : List Token) : Option (List Char) :=
  tokens.mapM Token.literal?

/-- The tokens after the directories at the front. -/
def afterDirs : List Token → List Token
  | .leadingDirs :: rest => rest
  | tokens => tokens

/-- Whether tokens are a text, and not the empty one. -/
def isText (tokens : List Token) : Bool :=
  (textOf? tokens).any (!·.isEmpty)

/-- Whether a glob asks for a text at the end of a path. -/
def isEnding (glob : Glob) : Bool :=
  match afterDirs glob.tokens with
  | .star :: rest =>
      match textOf? rest with
      | none | some [] => false
      | some (c :: more) =>
          if glob.style.separatesSlashes then
            glob.tokens.head? = some .leadingDirs && c = '.' &&
              !List.elem '.' more && !List.elem '/' more
          else c :: more ≠ ['/']
  | tokens => isText tokens

/-- Whether a glob asks for a text at the beginning of a path. -/
def isBeginning (glob : Glob) : Bool :=
  match glob.tokens.getLast? with
  | some .star => !glob.style.separatesSlashes && isText glob.tokens.dropLast
  | some .anythingBelow => (textOf? glob.tokens.dropLast).isSome
  | _ => false

/-- Whether reversed tokens begin with a text up to a dot, without a slash on the way. -/
def endsWithExtension : List Token → Bool
  | .literal c :: older => c = '.' || (c ≠ '/' && endsWithExtension older)
  | _ => false

/-- How a glob is made ready for matching. -/
inductive Preparation where
  /-- It is looked up. -/
  | direct
  /-- It is searched for on its own. -/
  | single
  /-- It is searched for together with others. -/
  | shared
deriving DecidableEq, Repr

/-- How a glob is made ready for matching. -/
def preparation (glob : Glob) : Preparation :=
  if glob.isEnding || glob.isBeginning then .direct
  else if endsWithExtension glob.tokens.reverse then .single
  else .shared

/-- The glob that goes down too many levels. -/
inductive Excess where
  /-- A glob that is searched for on its own, as it is written for that. -/
  | single (searchText : String)
  /-- A glob that is searched for together with others, by its number among them. -/
  | shared (index : Nat)
deriving DecidableEq, Repr

/-- What is said of the expression with the given number. -/
def Excess.expressionMessage (index : Nat) : String :=
  "error parsing pattern " ++ toString index

/-- An excess in words. -/
def Excess.message : Excess → String
  | .single searchText => "error parsing glob '" ++ searchText ++ "': " ++ expressionMessage 0
  | .shared index => expressionMessage index

/-- The glob of a list that goes down too many levels, if there is one. -/
def excess? (globs : List Glob) : Option Excess :=
  let prepared (way : Preparation) : List Glob := globs.filter (·.preparation = way)
  match (prepared .single).find? isTooDeep with
  | some glob => some (.single glob.searchText)
  | none => ((prepared .shared).findIdx? isTooDeep).map .shared

/-- A list has no excess exactly if no glob that is searched for is too deep. -/
theorem excess?_eq_none_iff
    (globs : List Glob) :
    excess? globs = none ↔
      ∀ glob ∈ globs, glob.preparation ≠ .direct → glob.isTooDeep = false := by
  cases h : (globs.filter (·.preparation = .single)).find? isTooDeep with
  | some glob =>
      have deep := List.find?_some h
      have found := List.mem_of_find?_eq_some h
      simp only [List.mem_filter, decide_eq_true_eq] at found
      simp only [excess?, h, reduceCtorEq, false_iff]
      intro shallow
      have contrary := shallow glob found.1 (by simp [found.2])
      simp [contrary] at deep
  | none =>
      simp only [excess?, h, Option.map_eq_none_iff, List.findIdx?_eq_none_iff, List.mem_filter,
        decide_eq_true_eq]
      simp only [List.find?_eq_none, List.mem_filter, decide_eq_true_eq,
        Bool.not_eq_true] at h
      constructor
      · intro shared glob member searched
        cases way : glob.preparation with
        | direct => exact absurd way searched
        | single => exact h glob ⟨member, way⟩
        | shared => exact shared glob ⟨member, way⟩
      · intro shallow glob found
        exact shallow glob found.1 (by simp [found.2])

end Glob
end Uncomment

import Uncomment.Language
import Uncomment.Path

/-!
# Recognising the language of a file

The language of a file follows from its name, from its extension, or, for the
extensions that several languages share, from the text at its head: `sniff`
looks there for words that give a language away.

Letters of the head are compared without regard to case.  It is enough to lower
the ASCII letters: no word that is looked for has a letter `k`, and none ends in
`i`, so no other character could take part in a match by its lower-case form.
-/

namespace Uncomment
namespace Detect

/-- The number of bytes of a file that are looked at. -/
def headLimit : Nat := 8192

/-- The extensions that belong to one language each. -/
def extensions : List String :=
  ["c", "cpp", "cc", "cxx", "h", "hpp", "cs", "mm", "zig", "odin", "jai", "hlsl", "glsl",
   "shader", "java", "scala", "kt", "kts", "groovy", "gradle", "sbt", "js", "jsx", "ts", "tsx",
   "mjs", "cjs", "coffee", "go", "rs", "swift", "dart", "py", "pyw", "rb", "php", "pm", "lua",
   "tcl", "sh", "bash", "zsh", "fish", "ps1", "psm1", "bat", "cmd", "jl", "hs", "elm", "ml",
   "mli", "fs", "fsx", "clj", "cljs", "scm", "lisp", "lsp", "el", "nb", "html", "htm", "xml",
   "svg", "vue", "svelte", "astro", "twig", "erb", "ejs", "hbs", "mustache", "pug", "jade",
   "liquid", "css", "scss", "sass", "less", "styl", "yaml", "yml", "toml", "ini", "cfg", "conf",
   "json", "jsonc", "json5", "md", "markdown", "mdx", "tex", "rst", "asciidoc", "adoc", "sql",
   "plsql", "psql", "asm", "vh", "sv", "vhd", "vhdl", "gd", "pas", "ada", "adb", "ads", "f",
   "for", "f90", "f95", "f03", "cob", "cbl", "erl", "ex", "exs", "nim", "cr", "mk", "cmake",
   "bazel", "bzl", "dockerfile", "tf", "hcl", "nomad", "consul", "vault"]

/-- The extensions that several languages share. -/
def sharedExtensions : List String :=
  ["m", "r", "s", "d", "pl", "pro", "pp", "v"]

/-- The language of a shared extension when the head of the file is not known. -/
def fallback : String → Language
  | "m" | "d" => .c
  | "r" => .r
  | "s" => .assembly
  | "pl" => .perl
  | "pp" => .pascal
  | "v" => .verilog
  | other => .ofTag other

/-- Whether a text in lower case has one of the words. -/
def hasAny (words : List String) (text : Bytes) : Bool :=
  words.any fun word => Bytes.contains (Bytes.ofString word) text

/-- How many of the words a text in lower case has. -/
def countOf (words : List String) (text : Bytes) : Nat :=
  words.countP fun word => Bytes.contains (Bytes.ofString word) text

/-- The language of a file with a shared extension, from the text at its head. -/
def sniff (extension : String) (head : Bytes) : Language :=
  let text := Bytes.lower head
  match extension with
  | "m" =>
      if hasAny ["#import", "@interface", "@implementation", "nsstring", "@property",
          "@synthesize", "foundation/foundation.h"] text then .c
      else if 2 ≤ countOf ["function", "end", "clear all", "clc", "matlab"] text then .matlab
      else .c
  | "r" =>
      if hasAny ["library(", "data.frame", "<-", "ggplot", "dplyr"] text then .r else .unknown
  | "s" =>
      if hasAny [".section", ".global", ".globl", ".text"] text then .assembly
      else if hasAny ["(define"] text then .lisp
      else .assembly
  | "d" => if hasAny ["import std", "void main"] text then .c else .unknown
  | "pl" =>
      if hasAny ["#!/usr/bin/perl", "#!/usr/bin/env perl", "use strict"] text then .perl
      else if hasAny [":-", "?-"] text then .prolog
      else .perl
  | "pro" =>
      if hasAny ["qt", "target"] text then .hash
      else if hasAny [":-", "?-"] text then .prolog
      else .unknown
  | "pp" =>
      if hasAny ["program", "begin"] text then .pascal
      else if hasAny ["class", "node"] text then .hash
      else .pascal
  | "v" => if hasAny ["module", "endmodule", "always"] text then .verilog else .unknown
  | other => fallback other

/-- The language of the files that are known by their whole name. -/
def byFileName? : String → Option Language
  | "Dockerfile" | "dockerfile" | "Containerfile" => some .shell
  | "Makefile" | "makefile" | "GNUmakefile" | "CMakeLists.txt" => some .hash
  | _ => none

/--
The language of a file, or none if its type is not supported.  `head?` is the
content of the file if it can be read; no more than its head is looked at.
-/
def language? (path : Path) (head? : Option Bytes) : Option Language :=
  match path.fileName?.bind byFileName? with
  | some language => some language
  | none =>
      match path.extension? with
      | none => none
      | some written =>
          let extension := String.ofList (written.toList.map Char.toLower)
          if List.elem extension sharedExtensions then
            match head? with
            | some content => some (sniff extension (content.take headLimit))
            | none => some (fallback extension)
          else if List.elem extension extensions then some (.ofTag extension)
          else none

/-- The language of a file of any type. -/
def forcedLanguage (path : Path) (head? : Option Bytes) : Language :=
  (language? path head?).getD .unknown

end Detect
end Uncomment

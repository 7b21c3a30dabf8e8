import Uncomment.Text.Blank

/-!
# Languages

A `Language` is a family of file formats that share one comment grammar.  Every
family has a `name`, further `aliases` that are mostly file extensions, and a
`label` for reports.  `Language.ofTag` reads a tag in any case, with white space
around it and dots before it; a tag that belongs to no family names the family
`unknown`, whose comments start with a number sign.
-/

namespace Uncomment

/-- The families of languages that are told apart. -/
inductive Language where
  | c
  | java
  | swift
  | dart
  | javaScript
  | typeScript
  | go
  | rust
  | json
  | verilog
  | php
  | python
  | ruby
  | shell
  | perl
  | r
  | tcl
  | powerShell
  | batch
  | julia
  | coffeeScript
  | hash
  | toml
  | yaml
  | hcl
  | sql
  | lua
  | haskell
  | ada
  | vhdl
  | ocaml
  | fsharp
  | pascal
  | css
  | scss
  | html
  | markdown
  | latex
  | matlab
  | erlang
  | prolog
  | assembly
  | fortran
  | fortranFree
  | lisp
  | cobol
  | rst
  | unknown
deriving DecidableEq, Repr

namespace Language

/-- All families, in the order of their declaration. -/
def all : List Language :=
  [.c, .java, .swift, .dart, .javaScript, .typeScript, .go, .rust, .json, .verilog, .php,
   .python, .ruby, .shell, .perl, .r, .tcl, .powerShell, .batch, .julia, .coffeeScript, .hash,
   .toml, .yaml, .hcl, .sql, .lua, .haskell, .ada, .vhdl, .ocaml, .fsharp, .pascal, .css, .scss,
   .html, .markdown, .latex, .matlab, .erlang, .prolog, .assembly, .fortran, .fortranFree, .lisp,
   .cobol, .rst, .unknown]

/-- The name of a family, in lower case. -/
def name : Language → String
  | .c => "c"
  | .java => "java"
  | .swift => "swift"
  | .dart => "dart"
  | .javaScript => "javascript"
  | .typeScript => "typescript"
  | .go => "go"
  | .rust => "rust"
  | .json => "json"
  | .verilog => "verilog"
  | .php => "php"
  | .python => "python"
  | .ruby => "ruby"
  | .shell => "shell"
  | .perl => "perl"
  | .r => "r"
  | .tcl => "tcl"
  | .powerShell => "powershell"
  | .batch => "batch"
  | .julia => "julia"
  | .coffeeScript => "coffeescript"
  | .hash => "hash"
  | .toml => "toml"
  | .yaml => "yaml"
  | .hcl => "hcl"
  | .sql => "sql"
  | .lua => "lua"
  | .haskell => "haskell"
  | .ada => "ada"
  | .vhdl => "vhdl"
  | .ocaml => "ocaml"
  | .fsharp => "fsharp"
  | .pascal => "pascal"
  | .css => "css"
  | .scss => "scss"
  | .html => "html"
  | .markdown => "markdown"
  | .latex => "latex"
  | .matlab => "matlab"
  | .erlang => "erlang"
  | .prolog => "prolog"
  | .assembly => "assembly"
  | .fortran => "fortran"
  | .fortranFree => "fortran90"
  | .lisp => "lisp"
  | .cobol => "cobol"
  | .rst => "rst"
  | .unknown => "unknown"

/-- The further tags of a family. -/
def aliases : Language → List String
  | .c =>
      ["cpp", "cc", "cxx", "h", "hpp", "cs", "objc", "mm", "hlsl", "glsl", "shader", "d", "zig",
       "odin", "jai"]
  | .java => ["scala", "kotlin", "kt", "kts", "groovy", "gradle", "sbt"]
  | .javaScript => ["js", "jsx", "mjs", "cjs"]
  | .typeScript => ["ts", "tsx"]
  | .rust => ["rs"]
  | .json => ["jsonc", "json5"]
  | .verilog => ["v", "vh", "sv"]
  | .python => ["py", "pyw", "bazel", "bzl", "starlark"]
  | .ruby => ["rb"]
  | .shell => ["sh", "bash", "zsh", "ksh", "fish", "dockerfile"]
  | .perl => ["pl", "pm"]
  | .powerShell => ["ps1", "psm1"]
  | .batch => ["bat", "cmd"]
  | .julia => ["jl"]
  | .coffeeScript => ["coffee"]
  | .hash =>
      ["make", "mk", "makefile", "cmake", "elixir", "ex", "exs", "nim", "crystal", "cr",
       "gdscript", "gd", "qmake", "puppet"]
  | .toml => ["ini", "cfg", "conf"]
  | .yaml => ["yml"]
  | .hcl => ["tf", "nomad", "consul", "vault"]
  | .sql => ["plsql", "psql"]
  | .haskell => ["hs", "elm"]
  | .ada => ["adb", "ads"]
  | .vhdl => ["vhd"]
  | .ocaml => ["ml", "mli", "mathematica", "nb"]
  | .fsharp => ["fs", "fsx"]
  | .pascal => ["pas", "pp"]
  | .scss => ["sass", "less", "styl"]
  | .html =>
      ["htm", "xml", "svg", "vue", "svelte", "astro", "twig", "erb", "ejs", "hbs", "mustache",
       "liquid", "pug", "jade"]
  | .markdown => ["md", "mdx"]
  | .latex => ["tex"]
  | .erlang => ["erl"]
  | .assembly => ["asm", "s"]
  | .fortran => ["f", "for"]
  | .fortranFree => ["f90", "f95", "f03"]
  | .lisp => ["lsp", "el", "scm", "scheme", "clj", "cljs", "clojure"]
  | .cobol => ["cob", "cbl"]
  | .rst => ["asciidoc", "adoc"]
  | _ => []

/-- Whether a tag in lower case, given by its characters, belongs to a family. -/
def answersTo (tag : List Char) (language : Language) : Bool :=
  (language.name :: language.aliases).any fun known => known.toList == tag

/-- The family of a tag, or `unknown` if it belongs to none. -/
def ofTag (tag : String) : Language :=
  let plain := ((Blank.trimChars tag.toList).dropWhile (· == '.')).map Char.toLower
  (all.find? (answersTo plain)).getD .unknown

/-- The name of a family in capitals, as reports show it. -/
def label (language : Language) : String :=
  String.ofList (language.name.toList.map Char.toUpper)

theorem mem_all (language : Language) :
    language ∈ all := by
  cases language <;> decide

end Language
end Uncomment

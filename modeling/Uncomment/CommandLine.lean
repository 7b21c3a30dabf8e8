import Uncomment.Run.Basic

/-!
# The command line

Arguments are read from left to right.  Options have a long name and some a
letter; letters may be put together, and the last of them may take the rest of
the argument as its value.  A value may also be the next argument, unless that
starts with a hyphen.  After two hyphens every argument is a path.

The first argument that cannot be read ends the reading with a usage error, and
a request for the version or for help ends it as well.  A single file excludes
paths, which shows only at the end.
-/

namespace Uncomment
namespace CommandLine

/-- The options without a value. -/
inductive Flag where
  | force
  | noIgnore
  | followLinks
  | dryRun
  | noBackup
  | json
  | verbose
deriving DecidableEq, Repr

/-- The options with a value. -/
inductive Valued where
  | file
  | exclude
  | maxBytes
  | maxLineLength
deriving DecidableEq, Repr

/-- The options. -/
inductive Switch where
  | flag (flag : Flag)
  | valued (option : Valued)
  | version
  | help
deriving DecidableEq, Repr

/-- The option with a long name. -/
def longSwitch? : String → Option Switch
  | "force" => some (.flag .force)
  | "no-gitignore" => some (.flag .noIgnore)
  | "follow-symlinks" => some (.flag .followLinks)
  | "dry-run" => some (.flag .dryRun)
  | "no-backup" => some (.flag .noBackup)
  | "json" => some (.flag .json)
  | "verbose" => some (.flag .verbose)
  | "file" => some (.valued .file)
  | "exclude" => some (.valued .exclude)
  | "max-bytes" => some (.valued .maxBytes)
  | "max-line-length" => some (.valued .maxLineLength)
  | "version" => some .version
  | "help" => some .help
  | _ => none

/-- The option with a letter. -/
def shortSwitch? : Char → Option Switch
  | 'f' => some (.valued .file)
  | 'E' => some (.valued .exclude)
  | 'v' => some (.flag .verbose)
  | 'V' => some .version
  | 'h' => some .help
  | _ => none

/-- What the arguments read so far have asked for. -/
structure Draft where
  /-- The paths, reversed. -/
  paths : List Path := []
  flags : List Flag := []
  file : Option Path := none
  excludes : List String := []
  maxBytes : Option Nat := none
  maxLineLength : Option Nat := none
deriving DecidableEq, Repr

/-- What the program is asked for. -/
inductive Request where
  | run (settings : Settings)
  | version
  | help
deriving DecidableEq, Repr

/-- Arguments that cannot be read. -/
inductive Usage where
  | unknownOption
  | repeatedOption
  | missingValue
  | unexpectedValue
  | invalidValue
  | fileWithPaths
deriving DecidableEq, Repr

/-- A usage error in words. -/
def Usage.message : Usage → String
  | .unknownOption => "unexpected argument"
  | .repeatedOption => "an option cannot be used multiple times"
  | .missingValue => "a value is required for an option but none was supplied"
  | .unexpectedValue => "an option without a value was given one"
  | .invalidValue => "invalid value for an argument"
  | .fileWithPaths => "a single file cannot be used with paths"

/-- The largest number of bytes that can be given. -/
def largest : Nat := 18446744073709551615

/-- A number in decimal digits, with an optional plus sign, that is not too large. -/
def number? (value : String) : Option Nat :=
  let digits :=
    match value.toList with
    | '+' :: rest => rest
    | cs => cs
  if digits.isEmpty || !digits.all Char.isDigit then none
  else
    let n := digits.foldl (fun n c => n * 10 + (c.toNat - 48)) 0
    if n ≤ largest then some n else none

/-- Cut characters at commas. -/
def splitCommas : List Char → List (List Char)
  | [] => [[]]
  | c :: rest =>
      if c = ',' then [] :: splitCommas rest
      else
        match splitCommas rest with
        | [] => [[c]]
        | part :: more => (c :: part) :: more

/-- Note a flag, which may be given once. -/
def Draft.withFlag (draft : Draft) (flag : Flag) : Except Usage Draft :=
  if List.elem flag draft.flags then .error .repeatedOption
  else .ok { draft with flags := flag :: draft.flags }

/-- Note the value of an option; all but exclude patterns may be given once. -/
def Draft.withValue (draft : Draft) (option : Valued) (value : String) : Except Usage Draft :=
  match option with
  | .exclude =>
      let parts := (splitCommas value.toList).map String.ofList
      .ok { draft with excludes := draft.excludes ++ parts }
  | .file =>
      if value.isEmpty then .error .invalidValue
      else if draft.file.isSome then .error .repeatedOption
      else .ok { draft with file := some (.ofString value) }
  | .maxBytes =>
      match number? value with
      | none => .error .invalidValue
      | some n =>
          if draft.maxBytes.isSome then .error .repeatedOption
          else .ok { draft with maxBytes := some n }
  | .maxLineLength =>
      match number? value with
      | none => .error .invalidValue
      | some n =>
          if draft.maxLineLength.isSome then .error .repeatedOption
          else .ok { draft with maxLineLength := some n }

/-- Note a path. -/
def Draft.withPath (draft : Draft) (value : String) : Except Usage Draft :=
  if value.isEmpty then .error .invalidValue
  else .ok { draft with paths := .ofString value :: draft.paths }

/-- Note all of the given paths. -/
def Draft.withPaths : Draft → List String → Except Usage Draft
  | draft, [] => .ok draft
  | draft, value :: more =>
      match draft.withPath value with
      | .error usage => .error usage
      | .ok next => next.withPaths more

/-- The settings that a complete draft stands for. -/
def Draft.settings (draft : Draft) : Except Usage Settings :=
  if draft.file.isSome && !draft.paths.isEmpty then .error .fileWithPaths
  else
    let has (flag : Flag) : Bool := List.elem flag draft.flags
    let standard : Gate.Limits := {}
    .ok {
      paths := if draft.paths.isEmpty then [⟨["."]⟩] else draft.paths.reverse
      file := draft.file
      force := has .force
      followLinks := has .followLinks
      noIgnore := has .noIgnore
      excludes := draft.excludes
      limits :=
        ⟨draft.maxBytes.getD standard.maxBytes,
         draft.maxLineLength.getD standard.maxLineLength⟩
      dryRun := has .dryRun
      backup := !has .noBackup
      json := has .json }

/-- What has to happen after an argument. -/
inductive Next where
  /-- Go on with the next argument. -/
  | proceed (draft : Draft)
  /-- The next argument is the value of an option. -/
  | await (option : Valued) (draft : Draft)
  /-- Answer a request at once. -/
  | answer (request : Request)
deriving DecidableEq, Repr

/-- Read letters put together in one argument. -/
def readLetters (draft : Draft) : List Char → Except Usage Next
  | [] => .ok (.proceed draft)
  | letter :: rest =>
      match shortSwitch? letter with
      | none => .error .unknownOption
      | some .version => .ok (.answer .version)
      | some .help => .ok (.answer .help)
      | some (.flag flag) =>
          match draft.withFlag flag with
          | .error usage => .error usage
          | .ok next => readLetters next rest
      | some (.valued option) =>
          match rest with
          | [] => .ok (.await option draft)
          | '=' :: value => (draft.withValue option (String.ofList value)).map .proceed
          | value => (draft.withValue option (String.ofList value)).map .proceed

/-- Read an option with a long name, without its two hyphens. -/
def readLong (draft : Draft) (cs : List Char) : Except Usage Next :=
  let name := cs.takeWhile (· != '=')
  let value? : Option String :=
    match cs.drop name.length with
    | [] => none
    | _sign :: value => some (String.ofList value)
  match longSwitch? (String.ofList name), value? with
  | none, _ => .error .unknownOption
  | some (.valued option), some value => (draft.withValue option value).map .proceed
  | some (.valued option), none => .ok (.await option draft)
  | some _, some _ => .error .unexpectedValue
  | some (.flag flag), none => (draft.withFlag flag).map .proceed
  | some .version, none => .ok (.answer .version)
  | some .help, none => .ok (.answer .help)

/-- Read one argument that is not the value of an option. -/
def readArgument (draft : Draft) (argument : String) : Except Usage Next :=
  match argument.toList with
  | '-' :: '-' :: name => readLong draft name
  | '-' :: letter :: letters => readLetters draft (letter :: letters)
  | _ => (draft.withPath argument).map .proceed

/-- Whether an argument can be the value of an option before it. -/
def canBeValue (argument : String) : Bool :=
  argument.toList.head? != some '-' || argument == "-"

/-- Read arguments, the first being the value of an option if one is awaited. -/
def readFrom : Option Valued → Draft → List String → Except Usage Request
  | none, draft, [] => draft.settings.map .run
  | some _, _, [] => .error .missingValue
  | some option, draft, value :: more =>
      if canBeValue value then
        match draft.withValue option value with
        | .error usage => .error usage
        | .ok next => readFrom none next more
      else .error .missingValue
  | none, draft, argument :: more =>
      if argument == "--" then
        match draft.withPaths more with
        | .error usage => .error usage
        | .ok next => next.settings.map .run
      else
        match readArgument draft argument with
        | .error usage => .error usage
        | .ok (.proceed next) => readFrom none next more
        | .ok (.await option next) => readFrom (some option) next more
        | .ok (.answer request) => .ok request

/-- What a list of arguments asks for. -/
def read (arguments : List String) : Except Usage Request :=
  readFrom none {} arguments

/-- The name and the version of the program. -/
def versionText : String := "nocomment 0.1.0"

/-- How the program is used, in short. -/
def helpText : String :=
  "Strip comments from source files in place, keeping a timestamped backup.\n\n" ++
  "Usage: nocomment [OPTIONS] [PATH]...\n\n" ++
  "Options:\n" ++
  "  -f, --file <FILE>          Process a single file instead of walking PATHs\n" ++
  "      --force                Treat every file as supported and lift both limits\n" ++
  "  -E, --exclude <GLOB>       Additional glob patterns to exclude\n" ++
  "      --no-gitignore         Disable reading .gitignore / .ignore / git exclude files\n" ++
  "      --follow-symlinks      Follow symbolic links during traversal\n" ++
  "      --max-bytes <N>        Skip files larger than this many bytes\n" ++
  "      --max-line-length <N>  Skip files with a line longer than this many bytes\n" ++
  "      --dry-run              Report what would change without writing anything\n" ++
  "      --no-backup            Change files without keeping a backup copy\n" ++
  "      --json                 Print the run summary as JSON\n" ++
  "  -v, --verbose              Log per-file decisions to stderr\n" ++
  "  -h, --help                 Print help\n" ++
  "  -V, --version              Print version"

/--
Whether output is coloured.  Variables of the environment may force colours or
turn them off; otherwise they are for terminals.
-/
def wantsColours (lookup : String → Option String) (terminal : Bool) : Bool :=
  if (lookup "CLICOLOR_FORCE").any (· != "0") then true
  else if (lookup "NO_COLOR").isSome then false
  else terminal && (lookup "CLICOLOR").all (· != "0")

/-- What the program answers: its exit code, its output and the line on its error channel. -/
structure Response where
  exit : Nat
  output : String
  error : Option String
deriving DecidableEq, Repr

/-- The answer to how a run has ended. -/
def respond (settings : Settings) (colours : Bool) : Run.Ending → Response
  | .refused refusal => ⟨1, "", some ("Error: " ++ refusal.message)⟩
  | .broken _ => ⟨101, "", none⟩
  | .done result =>
      let printed := result.printed settings colours
      if result.summary.hasFailures then
        ⟨1, printed, some ("Error: " ++ toString result.summary.failed.length ++
          " file(s) could not be processed. See stderr for details.")⟩
      else ⟨0, printed, none⟩

/-- Do what arguments ask for. -/
def execute
    (disk : Disk)
    (here : Location)
    (colours : Bool)
    (stamp : String)
    (arguments : List String) :
    Response × Disk :=
  match read arguments with
  | .error usage => (⟨2, "", some ("error: " ++ usage.message)⟩, disk)
  | .ok .version => (⟨0, versionText ++ "\n", none⟩, disk)
  | .ok .help => (⟨0, helpText ++ "\n", none⟩, disk)
  | .ok (.run settings) =>
      let (ending, left) := Run.run disk here settings stamp
      (respond settings colours ending, left)

end CommandLine
end Uncomment

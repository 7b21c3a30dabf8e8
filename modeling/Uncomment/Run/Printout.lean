import Uncomment.Run.Summary

/-!
# Printing reports and summaries

A run is printed as one line for each file, one for each failure without a file,
and a last line with the counts; or else as a JSON object.  Colours are escape
sequences around a text; a reset inside a coloured text is followed by the colour
again.
-/

namespace Uncomment
namespace Printout

/-- The mark of a changed file. -/
def successMark : String := "\u2713"

/-- The mark of a failure. -/
def failureMark : String := "\u2718"

/-- The mark of a file without comments. -/
def skipMark : String := "-"

/-- The colours in use. -/
inductive Colour where
  | red
  | green
  | yellow
  | cyan
  | dimmed
deriving DecidableEq, Repr

/-- The escape sequence that starts a colour. -/
def Colour.sequence : Colour → String
  | .red => "\x1b[31m"
  | .green => "\x1b[32m"
  | .yellow => "\x1b[33m"
  | .cyan => "\x1b[36m"
  | .dimmed => "\x1b[2m"

/-- The escape sequence that ends a colour. -/
def resetSequence : String := "\x1b[0m"

/-- Put `added` after every occurrence of `mark`, passing over `skip` characters first. -/
def insertAfter (mark added : List Char) : Nat → List Char → List Char
  | _, [] => []
  | skip + 1, c :: rest =>
      if skip = 0 then c :: (added ++ insertAfter mark added 0 rest)
      else c :: insertAfter mark added skip rest
  | 0, c :: rest =>
      if mark.isPrefixOf (c :: rest) then c :: insertAfter mark added (mark.length - 1) rest
      else c :: insertAfter mark added 0 rest

/-- A text in a colour, or as it is if colours are off. -/
def paint (colours : Bool) (colour : Colour) (text : String) : String :=
  if colours then
    let inner :=
      insertAfter resetSequence.toList colour.sequence.toList 0 text.toList
    colour.sequence ++ String.ofList inner ++ resetSequence
  else text

/-- The line of a failure. -/
def failureLine (colours : Bool) (path error : String) : String :=
  paint colours .red failureMark ++ " " ++ path ++ ": " ++ paint colours .red error

/-- The line of a file. -/
def fileLine (colours : Bool) (report : Report) : String :=
  let label :=
    match report.language with
    | some language => "|" ++ language.label ++ "|"
    | none => ""
  match report.outcome with
  | .changed backup =>
      paint colours .green successMark ++ " " ++ paint colours .cyan label ++ " " ++
        report.path ++
        if backup.isNone then " " ++ paint colours .dimmed "(not backed up)" else ""
  | .unchanged =>
      paint colours .dimmed skipMark ++ " " ++ paint colours .dimmed label ++ " " ++
        report.path ++ " " ++ paint colours .dimmed "(no comments)"
  | .skipped reason =>
      paint colours .yellow "skipped" ++ " " ++ report.path ++ " " ++
        paint colours .yellow ("(" ++ reason.message ++ ")")
  | .failed failure => failureLine colours report.path failure.message

/-- The line with the counts. -/
def summaryLine (colours : Bool) (summary : Summary) : String :=
  let count (word : String) (n : Nat) : String := word ++ " " ++ toString n
  let counts :=
    [count "processed" summary.processed, count "changed" summary.changed.length,
     count "unchanged" summary.unchanged.length, count "skipped" summary.skipped.length]
  let failures :=
    if summary.hasFailures then
      [paint colours .red (count "failed" summary.failed.length)]
    else []
  let ending :=
    if summary.dryRun then [paint colours .yellow "dry run"]
    else if summary.backupDirs.isEmpty then []
    else ["backup " ++ ", ".intercalate (summary.backupDirs.map Path.toString)]
  " | ".intercalate (counts ++ failures ++ ending)

/--
The lines of a run: every report, then every failure whose path is that of no
report, then the counts.
-/
def lines (colours : Bool) (reports : List Report) (summary : Summary) : List String :=
  let unreported := summary.failed.filter fun failed =>
    !reports.any fun report => report.path == failed.path
  reports.map (fileLine colours) ++
    unreported.map (fun failed => failureLine colours failed.path failed.text) ++
    [summaryLine colours summary]

/-- The printed form of a run. -/
def text (colours : Bool) (reports : List Report) (summary : Summary) : String :=
  String.join ((lines colours reports summary).map (· ++ "\n"))

/-- The digit of a number below sixteen. -/
def hexDigit (n : Nat) : Char :=
  if n < 10 then Char.ofNat (48 + n) else Char.ofNat (87 + n)

/-- A character inside a JSON string. -/
def jsonChar (c : Char) : List Char :=
  if c.toNat = 0x22 then ['\\', c]
  else if c = '\\' then ['\\', '\\']
  else if c.toNat = 0x08 then ['\\', 'b']
  else if c.toNat = 0x09 then ['\\', 't']
  else if c.toNat = 0x0A then ['\\', 'n']
  else if c.toNat = 0x0C then ['\\', 'f']
  else if c.toNat = 0x0D then ['\\', 'r']
  else if c.toNat < 0x20 then
    ['\\', 'u', '0', '0', hexDigit (c.toNat / 16), hexDigit (c.toNat % 16)]
  else [c]

/-- A JSON string. -/
def jsonString (s : String) : String :=
  "\"" ++ String.ofList (s.toList.flatMap jsonChar) ++ "\""

/-- A JSON array or object whose items stand on lines of their own. -/
def jsonBlock (opener closer indent : String) (items : List String) : String :=
  if items.isEmpty then opener ++ closer
  else
    opener ++ "\n" ++ ",\n".intercalate (items.map fun item => indent ++ "  " ++ item) ++
      "\n" ++ indent ++ closer

/-- A JSON object with a path and a remark under the given key. -/
def jsonRemark (key : String) (remark : Remark) : String :=
  jsonBlock "\x7b" "\x7d" "    "
    ["\"path\": " ++ jsonString remark.path, jsonString key ++ ": " ++ jsonString remark.text]

/-- A summary as a JSON object. -/
def json (summary : Summary) : String :=
  let array (key : String) (items : List String) : String :=
    jsonString key ++ ": " ++ jsonBlock "[" "]" "  " items
  jsonBlock "\x7b" "\x7d" ""
    [array "changed" (summary.changed.map jsonString),
     array "unchanged" (summary.unchanged.map jsonString),
     array "skipped" (summary.skipped.map (jsonRemark "reason")),
     array "failed" (summary.failed.map (jsonRemark "error")),
     array "backup_dirs" (summary.backupDirs.map fun dir => jsonString dir.toString),
     "\"dry_run\": " ++ if summary.dryRun then "true" else "false"]

end Printout
end Uncomment

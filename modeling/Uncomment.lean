import Uncomment.Backup
import Uncomment.CommandLine
import Uncomment.Detect
import Uncomment.Dialect
import Uncomment.Disk.Basic
import Uncomment.Gate
import Uncomment.Glob.Basic
import Uncomment.Glob.Expression
import Uncomment.Glob.Ignore
import Uncomment.Glob.Limit
import Uncomment.Glob.Parse
import Uncomment.Glob.Pattern
import Uncomment.Language
import Uncomment.Lexer.Closing
import Uncomment.Lexer.Cursor
import Uncomment.Lexer.Span
import Uncomment.Lexer.Table
import Uncomment.Line.Mode
import Uncomment.Line.Process
import Uncomment.Line.Pruning
import Uncomment.Main
import Uncomment.Path
import Uncomment.Rule
import Uncomment.Run.Basic
import Uncomment.Run.Job
import Uncomment.Run.Printout
import Uncomment.Run.Summary
import Uncomment.Run.Walk
import Uncomment.Strip
import Uncomment.Text.Blank
import Uncomment.Text.Bytes
import Uncomment.Text.Letter
import Uncomment.Text.Utf8
import Uncomment.Veto.Basic
import Uncomment.Veto.Facts
import Uncomment.Veto.Heading
import Uncomment.Proofs.Lexer.Step
import Uncomment.Proofs.Line.Reading
import Uncomment.Proofs.Line.Around
import Uncomment.Proofs.Line.Exactness
import Uncomment.Proofs.Line.Literals
import Uncomment.Proofs.Line.Again
import Uncomment.Proofs.Line.Modes
import Uncomment.Proofs.Strip.Again
import Uncomment.Proofs.Strip.Idempotence
import Uncomment.Proofs.Line.Shrink
import Uncomment.Proofs.Strip.Blank
import Uncomment.Proofs.Line.Thinning
import Uncomment.Proofs.Line.Unmarked
import Uncomment.Proofs.Strip.Shrink
import Uncomment.Proofs.Checked.Access
import Uncomment.Proofs.Checked.Scan
import Uncomment.Proofs.Checked.Veto
import Uncomment.Proofs.Checked.Strip
import Uncomment.Proofs.Text.Words
import Uncomment.Proofs.Veto.Address
import Uncomment.Proofs.Strip.Faults
import Uncomment.Proofs.Path.Location
import Uncomment.Proofs.Disk.Directories
import Uncomment.Proofs.Disk.LinkFree
import Uncomment.Proofs.Run.Queue
import Uncomment.Proofs.Run.Effect
import Uncomment.Proofs.Run.Schedule
import Uncomment.Proofs.Run.Places
import Uncomment.Proofs.Run.Originals
import Uncomment.Proofs.Run.Later
import Uncomment.Proofs.Run.Alike
import Uncomment.Proofs.Run.Order
import Uncomment.Proofs.Run.Recording
import Uncomment.Proofs.Run.DryRun
import Uncomment.Proofs.Lexer.Table
import Uncomment.Proofs.Line.FirstRemoval
import Uncomment.Proofs.Veto.Header
import Uncomment.Proofs.Line.Carried
import Uncomment.Proofs.Strip.LineEndings
import Uncomment.Proofs.Run.Refusal
import Uncomment.Proofs.Run.Isolation
import Uncomment.Proofs.Run.Outcome
import Uncomment.Proofs.Line.Separation
import Uncomment.Proofs.Line.LineComment
import Uncomment.Proofs.Line.Bodies
import Uncomment.Proofs.Line.Headings
import Uncomment.Proofs.Line.Afresh
import Uncomment.Proofs.Lexer.Pending
import Uncomment.Proofs.Lexer.Enclosed
import Uncomment.Proofs.Text.Joined
import Uncomment.Proofs.Run.Excluded
import Uncomment.Proofs.Run.Mirrored
import Uncomment.Proofs.Run.Printed
import Uncomment.Proofs.Run.Accounting
import Uncomment.Proofs.Text.Encoding
import Uncomment.Proofs.Gate.Decision
import Uncomment.Proofs.Gate.Stripped
import Uncomment.Proofs.Detect.Families
import Uncomment.Proofs.Text.Occurrences
import Uncomment.Proofs.Veto.Matches
import Uncomment.Proofs.Veto.Tables
import Uncomment.Proofs.Veto.Reread
import Uncomment.Proofs.Line.BrokenLiteral
import Uncomment.Proofs.Line.Progress

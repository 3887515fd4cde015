import SimpleBatch.Action
import SimpleBatch.Binary.Basic
import SimpleBatch.Binary.Format
import SimpleBatch.Command
import SimpleBatch.CommandLine
import SimpleBatch.Console
import SimpleBatch.Decimal.Basic
import SimpleBatch.Decimal.Reader
import SimpleBatch.Decimal.Shortest
import SimpleBatch.Fault
import SimpleBatch.Files.Basic
import SimpleBatch.Files.Tree
import SimpleBatch.Generator
import SimpleBatch.Host
import SimpleBatch.Invocation
import SimpleBatch.Line
import SimpleBatch.Machine
import SimpleBatch.Main
import SimpleBatch.Memory
import SimpleBatch.Moment
import SimpleBatch.Operator
import SimpleBatch.Operator.Arithmetic
import SimpleBatch.Operator.Bits
import SimpleBatch.Operator.Conversion
import SimpleBatch.Operator.Test
import SimpleBatch.Operator.Text
import SimpleBatch.Program
import SimpleBatch.Proofs.Addressing
import SimpleBatch.Proofs.Bindings
import SimpleBatch.Proofs.Calls
import SimpleBatch.Proofs.Checked.Memory
import SimpleBatch.Proofs.Checked.Operator
import SimpleBatch.Proofs.Checked.Reading
import SimpleBatch.Proofs.Checked.Run
import SimpleBatch.Proofs.Classification
import SimpleBatch.Proofs.CommandLine
import SimpleBatch.Proofs.Comparison
import SimpleBatch.Proofs.Computation
import SimpleBatch.Proofs.Console
import SimpleBatch.Proofs.ConsoleLine
import SimpleBatch.Proofs.Control
import SimpleBatch.Proofs.Conversion
import SimpleBatch.Proofs.Course
import SimpleBatch.Proofs.Division
import SimpleBatch.Proofs.Draw
import SimpleBatch.Proofs.Echo
import SimpleBatch.Proofs.EchoLine
import SimpleBatch.Proofs.Effect
import SimpleBatch.Proofs.Encoding
import SimpleBatch.Proofs.Escape
import SimpleBatch.Proofs.Failure
import SimpleBatch.Proofs.FileTree
import SimpleBatch.Proofs.Forward
import SimpleBatch.Proofs.Generator
import SimpleBatch.Proofs.Grammar
import SimpleBatch.Proofs.Indexing
import SimpleBatch.Proofs.Insertion
import SimpleBatch.Proofs.Interval
import SimpleBatch.Proofs.KeywordCase
import SimpleBatch.Proofs.Label
import SimpleBatch.Proofs.Modulus
import SimpleBatch.Proofs.Nearest
import SimpleBatch.Proofs.Number
import SimpleBatch.Proofs.Numeral
import SimpleBatch.Proofs.Rendering
import SimpleBatch.Proofs.Repetition
import SimpleBatch.Proofs.Rounding
import SimpleBatch.Proofs.Session
import SimpleBatch.Proofs.Substitution
import SimpleBatch.Proofs.Template
import SimpleBatch.Proofs.Text
import SimpleBatch.Proofs.Token
import SimpleBatch.Proofs.Variables
import SimpleBatch.Proofs.Visit
import SimpleBatch.Proofs.Write
import SimpleBatch.Proofs.Zones
import SimpleBatch.Run
import SimpleBatch.ScriptFolder
import SimpleBatch.Shell.Basic
import SimpleBatch.Shell.Format
import SimpleBatch.Shell.Token
import SimpleBatch.Template
import SimpleBatch.Text.Escape
import SimpleBatch.Text.Lines
import SimpleBatch.Text.Numeral
import SimpleBatch.Text.Repeat
import SimpleBatch.Text.Space
import SimpleBatch.Text.Utf8
import SimpleBatch.Value

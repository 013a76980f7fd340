import SpectrumBasic.Expression.Listing
import SpectrumBasic.Main
import SpectrumBasic.Proofs.Expression.Grammar
import SpectrumBasic.Proofs.Expression.Growth
import SpectrumBasic.Proofs.Expression.Derivation
import SpectrumBasic.Proofs.Attempt
import SpectrumBasic.Proofs.Expression.Evaluation
import SpectrumBasic.Proofs.Screen.Operation
import SpectrumBasic.Proofs.Screen.Repaint
import SpectrumBasic.Proofs.Statement.Execution
import SpectrumBasic.Proofs.Statement.WriteOnly
import SpectrumBasic.Proofs.Machine.Batch
import SpectrumBasic.Proofs.Program.Segment
import SpectrumBasic.Proofs.Machine.Offset
import SpectrumBasic.Proofs.Program.Line
import SpectrumBasic.Proofs.Machine.Seek
import SpectrumBasic.Proofs.Token.Lexer
import SpectrumBasic.Proofs.Statement.Binding
import SpectrumBasic.Proofs.Statement.Nesting
import SpectrumBasic.Proofs.Statement.Failure
import SpectrumBasic.Proofs.Machine.Returns
import SpectrumBasic.Proofs.Token.Numeral
import SpectrumBasic.Proofs.Program.Walk
import SpectrumBasic.Proofs.Statement.Reading
import SpectrumBasic.Proofs.Machine.Trace
import SpectrumBasic.Proofs.Program.Alignment
import SpectrumBasic.Proofs.Machine.Alignment
import SpectrumBasic.Proofs.Program.Padding
import SpectrumBasic.Proofs.Program.LetterCase
import SpectrumBasic.Proofs.Machine.Spelling
import SpectrumBasic.Proofs.Machine.Halt
import SpectrumBasic.Proofs.Machine.TwoDisplays
import SpectrumBasic.Proofs.Token.Span
import SpectrumBasic.Proofs.Expression.Order
import SpectrumBasic.Proofs.Statement.Slots
import SpectrumBasic.Proofs.Statement.Data
import SpectrumBasic.Proofs.Statement.Blame
import SpectrumBasic.Proofs.Machine.Reads
import SpectrumBasic.Proofs.Machine.Report
import SpectrumBasic.Proofs.Statement.Storage
import SpectrumBasic.Proofs.Machine.Records
import SpectrumBasic.Proofs.Machine.Rounds
import SpectrumBasic.Proofs.Token.Tiling
import SpectrumBasic.Proofs.Token.Gap
import SpectrumBasic.Proofs.Statement.Guard
import SpectrumBasic.Proofs.Expression.Links
import SpectrumBasic.Proofs.Expression.Parentheses
import SpectrumBasic.Proofs.Statement.Matching
import SpectrumBasic.Proofs.Expression.Arena
import SpectrumBasic.Proofs.Expression.Visits
import SpectrumBasic.Proofs.Screen.Drawing
import SpectrumBasic.Proofs.Screen.Painting
import SpectrumBasic.Proofs.Token.Printing
import SpectrumBasic.Proofs.Machine.Remark
import SpectrumBasic.Proofs.Screen.Accent
import SpectrumBasic.Proofs.Screen.Address
import SpectrumBasic.Proofs.Statement.Grouping
import SpectrumBasic.Proofs.Token.Words
import SpectrumBasic.Proofs.Statement.Depth
import SpectrumBasic.Proofs.Machine.Numerals

import Lexis.Main
import Lexis.Proofs.Command.Grammar
import Lexis.Proofs.Command.Program
import Lexis.Proofs.Cursor.Decimal
import Lexis.Proofs.Cursor.Position
import Lexis.Proofs.Cursor.Scan
import Lexis.Proofs.Lexeme.Cut
import Lexis.Proofs.Lexeme.Decoding
import Lexis.Proofs.Lexeme.Fault
import Lexis.Proofs.Lexeme.Followed
import Lexis.Proofs.Lexeme.Longest
import Lexis.Proofs.Lexeme.Reading
import Lexis.Proofs.Lexer.Agreement
import Lexis.Proofs.Lexer.Appended
import Lexis.Proofs.Lexer.Boundary
import Lexis.Proofs.Lexer.Course
import Lexis.Proofs.Lexer.Failure
import Lexis.Proofs.Lexer.Given
import Lexis.Proofs.Lexer.Heard
import Lexis.Proofs.Lexer.Integers
import Lexis.Proofs.Lexer.Interleaving
import Lexis.Proofs.Lexer.Literals
import Lexis.Proofs.Lexer.Options
import Lexis.Proofs.Lexer.Release
import Lexis.Proofs.Lexer.Resets
import Lexis.Proofs.Lexer.Respacing
import Lexis.Proofs.Lexer.Running
import Lexis.Proofs.Lexer.Tokenize
import Lexis.Proofs.Lexer.Trace
import Lexis.Proofs.Number.Exact
import Lexis.Proofs.Number.Layout
import Lexis.Proofs.Number.Positional
import Lexis.Proofs.Number.Shortest
import Lexis.Proofs.Reader.Alternatives
import Lexis.Proofs.Reader.Lists
import Lexis.Proofs.Reader.Lookahead
import Lexis.Proofs.Reader.Refinement
import Lexis.Proofs.Reader.Remainder
import Lexis.Proofs.Reader.Streams
import Lexis.Proofs.Reader.TypedReads
import Lexis.Proofs.Run.Boundary
import Lexis.Proofs.Run.Course
import Lexis.Proofs.Run.Failure
import Lexis.Proofs.Run.Placement
import Lexis.Proofs.Run.Restriction
import Lexis.Proofs.Run.Tiling
import Lexis.Reader.Request
import Lexis.Proofs.Error.Report
import Lexis.Proofs.Text.Quoted
import Lexis.Proofs.Token.Listing
import Lexis.Proofs.Reader.Guards
import Lexis.Proofs.Config.KeyOrder
import Lexis.Proofs.Error.Template
import Lexis.Proofs.Config.Validation
import Lexis.Proofs.Head.Agreement
import Lexis.Proofs.Head.Progress
import Lexis.Proofs.Token.Inspect

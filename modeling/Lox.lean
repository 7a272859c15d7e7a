import Lox.Command
import Lox.Diagnostic
import Lox.Expr.Basic
import Lox.Expr.Error
import Lox.Expr.Parse
import Lox.Expr.Rank
import Lox.Expr.Read
import Lox.Main
import Lox.Number.Binary64
import Lox.Number.Decimal
import Lox.Number.Shortest
import Lox.Proofs.Descent.Agreement
import Lox.Proofs.Descent.Chain
import Lox.Proofs.Descent.Machine
import Lox.Proofs.Descent.Progress
import Lox.Proofs.Grammar.Attach
import Lox.Proofs.Grammar.Checker
import Lox.Proofs.Grammar.Derivation
import Lox.Proofs.Grammar.End
import Lox.Proofs.Grammar.Fault
import Lox.Proofs.Grammar.Height
import Lox.Proofs.Grammar.Longest
import Lox.Proofs.Grammar.Meaning
import Lox.Proofs.Grammar.Opening
import Lox.Proofs.Grammar.Outcome
import Lox.Proofs.Grammar.Prefix
import Lox.Proofs.Grammar.Ranked
import Lox.Proofs.Grammar.Recognition
import Lox.Proofs.Grammar.Substitution
import Lox.Proofs.Grammar.Viable
import Lox.Proofs.Guarded.Agreement
import Lox.Proofs.Guarded.Between
import Lox.Proofs.Guarded.Reader
import Lox.Proofs.Guarded.Return
import Lox.Proofs.Guarded.Slice
import Lox.Proofs.Lexical.Begin
import Lox.Proofs.Lexical.Blanking
import Lox.Proofs.Lexical.Distinct
import Lox.Proofs.Lexical.Division
import Lox.Proofs.Lexical.Eager
import Lox.Proofs.Lexical.Equality
import Lox.Proofs.Lexical.Foreign
import Lox.Proofs.Lexical.Items
import Lox.Proofs.Lexical.Layout
import Lox.Proofs.Lexical.Line
import Lox.Proofs.Lexical.Munch
import Lox.Proofs.Lexical.Newline
import Lox.Proofs.Lexical.Order
import Lox.Proofs.Lexical.Record
import Lox.Proofs.Lexical.Spelling
import Lox.Proofs.Number.Interval
import Lox.Proofs.Number.Magnitude
import Lox.Proofs.Number.Nearest
import Lox.Proofs.Number.Numeral
import Lox.Proofs.Number.Printed
import Lox.Proofs.Number.Rounding
import Lox.Proofs.Number.Shortest
import Lox.Proofs.Run.Cut
import Lox.Proofs.Run.Independence
import Lox.Proofs.Run.Listing
import Lox.Proofs.Run.Readability
import Lox.Proofs.Run.Sameness
import Lox.Proofs.Run.Session
import Lox.Proofs.Text.Lines
import Lox.Proofs.Text.Moves
import Lox.Proofs.Text.Place
import Lox.Proofs.Text.Split
import Lox.Run.Report
import Lox.Run.Session
import Lox.Run.Sink
import Lox.Run.Transcript
import Lox.Text.Blank
import Lox.Text.ByteLength
import Lox.Text.CodePoints
import Lox.Text.Description
import Lox.Text.Extender
import Lox.Text.Hidden
import Lox.Text.Ignorable
import Lox.Text.Position
import Lox.Text.Quoted
import Lox.Text.Span
import Lox.Text.Utf8
import Lox.Token.Basic
import Lox.Token.Element
import Lox.Token.Fault
import Lox.Token.Keyword
import Lox.Token.Stream
import Lox.Token.Symbol

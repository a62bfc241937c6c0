import PolishCalc.Console
import PolishCalc.Decimal.Literal
import PolishCalc.Decimal.Shortest
import PolishCalc.Expr.Basic
import PolishCalc.Expr.Eval
import PolishCalc.Expr.Parse
import PolishCalc.Expr.Reader
import PolishCalc.Expr.Render
import PolishCalc.Fault
import PolishCalc.Fault.Report
import PolishCalc.Main
import PolishCalc.Number.Arithmetic
import PolishCalc.Number.Basic
import PolishCalc.Number.Magnitude
import PolishCalc.Number.Render
import PolishCalc.Program
import PolishCalc.Proofs.Agreement
import PolishCalc.Proofs.BinaryForm
import PolishCalc.Proofs.Blame
import PolishCalc.Proofs.Comments
import PolishCalc.Proofs.Consumption
import PolishCalc.Proofs.DepthLimit
import PolishCalc.Proofs.EarliestFault
import PolishCalc.Proofs.Erasure
import PolishCalc.Proofs.FailingNodes
import PolishCalc.Proofs.Grammar
import PolishCalc.Proofs.GridSearch
import PolishCalc.Proofs.IntegerPrograms
import PolishCalc.Proofs.LineSpans
import PolishCalc.Proofs.Lines
import PolishCalc.Proofs.Literals
import PolishCalc.Proofs.Nearest
import PolishCalc.Proofs.OptionalFinish
import PolishCalc.Proofs.Pieces
import PolishCalc.Proofs.Places
import PolishCalc.Proofs.PrintedNumbers
import PolishCalc.Proofs.Printing
import PolishCalc.Proofs.ReadBack
import PolishCalc.Proofs.ReaderRun
import PolishCalc.Proofs.Relocation
import PolishCalc.Proofs.Reports
import PolishCalc.Proofs.RoundTrip
import PolishCalc.Proofs.RoundingInterval
import PolishCalc.Proofs.Scanned
import PolishCalc.Proofs.Seams
import PolishCalc.Proofs.Sessions
import PolishCalc.Proofs.ShortestDigits
import PolishCalc.Proofs.Spelling
import PolishCalc.Proofs.StrayTokens
import PolishCalc.Proofs.Tiling
import PolishCalc.Proofs.Transparency
import PolishCalc.Proofs.WholeNumbers
import PolishCalc.Source.LineIndex
import PolishCalc.Source.Piece
import PolishCalc.Source.Position
import PolishCalc.Source.Scan
import PolishCalc.Source.Slice
import PolishCalc.Source.WhiteSpace
import PolishCalc.Token

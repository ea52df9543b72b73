import InfixCalc.History.Notebook
import InfixCalc.Log.Timestamp
import InfixCalc.Main
import InfixCalc.Proofs.Token.Shape
import InfixCalc.Proofs.Token.Tokenization
import InfixCalc.Proofs.Token.Spelling
import InfixCalc.Proofs.Infix.Grammar
import InfixCalc.Proofs.Infix.Conversion
import InfixCalc.Proofs.Infix.Reading
import InfixCalc.Proofs.Infix.Operand
import InfixCalc.Proofs.Infix.Order
import InfixCalc.Proofs.Rpn.Word
import InfixCalc.Proofs.Calculator.Outcome
import InfixCalc.Proofs.Rpn.Failure
import InfixCalc.Proofs.Calculator.Meaning
import InfixCalc.Proofs.Rpn.RoundTrip
import InfixCalc.Proofs.Token.Boundary
import InfixCalc.Proofs.Calculator.Spacing
import InfixCalc.Proofs.Calculator.Strictness
import InfixCalc.Proofs.Rpn.Waiting
import InfixCalc.Proofs.Calculator.WellFormed
import InfixCalc.Proofs.Session.Command
import InfixCalc.Proofs.Session.Run
import InfixCalc.Proofs.Calculator.Agreement
import InfixCalc.Proofs.Token.Skip
import InfixCalc.Proofs.Token.Mask
import InfixCalc.Proofs.Session.Record
import InfixCalc.Proofs.Run.Interactive
import InfixCalc.Proofs.Json.Grammar
import InfixCalc.Proofs.Json.Number
import InfixCalc.Proofs.Json.Write
import InfixCalc.Proofs.Calculator.Printed
import InfixCalc.Proofs.Rpn.Obstruction
import InfixCalc.Proofs.Rpn.Refusal
import InfixCalc.Proofs.Rpn.Climb
import InfixCalc.Proofs.Arguments.Options
import InfixCalc.Proofs.Run.Configuration
import InfixCalc.Proofs.Run.OneShot
import InfixCalc.Proofs.Decimal.Bits
import InfixCalc.Proofs.Decimal.Rounding
import InfixCalc.Proofs.Decimal.Nearest
import InfixCalc.Proofs.Decimal.Value
import InfixCalc.Proofs.Rpn.Literal
import InfixCalc.Proofs.Decimal.Places
import InfixCalc.Proofs.Decimal.ReadBack
import InfixCalc.Proofs.Json.Reader
import InfixCalc.Proofs.Json.ReadBack
import InfixCalc.Proofs.Calculator.ReadBack
import InfixCalc.Proofs.Text.Line
import InfixCalc.Proofs.Calculator.Lines
import InfixCalc.Proofs.Machine
import InfixCalc.Proofs.History.Growth
import InfixCalc.Proofs.Log.Delivery

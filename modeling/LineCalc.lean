import LineCalc.Main
import LineCalc.Proofs.Statement.Acceptance
import LineCalc.Proofs.Session.Values
import LineCalc.Proofs.Session.Allocation
import LineCalc.Proofs.Session.Atomicity
import LineCalc.Proofs.Session.DryRun
import LineCalc.Proofs.Session.Limits
import LineCalc.Proofs.Session.Recall
import LineCalc.Proofs.Machine.Interpretation
import LineCalc.Proofs.Machine.FirstFault
import LineCalc.Proofs.Machine.MemoryMap
import LineCalc.Proofs.Token.Slices
import LineCalc.Proofs.CommandLine.Inputs
import LineCalc.Instruction.Registers
import LineCalc.Proofs.Tree.Registers
import LineCalc.Proofs.Machine.Agreement
import LineCalc.Proofs.Statement.Registers
import LineCalc.Proofs.Session.Size
import LineCalc.Proofs.CommandLine.Failures
import LineCalc.Proofs.CommandLine.Emission
import LineCalc.Proofs.Machine.Parentheses
import LineCalc.Proofs.Token.RoundTrip
import LineCalc.Proofs.Token.Numerals
import LineCalc.Diagnostic.Explanation
import LineCalc.Proofs.Binary64.Text
import LineCalc.Proofs.Session.Explanations
import LineCalc.Proofs.Instruction.Listing
import LineCalc.Decimal.Notation
import LineCalc.Proofs.Binary64.Order
import LineCalc.Proofs.Decimal.Value
import LineCalc.Proofs.Decimal.Grid
import LineCalc.Proofs.Decimal.Shortest
import LineCalc.Proofs.Binary64.Results
import LineCalc.Proofs.Json.Scan
import LineCalc.Proofs.Json.Reading
import LineCalc.Proofs.Json.Writing
import LineCalc.Config.Settings
import LineCalc.Proofs.Config.Json
import LineCalc.Binary64.Literal
import LineCalc.Proofs.Binary64.Literals
import LineCalc.Instruction.Decoding
import LineCalc.Proofs.Instruction.Json

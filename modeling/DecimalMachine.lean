import DecimalMachine.Assembly.Settle
import DecimalMachine.Diagnostic
import DecimalMachine.Machine.Run
import DecimalMachine.Proofs.Assembly.Bounds
import DecimalMachine.Proofs.Assembly.CarriedLabel
import DecimalMachine.Proofs.Assembly.CodeLines
import DecimalMachine.Proofs.Assembly.Coherence
import DecimalMachine.Proofs.Assembly.Extent
import DecimalMachine.Proofs.Assembly.Faulty
import DecimalMachine.Proofs.Assembly.Findings
import DecimalMachine.Proofs.Assembly.Identifier
import DecimalMachine.Proofs.Assembly.Interleaving
import DecimalMachine.Proofs.Assembly.LineMap
import DecimalMachine.Proofs.Assembly.Listing
import DecimalMachine.Proofs.Assembly.Literal
import DecimalMachine.Proofs.Assembly.LoneLabel
import DecimalMachine.Proofs.Assembly.Monotone
import DecimalMachine.Proofs.Assembly.Plan
import DecimalMachine.Proofs.Assembly.Quotation
import DecimalMachine.Proofs.Assembly.Reference
import DecimalMachine.Proofs.Assembly.Renaming
import DecimalMachine.Proofs.Assembly.Segments
import DecimalMachine.Proofs.Assembly.Settling
import DecimalMachine.Proofs.Assembly.Walk
import DecimalMachine.Proofs.Assembly.Widening
import DecimalMachine.Proofs.Assembly.Widths
import DecimalMachine.Proofs.Instr.Format
import DecimalMachine.Proofs.Instr.RoundTrip
import DecimalMachine.Proofs.Machine.Advance
import DecimalMachine.Proofs.Machine.Broadcast
import DecimalMachine.Proofs.Machine.Changes
import DecimalMachine.Proofs.Machine.Course
import DecimalMachine.Proofs.Machine.Delivery
import DecimalMachine.Proofs.Machine.Faults
import DecimalMachine.Proofs.Machine.History
import DecimalMachine.Proofs.Machine.InPlace
import DecimalMachine.Proofs.Machine.InstructionSet
import DecimalMachine.Proofs.Machine.Lifecycle
import DecimalMachine.Proofs.Machine.Loading
import DecimalMachine.Proofs.Machine.Mirror
import DecimalMachine.Proofs.Machine.Operand
import DecimalMachine.Proofs.Machine.Operation
import DecimalMachine.Proofs.Machine.Program
import DecimalMachine.Proofs.Machine.Recognition
import DecimalMachine.Proofs.Machine.Replay
import DecimalMachine.Proofs.Machine.Reset
import DecimalMachine.Proofs.Machine.Rest
import DecimalMachine.Proofs.Machine.Run
import DecimalMachine.Proofs.Machine.Session
import DecimalMachine.Proofs.Machine.Stopping
import DecimalMachine.Proofs.Machine.WideForm
import DecimalMachine.Proofs.Source.Grammar
import DecimalMachine.Proofs.Source.Line
import DecimalMachine.Proofs.Source.Listing
import DecimalMachine.Proofs.Source.Normal
import DecimalMachine.Proofs.Source.Renaming
import DecimalMachine.Proofs.Source.Token

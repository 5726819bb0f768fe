import DelayHint.Block
import DelayHint.Compact
import DelayHint.Fault
import DelayHint.Hint
import DelayHint.Insert
import DelayHint.Instr
import DelayHint.Instr.Build
import DelayHint.Log
import DelayHint.LoopStack
import DelayHint.Opcode
import DelayHint.Pending
import DelayHint.Program
import DelayHint.RegMap
import DelayHint.Register
import DelayHint.Requirement
import DelayHint.Scan
import DelayHint.Schedule
import DelayHint.Switches
import DelayHint.Text
import DelayHint.Timing
import DelayHint.Total
import DelayHint.Validate
import DelayHint.Violation
import DelayHint.Wait
import DelayHint.Walk.Basic
import DelayHint.Walk.Run
import DelayHint.Proofs.Compact.Agenda
import DelayHint.Proofs.Compact.Spacing
import DelayHint.Proofs.Compact.Validity
import DelayHint.Proofs.Compact.Waits
import DelayHint.Proofs.Defect
import DelayHint.Proofs.Frame
import DelayHint.Proofs.Layout
import DelayHint.Proofs.LoopStack
import DelayHint.Proofs.Pending.Due
import DelayHint.Proofs.Pending.Elapse
import DelayHint.Proofs.Pending.Join
import DelayHint.Proofs.Pending.Normal
import DelayHint.Proofs.Pending.Order
import DelayHint.Proofs.Requirement.Conditions
import DelayHint.Proofs.Requirement.Encoding
import DelayHint.Proofs.Requirement.Level
import DelayHint.Proofs.Scan.Cause
import DelayHint.Proofs.Scan.Coverage
import DelayHint.Proofs.Scan.Cut
import DelayHint.Proofs.Scan.Existing
import DelayHint.Proofs.Scan.Expressible
import DelayHint.Proofs.Scan.Lifetime
import DelayHint.Proofs.Scan.Moments
import DelayHint.Proofs.Scan.Repeat
import DelayHint.Proofs.Scan.Results
import DelayHint.Proofs.Scan.Retire
import DelayHint.Proofs.Scan.Run
import DelayHint.Proofs.Scan.Slots
import DelayHint.Proofs.Scan.Timeline
import DelayHint.Proofs.Scan.Total
import DelayHint.Proofs.Scan.Waits
import DelayHint.Proofs.Switches
import DelayHint.Proofs.Text.Instr
import DelayHint.Proofs.Text.Pending
import DelayHint.Proofs.Text.Reading
import DelayHint.Proofs.Text.Register
import DelayHint.Proofs.Validity
import DelayHint.Proofs.Walk.FixedPoint
import DelayHint.Proofs.Walk.History
import DelayHint.Proofs.Walk.Idempotence
import DelayHint.Proofs.Walk.Placement
import DelayHint.Proofs.Walk.Predecessors
import DelayHint.Proofs.Walk.Reached
import DelayHint.Proofs.Walk.Revisit
import DelayHint.Proofs.Walk.Safety
import DelayHint.Proofs.Walk.Straight
import DelayHint.Proofs.Walk.Termination
import DelayHint.Proofs.Walk.Tightening
import DelayHint.Proofs.Walk.WaitCodes

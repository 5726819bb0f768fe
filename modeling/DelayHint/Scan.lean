import DelayHint.Hint
import DelayHint.Pending
import DelayHint.Timing

/-! The scan of a block: every ALU instruction that reads a pending result gets a hint in front.
`cost` gives the cycles of each instruction on the hardware at hand. -/
namespace DelayHint

namespace Pending

/-- Add what is pending for the registers that an ALU instruction reads. -/
def demand (ctx : Pending) (q : Requirement) (i : Instr) : Except Fault Requirement :=
  if i.isAlu then do
    let units ← i.reads
    return (ctx.valuesAt units).foldl Requirement.join q
  else return q

/-- Wait for a requirement: its cycles pass, and older results are there as well. -/
def wait (ctx : Pending) (q : Requirement) : Except Fault Pending :=
  if q.isEmpty then return ctx
  else do
    let later ← ctx.elapse false false q.maxCycles.toInt
    return discharge later q

/-- What is pending for a register when an ALU instruction has just written it. -/
def written (i : Instr) (latency : UInt8) : Requirement :=
  let cycles := Int8.ofIntClamp latency.toNat
  if i.isTrans then { Requirement.empty with transInstrs := 0, transCycles := cycles }
  else if i.isValu then { Requirement.empty with valuInstrs := 0, valuCycles := cycles }
  else { Requirement.empty with saluCycles := cycles }

def produce (ctx : Pending) (i : Instr) (latency : UInt8) : Except Fault Pending :=
  if i.isAlu then do
    let units ← i.writes
    return ctx.recordAll units (written i latency)
  else return ctx

/-- Issue an instruction. Matrix instructions do not count as vector instructions. -/
def issue (cost : Instr → Cost) (ctx : Pending) (i : Instr) : Except Fault Pending :=
  if i.isBarrier then return RegMap.empty
  else do
    let after ← ctx.produce i (cost i).latency
    elapse after (i.isValu && !i.isWmma) i.isTrans (cost i).issue.toNat

end Pending

namespace Scan

/-- Take in one instruction: what it and the hints before it wait for, and what is pending after
it. -/
def step (cost : Instr → Cost) (q : Requirement) (ctx : Pending) (i : Instr) :
    Except Fault (Requirement × Pending) := do
  let q ← ctx.demand (if i.isHint then q.withHint i else q) i
  let waited ← ctx.wait q
  let after ← Pending.issue cost waited i
  return (q, after)

/-- Write down a requirement if it asks for something, and what is left of it. -/
def flush (q : Requirement) : Except Fault (List Instr × Requirement) :=
  if q.isEmpty then return ([], q) else q.emit []

/-- The code with hints, and what is pending at its end. Hints that are already there are replaced:
their requirements stay queued for the next instruction. -/
def run (cost : Instr → Cost) (q : Requirement) (ctx : Pending) :
    List Instr → Except Fault (List Instr × Pending)
  | [] => do
    let (hints, _) ← flush q
    return (hints, ctx)
  | i :: rest => do
    let (q, ctx) ← step cost q ctx i
    if i.isHint then run cost q ctx rest
    else
      let (hints, q) ← flush q
      let (out, last) ← run cost q ctx rest
      return (hints ++ i :: out, last)

def block (cost : Instr → Cost) (ctx : Pending) (instrs : List Instr) :
    Except Fault (List Instr × Pending) :=
  run cost Requirement.empty ctx instrs

end Scan

end DelayHint

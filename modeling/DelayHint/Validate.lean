import DelayHint.Program

/-! The check for structural defects. The first defect in layout order is the answer. -/
namespace DelayHint

namespace Instr

/-- The spans written and read, in this order. -/
def spans (i : Instr) : List Span := i.defs ++ i.operands.filterMap Operand.span?

def hintViolation? (block ip : Nat) (i : Instr) : Option Violation :=
  if ¬ (i.operands = [] ∧ i.defs = []) then some (.hintRegisters block ip)
  else if 2048 ≤ i.imm.toNat then some (.hintImmediate block ip i.imm)
  else if (Wait.ofCode? (Immediate.first i.imm)).isNone then
    some (.hintWait block ip (Immediate.first i.imm))
  else if (Wait.ofCode? (Immediate.second i.imm)).isNone then
    some (.hintWait block ip (Immediate.second i.imm))
  else if Immediate.maxSkip < Immediate.skip i.imm then
    some (.hintSkip block ip (Immediate.skip i.imm))
  else if Immediate.skip i.imm ≠ 0 ∧ Immediate.second i.imm = 0 then
    some (.hintSkipAlone block ip)
  else none

def spanViolation? (block ip : Nat) (i : Instr) : Option Violation :=
  (i.spans.find? fun s => ¬ s.Fits).map fun s => .register block ip (s.stop - 1)

def violation? (block ip : Nat) (i : Instr) : Option Violation :=
  (if i.isHint then i.hintViolation? block ip else none).or (i.spanViolation? block ip)

end Instr

namespace Block

def indexViolation? (pos : Nat) (b : Block) : Option Violation :=
  if b.index = pos then none else some (.blockIndex pos b.index)

/-- The first edge, predecessors before successors, that leads out of `count` blocks. -/
def edgeViolation? (count pos : Nat) (b : Block) : Option Violation :=
  ((b.preds ++ b.succs).find? fun t => count ≤ t).map (.edge pos)

def instrViolation? (pos : Nat) (b : Block) : Option Violation :=
  b.instrs.zipIdx.findSome? fun x => x.1.violation? pos x.2

def violation? (count pos : Nat) (b : Block) : Option Violation :=
  ((b.indexViolation? pos).or (b.edgeViolation? count pos)).or (b.instrViolation? pos)

end Block

def Program.violation? (p : Program) : Option Violation :=
  p.blocks.zipIdx.findSome? fun x => x.1.violation? p.blocks.length x.2

end DelayHint

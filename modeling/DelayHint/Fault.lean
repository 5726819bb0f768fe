import DelayHint.Opcode
import DelayHint.Violation

/-! Faults: the broken requirements that stop an operation, and their wording. -/
namespace DelayHint

open Text

inductive Fault where
  | registerNumber
  | scalarIndex
  | vectorIndex
  | emptySpan
  | spanUnit
  /-- A register number does not fit 16 bits. -/
  | additionOverflow
  /-- A cycle count does not fit 32 bits. -/
  | subtractionOverflow
  | generation
  | waveSize
  /-- An instruction takes an opcode of one encoding only. -/
  | format (found expected : Format)
  | notSopp
  | notVop3
  | notMemory
  /-- The walk reaches a block whose index is not its position. -/
  | blockIndex (index pos : Nat)
  /-- A requirement to be written as a hint has a negative instruction count. -/
  | negativeDistance
  | negativeCycles
  /-- A loop exit is reached outside of every loop. -/
  | unmatchedExit
  /-- There are `count` blocks, and none at `index`. -/
  | noBlock (count index : Nat)
  | invalidBefore (v : Violation)
  | invalidAfter (v : Violation)
  deriving DecidableEq, Repr

namespace Fault

def unmet (condition : String) : String := "assertion failed: " ++ condition

def unequal (left right : String) : String :=
  "assertion `left == right` failed\n  left: " ++ left ++ "\n right: " ++ right

def message : Fault → String
  | registerNumber => unmet "reg < NUM_PHYS_REGS"
  | scalarIndex => unmet "idx < VGPR_BASE"
  | vectorIndex => unmet "idx < NUM_PHYS_REGS - VGPR_BASE"
  | emptySpan => unmet "size > 0"
  | spanUnit => unmet "i < self.size"
  | additionOverflow => "attempt to add with overflow"
  | subtractionOverflow => "attempt to subtract with overflow"
  | generation => unmet "gfx_level.has_delay_alu()"
  | waveSize => unmet "wave_size == 32 || wave_size == 64"
  | format found expected => unequal found.name expected.name
  | notSopp => unmet "opcode.format() == Format::SOPP"
  | notVop3 => unmet "matches!(opcode.format(), Format::VOP3 | Format::VOP3P)"
  | notMemory =>
    unmet ("matches!(opcode.format(), Format::DS | Format::MUBUF | Format::MTBUF |\n" ++
      "    Format::MIMG | Format::FLAT | Format::GLOBAL | Format::SCRATCH)")
  | blockIndex index pos => unequal (decimal index) (decimal pos)
  | negativeDistance => unmet "delay.valu_instrs >= 0 && delay.trans_instrs >= 0"
  | negativeCycles => unmet "delay.valu_cycles >= 0 && delay.trans_cycles >= 0"
  | unmatchedExit => "Loop exit without a matching loop header"
  | noBlock count index =>
    "index out of bounds: the len is " ++ decimal count ++ " but the index is " ++ decimal index
  | invalidBefore v => "Invalid program before delay insertion: " ++ v.message
  | invalidAfter v => "Invalid program after delay insertion: " ++ v.message

end Fault

end DelayHint

import DelayHint.Register
import DelayHint.Wait

/-! Instructions after register allocation. -/
namespace DelayHint

open Text

inductive Operand where
  | reg (span : Span)
  | const (value : UInt32)
  | undef
  deriving DecidableEq, Repr

namespace Operand

def isConst : Operand → Bool
  | const _ => true
  | _ => false

def isUndef : Operand → Bool
  | undef => true
  | _ => false

def span? : Operand → Option Span
  | reg s => some s
  | _ => none

/-- Constants below 64 are inline constants and written in decimal. -/
def text : Operand → String
  | reg s => s.text
  | const c => if c.toNat < 64 then decimal c.toNat else hex c.toNat
  | undef => "undef"

end Operand

structure Instr where
  opcode : Opcode
  defs : List Span := []
  operands : List Operand := []
  imm : UInt32 := 0
  /-- A word beside the instruction. In a hint its halves are the cycles that it stands for. -/
  passFlags : UInt32 := 0
  deriving DecidableEq, Repr

namespace Instr

def format (i : Instr) : Format := i.opcode.format

def pipe (i : Instr) : PipeClass := i.opcode.pipe

def isValu (i : Instr) : Bool := i.format.isValu

def isSalu (i : Instr) : Bool := i.format.isSalu

def isTrans (i : Instr) : Bool := i.pipe.isTrans

def isWmma (i : Instr) : Bool := i.pipe == .wmma

def isExp (i : Instr) : Bool := i.format == .exp

def isDs (i : Instr) : Bool := i.format == .ds

def isMimg (i : Instr) : Bool := i.format == .mimg

def isMubuf (i : Instr) : Bool := i.format == .mubuf

def isMtbuf (i : Instr) : Bool := i.format == .mtbuf

def isFlatLike (i : Instr) : Bool := i.format.isFlatLike

/-- The hint instruction `s_delay_alu`. -/
def isHint (i : Instr) : Bool := i.opcode == .sDelayAlu

/-- ALU instructions are the ones that can wait for a result. -/
def isAlu (i : Instr) : Bool := i.isValu || i.isSalu

/-- Exports and memory accesses take so long that every pending result is there afterwards. -/
def isBarrier (i : Instr) : Bool := i.isExp || i.format.isMemory

def reads (i : Instr) : Except Fault (List Reg) :=
  Span.allUnits (i.operands.filterMap Operand.span?)

def writes (i : Instr) : Except Fault (List Reg) := Span.allUnits i.defs

def defsText : List Span → String
  | [] => ""
  | defs => String.intercalate ", " (defs.map Span.text) ++ " = "

def operandsText : List Operand → String
  | [] => ""
  | operands => " " ++ String.intercalate ", " (operands.map Operand.text)

def immText (i : Instr) : String :=
  match i.format with
  | .sopp | .sopk => " imm:" ++ decimal i.imm.toNat
  | _ => ""

/-- A hint shows the fields of its immediate, any other instruction its operands. -/
def text (i : Instr) : String :=
  defsText i.defs ++ i.opcode.name ++
    if i.isHint then Immediate.text i.imm else operandsText i.operands ++ i.immText

end Instr

end DelayHint

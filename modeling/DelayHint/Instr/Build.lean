import DelayHint.Instr

/-! Instructions by encoding. Each constructor takes opcodes of its own encoding only. -/
namespace DelayHint.Instr

def ofFormat (expected : Format) (op : Opcode) (defs : List Span)
    (operands : List Operand) : Except Fault Instr :=
  if op.format = expected then .ok (Instr.mk op defs operands 0 0)
  else .error (.format op.format expected)

def pseudo (op : Opcode) (defs : List Span) (operands : List Operand) : Except Fault Instr :=
  ofFormat .pseudo op defs operands

def sop1 (op : Opcode) (dst : Span) (src : Operand) : Except Fault Instr :=
  ofFormat .sop1 op [dst] [src]

def sop2 (op : Opcode) (dst : Span) (a b : Operand) : Except Fault Instr :=
  ofFormat .sop2 op [dst] [a, b]

def sopc (op : Opcode) (a b : Operand) : Except Fault Instr :=
  ofFormat .sopc op [] [a, b]

def sopp (op : Opcode) (imm : UInt32) : Except Fault Instr :=
  if op.format = .sopp then .ok (Instr.mk op [] [] imm 0) else .error .notSopp

def smem (op : Opcode) (dst : Span) (address : Operand) : Except Fault Instr :=
  ofFormat .smem op [dst] [address]

def vop1 (op : Opcode) (dst : Span) (src : Operand) : Except Fault Instr :=
  ofFormat .vop1 op [dst] [src]

def vop2 (op : Opcode) (dst : Span) (a b : Operand) : Except Fault Instr :=
  ofFormat .vop2 op [dst] [a, b]

/-- Three-operand vector instructions, packed ones included. -/
def vop3 (op : Opcode) (dst : Span) (operands : List Operand) : Except Fault Instr :=
  if op.format = .vop3 ∨ op.format = .vop3p then .ok (Instr.mk op [dst] operands 0 0)
  else .error .notVop3

/-- Vector memory and local data share accesses. -/
def mem (op : Opcode) (defs : List Span) (operands : List Operand) : Except Fault Instr :=
  if op.format.isMemory then .ok (Instr.mk op defs operands 0 0) else .error .notMemory

def exp (operands : List Operand) : Instr := Instr.mk .exp [] operands 0 0

end DelayHint.Instr

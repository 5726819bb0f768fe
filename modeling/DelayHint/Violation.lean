import DelayHint.Text

/-! Structural defects of a program that the delay passes do not accept. -/
namespace DelayHint

open Text

/-- A defect and where it is: the block's position `block`, the instruction's position `ip`. -/
inductive Violation where
  /-- The block at position `pos` carries another index. -/
  | blockIndex (pos index : Nat)
  | hintRegisters (block ip : Nat)
  /-- A hint's immediate has bits above its fields. -/
  | hintImmediate (block ip : Nat) (imm : UInt32)
  | hintSkip (block ip skip : Nat)
  | hintWait (block ip wait : Nat)
  /-- A hint skips instructions and then waits for nothing. -/
  | hintSkipAlone (block ip : Nat)
  | edge (block target : Nat)
  | register (block ip reg : Nat)
  deriving DecidableEq, Repr

def Violation.hintAt (block ip : Nat) : String :=
  "BB" ++ decimal block ++ ": s_delay_alu at " ++ decimal ip

def Violation.message : Violation → String
  | .blockIndex pos index => "BB" ++ decimal pos ++ " has index " ++ decimal index
  | .hintRegisters block ip => hintAt block ip ++ " has operands or definitions"
  | .hintImmediate block ip imm =>
    hintAt block ip ++ " has immediate " ++ hex imm.toNat ++ " with bits above 10 set"
  | .hintSkip block ip skip => hintAt block ip ++ " has invalid instskip " ++ decimal skip
  | .hintWait block ip wait => hintAt block ip ++ " has invalid wait " ++ hex wait
  | .hintSkipAlone block ip => hintAt block ip ++ " has instskip without instid1"
  | .edge block target =>
    "BB" ++ decimal block ++ " has an edge to nonexistent BB" ++ decimal target
  | .register block ip reg =>
    "BB" ++ decimal block ++ ": instruction at " ++ decimal ip ++
      " uses out-of-range register " ++ decimal reg

end DelayHint

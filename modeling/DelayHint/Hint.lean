import DelayHint.Instr
import DelayHint.Requirement

/-! Hints as written requirements: the wait codes go into the immediate, the cycle counts of the
vector and the transcendental unit into the two halves of the word beside it. -/
namespace DelayHint.Requirement

/-- Take over the wait of a code. The scalar codes are read on past the last valid one. -/
def withWait (q : Requirement) (code : Nat) : Requirement :=
  if 1 ≤ code ∧ code ≤ 4 then { q with valuInstrs := Int8.ofNat code }
  else if 5 ≤ code ∧ code ≤ 7 then { q with transInstrs := Int8.ofNat (code - 4) }
  else if 9 ≤ code then { q with saluCycles := Int8.ofNat (code - 8) }
  else q

/-- Take over the cycle counts. Of each half only the low byte counts. -/
def withCycles (q : Requirement) (word : UInt32) : Requirement :=
  { q with
    valuCycles := word.toUInt8.toInt8
    transCycles := (word >>> 16).toUInt8.toInt8 }

def withHint (q : Requirement) (i : Instr) : Requirement :=
  ((q.withWait (Immediate.first i.imm)).withWait (Immediate.second i.imm)).withCycles i.passFlags

def transCode (q : Requirement) : Nat :=
  if q.transInstrs = transNop then 0 else q.transInstrs.toNatClampNeg + 4

def valuCode (q : Requirement) : Nat :=
  if q.valuInstrs = valuNop then 0 else q.valuInstrs.toNatClampNeg

def saluCode (q : Requirement) : Nat :=
  if q.saluCycles = 0 then 0 else (min 3 q.saluCycles).toNatClampNeg + 8

/-- The wait codes of a requirement, by precedence. A result that no vector instruction has
followed yet has none. -/
def codes (q : Requirement) : List Nat := [q.transCode, q.valuCode, q.saluCode].filter (· ≠ 0)

def cycleWord (q : Requirement) : UInt32 :=
  UInt32.ofNat (q.valuCycles.toNatClampNeg + 65536 * q.transCycles.toNatClampNeg)

/-- The hint with the requirement's first two wait codes. A third one is dropped, which costs a
stall and nothing else. -/
def hint (q : Requirement) : Except Fault Instr :=
  if q.valuInstrs < 0 ∨ q.transInstrs < 0 then .error .negativeDistance
  else if q.valuCycles < 0 ∨ q.transCycles < 0 then .error .negativeCycles
  else .ok
    { opcode := .sDelayAlu
      imm := Immediate.ofWaits (q.codes.getD 0 0) (q.codes.getD 1 0)
      passFlags := q.cycleWord }

/-- Write down a requirement behind some code. Nothing of it is left. -/
def emit (q : Requirement) (out : List Instr) : Except Fault (List Instr × Requirement) := do
  let h ← q.hint
  return (out ++ [h], empty)

end DelayHint.Requirement

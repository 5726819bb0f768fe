import DelayHint.Log
import DelayHint.Program

/-! Compaction: two hints with one wait each become one hint that skips to its second wait. -/
namespace DelayHint

/-- A hint with at most one wait. -/
def Instr.isSingleHint (i : Instr) : Bool := i.isHint && Immediate.isSingle i.imm

/-- Give a single hint the wait of another one, `distance` instructions on. -/
def Instr.mergeHint (h : Instr) (distance : Nat) (next : Instr) : Instr :=
  { h with imm := Immediate.merge h.imm distance next.imm }

namespace Compact

/-- The skip distances that fit between two merged hints are below this. -/
def reach : Nat := 6

/-- Compact code behind an open single hint and the instructions since, if there is one. The number
counts the merged pairs. -/
def run : Option (Instr × List Instr) → List Instr → List Instr × Nat
  | none, [] => ([], 0)
  | some (h, between), [] => (h :: between, 0)
  | none, i :: rest =>
    if i.isSingleHint then run (some (i, [])) rest
    else
      let (out, n) := run none rest
      (i :: out, n)
  | some (h, between), i :: rest =>
    if i.isSingleHint then
      if between.length < reach then
        let (out, n) := run none rest
        (h.mergeHint between.length i :: (between ++ out), n + 1)
      else
        let (out, n) := run (some (i, [])) rest
        (h :: (between ++ out), n)
    else run (some (h, between ++ [i])) rest

def block (instrs : List Instr) : List Instr × Nat := run none instrs

end Compact

namespace Program

def compact (p : Program) : Program :=
  { p with blocks := p.blocks.map fun b => { b with instrs := (Compact.block b.instrs).1 } }

/-- The number of hints that compaction removes. -/
def mergedPairs (p : Program) : Nat := total (fun b => (Compact.block b.instrs).2) p.blocks

end Program

end DelayHint

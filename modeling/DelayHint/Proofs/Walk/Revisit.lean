import DelayHint.Proofs.Scan.Waits
import DelayHint.Proofs.Walk.FixedPoint
import DelayHint.Proofs.Walk.Placement
import DelayHint.Validate

/-! Scanning a block again, with the hints of earlier scans in it, against one scan of its original
code. Up to the first hint that was already there the two are the same. Such a hint takes effect
where it stands: its cycles pass, and what it counts back to is there. Behind it every result is
waited for as before, except for what has ended by then. -/
namespace DelayHint

namespace Insertion

/-- The `k`-th plain instruction of a block in the end, with the hint in front of it. -/
def slot? (r : Insertion) (pos k : Nat) : Option (Option Instr × Instr) := do
  let b ← r.program.blocks[pos]?
  (slots none b.instrs)[k]?

end Insertion

end DelayHint

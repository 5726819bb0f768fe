import DelayHint.Walk.Run

/-! Hints for a whole program. -/
namespace DelayHint

/-- A program with hints, what is pending at the start and end of each block, and the history of the
walk that placed the hints. -/
structure Insertion where
  program : Program
  entries : List Pending
  exits : List Pending
  events : List Event

namespace Insertion

def visits (r : Insertion) : List Visit := r.events.filterMap Event.visit?

/-- The number of hints written, those of repeated scans included. -/
def numHints (r : Insertion) : Nat := total (·.after.countP Instr.isHint) r.visits

def log (r : Insertion) : List Message :=
  r.events.map Event.message ++
    [.inserted r.visits.length r.program.blocks.length r.numHints]

/-- What the walk over a program has found when it ends. -/
def ofWalk (p : Program) (w : Walk) : Insertion where
  program := { p with blocks := w.cells.map Cell.block }
  entries := w.cells.map Cell.entry
  exits := w.cells.map Cell.exit
  events := w.events.toList

end Insertion

/-- Put a hint in front of every ALU instruction that reads a result which may not be there yet. -/
def Program.insertHints (p : Program) : Except Fault Insertion := do
  let w ← Walk.run p.cost (Walk.start p.blocks)
  return .ofWalk p w

end DelayHint

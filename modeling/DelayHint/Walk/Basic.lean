import DelayHint.Log
import DelayHint.LoopStack
import DelayHint.Program
import DelayHint.Scan

/-! The walk over the blocks of a program in layout order. At a loop exit it goes back to the loop's
header as long as something inside the loop has changed. -/
namespace DelayHint

/-- A block and what is pending at its start and end so far. -/
structure Cell where
  block : Block
  entry : Pending := RegMap.empty
  exit : Pending := RegMap.empty
  visited : Bool := false
  deriving DecidableEq

structure Visit where
  block : Nat
  /-- The block had been scanned before. -/
  again : Bool
  entry : Pending
  exit : Pending
  before : List Instr
  after : List Instr
  deriving DecidableEq

inductive Event where
  | scan (v : Visit)
  | loopAgain (exit header : Nat)
  deriving DecidableEq

namespace Event

def visit? : Event → Option Visit
  | scan v => some v
  | loopAgain .. => none

def message : Event → Message
  | scan v => .scanned v.block v.again v.entry.size v.exit.size
  | loopAgain exit header => .loopAgain exit header

end Event

/-- A walk in progress: it stands in front of the block at `pos`. -/
structure Walk where
  cells : List Cell
  loops : LoopStack := LoopStack.empty
  pos : Nat := 0
  events : Array Event := #[]
  deriving DecidableEq

namespace Walk

def start (blocks : List Block) : Walk := { cells := blocks.map fun b => { block := b } }

/-- Open or close a loop at a block. The header comes back if the loop has to be walked again. -/
def arrive (loops : LoopStack) (b : Block) : Except Fault (Option Nat × LoopStack) :=
  if b.isLoopHeader then .ok (none, loops.enter b.index)
  else if b.isLoopExit then loops.leave
  else .ok (none, loops)

/-- Join what is pending at the end of the predecessors, and say whether something changed. -/
def gather (cells : List Cell) (ctx : Pending) : List Nat → Except Fault (Pending × Bool)
  | [] => .ok (ctx, false)
  | p :: rest =>
    match cells[p]? with
    | none => .error (.noBlock cells.length p)
    | some c => do
      let (joined, changed) ← gather cells (ctx.join c.exit) rest
      return (joined, ctx.tightenedBy c.exit || changed)

theorem gather_cons {cells : List Cell} {ctx entry : Pending} {p : Nat} {rest : List Nat}
    {changed : Bool} (h : gather cells ctx (p :: rest) = .ok (entry, changed)) :
    ∃ c later, cells[p]? = some c ∧ gather cells (ctx.join c.exit) rest = .ok (entry, later) ∧
      changed = (ctx.tightenedBy c.exit || later) := by
  simp only [gather] at h
  split at h
  · cases h
  · rename_i c hc
    cases hg : gather cells (ctx.join c.exit) rest with
    | error f =>
      rw [hg] at h
      cases h
    | ok out =>
      rw [hg] at h
      cases h
      exact ⟨c, out.2, hc, hg, rfl⟩

def scan (cost : Instr → Cost) (s : Walk) (cell : Cell) (loops : LoopStack) (entry : Pending) :
    Except Fault Walk := do
  let (instrs, exit) ← Scan.block cost entry cell.block.instrs
  return {
    cells := s.cells.set s.pos
      { block := { cell.block with instrs }, entry, exit, visited := true }
    loops := loops.processed cell.block.depth
    pos := s.pos + 1
    events := s.events.push <| .scan
      ⟨s.pos, cell.visited, entry, exit, cell.block.instrs, instrs⟩ }

/-- Take in the block at the current position. Nothing is known about the way into a discard exit,
so it is left alone, and so is a block that would be scanned as it was before. -/
def step (cost : Instr → Cost) (s : Walk) (cell : Cell) : Except Fault Walk :=
  if cell.block.index ≠ s.pos then .error (.blockIndex cell.block.index s.pos)
  else if cell.block.isDiscardExit then .ok { s with pos := s.pos + 1 }
  else
    match arrive s.loops cell.block with
    | .error f => .error f
    | .ok (some header, loops) =>
      .ok { s with loops, pos := header, events := s.events.push (.loopAgain s.pos header) }
    | .ok (none, loops) =>
      match gather s.cells cell.entry cell.block.preds with
      | .error f => .error f
      | .ok (entry, changed) =>
        if cell.visited && !changed then .ok { s with loops, pos := s.pos + 1 }
        else scan cost s cell loops entry

/-- What a step of the walk does, by the place it comes to. -/
inductive Step (cost : Instr → Cost) (s : Walk) (cell : Cell) : Walk → Prop where
  | discard (hi : cell.block.index = s.pos) (hd : cell.block.isDiscardExit) :
    Step cost s cell { s with pos := s.pos + 1 }
  | back (hi : cell.block.index = s.pos) (hd : ¬ cell.block.isDiscardExit) {header : Nat}
    {loops : LoopStack} (ha : arrive s.loops cell.block = .ok (some header, loops)) :
    Step cost s cell
      { s with loops, pos := header, events := s.events.push (.loopAgain s.pos header) }
  | idle (hi : cell.block.index = s.pos) (hd : ¬ cell.block.isDiscardExit) {loops : LoopStack}
    {entry : Pending} (ha : arrive s.loops cell.block = .ok (none, loops))
    (hg : gather s.cells cell.entry cell.block.preds = .ok (entry, false)) (hv : cell.visited) :
    Step cost s cell { s with loops, pos := s.pos + 1 }
  | visit (hi : cell.block.index = s.pos) (hd : ¬ cell.block.isDiscardExit) {loops : LoopStack}
    {entry exit : Pending} {changed : Bool} {instrs : List Instr}
    (ha : arrive s.loops cell.block = .ok (none, loops))
    (hg : gather s.cells cell.entry cell.block.preds = .ok (entry, changed))
    (hv : cell.visited → changed)
    (hs : Scan.block cost entry cell.block.instrs = .ok (instrs, exit)) :
    Step cost s cell {
      cells := s.cells.set s.pos
        { block := { cell.block with instrs }, entry, exit, visited := true }
      loops := loops.processed cell.block.depth
      pos := s.pos + 1
      events := s.events.push <| .scan
        ⟨s.pos, cell.visited, entry, exit, cell.block.instrs, instrs⟩ }

theorem step_of_eq_ok {cost : Instr → Cost} {s t : Walk} {cell : Cell}
    (h : step cost s cell = .ok t) : Step cost s cell t := by
  unfold step at h
  split at h
  · cases h
  · rename_i hi
    rw [ne_eq, Decidable.not_not] at hi
    split at h
    · rename_i hd
      cases h
      exact .discard hi hd
    · rename_i hd
      split at h
      · cases h
      · rename_i ha
        cases h
        exact .back hi hd ha
      · rename_i loops ha
        split at h
        · cases h
        · rename_i entry changed hg
          split at h
          · rename_i hv
            cases h
            simp only [Bool.and_eq_true, Bool.not_eq_true'] at hv
            exact .idle hi hd ha (hv.2 ▸ hg) hv.1
          · rename_i hv
            unfold scan at h
            cases hs : Scan.block cost entry cell.block.instrs with
            | error f =>
              rw [hs] at h
              cases h
            | ok out =>
              rw [hs] at h
              cases h
              exact .visit hi hd ha hg (by simpa using hv) hs

end Walk

end DelayHint

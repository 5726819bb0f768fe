import DelayHint.Block
import DelayHint.Timing
import DelayHint.Total

/-! Programs: blocks in layout order, for hardware with a cycle model. -/
namespace DelayHint

inductive Wave where
  | w32 | w64
  deriving DecidableEq, Repr

namespace Wave

def lanes : Wave → Nat
  | w32 => 32
  | w64 => 64

def ofLanes (n : Nat) : Except Fault Wave :=
  if n = 32 then .ok w32 else if n = 64 then .ok w64 else .error .waveSize

end Wave

structure Program where
  model : CycleModel
  wave : Wave
  blocks : List Block

namespace Program

def empty (model : CycleModel) (wave : Wave) : Program := ⟨model, wave, []⟩

def cost (p : Program) (i : Instr) : Cost := p.model.cost i p.wave.lanes

def block (p : Program) (pos : Nat) : Except Fault Block :=
  match p.blocks[pos]? with
  | some b => .ok b
  | none => .error (.noBlock p.blocks.length pos)

def modifyBlock (p : Program) (pos : Nat) (f : Block → Block) : Except Fault Program :=
  if pos < p.blocks.length then .ok { p with blocks := p.blocks.modify pos f }
  else .error (.noBlock p.blocks.length pos)

/-- Append a block without code. Its index is its position. -/
def addBlock (p : Program) (kind : BlockKind) (depth : Nat) : Program :=
  { p with blocks := p.blocks ++ [{ index := p.blocks.length, kind, depth }] }

def addEdge (p : Program) (pred succ : Nat) : Except Fault Program := do
  let p ← p.modifyBlock pred fun b => { b with succs := b.succs ++ [succ] }
  p.modifyBlock succ fun b => { b with preds := b.preds ++ [pred] }

def appendInstrs (p : Program) (pos : Nat) (instrs : List Instr) : Except Fault Program :=
  p.modifyBlock pos fun b => { b with instrs := b.instrs ++ instrs }

def replaceInstrs (p : Program) (pos : Nat) (instrs : List Instr) : Except Fault Program :=
  p.modifyBlock pos fun b => { b with instrs }

def truncateInstrs (p : Program) (pos len : Nat) : Except Fault Program :=
  p.modifyBlock pos fun b => { b with instrs := b.instrs.take len }

def numInstrs (p : Program) : Nat := total (·.instrs.length) p.blocks

def text (p : Program) : String := String.join (p.blocks.map Block.text)

end Program

end DelayHint

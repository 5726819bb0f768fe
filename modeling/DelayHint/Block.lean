import DelayHint.Instr

/-! Blocks: straight-line code with its place in the control flow. -/
namespace DelayHint

open Text

inductive BlockLabel where
  | uniform | topLevel | loopPreheader | loopHeader | loopExit | continues | breaks | branch
  | merge | invert | discardEarlyExit | exportEnd
  deriving DecidableEq, Repr

namespace BlockLabel

def name : BlockLabel → String
  | uniform => "uniform"
  | topLevel => "top-level"
  | loopPreheader => "loop-preheader"
  | loopHeader => "loop-header"
  | loopExit => "loop-exit"
  | continues => "continue"
  | breaks => "break"
  | branch => "branch"
  | merge => "merge"
  | invert => "invert"
  | discardEarlyExit => "discard-early-exit"
  | exportEnd => "export-end"

/-- All labels in the order in which they are printed. -/
def all : List BlockLabel :=
  [uniform, topLevel, loopPreheader, loopHeader, loopExit, continues, breaks, branch, merge,
    invert, discardEarlyExit, exportEnd]

def bit : BlockLabel → BitVec 12
  | uniform => 1
  | topLevel => 2
  | loopPreheader => 4
  | loopHeader => 8
  | loopExit => 16
  | continues => 32
  | breaks => 64
  | branch => 128
  | merge => 256
  | invert => 512
  | discardEarlyExit => 1024
  | exportEnd => 2048

def ofName? (s : String) : Option BlockLabel := all.find? (·.name == s)

end BlockLabel

structure BlockKind where
  mask : BitVec 12
  deriving DecidableEq, Repr

namespace BlockKind

def empty : BlockKind := ⟨0⟩

def ofLabel (l : BlockLabel) : BlockKind := ⟨l.bit⟩

def union (a b : BlockKind) : BlockKind := ⟨a.mask ||| b.mask⟩

def ofLabels (ls : List BlockLabel) : BlockKind := ls.foldl (fun k l => k.union (ofLabel l)) empty

def intersects (a b : BlockKind) : Bool := a.mask &&& b.mask != 0

def isEmpty (k : BlockKind) : Bool := k.mask == 0

def has (k : BlockKind) (l : BlockLabel) : Bool := k.intersects (ofLabel l)

def labels (k : BlockKind) : List BlockLabel := BlockLabel.all.filter k.has

def text (k : BlockKind) : String := String.intercalate ", " (k.labels.map BlockLabel.name)

end BlockKind

/-- Edges name blocks by their position. -/
structure Block where
  index : Nat
  kind : BlockKind
  /-- The number of loops around the block. -/
  depth : Nat
  preds : List Nat := []
  succs : List Nat := []
  instrs : List Instr := []
  deriving DecidableEq, Repr

namespace Block

def isLoopHeader (b : Block) : Bool := b.kind.has .loopHeader

def isLoopExit (b : Block) : Bool := b.kind.has .loopExit

/-- A block that is jumped to from the middle of others. -/
def isDiscardExit (b : Block) : Bool := b.kind.has .discardEarlyExit

def name (index : Nat) : String := "BB" ++ decimal index

def predsText (preds : List Nat) : String :=
  if preds.isEmpty then ""
  else " /* preds:" ++ String.join (preds.map fun p => " " ++ name p) ++ " */"

def kindText (kind : BlockKind) : String :=
  if kind.isEmpty then "" else " /* " ++ kind.text ++ " */"

def text (b : Block) : String :=
  name b.index ++ predsText b.preds ++ kindText b.kind ++ "\n" ++
    String.join (b.instrs.map fun i => "\t" ++ i.text ++ "\n")

end Block

end DelayHint

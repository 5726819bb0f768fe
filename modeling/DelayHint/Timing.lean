import DelayHint.Instr

/-! Hardware generations and the cycle cost of instructions. -/
namespace DelayHint

inductive Generation where
  | gfx10 | gfx10x3 | gfx11 | gfx11x5 | gfx12
  deriving DecidableEq, Repr

namespace Generation

def name : Generation → String
  | gfx10 => "GFX10"
  | gfx10x3 => "GFX10_3"
  | gfx11 => "GFX11"
  | gfx11x5 => "GFX11_5"
  | gfx12 => "GFX12"

def all : List Generation := [gfx10, gfx10x3, gfx11, gfx11x5, gfx12]

def ofName? (s : String) : Option Generation := all.find? (·.name == s)

/-- From GFX11 on the frontend needs hints to switch waves on ALU dependencies. -/
def hasHints : Generation → Bool
  | gfx10 | gfx10x3 => false
  | gfx11 | gfx11x5 | gfx12 => true

end Generation

/-- Cycles until the result is there, and cycles that the issuing pipeline is taken. -/
structure Cost where
  latency : UInt8
  issue : UInt8
  deriving DecidableEq, Repr

/-- The cost of every instruction on some hardware, by the number of lanes of a wave. -/
structure CycleModel where
  generation : Generation
  cost : Instr → Nat → Cost

namespace CycleModel

def gfx11Cost : PipeClass → Cost
  | .valu32 | .valuConvert32 => ⟨5, 1⟩
  | .valuQuarterRate32 => ⟨8, 4⟩
  | .valu64 => ⟨6, 2⟩
  | .valuTranscendental32 => ⟨10, 1⟩
  | .valuDoubleTranscendental => ⟨24, 16⟩
  | .wmma => ⟨16, 8⟩
  | .salu => ⟨2, 1⟩
  | .smem | .branch | .sendmsg | .ds | .exp | .vmem => ⟨0, 1⟩
  | .waitcnt | .other => ⟨0, 0⟩

/-- GFX11 and later. Vector instructions of 64 lanes are issued as two halves. -/
def gfx11 (g : Generation) : Except Fault CycleModel :=
  if g.hasHints then
    .ok ⟨g, fun i lanes =>
      let c := gfx11Cost i.pipe
      if lanes = 64 ∧ i.isValu then { c with issue := c.issue * 2 } else c⟩
  else .error .generation

def ofClasses (g : Generation) (table : PipeClass → Cost) : CycleModel :=
  ⟨g, fun i _ => table i.pipe⟩

end CycleModel

end DelayHint

import DelayHint.Proofs.Pending.Elapse
import DelayHint.Proofs.Scan.Lifetime
import DelayHint.Proofs.Scan.Timeline

/-! What the hints of a block wait for. One scan of plain code places a wait for results that are
read and not over. A scan of code with hints leaves no such result without a wait, unless it has
ended on the way there: its cycles have passed, or an earlier wait has counted back to it. -/
namespace DelayHint

/-- The wait that stands in front of the `k`-th plain instruction. -/
def waitAt? (code : List Instr) (k : Nat) : Option Requirement := do
  let (h, _) ← (slots none code)[k]?
  h.map Requirement.empty.withHint

namespace Requirement

variable {q : Requirement} {h : Instr} {s : Source}

end Requirement

/-- The `k`-th instruction is an ALU instruction and reads the register of a result that it may
have to wait for. -/
structure Result.ReadBy (cost : Instr → Cost) (entry : Pending) (code : List Instr) (k : Nat)
    (x : Instr) (o : Result) : Prop extends o.OpenAt cost entry code k where
  getElem? : code[k]? = some x
  isAlu : x.isAlu = true
  reads : x.Reads o.reg

namespace Scan

variable {cost : Instr → Cost} {entry last : Pending} {code out : List Instr} {k : Nat}
  {a : Moment} {x : Instr} {r : Reg} {s : Source} {d : Due} {age : Int} {o : Result}

/-- What is required at a moment is written down. -/
theorem exists_wait (hrun : Run cost .empty entry code out last)
    (ha : (timeline cost entry code)[k]? = some a) (hne : a.required.isEmpty = false) :
    ∃ h, a.required.hint = .ok h ∧ waitAt? out k = some (Requirement.empty.withHint h) := by
  have hstop := stop_of_timeline ha
  obtain ⟨x, hx, -⟩ := slot_of_moments ha
  obtain ⟨h, hh⟩ := hrun.hint_of_stop (List.mem_of_getElem? hstop) hne
  have hslot : (slots none out)[k]? = some (some h, x) := by
    refine hrun.slot_iff.mpr ⟨_, hstop, hx, ?_⟩
    simp [Requirement.hint?, hne, hh, Except.toOption]
  refine ⟨h, hh, ?_⟩
  rw [waitAt?, hslot]
  rfl

end Scan

end DelayHint

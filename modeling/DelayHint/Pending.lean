import DelayHint.RegMap
import DelayHint.Requirement

/-! Pending ALU results per register, how they are joined and how time passes for them. -/
namespace DelayHint

open Text

/-- The registers whose value may not be there yet, and what is pending for each. -/
abbrev Pending := RegMap Requirement

namespace Pending

def addTo (q : Requirement) (old : Option Requirement) : Requirement :=
  (old.map (·.join q)).getD q

def record (ctx : Pending) (r : Reg) (q : Requirement) : Pending := ctx.update r (addTo q)

def recordAll (ctx : Pending) (rs : List Reg) (q : Requirement) : Pending :=
  ctx.updateAll rs (addTo q)

/-- The results pending on either of two ways. -/
def join (a b : Pending) : Pending := RegMap.merge Requirement.join a b

def tightenedBy (a b : Pending) : Bool := RegMap.changes Requirement.tightenedBy a b

/-- What is pending after a vector or transcendental instruction and some cycles. -/
def pass (ctx : Pending) (valu trans : Bool) (cycles : Int) : Pending :=
  ctx.filterMap fun q => (q.advance valu trans cycles).settle?

/-- Let time pass, unless a cycle count leaves 32 bits. -/
def elapse (ctx : Pending) (valu trans : Bool) (cycles : Int) : Except Fault Pending :=
  if ctx.entries.all fun p => p.2.canAdvance cycles then .ok (ctx.pass valu trans cycles)
  else .error .subtractionOverflow

/-- Drop what was issued before the instructions that `q` waits for. -/
def discharge (ctx : Pending) (q : Requirement) : Pending :=
  ctx.filterMap fun e =>
    { e with
      valuInstrs := if q.valuInstrs ≤ e.valuInstrs then Requirement.valuNop else e.valuInstrs
      transInstrs :=
        if q.transInstrs ≤ e.transInstrs then Requirement.transNop else e.transInstrs }.settle?

def text (ctx : Pending) : String :=
  String.join (ctx.entries.map fun p => "gpr_map[" ++ p.1.text ++ "] = " ++ p.2.text ++ "\n")

@[simp] theorem get?_join (a b : Pending) (r : Reg) :
    (join a b).get? r = Option.merge Requirement.join (a.get? r) (b.get? r) :=
  RegMap.get?_merge ..

theorem get?_record (ctx : Pending) (r s : Reg) (q : Requirement) :
    (ctx.record r q).get? s = if s = r then some (addTo q (ctx.get? r)) else ctx.get? s :=
  RegMap.get?_update ..

@[simp] theorem get?_pass (ctx : Pending) (valu trans : Bool) (cycles : Int) (r : Reg) :
    (ctx.pass valu trans cycles).get? r =
      (ctx.get? r).bind fun q => (q.advance valu trans cycles).settle? :=
  RegMap.get?_filterMap ..

theorem join_comm (a b : Pending) : join a b = join b a := by
  apply RegMap.ext_get?
  intro r
  simp only [get?_join]
  cases a.get? r <;> cases b.get? r <;> simp [Requirement.join_comm]

theorem join_assoc (a b c : Pending) : join (join a b) c = join a (join b c) := by
  apply RegMap.ext_get?
  intro r
  simp only [get?_join]
  cases a.get? r <;> cases b.get? r <;> cases c.get? r <;> simp [Requirement.join_assoc]

/-- The change flag is exact. -/
theorem tightenedBy_iff {a b : Pending} : a.tightenedBy b ↔ join a b ≠ a := by
  simp only [tightenedBy, RegMap.changes_iff]
  constructor
  · rintro ⟨r, v, hv, hu⟩ he
    have hr := congrArg (·.get? r) he
    simp only [get?_join, hv] at hr
    cases ha : a.get? r with
    | none => simp [ha] at hr
    | some u =>
      simp only [ha, Option.merge_some_some, Option.some.injEq] at hr
      exact Requirement.tightenedBy_iff.mp (hu u ha) hr
  · intro hne
    apply Decidable.byContradiction
    intro hn
    apply hne
    apply RegMap.ext_get?
    intro r
    rw [get?_join]
    cases hv : b.get? r with
    | none => simp
    | some v =>
      cases ha : a.get? r with
      | none => exact absurd ⟨r, v, hv, by simp [ha]⟩ hn
      | some u =>
        have hu : ¬ u.tightenedBy v := fun ht => hn ⟨r, v, hv, fun w hw => by
          rw [ha, Option.some.injEq] at hw
          exact hw ▸ ht⟩
        rw [Requirement.tightenedBy_iff, ne_eq, Decidable.not_not] at hu
        rw [Option.merge_some_some, hu]

end Pending

end DelayHint

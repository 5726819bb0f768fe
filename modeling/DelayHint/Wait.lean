import DelayHint.Text

/-! Wait conditions of a hint and the fields of its immediate that hold them. -/
namespace DelayHint

open Text

/-- What a hint can wait for. Dependencies count back from the hint, the latest one is `0`. -/
inductive Wait where
  | noDep
  | valuDep (back : Fin 4)
  | transDep (back : Fin 3)
  | fmaAccum
  | saluCycle (more : Fin 3)
  deriving DecidableEq, Repr

namespace Wait

def code : Wait → Nat
  | noDep => 0
  | valuDep n => n.val + 1
  | transDep n => n.val + 5
  | fmaAccum => 8
  | saluCycle n => n.val + 9

/-- The wait condition with a code. The codes from 12 on have no meaning. -/
def ofCode? : Nat → Option Wait
  | 0 => some noDep
  | 1 => some (valuDep 0)
  | 2 => some (valuDep 1)
  | 3 => some (valuDep 2)
  | 4 => some (valuDep 3)
  | 5 => some (transDep 0)
  | 6 => some (transDep 1)
  | 7 => some (transDep 2)
  | 8 => some fmaAccum
  | 9 => some (saluCycle 0)
  | 10 => some (saluCycle 1)
  | 11 => some (saluCycle 2)
  | _ => none

def name : Wait → String
  | noDep => "NO_DEP"
  | valuDep n => "VALU_DEP_" ++ decimal (n.val + 1)
  | transDep n => "TRANS32_DEP_" ++ decimal (n.val + 1)
  | fmaAccum => "FMA_ACCUM_CYCLE_1"
  | saluCycle n => "SALU_CYCLE_" ++ decimal (n.val + 1)

/-- A code without a meaning is written as its number. -/
def codeText (n : Nat) : String :=
  match ofCode? n with
  | some w => w.name
  | none => hex n

theorem ofCode?_code : ∀ w : Wait, ofCode? w.code = some w
  | noDep => rfl
  | valuDep n => by revert n; decide
  | transDep n => by revert n; decide
  | fmaAccum => rfl
  | saluCycle n => by revert n; decide

theorem isSome_ofCode? {n : Nat} : (ofCode? n).isSome ↔ n ≤ 11 := by
  by_cases h : n ≤ 11
  · have hall : ∀ m : Fin 12, (ofCode? m.val).isSome := by decide
    simp only [h, iff_true]
    exact hall ⟨n, by omega⟩
  · obtain ⟨k, rfl⟩ : ∃ k, n = k + 12 := ⟨n - 12, by omega⟩
    simp only [h, ofCode?, Option.isSome_none, Bool.false_eq_true]

end Wait

/-! The immediate of a hint: bits 0 to 3 are the first wait code, bits 4 to 6 the number of
instructions from there to the second wait, bits 7 to 10 the second wait code. -/
namespace Immediate

/-- The wait code for the next instruction. -/
def first (imm : UInt32) : Nat := imm.toNat % 16

/-- How many instructions further on the second wait applies. -/
def skip (imm : UInt32) : Nat := imm.toNat / 16 % 8

/-- The second wait code, 0 if there is none. -/
def second (imm : UInt32) : Nat := imm.toNat / 128 % 16

theorem first_lt (imm : UInt32) : first imm < 16 := Nat.mod_lt _ (by decide)

theorem skip_lt (imm : UInt32) : skip imm < 8 := Nat.mod_lt _ (by decide)

theorem second_lt (imm : UInt32) : second imm < 16 := Nat.mod_lt _ (by decide)

def maxSkip : Nat := 5

def ofWaits (first second : Nat) : UInt32 := UInt32.ofNat (first + 128 * second)

/-- Nothing stands above the first wait code and the skip distance. -/
def isSingle (imm : UInt32) : Bool := imm.toNat / 128 == 0

/-- Give the immediate `imm` with a single wait the wait of `next`, `distance` instructions on. -/
def merge (imm : UInt32) (distance : Nat) (next : UInt32) : UInt32 :=
  imm ||| (UInt32.ofNat distance <<< 4) ||| (next <<< 7)

def skipText : Nat → String
  | 0 => ""
  | 1 => " | instskip(NEXT)"
  | n + 2 => " | instskip(SKIP_" ++ decimal (n + 1) ++ ")"

def secondText (code : Nat) : String :=
  if code = 0 then "" else " | instid1(" ++ Wait.codeText code ++ ")"

def text (imm : UInt32) : String :=
  " instid0(" ++ Wait.codeText (first imm) ++ ")" ++ skipText (skip imm) ++
    secondText (second imm)

end Immediate

end DelayHint

import DelayHint.Fault

/-! Physical registers of one dword, and spans of consecutive ones. -/
namespace DelayHint

open Text

/-- A dword register. Scalar registers come first, vector registers from `Reg.vectorBase` on. -/
abbrev Reg := Fin 512

namespace Reg

def count : Nat := 512

def vectorBase : Nat := 256

def ofNumber (n : Nat) : Except Fault Reg :=
  if h : n < 512 then .ok ⟨n, h⟩ else .error .registerNumber

def scalar (i : Nat) : Except Fault Reg :=
  if h : i < vectorBase then .ok ⟨i, by simp only [vectorBase] at h; omega⟩
  else .error .scalarIndex

def vector (i : Nat) : Except Fault Reg :=
  if h : i < count - vectorBase then
    .ok ⟨vectorBase + i, by simp only [count, vectorBase] at h ⊢; omega⟩
  else .error .vectorIndex

def isVector (r : Reg) : Bool := vectorBase ≤ r.val

/-- The register `n` dwords after `r`. Register numbers have 16 bits. -/
def advance (r : Reg) (n : Nat) : Except Fault Reg :=
  if 65535 < r.val + n then .error .additionOverflow else ofNumber (r.val + n)

def letter (r : Reg) : String := if r.isVector then "v" else "s"

/-- A register's index within its file. -/
def index (r : Reg) : Nat := if r.isVector then r.val - vectorBase else r.val

def text (r : Reg) : String := r.letter ++ decimal r.index

end Reg

/-- Consecutive registers, at least one. A span may end past the register file. -/
structure Span where
  base : Reg
  size : Nat
  size_pos : 0 < size
  deriving DecidableEq, Repr

namespace Span

def ofSize (base : Reg) (size : Nat) : Except Fault Span :=
  if h : 0 < size then .ok ⟨base, size, h⟩ else .error .emptySpan

/-- One past the last register number covered. -/
def stop (s : Span) : Nat := s.base.val + s.size

def Fits (s : Span) : Prop := s.stop ≤ Reg.count

instance (s : Span) : Decidable s.Fits := inferInstanceAs (Decidable (_ ≤ _))

def unit (s : Span) (i : Nat) : Except Fault Reg :=
  if i < s.size then s.base.advance i else .error .spanUnit

/-- The registers covered, in ascending order. -/
def units (s : Span) : Except Fault (List Reg) :=
  if h : s.Fits then
    .ok ((List.finRange s.size).map fun i =>
      ⟨s.base.val + i.val, by simp only [Fits, stop, Reg.count] at h; omega⟩)
  else .error .registerNumber

def text (s : Span) : String :=
  if s.size = 1 then s.base.text
  else
    s.base.letter ++ "[" ++ decimal s.base.index ++ ":" ++
      decimal (s.base.index + s.size - 1) ++ "]"

def allUnits : List Span → Except Fault (List Reg)
  | [] => .ok []
  | s :: rest => do
    let first ← s.units
    let others ← allUnits rest
    return first ++ others

theorem units_eq_ok_iff {s : Span} : (∃ us, s.units = .ok us) ↔ s.Fits := by
  unfold units
  split <;> simp_all

theorem mem_units {s : Span} {us : List Reg} (h : s.units = .ok us) (r : Reg) :
    r ∈ us ↔ s.base.val ≤ r.val ∧ r.val < s.stop := by
  unfold units at h
  split at h
  · cases h
    simp only [List.mem_map, List.mem_finRange, true_and, stop]
    constructor
    · rintro ⟨i, rfl⟩
      simp
    · rintro ⟨hlo, hhi⟩
      exact ⟨⟨r.val - s.base.val, by omega⟩, Fin.ext (by simp; omega)⟩
  · cases h

end Span

end DelayHint

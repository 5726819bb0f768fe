import DelayHint.Text

/-! Requirements: how recent an ALU result is, and how long it still takes.
`Requirement.join` is a semilattice, and `tightenedBy` says exactly when it changes something. -/
namespace DelayHint

open Text

/-- What is pending for one register, or what one hint waits for. Instruction counts say how many
instructions of a kind were issued since, cycle counts say how many cycles are left. -/
structure Requirement where
  valuInstrs : Int8
  valuCycles : Int8
  transInstrs : Int8
  transCycles : Int8
  saluCycles : Int8
  deriving DecidableEq, Repr

namespace Requirement

/-- The first count of vector instructions that no hint can express. -/
def valuNop : Int8 := 5

def transNop : Int8 := 4

def empty : Requirement := ⟨valuNop, 0, transNop, 0, 0⟩

instance : Inhabited Requirement := ⟨empty⟩

/-- The stricter count of every field: the fewer instructions ago, the more cycles left. -/
def join (a b : Requirement) : Requirement where
  valuInstrs := min a.valuInstrs b.valuInstrs
  valuCycles := max a.valuCycles b.valuCycles
  transInstrs := min a.transInstrs b.transInstrs
  transCycles := max a.transCycles b.transCycles
  saluCycles := max a.saluCycles b.saluCycles

/-- Some field of `b` is stricter than that of `a`. -/
def tightenedBy (a b : Requirement) : Bool :=
  b.valuInstrs < a.valuInstrs || b.transInstrs < a.transInstrs ||
    a.saluCycles < b.saluCycles || a.valuCycles < b.valuCycles || a.transCycles < b.transCycles

def isEmpty (q : Requirement) : Bool :=
  q.valuInstrs == valuNop && q.transInstrs == transNop && q.saluCycles == 0

def normalizeValu (q : Requirement) : Requirement :=
  if valuNop ≤ q.valuInstrs ∨ q.valuCycles ≤ 0 then
    { q with valuInstrs := valuNop, valuCycles := 0 }
  else q

def normalizeTrans (q : Requirement) : Requirement :=
  if transNop ≤ q.transInstrs ∨ q.transCycles ≤ 0 then
    { q with transInstrs := transNop, transCycles := 0 }
  else q

/-- Forget what is too long ago for a hint or already finished. -/
def normalize (q : Requirement) : Requirement :=
  { q.normalizeValu.normalizeTrans with saluCycles := max q.saluCycles 0 }

/-- The normal form, if there is still something to wait for. -/
def settle? (q : Requirement) : Option Requirement :=
  if q.normalize.isEmpty then none else some q.normalize

/-- The cycles after which everything is finished. -/
def maxCycles (q : Requirement) : Int8 := max q.saluCycles (max q.valuCycles q.transCycles)

/-- One more instruction, up to the largest count. -/
def countUp (seen : Bool) (n : Int8) : Int8 := if seen then Int8.ofIntClamp (n.toInt + 1) else n

/-- The requirement after a vector or transcendental instruction and some cycles. -/
def advance (q : Requirement) (valu trans : Bool) (cycles : Int) : Requirement where
  valuInstrs := countUp valu q.valuInstrs
  valuCycles := Int8.ofIntClamp (q.valuCycles.toInt - cycles)
  transInstrs := countUp trans q.transInstrs
  transCycles := Int8.ofIntClamp (q.transCycles.toInt - cycles)
  saluCycles := Int8.ofIntClamp (q.saluCycles.toInt - cycles)

def cyclesFit (c : Int8) (cycles : Int) : Bool :=
  -2147483648 ≤ c.toInt - cycles && c.toInt - cycles ≤ 2147483647

def canAdvance (q : Requirement) (cycles : Int) : Bool :=
  cyclesFit q.saluCycles cycles && cyclesFit q.valuCycles cycles && cyclesFit q.transCycles cycles

/-- A field is written only if it differs from that of the empty requirement. -/
def fieldText (name : String) (value absent : Int8) : List String :=
  if value = absent then [] else [name ++ ": " ++ signed value.toInt]

def text (q : Requirement) : String :=
  "\x7b " ++ String.intercalate ", "
    (fieldText "valu_instrs" q.valuInstrs valuNop ++ fieldText "valu_cycles" q.valuCycles 0 ++
      fieldText "trans_instrs" q.transInstrs transNop ++
      fieldText "trans_cycles" q.transCycles 0 ++ fieldText "salu_cycles" q.saluCycles 0) ++ " \x7d"

private theorem min_eq_ite (a b : Int8) : min a b = if a ≤ b then a else b := rfl

private theorem max_eq_ite (a b : Int8) : max a b = if a ≤ b then b else a := rfl

theorem toInt_min (a b : Int8) : (min a b).toInt = min a.toInt b.toInt := by
  rw [min_eq_ite]
  split <;> rename_i h <;> rw [Int8.le_iff_toInt_le] at h <;> omega

theorem toInt_max (a b : Int8) : (max a b).toInt = max a.toInt b.toInt := by
  rw [max_eq_ite]
  split <;> rename_i h <;> rw [Int8.le_iff_toInt_le] at h <;> omega

theorem ext_toInt {a b : Requirement} (hvi : a.valuInstrs.toInt = b.valuInstrs.toInt)
    (hvc : a.valuCycles.toInt = b.valuCycles.toInt)
    (hti : a.transInstrs.toInt = b.transInstrs.toInt)
    (htc : a.transCycles.toInt = b.transCycles.toInt)
    (hsc : a.saluCycles.toInt = b.saluCycles.toInt) : a = b := by
  cases a
  cases b
  simp_all [Int8.toInt_inj]

theorem join_comm (a b : Requirement) : a.join b = b.join a := by
  apply ext_toInt <;> simp only [join, toInt_min, toInt_max] <;> omega

theorem join_assoc (a b c : Requirement) : (a.join b).join c = a.join (b.join c) := by
  apply ext_toInt <;> simp only [join, toInt_min, toInt_max] <;> omega

@[simp] theorem join_self (a : Requirement) : a.join a = a := by
  apply ext_toInt <;> simp only [join, toInt_min, toInt_max] <;> omega

theorem tightenedBy_iff_toInt {a b : Requirement} :
    a.tightenedBy b ↔ b.valuInstrs.toInt < a.valuInstrs.toInt ∨
      b.transInstrs.toInt < a.transInstrs.toInt ∨ a.saluCycles.toInt < b.saluCycles.toInt ∨
      a.valuCycles.toInt < b.valuCycles.toInt ∨ a.transCycles.toInt < b.transCycles.toInt := by
  simp only [tightenedBy, Bool.or_eq_true, decide_eq_true_eq, Int8.lt_iff_toInt_lt, or_assoc]

theorem tightenedBy_iff {a b : Requirement} : a.tightenedBy b ↔ a.join b ≠ a := by
  rw [tightenedBy_iff_toInt]
  constructor
  · intro h he
    have hvi := congrArg (fun q => q.valuInstrs.toInt) he
    have hvc := congrArg (fun q => q.valuCycles.toInt) he
    have hti := congrArg (fun q => q.transInstrs.toInt) he
    have htc := congrArg (fun q => q.transCycles.toInt) he
    have hsc := congrArg (fun q => q.saluCycles.toInt) he
    simp only [join, toInt_min, toInt_max] at hvi hvc hti htc hsc
    omega
  · intro h
    apply Decidable.byContradiction
    intro hn
    apply h
    apply ext_toInt <;> simp only [join, toInt_min, toInt_max] <;> omega

/-- How often a count can still fall. -/
def roomBelow (c : Int8) : Nat := (c.toInt + 128).toNat

def roomAbove (c : Int8) : Nat := (127 - c.toInt).toNat

/-- How often the fields of a requirement can still become stricter. -/
def room (q : Requirement) : Nat :=
  roomBelow q.valuInstrs + roomBelow q.transInstrs + roomAbove q.valuCycles +
    roomAbove q.transCycles + roomAbove q.saluCycles

private theorem roomBelow_le (c : Int8) : roomBelow c ≤ 255 := by
  have := Int8.toInt_lt c
  simp only [roomBelow]
  omega

private theorem roomAbove_le (c : Int8) : roomAbove c ≤ 255 := by
  have := Int8.le_toInt c
  simp only [roomAbove]
  omega

private theorem roomBelow_min_le (a b : Int8) : roomBelow (min a b) ≤ roomBelow a := by
  simp only [roomBelow, toInt_min]
  omega

private theorem roomBelow_min_lt {a b : Int8} (h : b.toInt < a.toInt) :
    roomBelow (min a b) < roomBelow a := by
  have := Int8.le_toInt b
  simp only [roomBelow, toInt_min]
  omega

private theorem roomAbove_max_le (a b : Int8) : roomAbove (max a b) ≤ roomAbove a := by
  simp only [roomAbove, toInt_max]
  omega

private theorem roomAbove_max_lt {a b : Int8} (h : a.toInt < b.toInt) :
    roomAbove (max a b) < roomAbove a := by
  have := Int8.toInt_lt b
  simp only [roomAbove, toInt_max]
  omega

theorem room_le (q : Requirement) : q.room ≤ 1275 := by
  have := roomBelow_le q.valuInstrs
  have := roomBelow_le q.transInstrs
  have := roomAbove_le q.valuCycles
  have := roomAbove_le q.transCycles
  have := roomAbove_le q.saluCycles
  simp only [room]
  omega

theorem room_join_le (a b : Requirement) : (a.join b).room ≤ a.room := by
  have := roomBelow_min_le a.valuInstrs b.valuInstrs
  have := roomBelow_min_le a.transInstrs b.transInstrs
  have := roomAbove_max_le a.valuCycles b.valuCycles
  have := roomAbove_max_le a.transCycles b.transCycles
  have := roomAbove_max_le a.saluCycles b.saluCycles
  simp only [room, join]
  omega

/-- A change makes some field stricter, so there are finitely many of them. -/
theorem room_join_lt {a b : Requirement} (h : a.tightenedBy b) : (a.join b).room < a.room := by
  have hvi := roomBelow_min_le a.valuInstrs b.valuInstrs
  have hti := roomBelow_min_le a.transInstrs b.transInstrs
  have hvc := roomAbove_max_le a.valuCycles b.valuCycles
  have htc := roomAbove_max_le a.transCycles b.transCycles
  have hsc := roomAbove_max_le a.saluCycles b.saluCycles
  simp only [room, join]
  rcases tightenedBy_iff_toInt.mp h with h | h | h | h | h
  · have := roomBelow_min_lt h
    omega
  · have := roomBelow_min_lt h
    omega
  · have := roomAbove_max_lt h
    omega
  · have := roomAbove_max_lt h
    omega
  · have := roomAbove_max_lt h
    omega

end Requirement

end DelayHint

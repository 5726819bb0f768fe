import DelayHint.Proofs.Pending.Order
import DelayHint.Proofs.Requirement.Level

/-! What is due at a register from one kind of instruction: how many of them ago it was written, and
how many cycles are left. Time, waits and new results act on each register and kind for itself. -/
namespace DelayHint

/-- A result that is not there yet. -/
structure Due where
  /-- The instructions of its kind since it was written. Scalar instructions are not counted. -/
  age : Int
  cycles : Int
  deriving DecidableEq

/-- How many of the instructions that count for a kind are issued. -/
def Source.issued (valu trans : Bool) : Source → Int
  | .valu => if valu then 1 else 0
  | .trans => if trans then 1 else 0
  | .salu => 0

private theorem Source.issued_nonneg (s : Source) (valu trans : Bool) :
    0 ≤ s.issued valu trans := by
  cases s <;> simp only [issued] <;> (try split) <;> decide

/-- The first age that no hint can wait for. -/
def Source.limit : Source → Int
  | valu => 5
  | trans => 4
  | salu => 1

theorem Source.limit_pos (s : Source) : 0 < s.limit := by cases s <;> decide

/-- The result after some instructions and cycles, as long as a hint can wait for it. -/
def Due.pass (d : Due) (s : Source) (issued cycles : Int) : Option Due :=
  if d.age + issued < s.limit ∧ 0 < d.cycles - cycles then
    some ⟨d.age + issued, d.cycles - cycles⟩
  else none

theorem Due.pass_of_lt {d : Due} {s : Source} {issued cycles : Int}
    (hage : d.age + issued < s.limit) (hcycles : 0 < d.cycles - cycles) :
    d.pass s issued cycles = some ⟨d.age + issued, d.cycles - cycles⟩ := if_pos ⟨hage, hcycles⟩

theorem Due.pass_eq_some {d e : Due} {s : Source} {issued cycles : Int} :
    d.pass s issued cycles = some e ↔ e.age = d.age + issued ∧ e.cycles = d.cycles - cycles ∧
      e.age < s.limit ∧ 0 < e.cycles := by
  obtain ⟨age, left⟩ := e
  unfold Due.pass
  split
  · simp only [Option.some.injEq, Due.mk.injEq]
    omega
  · simp only [reduceCtorEq, false_iff]
    omega

theorem Due.pass_zero {d : Due} {s : Source} (hage : d.age < s.limit) (hcycles : 0 < d.cycles) :
    d.pass s 0 0 = some d := by
  rw [Due.pass_eq_some]
  omega

namespace Requirement

variable {a b q r : Requirement} {s : Source}

/-- How many instructions of a kind ago the result was written. -/
def age (q : Requirement) : Source → Int
  | .valu => q.valuInstrs.toInt
  | .trans => q.transInstrs.toInt
  | .salu => 0

/-- The cycles left for a result of a kind. -/
def cyclesOf (q : Requirement) : Source → Int
  | .valu => q.valuCycles.toInt
  | .trans => q.transCycles.toInt
  | .salu => q.saluCycles.toInt

/-- What a requirement asks for from one kind. -/
def due (q : Requirement) (s : Source) : Option Due :=
  if q.age s < s.limit ∧ 0 < q.cyclesOf s then some ⟨q.age s, q.cyclesOf s⟩ else none

theorem due_eq_some {d : Due} : q.due s = some d ↔
    d.age = q.age s ∧ d.cycles = q.cyclesOf s ∧ q.age s < s.limit ∧ 0 < q.cyclesOf s := by
  obtain ⟨age, left⟩ := d
  unfold due
  split
  · simp only [Option.some.injEq, Due.mk.injEq]
    omega
  · simp only [reduceCtorEq, false_iff]
    omega

theorem due_eq_none : q.due s = none ↔ ¬ (q.age s < s.limit ∧ 0 < q.cyclesOf s) := by
  unfold due
  split <;> simp_all

theorem age_empty (hs : s ≠ .salu) : empty.age s = s.limit := by
  cases s with
  | valu => rfl
  | trans => rfl
  | salu => exact absurd rfl hs

theorem cyclesOf_empty (s : Source) : empty.cyclesOf s = 0 := by cases s <;> rfl

private theorem age_le_127 (q : Requirement) (s : Source) : q.age s ≤ 127 := by
  cases s with
  | valu => exact Int8.toInt_le _
  | trans => exact Int8.toInt_le _
  | salu => simp [age]

theorem cyclesOf_range (q : Requirement) (s : Source) :
    -128 ≤ q.cyclesOf s ∧ q.cyclesOf s ≤ 127 := by
  cases s <;> exact ⟨Int8.le_toInt _, Int8.toInt_le _⟩

theorem age_join (a b : Requirement) (s : Source) :
    (a.join b).age s = min (a.age s) (b.age s) := by
  cases s with
  | valu => exact toInt_min ..
  | trans => exact toInt_min ..
  | salu => rfl

theorem cyclesOf_join (a b : Requirement) (s : Source) :
    (a.join b).cyclesOf s = max (a.cyclesOf s) (b.cyclesOf s) := by
  cases s <;> exact toInt_max ..

/-- What is asked for from a kind stays as it is in normal form. -/
private theorem normalize_of_open (h : q.age s < s.limit ∧ 0 < q.cyclesOf s) :
    q.normalize.age s = q.age s ∧ q.normalize.cyclesOf s = q.cyclesOf s := by
  have hv := valu_normalize q
  have ht := trans_normalize q
  have hs := toInt_saluCycles_normalize q
  cases s with
  | valu =>
    simp only [age, cyclesOf, Source.limit] at h ⊢
    rwa [if_neg (by omega)] at hv
  | trans =>
    simp only [age, cyclesOf, Source.limit] at h ⊢
    rwa [if_neg (by omega)] at ht
  | salu =>
    simp only [cyclesOf] at h ⊢
    exact ⟨rfl, by omega⟩

/-- Where nothing is asked for, the normal form has no cycles left. -/
private theorem normalize_of_not_open (h : ¬ (q.age s < s.limit ∧ 0 < q.cyclesOf s)) :
    q.normalize.cyclesOf s = 0 ∧ (s ≠ .salu → q.normalize.age s = s.limit) := by
  have hv := valu_normalize q
  have ht := trans_normalize q
  have hs := toInt_saluCycles_normalize q
  cases s with
  | valu =>
    simp only [age, cyclesOf, Source.limit] at h ⊢
    rw [if_pos (by omega)] at hv
    exact ⟨hv.2, fun _ => hv.1⟩
  | trans =>
    simp only [age, cyclesOf, Source.limit] at h ⊢
    rw [if_pos (by omega)] at ht
    exact ⟨ht.2, fun _ => ht.1⟩
  | salu =>
    simp only [age, cyclesOf, Source.limit] at h ⊢
    exact ⟨by omega, fun hne => absurd rfl hne⟩

theorem due_normalize (q : Requirement) (s : Source) : q.normalize.due s = q.due s := by
  by_cases h : q.age s < s.limit ∧ 0 < q.cyclesOf s
  · obtain ⟨hage, hcycles⟩ := normalize_of_open h
    rw [due, due, hage, hcycles]
  · obtain ⟨hcycles, -⟩ := normalize_of_not_open h
    rw [due_eq_none.mpr h, due_eq_none]
    omega

/-- Nothing that is asked for is lost when a requirement settles. -/
theorem due_settle? (q : Requirement) (s : Source) :
    (q.settle?.bind fun r => r.due s) = q.due s := by
  unfold settle?
  split
  · rename_i he
    obtain ⟨hv, ht, hs⟩ := isEmpty_iff_toInt.mp he
    rw [Option.bind_none, ← due_normalize, eq_comm, due_eq_none]
    cases s <;> simp only [age, cyclesOf, Source.limit] <;> omega
  · rw [Option.bind_some, due_normalize]

theorem age_advance (q : Requirement) (valu trans : Bool) (cycles : Int) (s : Source) :
    (q.advance valu trans cycles).age s = min 127 (q.age s + s.issued valu trans) := by
  have hle := age_le_127 q s
  cases s with
  | valu =>
    simp only [age, advance, toInt_countUp, Source.issued] at hle ⊢
    split <;> omega
  | trans =>
    simp only [age, advance, toInt_countUp, Source.issued] at hle ⊢
    split <;> omega
  | salu => rfl

theorem cyclesOf_advance (q : Requirement) (valu trans : Bool) (cycles : Int) (s : Source) :
    (q.advance valu trans cycles).cyclesOf s = max (-128) (min 127 (q.cyclesOf s - cycles)) := by
  cases s <;> exact toInt_ofIntClamp _

/-- Time passes for each kind alike. -/
theorem due_advance (q : Requirement) (valu trans : Bool) {cycles : Int} (hc : 0 ≤ cycles)
    (s : Source) : (q.advance valu trans cycles).due s =
      (q.due s).bind fun d => d.pass s (s.issued valu trans) cycles := by
  have hage := age_advance q valu trans cycles s
  have hcycles := cyclesOf_advance q valu trans cycles s
  have hrange := cyclesOf_range q s
  have hissued := s.issued_nonneg valu trans
  have hlimit : s.limit ≤ 5 := by cases s <;> decide
  apply Option.ext
  intro d
  rw [due_eq_some, hage, hcycles, Option.bind_eq_some_iff]
  constructor
  · rintro ⟨h1, h2, h3, h4⟩
    have hopen : q.age s < s.limit ∧ 0 < q.cyclesOf s := by omega
    refine ⟨⟨q.age s, q.cyclesOf s⟩, due_eq_some.mpr ⟨rfl, rfl, hopen⟩, ?_⟩
    rw [Due.pass_eq_some]
    simp only
    omega
  · rintro ⟨e, he, hpass⟩
    obtain ⟨h1, h2, h3, h4⟩ := due_eq_some.mp he
    obtain ⟨g1, g2, g3, g4⟩ := Due.pass_eq_some.mp hpass
    omega

/-- Waiting for `q` covers a result of some age: none that is newer is waited for. -/
def covers (q : Requirement) (s : Source) (age : Int) : Bool :=
  match s with
  | .valu => q.valuInstrs.toInt ≤ age
  | .trans => q.transInstrs.toInt ≤ age
  | .salu => false

/-- An empty requirement covers nothing that is still due. -/
theorem covers_of_isEmpty (he : q.isEmpty = true) {age : Int} (h : age < s.limit) :
    q.covers s age = false := by
  obtain ⟨hv, ht, -⟩ := isEmpty_iff_toInt.mp he
  cases s with
  | valu => exact decide_eq_false (Int.not_le.mpr (hv.symm ▸ h : age < _))
  | trans => exact decide_eq_false (Int.not_le.mpr (ht.symm ▸ h : age < _))
  | salu => rfl

theorem ne_salu_of_covers {age : Int} (h : q.covers s age = true) : s ≠ .salu := by
  rintro rfl
  cases h

theorem covers_iff {age : Int} (hs : s ≠ .salu) : q.covers s age = true ↔ q.age s ≤ age := by
  cases s with
  | valu => exact decide_eq_true_iff
  | trans => exact decide_eq_true_iff
  | salu => exact absurd rfl hs

theorem age_le_of_covers {age : Int} (hc : q.covers s age = true) : q.age s ≤ age :=
  (covers_iff (ne_salu_of_covers hc)).mp hc

theorem covers_mono {age age' : Int} (h : age ≤ age') (hc : q.covers s age = true) :
    q.covers s age' = true :=
  (covers_iff (ne_salu_of_covers hc)).mpr (Int.le_trans (age_le_of_covers hc) h)

theorem Within.age_le (h : a.Within b) (s : Source) : b.age s ≤ a.age s := by
  cases s with
  | valu => exact h.valu_instrs
  | trans => exact h.trans_instrs
  | salu => exact Int.le_refl 0

/-- In normal form: nothing is too long ago for a hint or already finished. -/
structure Normalized (q : Requirement) : Prop where
  normalize_eq : q.normalize = q

/-- A requirement in normal form that asks for something. -/
structure Live (q : Requirement) : Prop extends Normalized q where
  isEmpty_eq_false : q.isEmpty = false

instance (q : Requirement) : Decidable q.Live :=
  decidable_of_iff (q.normalize = q ∧ q.isEmpty = false)
    ⟨fun h => ⟨⟨h.1⟩, h.2⟩, fun h => ⟨h.normalize_eq, h.isEmpty_eq_false⟩⟩

/-- A requirement in normal form that asks for something, with no count below zero. -/
structure Settled (q : Requirement) : Prop extends Live q where
  valu_nonneg : 0 ≤ q.valuInstrs.toInt
  trans_nonneg : 0 ≤ q.transInstrs.toInt

/-- In normal form each kind asks for a result, or it has neither age nor cycles left. -/
theorem open_or_shut (h : q.Normalized) (s : Source) :
    q.age s < s.limit ∧ 0 < q.cyclesOf s ∨
      q.cyclesOf s = 0 ∧ (s ≠ .salu → q.age s = s.limit) := by
  by_cases hopen : q.age s < s.limit ∧ 0 < q.cyclesOf s
  · exact .inl hopen
  · have hshut := normalize_of_not_open hopen
    rw [h.normalize_eq] at hshut
    exact .inr hshut

theorem normalized_of_cases (h : ∀ s, q.age s < s.limit ∧ 0 < q.cyclesOf s ∨
    q.cyclesOf s = 0 ∧ (s ≠ .salu → q.age s = s.limit)) : q.Normalized := by
  have hsame (s : Source) : (s ≠ .salu → q.normalize.age s = q.age s) ∧
      q.normalize.cyclesOf s = q.cyclesOf s := by
    rcases h s with hopen | ⟨hcycles, hage⟩
    · obtain ⟨hage, hcycles⟩ := normalize_of_open hopen
      exact ⟨fun _ => hage, hcycles⟩
    · obtain ⟨hcycles', hage'⟩ := normalize_of_not_open (q := q) (s := s) (by omega)
      exact ⟨fun hs => (hage' hs).trans (hage hs).symm, hcycles'.trans hcycles.symm⟩
  obtain ⟨hvi, hvc⟩ := hsame .valu
  obtain ⟨hti, htc⟩ := hsame .trans
  obtain ⟨-, hsc⟩ := hsame .salu
  exact ⟨ext_toInt (hvi (by decide)) hvc (hti (by decide)) htc hsc⟩

theorem normalized_normalize (q : Requirement) : q.normalize.Normalized := by
  apply normalized_of_cases
  intro s
  by_cases hopen : q.age s < s.limit ∧ 0 < q.cyclesOf s
  · obtain ⟨hage, hcycles⟩ := normalize_of_open hopen
    rw [hage, hcycles]
    exact .inl hopen
  · exact .inr (normalize_of_not_open hopen)

theorem Normalized.join (ha : a.Normalized) (hb : b.Normalized) : (a.join b).Normalized := by
  apply normalized_of_cases
  intro s
  rw [age_join, cyclesOf_join]
  rcases open_or_shut ha s with hopen | ⟨hac, haa⟩
  · left
    omega
  rcases open_or_shut hb s with hopen | ⟨hbc, hba⟩
  · left
    omega
  · right
    refine ⟨by omega, fun hs => ?_⟩
    have := haa hs
    have := hba hs
    omega

theorem eq_empty_of_isEmpty (h : q.Normalized) (he : q.isEmpty = true) : q = empty := by
  obtain ⟨hv, ht, hs⟩ := isEmpty_iff_toInt.mp he
  have hvalu := open_or_shut h .valu
  have htrans := open_or_shut h .trans
  simp only [age, cyclesOf, Source.limit] at hvalu htrans
  apply ext_toInt
  · exact hv
  · show _ = 0
    omega
  · exact ht
  · show _ = 0
    omega
  · exact hs

/-- The cycles of every kind are over after the longest of them. -/
private theorem cyclesOf_le_maxCycles (q : Requirement) (s : Source) :
    q.cyclesOf s ≤ q.maxCycles.toInt := by
  rw [toInt_maxCycles]
  cases s <;> simp only [cyclesOf] <;> omega

theorem cyclesOf_nonneg (h : q.Normalized) (s : Source) : 0 ≤ q.cyclesOf s := by
  rcases open_or_shut h s with ⟨-, hpos⟩ | ⟨hzero, -⟩ <;> omega

private theorem maxCycles_nonneg (h : q.Normalized) : 0 ≤ q.maxCycles.toInt := by
  have hle := cyclesOf_le_maxCycles q .salu
  have hzero := cyclesOf_nonneg h .salu
  omega

/-- The cycles that waiting for a requirement takes. -/
def waitCycles (q : Requirement) : Int := if q.isEmpty then 0 else q.maxCycles.toInt

theorem saluCycles_le_waitCycles (q : Requirement) : q.saluCycles.toInt ≤ q.waitCycles := by
  unfold waitCycles
  split
  · rename_i he
    exact Int.le_of_eq (isEmpty_iff_toInt.mp he).2.2
  · exact cyclesOf_le_maxCycles q .salu

theorem waitCycles_nonneg (h : q.Normalized) : 0 ≤ q.waitCycles := by
  unfold waitCycles
  split
  · exact Int.le_refl 0
  · exact maxCycles_nonneg h

theorem Settled.age_nonneg (h : q.Settled) (s : Source) : 0 ≤ q.age s := by
  cases s with
  | valu => exact h.valu_nonneg
  | trans => exact h.trans_nonneg
  | salu => exact Int.le_refl 0

theorem settled_of_settle? (hq : ∀ s, 0 ≤ q.age s) (h : q.settle? = some r) : r.Settled := by
  obtain ⟨rfl, he⟩ := settle?_eq_some h
  have hage (s : Source) (hs : s ≠ .salu) : 0 ≤ q.normalize.age s := by
    by_cases hopen : q.age s < s.limit ∧ 0 < q.cyclesOf s
    · rw [(normalize_of_open hopen).1]
      exact hq s
    · rw [(normalize_of_not_open hopen).2 hs]
      cases s <;> decide
  exact ⟨⟨normalized_normalize q, he⟩, hage .valu (by decide), hage .trans (by decide)⟩

theorem Normal.settled (h : q.Normal) : q.Settled := by
  apply settled_of_settle? _ h.settle?_eq
  intro s
  cases s with
  | valu => exact h.valu_range.1
  | trans => exact Int.le_trans (by decide) h.trans_range.1
  | salu => exact Int.le_refl 0

end Requirement

namespace Pending

variable {cost : Instr → Cost} {ctx ctx' : Pending} {q q' : Requirement} {i : Instr} {r : Reg}
  {s : Source}

/-- What is due at a register from one kind of instruction. -/
def due (ctx : Pending) (r : Reg) (s : Source) : Option Due := (ctx.get? r).bind fun q => q.due s

/-- Every entry is in normal form. -/
def Normalized (ctx : Pending) : Prop :=
  ∀ (r : Reg) (q : Requirement), ctx.get? r = some q → q.Normalized

/-- Every entry is in normal form and asks for something. -/
def Live (ctx : Pending) : Prop :=
  ∀ (r : Reg) (q : Requirement), ctx.get? r = some q → q.Live

/-- Every entry is in normal form and asks for something, and no count is below zero. -/
def Settled (ctx : Pending) : Prop :=
  ∀ (r : Reg) (q : Requirement), ctx.get? r = some q → q.Settled

theorem normalized_empty : Normalized RegMap.empty := fun r q h => by cases h

theorem settled_empty : Settled RegMap.empty := fun r q h => by cases h

theorem Normal.settled (h : ctx.Normal) : ctx.Settled := fun r q hq => (h r q hq).settled

theorem Settled.normalized (h : ctx.Settled) : ctx.Normalized :=
  fun r q hq => (h r q hq).toNormalized

theorem normalized_pass (ctx : Pending) (valu trans : Bool) (cycles : Int) :
    (ctx.pass valu trans cycles).Normalized := by
  intro r q hq
  rw [get?_pass] at hq
  obtain ⟨e, -, hset⟩ := Option.bind_eq_some_iff.mp hq
  rw [(Requirement.settle?_eq_some hset).1]
  exact Requirement.normalized_normalize _

theorem due_filterMap (f : Requirement → Requirement) (ctx : Pending) (r : Reg) (s : Source) :
    due (ctx.filterMap fun e => (f e).settle?) r s = (ctx.get? r).bind fun e => (f e).due s := by
  rw [due, RegMap.get?_filterMap, Option.bind_assoc]
  simp only [Requirement.due_settle?]

theorem due_pass (ctx : Pending) (valu trans : Bool) {cycles : Int} (hc : 0 ≤ cycles) (r : Reg)
    (s : Source) : (ctx.pass valu trans cycles).due r s =
      (ctx.due r s).bind fun d => d.pass s (s.issued valu trans) cycles := by
  rw [pass, due_filterMap, due, Option.bind_assoc]
  simp only [Requirement.due_advance _ valu trans hc]

theorem due_discharge (ctx : Pending) (q : Requirement) (r : Reg) (s : Source) :
    (ctx.discharge q).due r s = (ctx.due r s).filter fun d => !q.covers s d.age := by
  rw [discharge, due_filterMap, due]
  cases ctx.get? r with
  | none => rfl
  | some e =>
    rw [Option.bind_some, Option.bind_some]
    apply Option.ext
    intro d
    rw [Option.filter_eq_some_iff, Requirement.due_eq_some, Requirement.due_eq_some]
    cases s with
    | valu =>
      simp only [Requirement.age, Requirement.cyclesOf, Requirement.covers, Source.limit,
        Int8.le_iff_toInt_le, Bool.not_eq_true', decide_eq_false_iff_not]
      split
      · rw [Requirement.toInt_valuNop]
        omega
      · omega
    | trans =>
      simp only [Requirement.age, Requirement.cyclesOf, Requirement.covers, Source.limit,
        Int8.le_iff_toInt_le, Bool.not_eq_true', decide_eq_false_iff_not]
      split
      · rw [Requirement.toInt_transNop]
        omega
      · omega
    | salu =>
      simp only [Requirement.age, Requirement.cyclesOf, Requirement.covers, Bool.not_false,
        and_true]

theorem due_open {d : Due} (h : ctx.due r s = some d) : d.age < s.limit ∧ 0 < d.cycles := by
  obtain ⟨q, -, hq⟩ := Option.bind_eq_some_iff.mp h
  obtain ⟨hage, hcycles, hopen⟩ := Requirement.due_eq_some.mp hq
  rwa [← hage, ← hcycles] at hopen

/-- Waiting takes its cycles, and what it covers is there. -/
theorem due_waited (hc : 0 ≤ q.waitCycles) (ctx : Pending) (r : Reg) (s : Source) :
    (ctx.waited q).due r s =
      (ctx.due r s).bind fun d => if q.covers s d.age then none else d.pass s 0 q.waitCycles := by
  cases he : q.isEmpty with
  | true =>
    have hwait : q.waitCycles = 0 := if_pos he
    rw [waited_of_isEmpty ctx he, hwait]
    cases hd : ctx.due r s with
    | none => rfl
    | some d =>
      obtain ⟨hage, hcycles⟩ := due_open hd
      rw [Option.bind_some, Requirement.covers_of_isEmpty he hage, if_neg (by decide),
        Due.pass_zero hage hcycles]
  | false =>
    have hwait : q.waitCycles = q.maxCycles.toInt := if_neg (by simp [he])
    have hzero : s.issued false false = 0 := by cases s <;> rfl
    apply Option.ext
    intro e
    rw [waited_of_not_isEmpty ctx he, due_discharge,
      due_pass ctx false false (hwait ▸ hc), hzero, hwait,
      Option.filter_eq_some_iff, Option.bind_eq_some_iff, Option.bind_eq_some_iff]
    constructor
    · rintro ⟨⟨d, hd, hpass⟩, hnot⟩
      obtain ⟨hage, -, -, -⟩ := Due.pass_eq_some.mp hpass
      rw [Int.add_zero] at hage
      refine ⟨d, hd, ?_⟩
      rw [← hage, if_neg (by simpa using hnot), hpass]
    · rintro ⟨d, hd, hpass⟩
      split at hpass
      · cases hpass
      · rename_i hnot
        obtain ⟨hage, -, -, -⟩ := Due.pass_eq_some.mp hpass
        rw [Int.add_zero] at hage
        exact ⟨⟨d, hd, hpass⟩, by rw [hage]; simpa using hnot⟩

theorem settled_filterMap {f : Requirement → Requirement}
    (h : ∀ {r e}, ctx.get? r = some e → ∀ s, 0 ≤ (f e).age s) :
    Settled (ctx.filterMap fun e => (f e).settle?) := by
  intro r q hq
  rw [RegMap.get?_filterMap] at hq
  obtain ⟨e, he, hset⟩ := Option.bind_eq_some_iff.mp hq
  exact Requirement.settled_of_settle? (h he) hset

theorem settled_pass (h : ∀ {r e}, ctx.get? r = some e → ∀ s, 0 ≤ e.age s) (valu trans : Bool)
    (cycles : Int) : (ctx.pass valu trans cycles).Settled := by
  refine settled_filterMap fun he s => ?_
  have hage := h he s
  have hissued := s.issued_nonneg valu trans
  rw [Requirement.age_advance]
  omega

theorem Settled.discharge (h : ctx.Settled) (q : Requirement) : (ctx.discharge q).Settled := by
  refine settled_filterMap fun he s => ?_
  have hage := (h _ _ he).age_nonneg s
  cases s with
  | valu =>
    simp only [Requirement.age] at hage ⊢
    split
    · decide
    · exact hage
  | trans =>
    simp only [Requirement.age] at hage ⊢
    split
    · decide
    · exact hage
  | salu => exact hage

theorem Settled.waited (h : ctx.Settled) (q : Requirement) : (ctx.waited q).Settled := by
  unfold Pending.waited
  split
  · exact h
  · have hpass := settled_pass (fun he => (h _ _ he).age_nonneg) false false q.maxCycles.toInt
    exact hpass.discharge q

end Pending

end DelayHint

import DelayHint.Proofs.Pending.Due
import DelayHint.Total

/-! Time in one go. However it is cut into calls, and in whatever order they come, what is left of a
pending result depends only on how many instructions of its kind have been issued and on how many
cycles have passed. No call of a sequence loses a result that is still open at its end, and none
brings one back. -/
namespace DelayHint

/-- A call that lets time pass: the instructions it counts and its cycles, fewer than `2 ^ 31`. -/
structure Tick where
  valu : Bool
  trans : Bool
  cycles : Nat
  cycles_lt : cycles < 2147483648
  deriving DecidableEq

namespace Tick

/-- How many of the calls count an instruction of a kind. -/
def count (ticks : List Tick) : Source → Nat
  | .valu => ticks.countP (·.valu)
  | .trans => ticks.countP (·.trans)
  | .salu => 0

private theorem count_cons (t : Tick) (ticks : List Tick) (s : Source) :
    (count (t :: ticks) s : Int) = s.issued t.valu t.trans + count ticks s := by
  cases s with
  | valu =>
    simp only [count, Source.issued, List.countP_cons]
    split <;> omega
  | trans =>
    simp only [count, Source.issued, List.countP_cons]
    split <;> omega
  | salu => rfl

private theorem count_perm {ticks other : List Tick} (h : other.Perm ticks) (s : Source) :
    count other s = count ticks s := by
  cases s with
  | valu => exact h.countP_eq _
  | trans => exact h.countP_eq _
  | salu => rfl

end Tick

/-- Two stretches of time are one. -/
theorem Due.pass_pass {s : Source} {m n c d : Int} (hn : 0 ≤ n) (hd : 0 ≤ d) (q : Due) :
    ((q.pass s m c).bind fun r => r.pass s n d) = q.pass s (m + n) (c + d) := by
  apply Option.ext
  intro e
  rw [Option.bind_eq_some_iff, Due.pass_eq_some]
  constructor
  · rintro ⟨r, hr, he⟩
    obtain ⟨h1, h2, h3, h4⟩ := Due.pass_eq_some.mp hr
    obtain ⟨g1, g2, g3, g4⟩ := Due.pass_eq_some.mp he
    omega
  · rintro ⟨h1, h2, h3, h4⟩
    refine ⟨⟨q.age + m, q.cycles - c⟩, Due.pass_of_lt (by omega) (by omega), ?_⟩
    rw [Due.pass_eq_some]
    simp only
    omega

namespace Requirement

variable {q q' : Requirement} {s : Source}

/-- Requirements in normal form that ask for the same are the same. -/
theorem eq_of_due (h : q.Normalized) (h' : q'.Normalized) (hd : ∀ s, q.due s = q'.due s) :
    q = q' := by
  have hsame (s : Source) : (s ≠ .salu → q.age s = q'.age s) ∧ q.cyclesOf s = q'.cyclesOf s := by
    rcases open_or_shut h s with hopen | ⟨hcycles, hage⟩
    · have hdue := (hd s).symm.trans (due_eq_some (d := ⟨_, _⟩).mpr ⟨rfl, rfl, hopen⟩)
      obtain ⟨hage, hcycles, -⟩ := due_eq_some.mp hdue
      exact ⟨fun _ => hage, hcycles⟩
    · have hnone : q'.due s = none := by
        rw [← hd, due_eq_none]
        omega
      rcases open_or_shut h' s with hopen' | ⟨hcycles', hage'⟩
      · exact absurd hopen' (due_eq_none.mp hnone)
      · exact ⟨fun hs => (hage hs).trans (hage' hs).symm, hcycles.trans hcycles'.symm⟩
  exact ext_toInt ((hsame .valu).1 (by decide)) (hsame .valu).2 ((hsame .trans).1 (by decide))
    (hsame .trans).2 (hsame .salu).2

/-- A live requirement asks for something from some kind. -/
theorem Live.exists_due (h : q.Live) : ∃ s d, q.due s = some d := by
  have hopen (s : Source) (ho : q.age s < s.limit ∧ 0 < q.cyclesOf s) : ∃ s d, q.due s = some d :=
    ⟨s, ⟨_, _⟩, due_eq_some.mpr ⟨rfl, rfl, ho⟩⟩
  rcases open_or_shut h.toNormalized .valu with ho | ⟨-, hv⟩
  · exact hopen .valu ho
  rcases open_or_shut h.toNormalized .trans with ho | ⟨-, ht⟩
  · exact hopen .trans ho
  rcases open_or_shut h.toNormalized .salu with ho | ⟨hs, -⟩
  · exact hopen .salu ho
  have hempty : q.isEmpty = true := isEmpty_iff_toInt.mpr ⟨hv (by decide), ht (by decide), hs⟩
  rw [h.isEmpty_eq_false] at hempty
  cases hempty

/-- What a kind asks for lasts through some instructions and cycles. -/
def Outlives (q : Requirement) (s : Source) (issued cycles : Nat) : Prop :=
  q.age s + issued < s.limit ∧ cycles < q.cyclesOf s

private theorem bind_pass_of_outlives {issued cycles : Nat} (h : q.Outlives s issued cycles) :
    ((q.due s).bind fun d => d.pass s issued cycles) =
      some ⟨q.age s + issued, q.cyclesOf s - cycles⟩ := by
  obtain ⟨hage, hcycles⟩ := h
  have hdue : q.due s = some ⟨q.age s, q.cyclesOf s⟩ :=
    due_eq_some.mpr ⟨rfl, rfl, by omega, by omega⟩
  rw [hdue, Option.bind_some]
  exact Due.pass_of_lt hage (Int.sub_pos_of_lt hcycles)

private theorem outlives_of_bind_pass {issued cycles : Nat} {d : Due}
    (h : ((q.due s).bind fun d => d.pass s issued cycles) = some d) :
    q.Outlives s issued cycles := by
  obtain ⟨e, he, hpass⟩ := Option.bind_eq_some_iff.mp h
  obtain ⟨h1, h2, -, -⟩ := due_eq_some.mp he
  obtain ⟨g1, g2, g3, g4⟩ := Due.pass_eq_some.mp hpass
  unfold Outlives
  omega

/-- What is left of a kind after some time: fewer cycles at a greater age, or nothing. -/
private theorem age_of_bind_pass {issued cycles : Nat} (h : q'.Normalized)
    (hd : q'.due s = (q.due s).bind fun d => d.pass s issued cycles) :
    (q.Outlives s issued cycles → q'.age s = q.age s + issued ∧
      q'.cyclesOf s = q.cyclesOf s - cycles) ∧
    (¬ q.Outlives s issued cycles → q'.cyclesOf s = 0 ∧ (s ≠ .salu → q'.age s = s.limit)) := by
  constructor
  · intro ho
    rw [bind_pass_of_outlives ho] at hd
    obtain ⟨hage, hcycles, -⟩ := due_eq_some.mp hd
    exact ⟨hage.symm, hcycles.symm⟩
  · intro ho
    apply (open_or_shut h s).resolve_left
    intro hopen
    have hdue := due_eq_some (d := ⟨_, _⟩).mpr ⟨rfl, rfl, hopen⟩
    exact ho (outlives_of_bind_pass (hd.symm.trans hdue))

/-- Something that is asked for is still open after some instructions and cycles. -/
def Lasts (q : Requirement) (valus transs cycles : Nat) : Prop :=
  (q.valuInstrs.toInt + valus < 5 ∧ cycles < q.valuCycles.toInt) ∨
    (q.transInstrs.toInt + transs < 4 ∧ cycles < q.transCycles.toInt) ∨
    cycles < q.saluCycles.toInt

instance (q : Requirement) (valus transs cycles : Nat) : Decidable (q.Lasts valus transs cycles) :=
  inferInstanceAs (Decidable (_ ∨ _))

/-- What some instructions and cycles leave of `q`: each kind has grown older by the instructions
and has fewer cycles left, or none. -/
structure Aged (q : Requirement) (valus transs cycles : Nat) (q' : Requirement) : Prop where
  valu : if q.valuInstrs.toInt + valus < 5 ∧ cycles < q.valuCycles.toInt then
      q'.valuInstrs.toInt = q.valuInstrs.toInt + valus ∧
        q'.valuCycles.toInt = q.valuCycles.toInt - cycles
    else q'.valuInstrs = valuNop ∧ q'.valuCycles = 0
  trans : if q.transInstrs.toInt + transs < 4 ∧ cycles < q.transCycles.toInt then
      q'.transInstrs.toInt = q.transInstrs.toInt + transs ∧
        q'.transCycles.toInt = q.transCycles.toInt - cycles
    else q'.transInstrs = transNop ∧ q'.transCycles = 0
  salu : q'.saluCycles.toInt = max (q.saluCycles.toInt - cycles) 0

/-- Scalar results have no age. -/
private theorem outlives_salu_iff {ticks : List Tick} {cycles : Nat} :
    q.Outlives .salu (Tick.count ticks .salu) cycles ↔ cycles < q.saluCycles.toInt := by
  have hage : q.age .salu + (Tick.count ticks .salu : Int) < Source.salu.limit := Int.zero_lt_one
  exact ⟨And.right, fun h => ⟨hage, h⟩⟩

theorem lasts_iff {ticks : List Tick} {cycles : Nat} :
    q.Lasts (ticks.countP (·.valu)) (ticks.countP (·.trans)) cycles ↔
      ∃ s, q.Outlives s (Tick.count ticks s) cycles := by
  constructor
  · rintro (h | h | h)
    · exact ⟨.valu, h⟩
    · exact ⟨.trans, h⟩
    · exact ⟨.salu, outlives_salu_iff.mpr h⟩
  · rintro ⟨s, h⟩
    cases s with
    | valu => exact .inl h
    | trans => exact .inr (.inl h)
    | salu => exact .inr (.inr (outlives_salu_iff.mp h))

theorem aged_of_due {ticks : List Tick} {cycles : Nat} (h : q'.Normalized)
    (hd : ∀ s, q'.due s = (q.due s).bind fun d => d.pass s (Tick.count ticks s) cycles) :
    q.Aged (ticks.countP (·.valu)) (ticks.countP (·.trans)) cycles q' := by
  constructor
  · obtain ⟨hleft, hgone⟩ := age_of_bind_pass h (hd .valu)
    split
    · exact hleft ‹_›
    · obtain ⟨hcycles, hage⟩ := hgone ‹_›
      exact ⟨Int8.toInt_inj.mp (hage (by decide)), Int8.toInt_inj.mp hcycles⟩
  · obtain ⟨hleft, hgone⟩ := age_of_bind_pass h (hd .trans)
    split
    · exact hleft ‹_›
    · obtain ⟨hcycles, hage⟩ := hgone ‹_›
      exact ⟨Int8.toInt_inj.mp (hage (by decide)), Int8.toInt_inj.mp hcycles⟩
  · obtain ⟨hleft, hgone⟩ := age_of_bind_pass h (hd .salu)
    by_cases hlt : (cycles : Int) < q.saluCycles.toInt
    · obtain ⟨-, hcycles⟩ := hleft (outlives_salu_iff.mpr hlt)
      simp only [cyclesOf] at hcycles
      omega
    · obtain ⟨hcycles, -⟩ := hgone (mt outlives_salu_iff.mp hlt)
      simp only [cyclesOf] at hcycles
      omega

end Requirement

namespace Pending

variable {ctx a b : Pending} {r : Reg} {s : Source}

instance (ctx : Pending) : Decidable ctx.Live :=
  decidable_of_iff (∀ p ∈ ctx.entries, p.2.Live)
    ⟨fun h r q hq => h (r, q) (RegMap.mem_entries.mpr hq),
      fun h p hp => h p.1 p.2 (RegMap.mem_entries.mp hp)⟩

theorem live_filterMap (f : Requirement → Requirement) (ctx : Pending) :
    Live (ctx.filterMap fun e => (f e).settle?) := by
  intro r q hq
  rw [RegMap.get?_filterMap] at hq
  obtain ⟨e, -, hset⟩ := Option.bind_eq_some_iff.mp hq
  obtain ⟨rfl, he⟩ := Requirement.settle?_eq_some hset
  exact ⟨Requirement.normalized_normalize _, he⟩

theorem live_pass (ctx : Pending) (valu trans : Bool) (cycles : Int) :
    (ctx.pass valu trans cycles).Live := live_filterMap _ ctx

/-- A register of a live context is tracked exactly if something is due there. -/
theorem Live.exists_iff (h : ctx.Live) :
    (∃ q, ctx.get? r = some q) ↔ ∃ s d, ctx.due r s = some d := by
  constructor
  · rintro ⟨q, hq⟩
    obtain ⟨s, d, hd⟩ := (h r q hq).exists_due
    exact ⟨s, d, Option.bind_eq_some_iff.mpr ⟨q, hq, hd⟩⟩
  · rintro ⟨s, d, hd⟩
    obtain ⟨q, hq, -⟩ := Option.bind_eq_some_iff.mp hd
    exact ⟨q, hq⟩

/-- Live contexts with the same results due are the same. -/
theorem Live.ext_due (ha : a.Live) (hb : b.Live) (h : ∀ r s, a.due r s = b.due r s) : a = b := by
  apply RegMap.ext_get?
  intro r
  have hiff : (∃ q, a.get? r = some q) ↔ ∃ q, b.get? r = some q := by
    rw [ha.exists_iff, hb.exists_iff]
    simp only [h]
  cases hu : a.get? r with
  | none =>
    cases hv : b.get? r with
    | none => rfl
    | some v =>
      obtain ⟨u, hu'⟩ := hiff.mpr ⟨v, hv⟩
      rw [hu] at hu'
      cases hu'
  | some u =>
    obtain ⟨v, hv⟩ := hiff.mp ⟨u, hu⟩
    have hdue (s : Source) : u.due s = v.due s := by
      have := h r s
      rwa [due, due, hu, hv] at this
    rw [hv, Requirement.eq_of_due (ha r u hu).toNormalized (hb r v hv).toNormalized hdue]

theorem Live.pass_zero (h : ctx.Live) : ctx.pass false false 0 = ctx := by
  apply (live_pass ctx false false 0).ext_due h
  intro r s
  have hzero : s.issued false false = 0 := by cases s <;> rfl
  rw [due_pass ctx false false (Int.le_refl 0), hzero]
  cases hd : ctx.due r s with
  | none => rfl
  | some d =>
    obtain ⟨hage, hcycles⟩ := due_open hd
    exact Due.pass_zero hage hcycles

/-- Cycle counts of a live context are not below zero, so no number of cycles takes them out of 32
bits. -/
theorem Live.elapse_eq (h : ctx.Live) (valu trans : Bool) {cycles : Nat}
    (hc : cycles < 2147483648) :
    ctx.elapse valu trans cycles = .ok (ctx.pass valu trans cycles) := by
  have hall : (ctx.entries.all fun p => p.2.canAdvance cycles) = true := by
    rw [List.all_eq_true]
    intro p hp
    have hn := (h p.1 p.2 (RegMap.mem_entries.mp hp)).toNormalized
    have hfit (s : Source) : -2147483648 ≤ p.2.cyclesOf s - (cycles : Int) ∧
        p.2.cyclesOf s - (cycles : Int) ≤ 2147483647 := by
      have := Requirement.cyclesOf_nonneg hn s
      have := Requirement.cyclesOf_range p.2 s
      omega
    simp only [Requirement.canAdvance, Requirement.cyclesFit, Bool.and_eq_true, decide_eq_true_eq]
    exact ⟨⟨hfit .salu, hfit .valu⟩, hfit .trans⟩
  rw [elapse, if_pos hall]

/-- The calls one after the other. -/
def elapseAll (ctx : Pending) (ticks : List Tick) : Except Fault Pending :=
  ticks.foldlM (fun ctx t => ctx.elapse t.valu t.trans t.cycles) ctx

/-- Each result passes through all calls as through one of their total length. A counter that has
been reset is counted up again by later calls, so the invariant speaks of what is due and not of the
fields. -/
theorem Live.exists_elapseAll (h : ctx.Live) (ticks : List Tick) :
    ∃ after, ctx.elapseAll ticks = .ok after ∧ after.Live ∧ ∀ r s, after.due r s =
      (ctx.due r s).bind fun d => d.pass s (Tick.count ticks s) (total (·.cycles) ticks) := by
  induction ticks generalizing ctx with
  | nil =>
    refine ⟨ctx, rfl, h, fun r s => ?_⟩
    have hzero : Tick.count [] s = 0 := by cases s <;> rfl
    rw [hzero]
    cases hd : ctx.due r s with
    | none => rfl
    | some d =>
      obtain ⟨hage, hcycles⟩ := due_open hd
      exact (Due.pass_zero hage hcycles).symm
  | cons t rest ih =>
    obtain ⟨after, hafter, hlive, hdue⟩ := ih (live_pass ctx t.valu t.trans t.cycles)
    refine ⟨after, ?_, hlive, fun r s => ?_⟩
    · unfold elapseAll at hafter ⊢
      rw [List.foldlM_cons, h.elapse_eq t.valu t.trans t.cycles_lt]
      exact hafter
    · rw [hdue, due_pass ctx t.valu t.trans (Int.natCast_nonneg _), Option.bind_assoc]
      congr 1
      funext d
      rw [Due.pass_pass (Int.natCast_nonneg _) (Int.natCast_nonneg _), Tick.count_cons, total_cons,
        Int.natCast_add]

/-- The order of the calls does not matter. -/
theorem Live.elapseAll_perm (h : ctx.Live) {ticks other : List Tick} (hp : other.Perm ticks) :
    ctx.elapseAll other = ctx.elapseAll ticks := by
  obtain ⟨a, ha, hlive, hdue⟩ := h.exists_elapseAll ticks
  obtain ⟨b, hb, hlive', hdue'⟩ := h.exists_elapseAll other
  rw [ha, hb, hlive'.ext_due hlive]
  intro r s
  have htotal : total (·.cycles) other = total (·.cycles) ticks := (hp.map _).sum_nat
  rw [hdue, hdue', Tick.count_perm hp, htotal]

/-- The closed form of any number of calls on a live context. A register is tracked afterwards as
long as something there is open, with what the instructions and cycles of all calls leave of it. -/
theorem elapseAll_closed (h : ctx.Live) (ticks : List Tick) :
    ∃ after, ctx.elapseAll ticks = .ok after ∧
      (∀ r, (∃ q', after.get? r = some q') ↔ ∃ q, ctx.get? r = some q ∧
        q.Lasts (ticks.countP (·.valu)) (ticks.countP (·.trans)) (total (·.cycles) ticks)) ∧
      (∀ r q q', ctx.get? r = some q → after.get? r = some q' →
        q.Aged (ticks.countP (·.valu)) (ticks.countP (·.trans)) (total (·.cycles) ticks) q') ∧
      (∀ other : List Tick, other.Perm ticks → ctx.elapseAll other = .ok after) ∧
      ctx.elapse false false 0 = .ok ctx := by
  obtain ⟨after, hafter, hlive, hdue⟩ := h.exists_elapseAll ticks
  refine ⟨after, hafter, ?_, ?_, ?_, ?_⟩
  · intro r
    rw [hlive.exists_iff]
    simp only [hdue, Requirement.lasts_iff]
    constructor
    · rintro ⟨s, d, hd⟩
      rw [due, Option.bind_assoc] at hd
      obtain ⟨q, hq, hpass⟩ := Option.bind_eq_some_iff.mp hd
      exact ⟨q, hq, s, Requirement.outlives_of_bind_pass hpass⟩
    · rintro ⟨q, hq, s, ho⟩
      have hpass := Requirement.bind_pass_of_outlives ho
      exact ⟨s, _, by rw [due, hq, Option.bind_some, hpass]⟩
  · intro r q q' hq hq'
    apply Requirement.aged_of_due (hlive r q' hq').toNormalized
    intro s
    have := hdue r s
    rwa [due, due, hq, hq', Option.bind_some, Option.bind_some] at this
  · intro other hp
    rw [h.elapseAll_perm hp, hafter]
  · have hzero := h.elapse_eq false false (Nat.zero_lt_succ 2147483647)
    exact hzero.trans (congrArg Except.ok h.pass_zero)

/-- A vector result with a count below zero, a scalar one and a mixed one. -/
def threeResults (vector scalar mixed : Reg) : Pending :=
  ((record RegMap.empty vector ⟨-3, 5, 4, 0, 0⟩).record scalar ⟨5, 0, 4, 0, 3⟩).record mixed
    ⟨1, 4, 2, 8, 2⟩

/-- A vector instruction of one cycle and a transcendental one of three. -/
def twoTicks : List Tick := [⟨true, false, 1, by decide⟩, ⟨false, true, 3, by decide⟩]

/-- The scalar result has arrived, and so has the vector part of the mixed one. -/
theorem elapseAll_closed_threeResults : (threeResults 3 5 257).Live ∧
    ∃ after q, (threeResults 3 5 257).elapseAll twoTicks = .ok after ∧
      (∃ q', after.get? 3 = some q') ∧ (¬ ∃ q', after.get? 5 = some q') ∧
      after.get? 257 = some q ∧ q.valuInstrs = Requirement.valuNop ∧
      q.transInstrs.toInt = 3 ∧ q.transCycles.toInt = 4 := by
  have hlive : (threeResults 3 5 257).Live := by decide
  obtain ⟨after, hafter, htracked, haged, -⟩ := elapseAll_closed hlive twoTicks
  have hvector := (htracked 3).mpr ⟨_, rfl, by decide⟩
  have hscalar : ¬ ∃ q', after.get? 5 = some q' := by
    intro h
    obtain ⟨e, he, hlasts⟩ := (htracked 5).mp h
    obtain rfl : ⟨5, 0, 4, 0, 3⟩ = e := Option.some.inj he
    exact absurd hlasts (by decide)
  obtain ⟨q, hq⟩ := (htracked 257).mpr ⟨_, rfl, by decide⟩
  obtain ⟨hvalu, htrans, -⟩ := haged 257 _ q rfl hq
  exact ⟨hlive, after, q, hafter, hvector, hscalar, hq, hvalu.1, htrans⟩

end Pending

end DelayHint

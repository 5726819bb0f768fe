import DelayHint.Proofs.Scan.Run

/-! Normal contexts: every pending result is one that a hint could still wait for, with all counts
in range. Scanning keeps contexts normal, whatever hints the code already has. -/
namespace DelayHint

namespace Requirement

theorem toInt_ofIntClamp (x : Int) : (Int8.ofIntClamp x).toInt = max (-128) (min 127 x) := by
  unfold Int8.ofIntClamp
  split
  · rename_i hlo
    rw [Int8.toInt_minValue] at hlo
    split
    · rename_i hhi
      rw [Int8.toInt_maxValue] at hhi
      rw [Int8.toInt_ofIntLE]
      omega
    · rename_i hhi
      rw [Int8.toInt_maxValue] at hhi
      rw [Int8.toInt_maxValue]
      omega
  · rename_i hlo
    rw [Int8.toInt_minValue] at hlo
    rw [Int8.toInt_minValue]
    omega

theorem toInt_valuNop : valuNop.toInt = 5 := rfl

theorem toInt_transNop : transNop.toInt = 4 := rfl

theorem isEmpty_iff_toInt {q : Requirement} : q.isEmpty = true ↔
    q.valuInstrs.toInt = 5 ∧ q.transInstrs.toInt = 4 ∧ q.saluCycles.toInt = 0 := by
  simp only [isEmpty, Bool.and_eq_true, beq_iff_eq, ← Int8.toInt_inj, toInt_valuNop,
    toInt_transNop, Int8.toInt_zero, and_assoc]

theorem valu_normalize (q : Requirement) :
    if 5 ≤ q.valuInstrs.toInt ∨ q.valuCycles.toInt ≤ 0 then
      q.normalize.valuInstrs.toInt = 5 ∧ q.normalize.valuCycles.toInt = 0
    else q.normalize.valuInstrs.toInt = q.valuInstrs.toInt ∧
      q.normalize.valuCycles.toInt = q.valuCycles.toInt := by
  have hle : (valuNop ≤ q.valuInstrs ∨ q.valuCycles ≤ 0) ↔
      (5 ≤ q.valuInstrs.toInt ∨ q.valuCycles.toInt ≤ 0) := by
    rw [Int8.le_iff_toInt_le, Int8.le_iff_toInt_le, toInt_valuNop, Int8.toInt_zero]
  unfold normalize normalizeTrans normalizeValu
  simp only [hle]
  split
  · split <;> exact ⟨rfl, rfl⟩
  · split <;> exact ⟨rfl, rfl⟩

theorem trans_normalize (q : Requirement) :
    if 4 ≤ q.transInstrs.toInt ∨ q.transCycles.toInt ≤ 0 then
      q.normalize.transInstrs.toInt = 4 ∧ q.normalize.transCycles.toInt = 0
    else q.normalize.transInstrs.toInt = q.transInstrs.toInt ∧
      q.normalize.transCycles.toInt = q.transCycles.toInt := by
  have hle : (transNop ≤ q.transInstrs ∨ q.transCycles ≤ 0) ↔
      (4 ≤ q.transInstrs.toInt ∨ q.transCycles.toInt ≤ 0) := by
    rw [Int8.le_iff_toInt_le, Int8.le_iff_toInt_le, toInt_transNop, Int8.toInt_zero]
  have hvi : q.normalizeValu.transInstrs = q.transInstrs ∧
      q.normalizeValu.transCycles = q.transCycles := by
    unfold normalizeValu
    split <;> exact ⟨rfl, rfl⟩
  unfold normalize normalizeTrans
  simp only [hvi.1, hvi.2, hle]
  split
  · exact ⟨rfl, rfl⟩
  · exact ⟨congrArg Int8.toInt hvi.1, congrArg Int8.toInt hvi.2⟩

theorem toInt_saluCycles_normalize (q : Requirement) :
    q.normalize.saluCycles.toInt = max q.saluCycles.toInt 0 := by
  rw [normalize, toInt_max, Int8.toInt_zero]

theorem settle?_eq_some {q r : Requirement} (h : q.settle? = some r) :
    r = q.normalize ∧ q.normalize.isEmpty = false := by
  unfold settle? at h
  split at h
  · cases h
  · rename_i he
    exact ⟨(Option.some.inj h).symm, by simpa using he⟩

/-- What can be pending for a register between two instructions: something a hint can wait for. -/
structure Normal (q : Requirement) : Prop where
  valu_range : 0 ≤ q.valuInstrs.toInt ∧ q.valuInstrs.toInt ≤ 5
  trans_range : 1 ≤ q.transInstrs.toInt ∧ q.transInstrs.toInt ≤ 4
  cycles_nonneg : 0 ≤ q.valuCycles.toInt ∧ 0 ≤ q.transCycles.toInt ∧ 0 ≤ q.saluCycles.toInt
  valu_iff : q.valuInstrs.toInt = 5 ↔ q.valuCycles.toInt = 0
  trans_iff : q.transInstrs.toInt = 4 ↔ q.transCycles.toInt = 0
  pending : q.valuInstrs.toInt < 5 ∨ q.transInstrs.toInt < 4 ∨ 0 < q.saluCycles.toInt

theorem normal_of_settle? {q r : Requirement} (hv : 0 ≤ q.valuInstrs.toInt)
    (ht : 1 ≤ q.transInstrs.toInt) (h : q.settle? = some r) : r.Normal := by
  obtain ⟨rfl, he⟩ := settle?_eq_some h
  have hvn := valu_normalize q
  have htn := trans_normalize q
  have hsn := toInt_saluCycles_normalize q
  rw [← Bool.not_eq_true, isEmpty_iff_toInt] at he
  split at hvn <;> split at htn <;> constructor <;> omega

theorem Normal.join {a b : Requirement} (ha : a.Normal) (hb : b.Normal) : (a.join b).Normal := by
  obtain ⟨hav, hat, hac, havi, hati, hap⟩ := ha
  obtain ⟨hbv, hbt, hbc, hbvi, hbti, hbp⟩ := hb
  constructor <;> simp only [Requirement.join, toInt_min, toInt_max] <;> omega

/-- The instruction counts are not below zero, and that of the transcendental unit is at least
`lo`. -/
def CountsFrom (lo : Int) (q : Requirement) : Prop :=
  0 ≤ q.valuInstrs.toInt ∧ lo ≤ q.transInstrs.toInt

theorem Normal.countsFrom {q : Requirement} (h : q.Normal) : q.CountsFrom 1 :=
  ⟨h.valu_range.1, h.trans_range.1⟩

theorem CountsFrom.join {lo : Int} {a b : Requirement} (ha : a.CountsFrom lo)
    (hb : b.CountsFrom lo) : (a.join b).CountsFrom lo := by
  unfold CountsFrom at ha hb ⊢
  simp only [Requirement.join, toInt_min]
  omega

/-- What joining keeps holds of a join over a list. -/
theorem foldl_join_induction {P : Requirement → Prop} {q : Requirement} {l : List Requirement}
    (hjoin : ∀ {a b}, P a → P b → P (a.join b)) (hq : P q) (hl : ∀ e ∈ l, P e) :
    P (l.foldl Requirement.join q) := by
  induction l generalizing q with
  | nil => exact hq
  | cons e rest ih =>
    exact ih (hjoin hq (hl e List.mem_cons_self)) fun d hd => hl d (List.mem_cons_of_mem _ hd)

theorem toInt_countUp (seen : Bool) (n : Int8) :
    (countUp seen n).toInt = if seen then min 127 (n.toInt + 1) else n.toInt := by
  have := Int8.le_toInt n
  unfold countUp
  cases seen with
  | true =>
    simp only [if_true, toInt_ofIntClamp]
    omega
  | false => simp

theorem CountsFrom.advance {trans : Bool} {q : Requirement}
    (h : q.CountsFrom (if trans then 0 else 1)) (valu : Bool) (cycles : Int) :
    (q.advance valu trans cycles).CountsFrom 1 := by
  unfold CountsFrom at h ⊢
  simp only [Requirement.advance, toInt_countUp]
  cases valu <;> cases trans <;> simp only [if_true, Bool.false_eq_true, if_false] at h ⊢ <;> omega

end Requirement

namespace Pending

/-- Every entry is normal. -/
def Normal (ctx : Pending) : Prop := ∀ (r : Reg) (q : Requirement), ctx.get? r = some q → q.Normal

variable {cost : Instr → Cost} {ctx ctx' : Pending} {i : Instr}

theorem normal_empty : Normal RegMap.empty := fun r q h => by cases h

theorem get?_recordAll (ctx : Pending) (rs : List Reg) (w : Requirement) (r : Reg) :
    (r ∈ rs → (ctx.recordAll rs w).get? r = some (addTo w (ctx.get? r))) ∧
      (r ∉ rs → (ctx.recordAll rs w).get? r = ctx.get? r) := by
  have hagain (old : Option Requirement) : addTo w (some (addTo w old)) = addTo w old := by
    cases old with
    | none => exact Requirement.join_self w
    | some e =>
      show (e.join w).join w = e.join w
      rw [Requirement.join_assoc, Requirement.join_self]
  induction rs generalizing ctx with
  | nil => exact ⟨fun h => absurd h List.not_mem_nil, fun _ => rfl⟩
  | cons k rest ih =>
    have hone := get?_record ctx k r w
    obtain ⟨hin, hout⟩ := ih (ctx.record k w)
    have hdef : ctx.recordAll (k :: rest) w = (ctx.record k w).recordAll rest w := rfl
    rw [hdef, List.mem_cons]
    constructor
    · intro hr
      by_cases hrest : r ∈ rest
      · rw [hin hrest, hone]
        split
        · rename_i hk
          rw [hk, hagain]
        · rfl
      · have hk : r = k := hr.resolve_right hrest
        rw [hout hrest, hone, if_pos hk, hk]
    · intro hr
      rw [not_or] at hr
      rw [hout hr.2, hone, if_neg hr.1]

/-- What joining keeps holds of what an instruction requires, if it holds of what is queued and
pending. -/
theorem demand_induction {P : Requirement → Prop} {q q' : Requirement}
    (hjoin : ∀ {a b : Requirement}, P a → P b → P (a.join b))
    (hctx : ∀ {r e}, ctx.get? r = some e → P e) (hq : P q) (h : ctx.demand q i = .ok q') :
    P q' := by
  rcases demand_cases h with ⟨-, rfl⟩ | ⟨units, -, -, rfl⟩
  · exact hq
  · refine Requirement.foldl_join_induction hjoin hq fun e he => ?_
    obtain ⟨u, -, hu⟩ := List.mem_filterMap.mp he
    exact hctx hu

/-- What joining two requirements keeps holds of every entry of a join. -/
theorem forall_get?_join {P : Requirement → Prop} {a b : Pending}
    (hjoin : ∀ {u v : Requirement}, P u → P v → P (u.join v))
    (ha : ∀ (r : Reg) (q : Requirement), a.get? r = some q → P q)
    (hb : ∀ (r : Reg) (q : Requirement), b.get? r = some q → P q) (r : Reg) (q : Requirement)
    (h : (a.join b).get? r = some q) : P q := by
  rw [get?_join] at h
  cases hu : a.get? r with
  | none =>
    rw [hu, Option.merge_none_left] at h
    exact hb r q h
  | some u =>
    cases hv : b.get? r with
    | none =>
      rw [hu, hv, Option.merge_none_right] at h
      exact ha r q (hu.trans h)
    | some v =>
      rw [hu, hv, Option.merge_some_some] at h
      exact Option.some.inj h ▸ hjoin (ha r u hu) (hb r v hv)

theorem Normal.join {a b : Pending} (ha : a.Normal) (hb : b.Normal) : (a.join b).Normal :=
  forall_get?_join Requirement.Normal.join ha hb

/-- A transcendental instruction counts itself, so its own results may start from zero. -/
theorem normal_pass (trans : Bool)
    (h : ∀ {r q}, ctx.get? r = some q → q.CountsFrom (if trans then 0 else 1)) (valu : Bool)
    (cycles : Int) : (ctx.pass valu trans cycles).Normal := by
  intro r q hq
  rw [get?_pass] at hq
  obtain ⟨e, he, hs⟩ := Option.bind_eq_some_iff.mp hq
  obtain ⟨hv, ht⟩ := (h he).advance valu cycles
  exact Requirement.normal_of_settle? hv ht hs

theorem Normal.discharge (h : ctx.Normal) (q : Requirement) : (ctx.discharge q).Normal := by
  intro r e he
  rw [Pending.discharge, RegMap.get?_filterMap] at he
  obtain ⟨e', he', hs⟩ := Option.bind_eq_some_iff.mp he
  obtain ⟨hv, ht⟩ := (h r e' he').countsFrom
  refine Requirement.normal_of_settle? ?_ ?_ hs
  · simp only
    split
    · decide
    · exact hv
  · simp only
    split
    · decide
    · exact ht

theorem Normal.wait (h : ctx.Normal) {q : Requirement} (hw : ctx.wait q = .ok ctx') :
    ctx'.Normal := by
  rcases wait_cases hw with ⟨-, rfl⟩ | ⟨-, rfl⟩
  · exact h
  · have hp : (ctx.pass false false q.maxCycles.toInt).Normal :=
      normal_pass false (fun hq => (h _ _ hq).countsFrom) _ _
    exact hp.discharge q

theorem countsFrom_written (i : Instr) (latency : UInt8) :
    (written i latency).CountsFrom (if i.isTrans then 0 else 1) := by
  unfold written
  by_cases ht : i.isTrans
  · simp only [ht, if_true]
    constructor <;> simp [Requirement.empty, Requirement.valuNop]
  · simp only [ht, Bool.false_eq_true, if_false]
    split <;> constructor <;>
      simp [Requirement.empty, Requirement.valuNop, Requirement.transNop]

/-- What joining keeps holds of all results when those of an instruction have been added. -/
theorem forall_get?_produce {P : Requirement → Prop} {after : Pending} {latency : UInt8}
    (hjoin : ∀ {u v : Requirement}, P u → P v → P (u.join v))
    (hctx : ∀ {r q}, ctx.get? r = some q → P q) (hw : i.isAlu → P (written i latency))
    (h : ctx.produce i latency = .ok after) {r : Reg} {q : Requirement}
    (hq : after.get? r = some q) : P q := by
  rcases produce_cases h with ⟨-, rfl⟩ | ⟨units, ha, -, rfl⟩
  · exact hctx hq
  · obtain ⟨hin, hout⟩ := get?_recordAll ctx units (written i latency) r
    by_cases hr : r ∈ units
    · obtain rfl := Option.some.inj ((hin hr).symm.trans hq)
      cases he : ctx.get? r with
      | none => exact hw ha
      | some e => exact hjoin (hctx he) (hw ha)
    · exact hctx ((hout hr).symm.trans hq)

theorem Normal.issue (h : ctx.Normal) (hi : Pending.issue cost ctx i = .ok ctx') :
    ctx'.Normal := by
  rcases issue_cases hi with ⟨-, rfl⟩ | ⟨after, -, hp, rfl⟩
  · exact normal_empty
  · have hctx {r : Reg} {q : Requirement} (hq : ctx.get? r = some q) :
        q.CountsFrom (if i.isTrans then 0 else 1) := by
      obtain ⟨hv, ht⟩ := (h r q hq).countsFrom
      refine ⟨hv, ?_⟩
      split <;> omega
    refine normal_pass i.isTrans (fun hq => ?_) _ _
    exact forall_get?_produce (P := Requirement.CountsFrom (if i.isTrans then 0 else 1))
      Requirement.CountsFrom.join hctx (fun _ => countsFrom_written i _) hp hq

end Pending

namespace Scan

variable {cost : Instr → Cost} {ctx ctx' : Pending} {i : Instr}

theorem normal_step {q q' : Requirement} (h : step cost q ctx i = .ok (q', ctx'))
    (hn : ctx.Normal) : ctx'.Normal := by
  obtain ⟨waited, -, hw, hi⟩ := step_eq_ok h
  exact (hn.wait hw).issue hi

/-- A scan that starts from a normal context ends in one. -/
theorem normal_block {instrs out : List Instr} (h : block cost ctx instrs = .ok (out, ctx'))
    (hn : ctx.Normal) : ctx'.Normal :=
  (run_of_eq_ok h).pending (fun _ hs hctx => normal_step hs hctx) hn

end Scan

end DelayHint

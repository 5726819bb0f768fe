import DelayHint.Proofs.Scan.Total

/-! Contexts whose results a hint could wait for. A vector instruction counts itself, so its results
are one instruction old when the next one is issued. Matrix instructions do not, and are left out
here. -/
namespace DelayHint

/-- The registers of an instruction exist, and it is not a matrix instruction. -/
structure Instr.Ordinary (i : Instr) : Prop where
  fits : ∀ s ∈ i.spans, s.Fits
  not_isWmma : ¬ i.isWmma

theorem Instr.not_isWmma_of_isHint {i : Instr} (h : i.isHint) : ¬ i.isWmma := by
  rw [isHint, beq_iff_eq] at h
  simp [isWmma, pipe, h, Opcode.pipe, Opcode.spec]

namespace Requirement

variable {p q r : Requirement} {most : Int}

/-- Instruction counts are at least `valu` and `trans`, scalar cycles at most `salu`. -/
def Bounded (valu trans salu : Int) (q : Requirement) : Prop :=
  valu ≤ q.valuInstrs.toInt ∧ trans ≤ q.transInstrs.toInt ∧ q.saluCycles.toInt ≤ salu

theorem Bounded.join {valu trans salu : Int} (hp : p.Bounded valu trans salu)
    (hq : q.Bounded valu trans salu) : (p.join q).Bounded valu trans salu := by
  unfold Bounded at hp hq ⊢
  simp only [Requirement.join, toInt_min, toInt_max]
  omega

theorem Expressible.bounded (hq : q.Expressible most) : q.Bounded 1 1 most :=
  ⟨hq.valu_range.1, hq.trans_range.1, hq.salu_range.2⟩

theorem Expressible.maxCycles_nonneg (hq : q.Expressible most) : 0 ≤ q.maxCycles.toInt := by
  have := hq.cycles_nonneg
  rw [toInt_maxCycles]
  omega

/-- An instruction that counts lifts the count of its own result. -/
theorem Bounded.advance {valu trans : Bool} {cycles : Nat} (hmost : 0 ≤ most)
    (h : q.Bounded (if valu then 0 else 1) (if trans then 0 else 1) (most + cycles)) :
    (q.advance valu trans cycles).Bounded 1 1 most := by
  unfold Bounded at h ⊢
  simp only [Requirement.advance, toInt_countUp, toInt_ofIntClamp]
  cases valu <;> cases trans <;> simp only [if_true, Bool.false_eq_true, if_false] at h ⊢ <;> omega

theorem Bounded.settle? (hq : q.Bounded 1 1 most) (hmost : 0 ≤ most) (h : q.settle? = some r) :
    r.Normal ∧ r.Expressible most := by
  obtain ⟨hv, ht, hs⟩ := hq
  have hr : r.Normal := normal_of_settle? (by omega) ht h
  obtain ⟨rfl, -⟩ := settle?_eq_some h
  have hvn := valu_normalize q
  have hsn := toInt_saluCycles_normalize q
  refine ⟨hr, hr.expressible ?_ (by omega)⟩
  split at hvn <;> omega

end Requirement

namespace Pending

variable {cost : Instr → Cost} {a b ctx ctx' : Pending} {q : Requirement} {i : Instr} {most : Int}

/-- A hint could wait for every pending result. -/
def Expressible (most : Int) (ctx : Pending) : Prop :=
  ∀ (r : Reg) (e : Requirement), ctx.get? r = some e → e.Normal ∧ e.Expressible most

theorem Expressible.normal (h : ctx.Expressible most) : ctx.Normal := fun r e he => (h r e he).1

theorem Expressible.join (ha : a.Expressible most) (hb : b.Expressible most) :
    (a.join b).Expressible most :=
  forall_get?_join (fun hu hv => ⟨hu.1.join hv.1, hu.2.join hv.2⟩) ha hb

/-- A wait leaves less than no wait at all. -/
theorem Expressible.waited (h : ctx.Expressible most) (hq : q.Expressible most) :
    (ctx.waited q).Expressible most := by
  cases he : q.isEmpty with
  | true => rwa [waited_of_isEmpty _ he]
  | false =>
    have hc := hq.maxCycles_nonneg
    have hle : (ctx.waited q).Within (ctx.waited .empty) :=
      (within_refl ctx).waited h.normal he hc ⟨hq.valu_range.2, hq.trans_range.2, hc⟩
    rw [waited_of_isEmpty _ (q := .empty) rfl] at hle
    intro r e hr
    obtain ⟨d, hd, hed⟩ := hle r e hr
    obtain ⟨hv, -, hs⟩ := (h r d hd).2.bounded
    have hn : e.Normal := h.normal.waited q r e hr
    exact ⟨hn, hn.expressible (Int.le_trans hv hed.valu_instrs)
      (Int.le_trans hed.salu_cycles hs)⟩

/-- The results of an instruction, at the moment when it is issued. -/
private theorem bounded_written {c : Cost} (hmost : 0 ≤ most) (ha : i.isAlu) (hw : ¬ i.isWmma)
    (hc : i.isSalu → min 127 (c.latency.toNat : Int) ≤ most + c.issue.toNat) :
    (written i c.latency).Bounded (if i.isValu && !i.isWmma then 0 else 1)
      (if i.isTrans then 0 else 1) (most + c.issue.toNat) := by
  have hvalu : Requirement.empty.valuInstrs.toInt = 5 := rfl
  have htrans : Requirement.empty.transInstrs.toInt = 4 := rfl
  have hsalu : Requirement.empty.saluCycles.toInt = 0 := rfl
  rw [Bool.not_eq_true] at hw
  unfold written Requirement.Bounded
  simp only [hw, Bool.not_false, Bool.and_true]
  by_cases ht : i.isTrans
  · simp only [ht, if_true, hvalu, hsalu, Int8.toInt_zero, Int.le_refl, true_and]
    refine ⟨?_, by omega⟩
    split <;> omega
  · simp only [ht, Bool.false_eq_true, if_false]
    by_cases hv : i.isValu
    · simp only [hv, if_true, htrans, hsalu, Int8.toInt_zero, Int.le_refl, true_and]
      omega
    · have hs : i.isSalu := by simpa [Instr.isAlu, hv] using ha
      have := hc hs
      simp only [hv, Bool.false_eq_true, if_false, hvalu, htrans, Requirement.toInt_ofIntClamp]
      omega

theorem Expressible.issue (h : ctx.Expressible most) (hmost : 0 ≤ most) (hw : ¬ i.isWmma)
    (hc : i.isSalu → min 127 ((cost i).latency.toNat : Int) ≤ most + (cost i).issue.toNat)
    (hi : Pending.issue cost ctx i = .ok ctx') : ctx'.Expressible most := by
  rcases issue_cases hi with ⟨-, rfl⟩ | ⟨after, -, hp, rfl⟩
  · intro r e he
    cases he
  · intro r e he
    rw [get?_pass] at he
    obtain ⟨d, hd, hs⟩ := Option.bind_eq_some_iff.mp he
    have hctx {r : Reg} {q : Requirement} (hq : ctx.get? r = some q) :
        q.Bounded (if i.isValu && !i.isWmma then 0 else 1) (if i.isTrans then 0 else 1)
          (most + (cost i).issue.toNat) := by
      obtain ⟨hv, ht, hs⟩ := (h r q hq).2.bounded
      refine ⟨?_, ?_, by omega⟩ <;> split <;> omega
    have hbound := forall_get?_produce (P := Requirement.Bounded _ _ _) Requirement.Bounded.join
      hctx (fun ha => bounded_written hmost ha hw hc) hp hd
    exact (hbound.advance hmost).settle? hmost hs

end Pending

/-- Without matrix instructions every pending result stays one that a hint can wait for, if scalar
results are there `most` cycles after their issue. -/
theorem Scan.steady_expressible {cost : Instr → Cost} {most : Int} (hmost : 0 ≤ most)
    (hc : ∀ i : Instr, i.isSalu →
      min 127 ((cost i).latency.toNat : Int) ≤ most + (cost i).issue.toNat) :
    Steady cost (Pending.Expressible most) (Requirement.Expressible most) Instr.Ordinary where
  empty r e he := by cases he
  join := Pending.Expressible.join
  get? hctx he := (hctx _ _ he).2
  nothing := Requirement.expressible_empty hmost
  joined := Requirement.Expressible.join
  writable := Requirement.Expressible.writable
  fits := Instr.Ordinary.fits
  withHint hq he hp hi := hq.eq_empty he ▸ hp.withHint hi
  waited := Pending.Expressible.waited
  issue {ctx ctx' i} hctx hi hissue := by
    have hw : ¬ i.isWmma := hi.elim Instr.not_isWmma_of_isHint Instr.Ordinary.not_isWmma
    exact hctx.issue hmost hw (hc i) hissue

end DelayHint

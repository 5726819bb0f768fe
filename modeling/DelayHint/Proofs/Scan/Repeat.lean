import DelayHint.Proofs.Scan.Expressible

/-! Scanning code a second time. If a hint takes no time and scalar results take at most one cycle
more than their issue, a scan writes its own hints again from every context with less pending, and
it ends with less pending than the first scan. -/
namespace DelayHint

/-- Hints take no time, and scalar results are there one cycle after their issue. -/
structure Prompt (cost : Instr → Cost) : Prop where
  hint : ∀ i : Instr, i.isHint → (cost i).issue = 0
  salu : ∀ i : Instr, i.isSalu → (cost i).latency.toNat ≤ 1 + (cost i).issue.toNat

theorem Prompt.steady {cost : Instr → Cost} (hc : Prompt cost) :
    Scan.Steady cost (Pending.Expressible 1) (Requirement.Expressible 1) Instr.Ordinary := by
  refine Scan.steady_expressible (by decide) fun i hi => ?_
  have := hc.salu i hi
  omega

namespace Requirement

variable {q r : Requirement} {most : Int} {h : Instr}

theorem Expressible.isEmpty_of_within (hq : q.Expressible most) (hle : q.Within r)
    (he : r.isEmpty = true) : q.isEmpty = true := by
  rw [isEmpty_iff_toInt] at he ⊢
  have hv := hq.valu_range
  have ht := hq.trans_range
  have hs := hq.salu_range
  obtain ⟨h1, -, h3, -, h5⟩ := hle
  omega

/-- With both instruction counts in a hint, the scalar cycles make no difference. -/
private theorem hint_of_both (hv : q.valuCode ≠ 0) (ht : q.transCode ≠ 0) (s : Int8) :
    { q with saluCycles := s }.hint = q.hint := by
  have hcodes (p : Requirement) (hpv : p.valuCode ≠ 0) (hpt : p.transCode ≠ 0) :
      p.codes.getD 0 0 = p.transCode ∧ p.codes.getD 1 0 = p.valuCode := by
    obtain ⟨a, b, ha, hb, hcases⟩ := codes_cases p
    rw [ha, hb]
    omega
  obtain ⟨hfirst, hsecond⟩ := hcodes q hv ht
  obtain ⟨hfirst', hsecond'⟩ := hcodes { q with saluCycles := s } hv ht
  simp only [hint, hfirst, hsecond, hfirst', hsecond']
  rfl

/-- A requirement between what a hint says and what the hint was written for gives the same hint,
and waiting for it takes as long. Scalar cycles that are not written stand beside two other waits,
which take at least one cycle each. -/
theorem Expressible.hint_of_within (hq : q.Expressible 1) (he : q.isEmpty = false)
    (hh : q.hint = .ok h) (hlo : (empty.withHint h).Within r) (hhi : r.Within q) :
    r.hint = .ok h ∧ r.Outlasts q ∧ r.isEmpty = false := by
  have hthree : (3 : Int8).toInt = 3 := rfl
  have hs := hq.salu_range
  rw [withHint_hint hq.writable hq.valu_range.1 hs.1 hh] at hlo
  obtain ⟨h1, h2, h3, h4, h5⟩ := hlo
  obtain ⟨g1, g2, g3, g4, g5⟩ := hhi
  have hvi : r.valuInstrs.toInt = q.valuInstrs.toInt := Int.le_antisymm h1 g1
  have hvc : r.valuCycles.toInt = q.valuCycles.toInt := Int.le_antisymm g2 h2
  have hti : r.transInstrs.toInt = q.transInstrs.toInt := Int.le_antisymm h3 g3
  have htc : r.transCycles.toInt = q.transCycles.toInt := Int.le_antisymm g4 h4
  by_cases hboth : q.valuInstrs.toInt < 5 ∧ q.transInstrs.toInt < 4
  · have hv := level_valuCode hq.writable.ranged
    have ht := level_transCode hq.writable.ranged
    have hcycles := hq.valu_iff
    have hnonneg := hq.cycles_nonneg
    have hvr := hq.valu_range
    have htr := hq.trans_range
    simp only [level] at hv ht
    have hr : r = { q with saluCycles := r.saluCycles } := ext_toInt hvi hvc hti htc rfl
    refine ⟨?_, ⟨Int.le_of_eq hvi, Int.le_of_eq hti, ?_⟩, ?_⟩
    · rw [hr, hint_of_both (by omega) (by omega)]
      exact hh
    · rw [toInt_maxCycles, toInt_maxCycles]
      omega
    · rw [← Bool.not_eq_true, isEmpty_iff_toInt]
      omega
  · rw [if_neg hboth, toInt_min, hthree] at h5
    obtain rfl : r = q := ext_toInt hvi hvc hti htc (by omega)
    exact ⟨hh, outlasts_refl r, he⟩

/-- What a hint says is no more than what it was written for, and waiting for it takes as long. -/
theorem Expressible.withHint_within (hq : q.Expressible 1) (he : q.isEmpty = false)
    (hh : q.hint = .ok h) : (empty.withHint h).Within q ∧ (empty.withHint h).Outlasts q ∧
      (empty.withHint h).isEmpty = false := by
  have hthree : (3 : Int8).toInt = 3 := rfl
  have hs := hq.salu_range
  have hle : (empty.withHint h).Within q := by
    rw [withHint_hint hq.writable hq.valu_range.1 hs.1 hh]
    refine ⟨Int.le_refl _, Int.le_refl _, Int.le_refl _, Int.le_refl _, ?_⟩
    simp only
    split
    · exact hs.1
    · rw [toInt_min]
      omega
  exact ⟨hle, (hq.hint_of_within he hh (within_refl _) hle).2⟩

end Requirement

namespace Pending

variable {cost : Instr → Cost} {a b ctx : Pending} {p p' q q' : Requirement} {i h : Instr}

theorem within_of_demand (h : ctx.demand q i = .ok q') : q.Within q' := by
  rcases demand_cases h with ⟨-, rfl⟩ | ⟨units, -, -, rfl⟩
  · exact Requirement.within_refl _
  · exact (Requirement.within_foldl_join q _).1

/-- With less pending, an instruction demands no more. -/
theorem Within.demand (hab : a.Within b) (hb : b.demand p i = .ok p') (hq : q.Within p')
    (ha : a.demand q i = .ok q') : q'.Within p' := by
  rcases demand_cases ha with ⟨-, rfl⟩ | ⟨units, halu, hu, rfl⟩
  · exact hq
  · rcases demand_cases hb with ⟨hn, -⟩ | ⟨units', -, hu', rfl⟩
    · rw [halu] at hn
      cases hn
    · obtain rfl : units = units' := Except.ok.inj (hu.symm.trans hu')
      refine hq.foldl_join fun e he => ?_
      obtain ⟨d, hd, hed⟩ := hab.valuesAt he
      exact hed.trans ((Requirement.within_foldl_join p _).2 d hd)

/-- A written hint has no results and takes no time. -/
private theorem Normal.issue_hint (hctx : ctx.Normal) (hh : q.hint = .ok h)
    (hfree : (cost h).issue = 0) :
    Pending.issue cost ctx h = .ok ctx := by
  obtain ⟨ctx', hi⟩ := exists_issue (i := h) cost ctx (by simp [Requirement.spans_hint hh])
  obtain ⟨-, -, rfl⟩ := Requirement.hint_eq_ok hh
  rcases issue_cases hi with ⟨hb, -⟩ | ⟨after, -, hp, rfl⟩
  · cases hb
  · obtain rfl : ctx = after := Except.ok.inj hp
    have hpass := hctx.pass_zero
    rw [hfree] at hi
    exact hi.trans (congrArg Except.ok hpass)

end Pending

namespace Scan

variable {cost : Instr → Cost} {ctx ctx' again : Pending} {p q q' q'' : Requirement} {h x : Instr}
  {code out hints : List Instr} {last : Pending}

/-- A hint is taken over and waited for. -/
theorem step_hint (hctx : ctx.Normal) (hh : p.hint = .ok h) (hfree : (cost h).issue = 0)
    (q : Requirement) :
    step cost q ctx h = .ok (q.withHint h, ctx.waited (q.withHint h)) := by
  have hdemand : ctx.demand (if h.isHint then q.withHint h else q) h = .ok (q.withHint h) := by
    obtain ⟨-, -, rfl⟩ := Requirement.hint_eq_ok hh
    rfl
  exact bind_eq_ok.mpr ⟨_, hdemand, bind_eq_ok.mpr ⟨_, Pending.wait_eq_ok ctx _,
    bind_eq_ok.mpr ⟨_, (hctx.waited _).issue_hint hh hfree, rfl⟩⟩⟩

/-- A scan that starts from `again` leaves `front` as it is and goes on with no more pending than
`ctx`. -/
def Leaves (cost : Instr → Cost) (again : Pending) (front : List Instr) (ctx : Pending) : Prop :=
  ∃ again' : Pending, again'.Expressible 1 ∧ again'.Within ctx ∧
    ∀ {rest out last}, run cost .empty again' rest = .ok (out, last) →
      run cost .empty again (front ++ rest) = .ok (front ++ out, last)

/-- Where nothing was required, nothing is with less pending. -/
theorem leaves_plain (hc : Prompt cost) (ha : again.Expressible 1) (hle : again.Within ctx)
    (hx : ¬ x.isHint) (ho : x.Ordinary) (hd : ctx.demand q x = .ok q') (he : q'.isEmpty = true)
    (hq' : q'.Expressible 1) (hi : Pending.issue cost (ctx.waited q') x = .ok ctx') :
    Leaves cost again [x] ctx' := by
  have st := hc.steady
  obtain ⟨r, again', hs, hdr, hir⟩ := exists_step (i := x) cost .empty again ho.fits
  rw [if_neg hx] at hdr
  have hr : r.Expressible 1 := st.demand ha st.nothing hdr
  have hnone : Requirement.empty.Within q' := hq'.eq_empty he ▸ Requirement.within_refl _
  have hre := hr.isEmpty_of_within (hle.demand hd hnone hdr) he
  obtain rfl := hr.eq_empty hre
  rw [Pending.waited_of_isEmpty _ he] at hi
  rw [Pending.waited_of_isEmpty _ hre] at hir
  refine ⟨again', st.issue ha (.inr ho) hir, hle.issue hir hi, fun hrun => ?_⟩
  exact run_cons_of_not_isHint hx hs rfl hrun

/-- The hint is read back first. What is pending behind its wait was known to the first scan, so it
adds nothing that the hint does not say. -/
theorem leaves_hinted (hc : Prompt cost) (ha : again.Expressible 1) (hctx : ctx.Expressible 1)
    (hle : (again.waited q).Within ctx) (hx : ¬ x.isHint) (ho : x.Ordinary)
    (hd : ctx.demand q x = .ok q') (he : q'.isEmpty = false) (hq' : q'.Expressible 1)
    (hh : q'.hint = .ok h) (hi : Pending.issue cost (ctx.waited q') x = .ok ctx') :
    Leaves cost again [h, x] ctx' := by
  have st := hc.steady
  have hhint : h.isHint := Requirement.isHint_of_hint hh
  obtain ⟨hread, hlong, hne⟩ := hq'.withHint_within he hh
  have hp : (Requirement.empty.withHint h).Expressible 1 := hq'.withHint hh
  have hstep := step_hint ha.normal hh (hc.hint h hhint) .empty
  have hmid : (again.waited (Requirement.empty.withHint h)).Within ctx := by
    have hlonger := hlong.trans (Pending.within_of_demand hd).outlasts
    have hless := (Pending.within_refl again).waited ha.normal hne hp.maxCycles_nonneg hlonger
    exact hless.trans hle
  have hmidexp := ha.waited hp
  obtain ⟨r, again', hs, hdr, hir⟩ := exists_step (i := x) cost (Requirement.empty.withHint h)
    (again.waited (Requirement.empty.withHint h)) ho.fits
  rw [if_neg hx] at hdr
  have hr : r.Expressible 1 := st.demand hmidexp hp hdr
  obtain ⟨hsame, hlast, hrne⟩ := hq'.hint_of_within he hh (Pending.within_of_demand hdr)
    (hmid.demand hd hread hdr)
  have hafter := hmid.waited hctx.normal hrne hr.maxCycles_nonneg hlast
  have hflush : flush r = .ok ([h], .empty) := flush_of_hint hrne hsame
  refine ⟨again', st.issue (hmidexp.waited hr) (.inr ho) hir, hafter.issue hir hi, fun hrun => ?_⟩
  rw [List.cons_append, run_cons_of_isHint hhint hstep]
  exact run_cons_of_not_isHint hx hs hflush hrun

/-- The second scan at a plain instruction. The first one came there with the queued requirement
`q`, and `again` has less pending once `q` has been waited for. -/
theorem leaves_of_step (hc : Prompt cost) (ha : again.Expressible 1) (hctx : ctx.Expressible 1)
    (hq : q.Expressible 1) (hle : (again.waited q).Within ctx) (hx : ¬ x.isHint)
    (ho : x.Ordinary) (hs : step cost q ctx x = .ok (q', ctx'))
    (hf : flush q' = .ok (hints, q'')) :
    q'' = .empty ∧ ctx'.Expressible 1 ∧ Leaves cost again (hints ++ [x]) ctx' := by
  obtain ⟨waited, hd, hw, hi⟩ := step_eq_ok hs
  obtain rfl := Pending.eq_waited_of_wait hw
  rw [if_neg hx] at hd
  have hq' : q'.Expressible 1 := hc.steady.demand hctx hq hd
  have hctx' : ctx'.Expressible 1 := hc.steady.issue (hctx.waited hq') (.inr ho) hi
  rcases flush_cases hf with ⟨he, rfl, rfl⟩ | ⟨h, he, hh, rfl, rfl⟩
  · have hqe := hq.isEmpty_of_within (Pending.within_of_demand hd) he
    rw [Pending.waited_of_isEmpty _ hqe] at hle
    exact ⟨hq'.eq_empty he, hctx', leaves_plain hc ha hle hx ho hd he hq' hi⟩
  · exact ⟨rfl, hctx', leaves_hinted hc ha hctx hle hx ho hd he hq' hh hi⟩

/-- A second scan that starts with less pending leaves the code as it is and ends with less. -/
theorem run_again (hc : Prompt cost)
    (hcode : Hinted (Requirement.Expressible 1) Instr.Ordinary code) (ha : again.Expressible 1)
    (hctx : ctx.Expressible 1) (hle : again.Within ctx)
    (h : Run cost .empty ctx code out last) :
    ∃ last' : Pending, run cost .empty again out = .ok (out, last') ∧ last'.Within last := by
  induction hcode generalizing ctx again out with
  | nil =>
    cases h with
    | done hf =>
      obtain ⟨rfl, -⟩ := Prod.mk.inj (Except.ok.inj hf)
      exact ⟨again, rfl, hle⟩
  | plain hx ho _ ih =>
    cases h with
    | hint hi => exact absurd hi hx
    | plain _ hs hf hrun =>
      obtain ⟨rfl, hctx', again', ha', hle', hleaves⟩ :=
        leaves_of_step hc ha hctx hc.steady.nothing hle hx ho hs hf
      obtain ⟨last', hr, hlast⟩ := ih ha' hctx' hle' hrun
      exact ⟨last', by simpa using hleaves hr, hlast⟩
  | @hint p i x rest hp he hi hx ho _ ih =>
    have hhint := Requirement.isHint_of_hint hi
    cases h with
    | plain hn => exact absurd hhint hn
    | hint _ hs h =>
      rw [step_hint hctx.normal hi (hc.hint i hhint)] at hs
      obtain ⟨rfl, rfl⟩ := Prod.mk.inj (Except.ok.inj hs)
      cases h with
      | hint hi => exact absurd hi hx
      | plain _ hs hf hrun =>
        have hread : (Requirement.empty.withHint i).Expressible 1 := hp.withHint hi
        have hmid := hle.waited hctx.normal (hp.withHint_within he hi).2.2 hread.maxCycles_nonneg
          (Requirement.outlasts_refl _)
        obtain ⟨rfl, hctx', again', ha', hle', hleaves⟩ :=
          leaves_of_step hc ha (hctx.waited hread) hread hmid hx ho hs hf
        obtain ⟨last', hr, hlast⟩ := ih ha' hctx' hle' hrun
        exact ⟨last', by simpa using hleaves hr, hlast⟩

end Scan

end DelayHint

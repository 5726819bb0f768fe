import DelayHint.Proofs.Pending.Order
import DelayHint.Proofs.Requirement.Encoding
import DelayHint.Proofs.Scan.Slots
import DelayHint.Validate

/-! Scans that return. Single steps only need registers that exist, and a requirement can be written
as a hint while its counts stay in range. Code in which every hint was written for the instruction
behind it keeps them there, and the scan leaves such code again. -/
namespace DelayHint

theorem Span.exists_allUnits {spans : List Span} (h : ∀ s ∈ spans, s.Fits) :
    ∃ units, allUnits spans = .ok units := by
  induction spans with
  | nil => exact ⟨[], rfl⟩
  | cons s rest ih =>
    obtain ⟨first, hfirst⟩ := Span.units_eq_ok_iff.mpr (h s List.mem_cons_self)
    obtain ⟨others, hothers⟩ := ih fun t ht => h t (List.mem_cons_of_mem _ ht)
    exact ⟨first ++ others, bind_eq_ok.mpr ⟨first, hfirst, bind_eq_ok.mpr ⟨others, hothers, rfl⟩⟩⟩

namespace Pending

variable {cost : Instr → Cost} {ctx : Pending} {q : Requirement} {i : Instr}

/-- Cycle counts of a byte never leave 32 bits. -/
theorem elapse_eq_ok (ctx : Pending) (valu trans : Bool) {cycles : Int} (hlo : -256 ≤ cycles)
    (hhi : cycles ≤ 256) : ctx.elapse valu trans cycles = .ok (ctx.pass valu trans cycles) := by
  have hfit (c : Int8) : Requirement.cyclesFit c cycles = true := by
    have := Int8.le_toInt c
    have := Int8.toInt_lt c
    simp only [Requirement.cyclesFit, Bool.and_eq_true, decide_eq_true_eq]
    omega
  have hall : (ctx.entries.all fun p => p.2.canAdvance cycles) = true := by
    simp [Requirement.canAdvance, hfit]
  rw [elapse, if_pos hall]

theorem wait_eq_ok (ctx : Pending) (q : Requirement) : ctx.wait q = .ok (ctx.waited q) := by
  have hlo := Int8.le_toInt q.maxCycles
  have hhi := Int8.toInt_lt q.maxCycles
  unfold wait waited
  split
  · rfl
  · rw [elapse_eq_ok ctx _ _ (by omega) (by omega)]
    rfl

theorem exists_demand (ctx : Pending) (q : Requirement) (h : ∀ s ∈ i.spans, s.Fits) :
    ∃ q', ctx.demand q i = .ok q' := by
  obtain ⟨units, hu⟩ := Span.exists_allUnits fun s hs => h s (List.mem_append_right _ hs)
  unfold demand
  split
  · exact ⟨_, bind_eq_ok.mpr ⟨units, hu, rfl⟩⟩
  · exact ⟨q, rfl⟩

theorem exists_issue (cost : Instr → Cost) (ctx : Pending) (h : ∀ s ∈ i.spans, s.Fits) :
    ∃ ctx', issue cost ctx i = .ok ctx' := by
  obtain ⟨units, hu⟩ := Span.exists_allUnits fun s hs => h s (List.mem_append_left _ hs)
  have hproduce : ∃ after, ctx.produce i (cost i).latency = .ok after := by
    unfold produce
    split
    · exact ⟨_, bind_eq_ok.mpr ⟨units, hu, rfl⟩⟩
    · exact ⟨ctx, rfl⟩
  obtain ⟨after, ha⟩ := hproduce
  have hissue := (cost i).issue.toNat_lt
  unfold issue
  split
  · exact ⟨_, rfl⟩
  · exact ⟨_, bind_eq_ok.mpr ⟨after, ha, elapse_eq_ok _ _ _ (by omega) (by omega)⟩⟩

end Pending

/-- A written hint has no registers. -/
theorem Requirement.spans_hint {q : Requirement} {h : Instr} (hh : q.hint = .ok h) :
    h.spans = [] := by
  obtain ⟨-, -, rfl⟩ := hint_eq_ok hh
  rfl

/-- Code in which every hint stands in front of a plain instruction and was written for a
requirement with `P`. The plain instructions have `Q`. -/
inductive Hinted (P : Requirement → Prop) (Q : Instr → Prop) : List Instr → Prop where
  | nil : Hinted P Q []
  | plain {x : Instr} {rest : List Instr} (hx : ¬ x.isHint) (hQ : Q x) (h : Hinted P Q rest) :
    Hinted P Q (x :: rest)
  | hint {p : Requirement} {i x : Instr} {rest : List Instr} (hp : P p) (he : p.isEmpty = false)
    (hi : p.hint = .ok i) (hx : ¬ x.isHint) (hQ : Q x) (h : Hinted P Q rest) :
    Hinted P Q (i :: x :: rest)

namespace Hinted

variable {P : Requirement → Prop} {Q : Instr → Prop} {code : List Instr}

theorem of_plain (h : ∀ i ∈ code, ¬ i.isHint ∧ Q i) : Hinted P Q code := by
  induction code with
  | nil => exact .nil
  | cons x rest ih =>
    obtain ⟨hx, hQ⟩ := h x List.mem_cons_self
    exact .plain hx hQ (ih fun i hi => h i (List.mem_cons_of_mem _ hi))

theorem mem (h : Hinted P Q code) {i : Instr} (hi : i ∈ code) :
    ¬ i.isHint ∧ Q i ∨ ∃ p, P p ∧ p.isEmpty = false ∧ p.hint = .ok i := by
  induction h with
  | nil => cases hi
  | plain hx hQ _ ih =>
    rcases List.mem_cons.mp hi with rfl | hi
    · exact .inl ⟨hx, hQ⟩
    · exact ih hi
  | hint hp he hh hx hQ _ ih =>
    rcases List.mem_cons.mp hi with rfl | hi
    · exact .inr ⟨_, hp, he, hh⟩
    · rcases List.mem_cons.mp hi with rfl | hi
      · exact .inl ⟨hx, hQ⟩
      · exact ih hi

end Hinted

namespace Scan

variable {cost : Instr → Cost} {q q' : Requirement} {ctx ctx' : Pending} {i : Instr}

theorem exists_step (cost : Instr → Cost) (q : Requirement) (ctx : Pending)
    (h : ∀ s ∈ i.spans, s.Fits) : ∃ q' ctx', step cost q ctx i = .ok (q', ctx') ∧
      ctx.demand (if i.isHint then q.withHint i else q) i = .ok q' ∧
      Pending.issue cost (ctx.waited q') i = .ok ctx' := by
  obtain ⟨q', hd⟩ := Pending.exists_demand ctx (if i.isHint then q.withHint i else q) h
  obtain ⟨ctx', hi⟩ := Pending.exists_issue cost (ctx.waited q') h
  refine ⟨q', ctx', ?_, hd, hi⟩
  exact bind_eq_ok.mpr ⟨q', hd, bind_eq_ok.mpr ⟨_, Pending.wait_eq_ok ctx q',
    bind_eq_ok.mpr ⟨ctx', hi, rfl⟩⟩⟩

theorem run_cons_of_isHint {rest : List Instr} (hi : i.isHint)
    (hs : step cost q ctx i = .ok (q', ctx')) :
    run cost q ctx (i :: rest) = run cost q' ctx' rest := by
  rw [run, hs]
  exact if_pos hi

theorem run_cons_of_not_isHint {rest hints out : List Instr} {q'' : Requirement} {last : Pending}
    (hi : ¬ i.isHint) (hs : step cost q ctx i = .ok (q', ctx'))
    (hf : flush q' = .ok (hints, q'')) (hr : run cost q'' ctx' rest = .ok (out, last)) :
    run cost q ctx (i :: rest) = .ok (hints ++ i :: out, last) := by
  refine bind_eq_ok.mpr ⟨(q', ctx'), hs, ?_⟩
  dsimp only
  rw [if_neg hi]
  exact bind_eq_ok.mpr ⟨(hints, q''), hf, bind_eq_ok.mpr ⟨(out, last), hr, rfl⟩⟩

/-- What scans keep: `J` of the pending results, `P` of the requirements and `Q` of the plain
instructions, so that every requirement can be written down and every register exists. -/
structure Steady (cost : Instr → Cost) (J : Pending → Prop) (P : Requirement → Prop)
    (Q : Instr → Prop) : Prop where
  empty : J RegMap.empty
  join : ∀ {a b}, J a → J b → J (a.join b)
  get? : ∀ {ctx r e}, J ctx → ctx.get? r = some e → P e
  nothing : P .empty
  joined : ∀ {a b}, P a → P b → P (a.join b)
  writable : ∀ {q}, P q → q.Writable
  fits : ∀ {i}, Q i → ∀ s ∈ i.spans, s.Fits
  withHint : ∀ {p q i}, P q → q.isEmpty = true → P p → p.hint = .ok i → P (q.withHint i)
  waited : ∀ {ctx q}, J ctx → P q → J (ctx.waited q)
  issue : ∀ {ctx ctx' i}, J ctx → i.isHint ∨ Q i → Pending.issue cost ctx i = .ok ctx' → J ctx'

namespace Steady

variable {J : Pending → Prop} {P : Requirement → Prop} {Q : Instr → Prop} {code : List Instr}

theorem demand (st : Steady cost J P Q) (hJ : J ctx) (hP : P q) (h : ctx.demand q i = .ok q') :
    P q' :=
  Pending.demand_induction st.joined (st.get? hJ) hP h

theorem left (st : Steady cost J P Q) (hP : P q) : P (left q) := left_induction st.nothing hP

/-- A hint that was written for a requirement is taken in. -/
theorem exists_hint_step (st : Steady cost J P Q) (hJ : J ctx) (hP : P q) (he : q.isEmpty = true)
    {p : Requirement} (hp : P p) (hi : p.hint = .ok i) :
    ∃ q' ctx', step cost q ctx i = .ok (q', ctx') ∧ P q' ∧ J ctx' := by
  have hhint : i.isHint := Requirement.isHint_of_hint hi
  obtain ⟨q', ctx', hs, hd, hiss⟩ := exists_step (i := i) cost q ctx
    (by simp [Requirement.spans_hint hi])
  rw [if_pos hhint] at hd
  have hP' : P q' := st.demand hJ (st.withHint hP he hp hi) hd
  exact ⟨q', ctx', hs, hP', st.issue (st.waited hJ hP') (.inl hhint) hiss⟩

/-- A plain instruction is taken in, and what it requires is written in front of it. -/
theorem exists_plain_step (st : Steady cost J P Q) (hJ : J ctx) (hP : P q) (hi : ¬ i.isHint)
    (hQ : Q i) : ∃ q' ctx' hints, step cost q ctx i = .ok (q', ctx') ∧
      flush q' = .ok (hints, Scan.left q') ∧ P (Scan.left q') ∧ J ctx' ∧
      ∀ {out}, Hinted P Q out → Hinted P Q (hints ++ i :: out) := by
  obtain ⟨q', ctx', hs, hd, hiss⟩ := exists_step cost q ctx (st.fits hQ)
  rw [if_neg hi] at hd
  have hP' : P q' := st.demand hJ hP hd
  have hJ' : J ctx' := st.issue (st.waited hJ hP') (.inr hQ) hiss
  cases he : q'.isEmpty with
  | true =>
    refine ⟨q', ctx', [], hs, ?_, st.left hP', hJ', fun hout => .plain hi hQ hout⟩
    simp [flush_of_isEmpty he, Scan.left, he]
  | false =>
    obtain ⟨h, hh⟩ := (st.writable hP').exists_hint
    refine ⟨q', ctx', [h], hs, ?_, st.left hP', hJ', fun hout => .hint hP' he hh hi hQ hout⟩
    simp [flush_of_hint he hh, Scan.left, he]

/-- The scan of such code returns such code. -/
theorem run_eq_ok (st : Steady cost J P Q) (hcode : Hinted P Q code) (hJ : J ctx) (hP : P q)
    (he : q.isEmpty = true) :
    ∃ out last, run cost q ctx code = .ok (out, last) ∧ Hinted P Q out ∧ J last := by
  induction hcode generalizing q ctx with
  | nil =>
    refine ⟨[], ctx, ?_, .nil, hJ⟩
    simp [run, flush_of_isEmpty he, bind, Except.bind, pure, Except.pure]
  | plain hx hQ _ ih =>
    obtain ⟨q', ctx', hints, hs, hf, hP', hJ', hout⟩ := st.exists_plain_step hJ hP hx hQ
    obtain ⟨out, last, hr, hh, hlast⟩ := ih hJ' hP' (isEmpty_left q')
    exact ⟨_, last, run_cons_of_not_isHint hx hs hf hr, hout hh, hlast⟩
  | hint hp _ hi hx hQ _ ih =>
    obtain ⟨q₁, ctx₁, hs₁, hP₁, hJ₁⟩ := st.exists_hint_step hJ hP he hp hi
    obtain ⟨q', ctx', hints, hs, hf, hP', hJ', hout⟩ := st.exists_plain_step hJ₁ hP₁ hx hQ
    obtain ⟨out, last, hr, hh, hlast⟩ := ih hJ' hP' (isEmpty_left q')
    refine ⟨_, last, ?_, hout hh, hlast⟩
    rw [run_cons_of_isHint (Requirement.isHint_of_hint hi) hs₁]
    exact run_cons_of_not_isHint hx hs hf hr

theorem block_eq_ok (st : Steady cost J P Q) (hcode : Hinted P Q code) (hJ : J ctx) :
    ∃ out last, block cost ctx code = .ok (out, last) ∧ Hinted P Q out ∧ J last :=
  st.run_eq_ok hcode hJ st.nothing rfl

end Steady

/-- Normal contexts and requirements that can be written down are kept on every hardware. -/
theorem steady_normal (cost : Instr → Cost) :
    Steady cost Pending.Normal Requirement.Writable fun i => ∀ s ∈ i.spans, s.Fits where
  empty := Pending.normal_empty
  join := Pending.Normal.join
  get? hctx he := (hctx _ _ he).writable
  nothing := ⟨Requirement.ranged_of_isEmpty rfl, by decide⟩
  joined := Requirement.Writable.join
  writable h := h
  fits h := h
  withHint hq _ hp hi := hq.withHint hp hi
  waited hctx _ := hctx.waited _
  issue hctx _ hi := hctx.issue hi

end Scan

end DelayHint

import DelayHint.Scan

/-! The scan of a block as a relation: what one instruction does to the queued requirement and the
pending results, and how these steps follow each other. -/
namespace DelayHint

theorem bind_eq_ok {α β : Type} {x : Except Fault α} {f : α → Except Fault β} {b : β} :
    x >>= f = .ok b ↔ ∃ a, x = .ok a ∧ f a = .ok b := by
  cases x with
  | error e => simp [bind, Except.bind]
  | ok a => simp [bind, Except.bind]

theorem Requirement.isHint_of_hint {q : Requirement} {h : Instr} (hq : q.hint = .ok h) :
    h.isHint := by
  unfold hint at hq
  split at hq
  · cases hq
  · split at hq
    · cases hq
    · cases hq
      rfl

namespace Pending

variable {cost : Instr → Cost} {ctx ctx' : Pending} {q q' : Requirement} {i : Instr}

theorem eq_pass_of_elapse {valu trans : Bool} {cycles : Int}
    (h : ctx.elapse valu trans cycles = .ok ctx') : ctx' = ctx.pass valu trans cycles := by
  unfold elapse at h
  split at h
  · exact (Except.ok.inj h).symm
  · cases h

theorem demand_cases (h : ctx.demand q i = .ok q') :
    i.isAlu = false ∧ q' = q ∨ ∃ units, i.isAlu = true ∧ i.reads = .ok units ∧
      q' = (ctx.valuesAt units).foldl Requirement.join q := by
  unfold demand at h
  split at h
  · rename_i ha
    obtain ⟨units, hu, hq⟩ := bind_eq_ok.mp h
    exact .inr ⟨units, ha, hu, (Except.ok.inj hq).symm⟩
  · rename_i ha
    exact .inl ⟨by simpa using ha, (Except.ok.inj h).symm⟩

theorem demand_of_operands_eq_nil (h : i.operands = []) (ctx : Pending) (q : Requirement) :
    ctx.demand q i = .ok q := by
  have hreads : i.reads = .ok [] := by
    rw [Instr.reads, h]
    rfl
  unfold demand
  split
  · exact bind_eq_ok.mpr ⟨[], hreads, rfl⟩
  · rfl

theorem wait_cases (h : ctx.wait q = .ok ctx') :
    q.isEmpty = true ∧ ctx' = ctx ∨
      q.isEmpty = false ∧ ctx' = discharge (ctx.pass false false q.maxCycles.toInt) q := by
  unfold wait at h
  split at h
  · rename_i he
    exact .inl ⟨he, (Except.ok.inj h).symm⟩
  · rename_i he
    obtain ⟨later, hl, hd⟩ := bind_eq_ok.mp h
    rw [← eq_pass_of_elapse hl]
    exact .inr ⟨by simpa using he, (Except.ok.inj hd).symm⟩

theorem produce_cases {latency : UInt8} (h : ctx.produce i latency = .ok ctx') :
    i.isAlu = false ∧ ctx' = ctx ∨ ∃ units, i.isAlu = true ∧ i.writes = .ok units ∧
      ctx' = ctx.recordAll units (written i latency) := by
  unfold produce at h
  split at h
  · rename_i ha
    obtain ⟨units, hu, hc⟩ := bind_eq_ok.mp h
    exact .inr ⟨units, ha, hu, (Except.ok.inj hc).symm⟩
  · rename_i ha
    exact .inl ⟨by simpa using ha, (Except.ok.inj h).symm⟩

theorem issue_cases (h : issue cost ctx i = .ok ctx') :
    i.isBarrier = true ∧ ctx' = RegMap.empty ∨ ∃ after, i.isBarrier = false ∧
      ctx.produce i (cost i).latency = .ok after ∧
      ctx' = after.pass (i.isValu && !i.isWmma) i.isTrans (cost i).issue.toNat := by
  unfold issue at h
  split at h
  · rename_i hb
    exact .inl ⟨hb, (Except.ok.inj h).symm⟩
  · rename_i hb
    obtain ⟨after, ha, he⟩ := bind_eq_ok.mp h
    exact .inr ⟨after, by simpa using hb, ha, eq_pass_of_elapse he⟩

end Pending

namespace Scan

variable {cost : Instr → Cost} {q q' : Requirement} {ctx ctx' : Pending} {i : Instr}

theorem step_eq_ok (h : step cost q ctx i = .ok (q', ctx')) :
    ∃ waited, ctx.demand (if i.isHint then q.withHint i else q) i = .ok q' ∧
      ctx.wait q' = .ok waited ∧ Pending.issue cost waited i = .ok ctx' := by
  unfold step at h
  obtain ⟨r, hr, h⟩ := bind_eq_ok.mp h
  obtain ⟨waited, hw, h⟩ := bind_eq_ok.mp h
  obtain ⟨after, ha, h⟩ := bind_eq_ok.mp h
  obtain ⟨rfl, rfl⟩ := Prod.mk.inj (Except.ok.inj h)
  exact ⟨waited, hr, hw, ha⟩

theorem flush_cases {hints : List Instr} (h : flush q = .ok (hints, q')) :
    q.isEmpty = true ∧ hints = [] ∧ q' = q ∨ ∃ hint, q.isEmpty = false ∧ q.hint = .ok hint ∧
      hints = [hint] ∧ q' = Requirement.empty := by
  unfold flush at h
  split at h
  · rename_i he
    obtain ⟨rfl, rfl⟩ := Prod.mk.inj (Except.ok.inj h)
    exact .inl ⟨he, rfl, rfl⟩
  · rename_i he
    obtain ⟨hint, hh, h⟩ := bind_eq_ok.mp h
    obtain ⟨rfl, rfl⟩ := Prod.mk.inj (Except.ok.inj h)
    exact .inr ⟨hint, by simpa using he, hh, rfl, rfl⟩

theorem flush_of_isEmpty (he : q.isEmpty = true) : flush q = .ok ([], q) := if_pos he

theorem flush_of_hint {hint : Instr} (he : q.isEmpty = false) (hh : q.hint = .ok hint) :
    flush q = .ok ([hint], Requirement.empty) := by
  rw [flush, he, if_neg (by decide)]
  exact bind_eq_ok.mpr ⟨hint, hh, rfl⟩

/-- A successful scan, one constructor for each way to go on. -/
inductive Run (cost : Instr → Cost) :
    Requirement → Pending → List Instr → List Instr → Pending → Prop where
  | done {q q' : Requirement} {ctx : Pending} {hints : List Instr}
    (hf : flush q = .ok (hints, q')) : Run cost q ctx [] hints ctx
  | hint {q q' : Requirement} {ctx ctx' last : Pending} {i : Instr} {rest out : List Instr}
    (hi : i.isHint) (hs : step cost q ctx i = .ok (q', ctx'))
    (h : Run cost q' ctx' rest out last) : Run cost q ctx (i :: rest) out last
  | plain {q q' q'' : Requirement} {ctx ctx' last : Pending} {i : Instr}
    {rest hints out : List Instr} (hi : ¬ i.isHint) (hs : step cost q ctx i = .ok (q', ctx'))
    (hf : flush q' = .ok (hints, q'')) (h : Run cost q'' ctx' rest out last) :
    Run cost q ctx (i :: rest) (hints ++ i :: out) last

theorem run_of_eq_ok {instrs out : List Instr} {last : Pending}
    (h : run cost q ctx instrs = .ok (out, last)) : Run cost q ctx instrs out last := by
  induction instrs generalizing q ctx out with
  | nil =>
    obtain ⟨⟨hints, q'⟩, hf, h⟩ := bind_eq_ok.mp h
    obtain ⟨rfl, rfl⟩ := Prod.mk.inj (Except.ok.inj h)
    exact .done hf
  | cons i rest ih =>
    obtain ⟨⟨q', ctx'⟩, hs, h⟩ := bind_eq_ok.mp h
    dsimp only at h
    split at h
    · rename_i hi
      exact .hint hi hs (ih h)
    · rename_i hi
      obtain ⟨⟨hints, q''⟩, hf, h⟩ := bind_eq_ok.mp h
      obtain ⟨⟨out', last'⟩, hr, h⟩ := bind_eq_ok.mp h
      obtain ⟨rfl, rfl⟩ := Prod.mk.inj (Except.ok.inj h)
      exact .plain hi hs hf (ih hr)

/-- What every instruction keeps of the pending results holds at the end of the code. -/
theorem Run.pending {motive : Pending → Prop} {instrs out : List Instr} {last : Pending}
    (h : Run cost q ctx instrs out last)
    (hstep : ∀ {q q' ctx ctx' i}, i ∈ instrs → step cost q ctx i = .ok (q', ctx') →
      motive ctx → motive ctx')
    (h0 : motive ctx) : motive last := by
  induction h with
  | done => exact h0
  | hint _ hs _ ih =>
    exact ih (fun hi => hstep (List.mem_cons_of_mem _ hi)) (hstep List.mem_cons_self hs h0)
  | plain _ hs _ _ ih =>
    exact ih (fun hi => hstep (List.mem_cons_of_mem _ hi)) (hstep List.mem_cons_self hs h0)

end Scan

end DelayHint

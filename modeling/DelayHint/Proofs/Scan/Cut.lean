import DelayHint.Proofs.Scan.Timeline

/-! Where code can be cut. Nothing stays queued behind a plain instruction, so that two pieces of
code can be scanned one after the other. A barrier ends all that was pending, so that what follows
it is scanned as if nothing had come before. -/
namespace DelayHint

private theorem Instr.not_isHint_of_isBarrier {i : Instr} (h : i.isBarrier) : ¬ i.isHint := by
  intro hi
  have hop : i.opcode = .sDelayAlu := by simpa [isHint] using hi
  unfold isBarrier isExp format at h
  rw [hop] at h
  cases h

private theorem Instr.isAlu_of_isBarrier {i : Instr} (h : i.isBarrier) : i.isAlu = false := by
  rw [← Bool.not_eq_true]
  intro halu
  rw [isBarrier_of_isAlu halu] at h
  cases h

namespace Scan

variable {cost : Instr → Cost} {ctx last : Pending} {i : Instr} {xs ys out : List Instr}

private theorem run_cons_eq_bind (hi : ¬ i.isHint) (q : Requirement) (ctx : Pending)
    (rest : List Instr) :
    run cost q ctx (i :: rest) = do
      let (q, ctx) ← step cost q ctx i
      let (hints, q) ← flush q
      let (out, last) ← run cost q ctx rest
      return (hints ++ i :: out, last) := by
  rw [run]
  simp only [hi, Bool.false_eq_true, if_false]

/-- To scan two pieces of code together is to scan them one after the other: nothing is queued where
a scan of the second piece starts. -/
theorem block_append (hcode : ∀ i ∈ xs, ¬ i.isHint) (hctx : ctx.Normalized) (ys : List Instr) :
    block cost ctx (xs ++ ys) = do
      let (out, mid) ← block cost ctx xs
      let (out', last) ← block cost mid ys
      return (out ++ out', last) := by
  induction xs generalizing ctx with
  | nil =>
    show block cost ctx ys = block cost ctx ys >>= pure
    rw [bind_pure]
  | cons i rest ih =>
    have hi : ¬ i.isHint := hcode i List.mem_cons_self
    have hrest : ∀ j ∈ rest, ¬ j.isHint := fun j hj => hcode j (List.mem_cons_of_mem _ hj)
    unfold block at ih ⊢
    rw [List.cons_append, run_cons_eq_bind hi, run_cons_eq_bind hi]
    cases hs : step cost .empty ctx i with
    | error f => rfl
    | ok out =>
      obtain ⟨q, ctx'⟩ := out
      cases hf : flush q with
      | error f =>
        simp only [bind, Except.bind, hf]
      | ok out =>
        obtain ⟨hints, q'⟩ := out
        obtain rfl : q' = .empty := (flush_eq_ok hf).2.1.trans (left_eq_empty hctx hi hs)
        simp only [bind, Except.bind, hf, ih hrest (normalized_step hs), pure, Except.pure]
        cases run cost .empty ctx' rest with
        | error f => rfl
        | ok out =>
          simp only
          cases run cost .empty out.2 ys with
          | error f => rfl
          | ok out => simp

/-- A barrier waits for nothing by itself, and nothing is pending behind it. -/
theorem step_barrier (hb : i.isBarrier) (ctx : Pending) :
    step cost .empty ctx i = .ok (.empty, RegMap.empty) := by
  have hdemand : ctx.demand .empty i = .ok .empty := by
    rw [Pending.demand, Instr.isAlu_of_isBarrier hb]
    rfl
  have hissue : Pending.issue cost ctx i = .ok RegMap.empty := if_pos hb
  have hwait : ctx.wait .empty = .ok ctx := if_pos rfl
  unfold step
  rw [if_neg (Instr.not_isHint_of_isBarrier hb), hdemand]
  exact bind_eq_ok.mpr ⟨_, rfl, bind_eq_ok.mpr ⟨_, hwait, bind_eq_ok.mpr ⟨_, hissue, rfl⟩⟩⟩

theorem block_cons_barrier (hb : i.isBarrier) (ctx : Pending) (rest : List Instr) :
    block cost ctx (i :: rest) = do
      let (out, last) ← block cost RegMap.empty rest
      return (i :: out, last) := by
  unfold block
  rw [run_cons_eq_bind (Instr.not_isHint_of_isBarrier hb), step_barrier hb]
  rfl

/-- The code behind a barrier is scanned with nothing pending. -/
theorem block_append_barrier (hctx : ctx.Normalized) (hcode : ∀ i ∈ xs, ¬ i.isHint)
    (hb : i.isBarrier) (h : block cost ctx (xs ++ i :: ys) = .ok (out, last)) :
    ∃ front tail, out = front ++ i :: tail ∧ withoutHints front = xs ∧
      block cost RegMap.empty ys = .ok (tail, last) := by
  rw [block_append hcode hctx] at h
  obtain ⟨⟨front, mid⟩, hfront, h⟩ := bind_eq_ok.mp h
  obtain ⟨⟨out', last'⟩, hrest, h⟩ := bind_eq_ok.mp h
  obtain ⟨rfl, rfl⟩ := Prod.mk.inj (Except.ok.inj h)
  rw [block_cons_barrier hb] at hrest
  obtain ⟨⟨tail, last⟩, htail, hrest⟩ := bind_eq_ok.mp hrest
  obtain ⟨rfl, rfl⟩ := Prod.mk.inj (Except.ok.inj hrest)
  refine ⟨front, tail, rfl, ?_, htail⟩
  rw [(run_of_eq_ok hfront).withoutHints_eq, withoutHints_eq_self hcode]

/-- A barrier cuts all flow of information. Whatever is pending in front and whatever plain code
comes before it, two scans write the same code behind the barrier and leave the same pending, those
of a scan that starts behind it. -/
theorem barrier_cuts_flow {ctx₁ ctx₂ last₁ last₂ : Pending} {xs₁ xs₂ out₁ out₂ : List Instr}
    (hctx₁ : ctx₁.Normalized) (hctx₂ : ctx₂.Normalized) (hcode₁ : ∀ i ∈ xs₁, ¬ i.isHint)
    (hcode₂ : ∀ i ∈ xs₂, ¬ i.isHint) (hb : i.isBarrier)
    (h₁ : block cost ctx₁ (xs₁ ++ i :: ys) = .ok (out₁, last₁))
    (h₂ : block cost ctx₂ (xs₂ ++ i :: ys) = .ok (out₂, last₂)) :
    ∃ front₁ front₂ tail, out₁ = front₁ ++ i :: tail ∧ out₂ = front₂ ++ i :: tail ∧
      withoutHints front₁ = xs₁ ∧ withoutHints front₂ = xs₂ ∧ last₁ = last₂ ∧
      block cost RegMap.empty ys = .ok (tail, last₁) := by
  obtain ⟨front₁, tail₁, hout₁, hfront₁, htail₁⟩ := block_append_barrier hctx₁ hcode₁ hb h₁
  obtain ⟨front₂, tail₂, hout₂, hfront₂, htail₂⟩ := block_append_barrier hctx₂ hcode₂ hb h₂
  obtain ⟨rfl, rfl⟩ := Prod.mk.inj (Except.ok.inj (htail₁.symm.trans htail₂))
  exact ⟨front₁, front₂, tail₁, hout₁, hout₂, hfront₁, hfront₂, rfl, htail₁⟩

/-- A load, and code behind it that has a hint and reads two registers from before the load. -/
def loadAndReads : List Instr :=
  [.unary .globalLoadDword 258 260, .unary .vMovB32 259 256,
    { opcode := .sDelayAlu, imm := Immediate.ofWaits 2 0, passFlags := 4 },
    .unary .vMovB32 260 257]

/-- One scan waits in front of the load and the other one does not. Behind the load only the hint
that is already there is left of all waits. -/
theorem barrier_cuts_flow_load : ∃ ctx out₁ out₂ last₁ last₂,
    Pending.Normalized ctx ∧ ctx.size = 1 ∧
    block classCost ctx (.unary .vRcpF32 257 256 :: loadAndReads) = .ok (out₁, last₁) ∧
    block classCost RegMap.empty loadAndReads = .ok (out₂, last₂) ∧
    out₁.countP Instr.isHint = 2 ∧ out₂.countP Instr.isHint = 1 ∧
    ∃ front₁ front₂ tail, out₁ = front₁ ++ .unary .globalLoadDword 258 260 :: tail ∧
      out₂ = front₂ ++ .unary .globalLoadDword 258 260 :: tail ∧
      withoutHints front₁ = [.unary .vRcpF32 257 256] ∧ withoutHints front₂ = [] ∧
      last₁ = last₂ := by
  have hctx : Pending.Normalized (Pending.record RegMap.empty 256 ⟨1, 3, 4, 0, 0⟩) := by
    intro r q hq
    rw [Pending.get?_record] at hq
    split at hq
    · obtain rfl := Option.some.inj hq
      exact ⟨rfl⟩
    · cases hq
  have hblock : ∃ out₁ out₂ last₁ last₂,
      block classCost (Pending.record RegMap.empty 256 ⟨1, 3, 4, 0, 0⟩)
        (.unary .vRcpF32 257 256 :: loadAndReads) = .ok (out₁, last₁) ∧
      block classCost RegMap.empty loadAndReads = .ok (out₂, last₂) ∧
      out₁.countP Instr.isHint = 2 ∧ out₂.countP Instr.isHint = 1 :=
    ⟨_, _, _, _, rfl, rfl, rfl, rfl⟩
  obtain ⟨out₁, out₂, last₁, last₂, h₁, h₂, hhints⟩ := hblock
  have hcode : ∀ i ∈ [Instr.unary .vRcpF32 257 256], ¬ i.isHint := by decide
  obtain ⟨front₁, front₂, tail, hout₁, hout₂, hfront₁, hfront₂, hlast, -⟩ :=
    barrier_cuts_flow hctx Pending.normalized_empty hcode (List.forall_mem_nil _) rfl h₁ h₂
  exact ⟨_, out₁, out₂, last₁, last₂, hctx, rfl, h₁, h₂, hhints.1, hhints.2, front₁, front₂, tail,
    hout₁, hout₂, hfront₁, hfront₂, hlast⟩

end Scan

end DelayHint

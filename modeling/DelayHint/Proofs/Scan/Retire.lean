import DelayHint.Proofs.Pending.Elapse
import DelayHint.Proofs.Scan.Existing

/-! What a wait retires. An instruction waits for what is queued and for every result that it reads,
in whatever order it names them. Then these results are there, and what is still pending is newer
than all that was waited for. -/
namespace DelayHint

private theorem Span.mem_allUnits {spans : List Span} {units : List Reg}
    (h : allUnits spans = .ok units)
    (r : Reg) : r ∈ units ↔ ∃ s ∈ spans, s.base.val ≤ r.val ∧ r.val < s.stop := by
  induction spans generalizing units with
  | nil =>
    cases h
    simp
  | cons s rest ih =>
    obtain ⟨first, hfirst, hrest⟩ := bind_eq_ok.mp h
    obtain ⟨others, hothers, happend⟩ := bind_eq_ok.mp hrest
    obtain rfl := Except.ok.inj happend
    rw [List.mem_append, mem_units hfirst, ih hothers, List.exists_mem_cons_iff]

namespace Instr

variable {x : Instr}

private theorem mem_operandSpans {operands : List Operand} {s : Span} :
    s ∈ operands.filterMap Operand.span? ↔ .reg s ∈ operands := by
  have hspan (o : Operand) : o.span? = some s ↔ o = .reg s := by
    cases o <;> simp [Operand.span?]
  simp [List.mem_filterMap, hspan]

theorem exists_reads (h : ∀ s, .reg s ∈ x.operands → s.Fits) : ∃ units, x.reads = .ok units :=
  Span.exists_allUnits fun s hs => h s (mem_operandSpans.mp hs)

/-- The registers that are read are those of the operands. -/
theorem reads_iff (h : ∀ s, .reg s ∈ x.operands → s.Fits) (r : Reg) :
    x.Reads r ↔ ∃ s, .reg s ∈ x.operands ∧ s.base.val ≤ r.val ∧ r.val < s.stop := by
  obtain ⟨units, hu⟩ := exists_reads h
  rw [reads_iff_mem hu, Span.mem_allUnits hu]
  simp only [mem_operandSpans]

end Instr

namespace Requirement

variable {a b q : Requirement} {s : Source}

theorem Within.antisymm (hab : a.Within b) (hba : b.Within a) : a = b := by
  rw [← join_eq_iff_within] at hab hba
  exact hba.symm.trans ((join_comm a b).trans hab)

/-- A join over a list depends on its members only. -/
private theorem foldl_join_congr {l l' : List Requirement} (h : ∀ e, e ∈ l ↔ e ∈ l')
    (q : Requirement) :
    l.foldl join q = l'.foldl join q := by
  have hle {l l' : List Requirement} (hsub : ∀ e ∈ l, e ∈ l') :
      (l.foldl join q).Within (l'.foldl join q) := by
    obtain ⟨hq, hl⟩ := within_foldl_join q l'
    exact Within.foldl_join hq fun e he => hl e (hsub e he)
  exact (hle fun e he => (h e).mp he).antisymm (hle fun e he => (h e).mpr he)

private theorem age_le_limit (h : q.Normalized) (hs : s ≠ .salu) : q.age s ≤ s.limit := by
  rcases open_or_shut h s with hopen | ⟨-, hage⟩
  · omega
  · exact Int.le_of_eq (hage hs)

/-- In normal form, `a` asks for no more than `b` if all that is due for `a` is due for `b`, and is
there no older and no shorter. -/
theorem within_of_due (ha : a.Normalized) (hb : b.Normalized)
    (h : ∀ s d, a.due s = some d → ∃ e, b.due s = some e ∧ e.age ≤ d.age ∧ d.cycles ≤ e.cycles) :
    a.Within b := by
  have hkind (s : Source) : (s ≠ .salu → b.age s ≤ a.age s) ∧ a.cyclesOf s ≤ b.cyclesOf s := by
    rcases open_or_shut ha s with hopen | ⟨hcycles, hage⟩
    · obtain ⟨e, he, hle, hlong⟩ := h s ⟨_, _⟩ (due_eq_some.mpr ⟨rfl, rfl, hopen⟩)
      obtain ⟨heage, hecycles, -⟩ := due_eq_some.mp he
      exact ⟨fun _ => heage ▸ hle, hecycles ▸ hlong⟩
    · refine ⟨fun hs => ?_, hcycles ▸ cyclesOf_nonneg hb s⟩
      rw [hage hs]
      exact age_le_limit hb hs
  obtain ⟨hvi, hvc⟩ := hkind .valu
  obtain ⟨hti, htc⟩ := hkind .trans
  exact ⟨hvi (by decide), hvc, hti (by decide), htc, (hkind .salu).2⟩

/-- What a row of hints leaves queued. -/
def ofHints (hints : List Instr) : Requirement := hints.foldl withHint empty

theorem salu_ofHints_nonneg (hints : List Instr) : 0 ≤ (ofHints hints).saluCycles.toInt := by
  have hrun {q : Requirement} (hq : 0 ≤ q.saluCycles.toInt) :
      0 ≤ (hints.foldl withHint q).saluCycles.toInt := by
    induction hints generalizing q with
    | nil => exact hq
    | cons i rest ih => exact ih (salu_withHint_nonneg hq i)
  exact hrun (Int.le_refl 0)

end Requirement

namespace Pending

variable {ctx : Pending} {q : Requirement} {x : Instr} {r : Reg} {s : Source}

theorem Live.waited (h : ctx.Live) (q : Requirement) : (ctx.waited q).Live := by
  cases he : q.isEmpty with
  | true => rwa [waited_of_isEmpty ctx he]
  | false =>
    rw [waited_of_not_isEmpty ctx he]
    exact live_filterMap _ _

/-- What is still due after a wait was due before, is as old and has fewer cycles left. The wait
does not cover it. -/
theorem due_of_waited (hc : 0 ≤ q.waitCycles) {d : Due} (h : (ctx.waited q).due r s = some d) :
    q.covers s d.age = false ∧
      ∃ e, ctx.due r s = some e ∧ d.age = e.age ∧ d.cycles = e.cycles - q.waitCycles := by
  rw [due_waited hc, Option.bind_eq_some_iff] at h
  obtain ⟨e, he, hpass⟩ := h
  split at hpass
  · cases hpass
  · rename_i hnot
    obtain ⟨hage, hcycles, -⟩ := Due.pass_eq_some.mp hpass
    rw [Int.add_zero] at hage
    exact ⟨by rw [hage]; simpa using hnot, e, he, hage, hcycles⟩

/-- A register is settled by waiting for as much as is pending there. Scalar results have no age,
but their cycles are over then. -/
theorem Live.get?_waited_of_within (h : ctx.Live) (hc : 0 ≤ q.waitCycles)
    (hle : ∀ e, ctx.get? r = some e → e.Within q) : (ctx.waited q).get? r = none := by
  rw [Option.eq_none_iff_forall_ne_some]
  intro f hf
  obtain ⟨s, d, hd⟩ := (h.waited q).exists_iff.mp ⟨f, hf⟩
  obtain ⟨hnot, b, hb, hage, hcycles⟩ := due_of_waited hc hd
  obtain ⟨e, he, hdue⟩ := Option.bind_eq_some_iff.mp hb
  obtain ⟨heage, hecycles, -⟩ := Requirement.due_eq_some.mp hdue
  by_cases hs : s = .salu
  · subst hs
    have hleft := (due_open hd).2
    have hsalu := (hle e he).salu_cycles
    have hwait := q.saluCycles_le_waitCycles
    simp only [Requirement.cyclesOf] at hecycles
    omega
  · have hcover := (Requirement.covers_iff hs).mpr ((hle e he).age_le s)
    rw [hage, heage, hcover] at hnot
    cases hnot

/-- A wait makes nothing stricter. -/
theorem Live.waited_within (h : ctx.Live) (hc : 0 ≤ q.waitCycles) : (ctx.waited q).Within ctx := by
  intro r e he
  obtain ⟨b, hb⟩ : ∃ b, ctx.get? r = some b := by
    obtain ⟨s, d, hd⟩ := (h.waited q).exists_iff.mp ⟨e, he⟩
    obtain ⟨-, f, hf, -⟩ := due_of_waited hc hd
    exact h.exists_iff.mpr ⟨s, f, hf⟩
  refine ⟨b, hb, Requirement.within_of_due (h.waited q r e he).1 (h r b hb).1 fun s d hd => ?_⟩
  have hdue : (ctx.waited q).due r s = some d := Option.bind_eq_some_iff.mpr ⟨e, he, hd⟩
  obtain ⟨-, f, hf, hage, hcycles⟩ := due_of_waited hc hdue
  rw [due, hb, Option.bind_some] at hf
  exact ⟨f, hf, by omega, by omega⟩

/-- What is pending after a wait is newer than what was waited for. -/
theorem Live.age_lt_of_waited (h : ctx.Live) (hc : 0 ≤ q.waitCycles) {e : Requirement}
    (he : (ctx.waited q).get? r = some e) (hs : s ≠ .salu) (hlt : e.age s < s.limit) :
    e.age s < q.age s := by
  have hopen := (Requirement.open_or_shut (h.waited q r e he).1 s).resolve_right fun hshut =>
    Int.ne_of_lt hlt (hshut.2 hs)
  have hdue : (ctx.waited q).due r s = some ⟨e.age s, e.cyclesOf s⟩ :=
    Option.bind_eq_some_iff.mpr ⟨e, he, Requirement.due_eq_some.mpr ⟨rfl, rfl, hopen⟩⟩
  obtain ⟨hnot, -⟩ := due_of_waited hc hdue
  rw [← Bool.not_eq_true, Requirement.covers_iff hs] at hnot
  exact Int.not_le.mp hnot

/-- The results that are read may be joined in any order, and more than once. -/
theorem demand_eq_ok (hx : x.isAlu = true) (hfit : ∀ s, .reg s ∈ x.operands → s.Fits)
    {es : List Requirement} (hes : ∀ e, e ∈ es ↔ ctx.ReadBy x e) (q : Requirement) :
    ctx.demand q x = .ok (es.foldl Requirement.join q) := by
  obtain ⟨units, hu⟩ := Instr.exists_reads hfit
  have hsame (e : Requirement) : e ∈ ctx.valuesAt units ↔ e ∈ es := by
    rw [hes, readBy_iff_mem hx hu]
  rw [demand, if_pos hx, hu, ← Requirement.foldl_join_congr hsame]
  rfl

/-- Instructions with the same operands, in another order or repeated, read the same. -/
theorem readBy_operands {operands : List Operand} (hfit : ∀ s, .reg s ∈ x.operands → s.Fits)
    (hsame : ∀ o, o ∈ operands ↔ o ∈ x.operands) (e : Requirement) :
    ctx.ReadBy { x with operands } e ↔ ctx.ReadBy x e := by
  have hfit' : ∀ s, .reg s ∈ { x with operands }.operands → s.Fits := fun s hs =>
    hfit s ((hsame _).mp hs)
  have hreads (r : Reg) : { x with operands }.Reads r ↔ x.Reads r := by
    rw [Instr.reads_iff hfit', Instr.reads_iff hfit]
    simp only [hsame]
  unfold ReadBy
  simp only [hreads]
  rfl

/-- What an ALU instruction requires is what is queued, joined with all that is pending for the
registers it reads. -/
theorem exists_demand_join (hx : x.isAlu = true) (hfit : ∀ s, .reg s ∈ x.operands → s.Fits)
    (ctx : Pending) (q : Requirement) :
    ∃ q', ctx.demand q x = .ok q' ∧ q.Within q' ∧ (∀ e, ctx.ReadBy x e → e.Within q') ∧
      (∀ es : List Requirement, (∀ e, e ∈ es ↔ ctx.ReadBy x e) →
        q' = es.foldl Requirement.join q) ∧
      ∀ operands : List Operand, (∀ o, o ∈ operands ↔ o ∈ x.operands) →
        ctx.demand q { x with operands } = .ok q' := by
  obtain ⟨units, hu⟩ := Instr.exists_reads hfit
  have hread (e : Requirement) : e ∈ ctx.valuesAt units ↔ ctx.ReadBy x e :=
    (readBy_iff_mem hx hu).symm
  obtain ⟨hq, hparts⟩ := Requirement.within_foldl_join q (ctx.valuesAt units)
  refine ⟨_, demand_eq_ok hx hfit hread q, hq, fun e he => hparts e ((hread e).mpr he), ?_, ?_⟩
  · intro es hes
    exact Requirement.foldl_join_congr (fun e => (hread e).trans (hes e).symm) q
  · intro operands hsame
    exact demand_eq_ok (x := { x with operands }) hx (fun s hs => hfit s ((hsame _).mp hs))
      (fun e => (hread e).trans (readBy_operands hfit hsame e).symm) q

/-- What an ALU instruction behind a row of hints, or none, waits for, and what is pending
afterwards. The last part says that nothing else is lost: what the wait does not cover has only its
cycles taken off. -/
theorem wait_retires (hctx : ctx.Live) (hints : List Instr) (hx : x.isAlu = true)
    (hfit : ∀ s, .reg s ∈ x.operands → s.Fits) :
    ∃ q after, ctx.demand (.ofHints hints) x = .ok q ∧ ctx.wait q = .ok after ∧
      (∀ es : List Requirement, (∀ e, e ∈ es ↔ ctx.ReadBy x e) →
        q = es.foldl Requirement.join (.ofHints hints)) ∧
      (∀ operands : List Operand, (∀ o, o ∈ operands ↔ o ∈ x.operands) →
        ctx.demand (.ofHints hints) { x with operands } = .ok q) ∧
      (∀ r, x.Reads r → after.get? r = none) ∧
      after.Within ctx ∧
      (∀ r e, after.get? r = some e →
        (e.valuInstrs < Requirement.valuNop → e.valuInstrs < q.valuInstrs) ∧
        (e.transInstrs < Requirement.transNop → e.transInstrs < q.transInstrs)) ∧
      ∀ r s, after.due r s =
        (ctx.due r s).bind fun d => if q.covers s d.age then none else d.pass s 0 q.waitCycles := by
  obtain ⟨q, hdemand, hqueued, hparts, hjoin, hagain⟩ :=
    exists_demand_join hx hfit ctx (.ofHints hints)
  have hc : 0 ≤ q.waitCycles := by
    have hsalu := Requirement.salu_ofHints_nonneg hints
    have hmore := hqueued.salu_cycles
    have hwait := q.saluCycles_le_waitCycles
    omega
  refine ⟨q, ctx.waited q, hdemand, wait_eq_ok ctx q, hjoin, hagain, ?_, hctx.waited_within hc, ?_,
    due_waited hc ctx⟩
  · intro r hr
    exact hctx.get?_waited_of_within hc fun e he => hparts e ⟨hx, r, hr, he⟩
  · intro r e he
    simp only [Int8.lt_iff_toInt_lt]
    exact ⟨hctx.age_lt_of_waited hc he (s := .valu) (by decide),
      hctx.age_lt_of_waited hc he (s := .trans) (by decide)⟩

/-- A scalar instruction that reads one register twice. -/
def scalarSum (dst src : Reg) : Instr :=
  { opcode := .sAddU32, defs := [⟨dst, 1, Nat.one_pos⟩],
    operands := [.reg ⟨src, 1, Nat.one_pos⟩, .undef, .reg ⟨src, 1, Nat.one_pos⟩] }

/-- The hint asks for the latest vector instruction. The vector part of the mixed result is older
and goes, its transcendental part stays, and so does the vector result that is newer than any. -/
theorem wait_retires_scalarSum : (threeResults 3 5 257).Live ∧ (scalarSum 6 5).isAlu = true ∧
    (∀ s, .reg s ∈ (scalarSum 6 5).operands → s.Fits) ∧
    ∃ after, (threeResults 3 5 257).demand (.ofHints [{ opcode := .sDelayAlu, imm := 1 }])
        (scalarSum 6 5) = .ok ⟨1, 0, 4, 0, 3⟩ ∧
      (threeResults 3 5 257).wait ⟨1, 0, 4, 0, 3⟩ = .ok after ∧ after.get? 5 = none ∧
      after.Within (threeResults 3 5 257) ∧
      after.due 3 .valu = some ⟨-3, 2⟩ ∧ after.due 257 .valu = none ∧
      after.due 257 .trans = some ⟨2, 5⟩ := by
  have hlive : (threeResults 3 5 257).Live := by decide
  have hfit : ∀ s, .reg s ∈ (scalarSum 6 5).operands → s.Fits := by
    intro s hs
    obtain rfl : s = ⟨5, 1, Nat.one_pos⟩ := by simpa [scalarSum] using hs
    decide
  obtain ⟨q, after, hq, hafter, -, -, hread, hwithin, -, hdue⟩ :=
    wait_retires hlive [{ opcode := .sDelayAlu, imm := 1 }] (by decide) hfit
  obtain rfl : q = ⟨1, 0, 4, 0, 3⟩ := Except.ok.inj (hq.symm.trans rfl)
  refine ⟨hlive, rfl, hfit, after, hq, hafter, hread 5 (by decide), hwithin, ?_, ?_, ?_⟩
  · rw [hdue]
    decide
  · rw [hdue]
    decide
  · rw [hdue]
    decide

end Pending

end DelayHint

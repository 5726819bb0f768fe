import DelayHint.Proofs.Scan.Moments

/-! The life of a result in a block, whether there are hints in the code or not. It begins at the
start of the block or behind the instruction that writes it. From there on a scan has it pending,
until its cycles are over or a wait covers it: that of an instruction, or that of a hint which the
scan has found in front of one. -/
namespace DelayHint

/-- The age of the newest result of a kind in a register, in front of the `k`-th instruction. What
is pending in front of the code has its age from there. -/
def newestAge (entry : Pending) (code : List Instr) (s : Source) (r : Reg) : Nat → Int
  | 0 => ((entry.due r s).map Due.age).getD s.limit
  | k + 1 => ((code[k]?).map fun x => x.aged s r (newestAge entry code s r k)).getD
      (newestAge entry code s r k)

theorem newestAge_zero {entry : Pending} {s : Source} {r : Reg} {d : Due}
    (h : entry.due r s = some d) (code : List Instr) : newestAge entry code s r 0 = d.age := by
  rw [newestAge, h]
  rfl

theorem newestAge_succ {code : List Instr} {k : Nat} {x : Instr} (hx : code[k]? = some x)
    (entry : Pending) (s : Source) (r : Reg) :
    newestAge entry code s r (k + 1) = x.aged s r (newestAge entry code s r k) := by
  rw [newestAge, hx]
  rfl

/-- A result that the instructions of a block may have to wait for. -/
structure Result where
  source : Source
  reg : Reg
  /-- The first instruction that may have to wait for it. -/
  start : Nat
  /-- The cycles that are left of it in front of that. -/
  cycles : Int

namespace Result

/-- The result is pending at the start of the code, or an instruction of the code gives it. -/
inductive Begins (cost : Instr → Cost) (entry : Pending) (code : List Instr) : Result → Prop where
  | pending {s : Source} {r : Reg} {d : Due} (hd : entry.due r s = some d) :
    Begins cost entry code ⟨s, r, 0, d.cycles⟩
  | written {s : Source} {r : Reg} {i : Nat} {w : Instr} (hw : code[i]? = some w)
    (hp : w.Produces s r) :
    Begins cost entry code ⟨s, r, i + 1, (cost w).tracked - (cost w).issue.toNat⟩

/-- A hint can still wait for the result in front of the `k`-th instruction: no barrier has come
since it began, and at no place too many instructions since the newest result of its register. -/
structure OpenAt (cost : Instr → Cost) (entry : Pending) (code : List Instr) (k : Nat)
    (o : Result) : Prop where
  begins : o.Begins cost entry code
  le : o.start ≤ k
  unbarred : ∀ m x, o.start ≤ m → m < k → code[m]? = some x → x.isBarrier = false
  recent : ∀ m, o.start ≤ m → m ≤ k → newestAge entry code o.source o.reg m < o.source.limit

/-- What is left of its cycles when a scan of the code comes to the `k`-th plain instruction. -/
def left (cost : Instr → Cost) (entry : Pending) (code : List Instr) (k : Nat) (o : Result) : Int :=
  o.cycles - Scan.passed cost entry code o.start k

variable {cost : Instr → Cost} {entry : Pending} {code : List Instr} {k : Nat} {o : Result}
  {x : Instr}

private theorem OpenAt.pred (h : o.OpenAt cost entry code (k + 1)) (hle : o.start ≤ k) :
    o.OpenAt cost entry code k where
  begins := h.begins
  le := hle
  unbarred m x hm hmk := h.unbarred m x hm (Nat.lt_succ_of_lt hmk)
  recent m hm hmk := h.recent m hm (Nat.le_succ_of_le hmk)

private theorem OpenAt.succ (h : o.OpenAt cost entry code k) (hx : code[k]? = some x)
    (hb : x.isBarrier = false)
    (hage : newestAge entry code o.source o.reg (k + 1) < o.source.limit) :
    o.OpenAt cost entry code (k + 1) where
  begins := h.begins
  le := Nat.le_succ_of_le h.le
  unbarred m y hm hmk hy := by
    rcases Nat.lt_succ_iff_lt_or_eq.mp hmk with hlt | rfl
    · exact h.unbarred m y hm hlt hy
    · obtain rfl : x = y := Option.some.inj (hx.symm.trans hy)
      exact hb
  recent m hm hmk := by
    rcases Nat.le_succ_iff.mp hmk with hle | rfl
    · exact h.recent m hm hle
    · exact hage

end Result

namespace Scan

variable {cost : Instr → Cost} {entry : Pending} {code : List Instr} {k : Nat} {a b : Moment}
  {r : Reg} {s : Source} {d : Due} {o : Result}

theorem left_succ (ha : (timeline cost entry code)[k]? = some a)
    (hb : (timeline cost entry code)[k + 1]? = some b) (o : Result) :
    o.left cost entry code (k + 1) = o.left cost entry code k - (b.time - a.time) := by
  simp only [Result.left, passed, ha, hb, Option.map_some, Option.getD_some]
  omega

/-- What is due at the first instruction was due in front of it. -/
theorem due_of_timeline_zero (hcode : Placed code) (hn : entry.Normal)
    (ha : (timeline cost entry code)[0]? = some a) (hd : a.pending.due r s = some d) :
    ∃ e, entry.due r s = some e ∧ d.age = e.age ∧
      d.cycles = e.cycles - (a.time - a.reached) := by
  obtain ⟨hqueued, -, -⟩ := counted_of_timeline hn ha
  obtain ⟨hreached, hlead⟩ := follows_timeline_zero hcode ha
  rw [hreached]
  exact hlead.due_cases hn.settled hqueued.waitCycles_nonneg hd

/-- What is due at any other one was due at the one before, or is a result of that. -/
theorem due_of_timeline_succ (hcode : Placed code) (hn : entry.Normal)
    (ha : (timeline cost entry code)[k + 1]? = some a) (hd : a.pending.due r s = some d) :
    ∃ b x, (timeline cost entry code)[k]? = some b ∧ (withoutHints code)[k]? = some x ∧
      x.isBarrier = false ∧
      (x.Produces s r ∧ d.age = s.count x ∨
        ¬ x.Produces s r ∧ ∃ e, b.pending.due r s = some e ∧ d.age = e.age + s.count x) ∧
      (x.Produces s r ∧
          d.cycles = (cost x).tracked - (cost x).issue.toNat - (a.time - a.reached) ∨
        ∃ e, b.pending.due r s = some e ∧ d.cycles = e.cycles - (a.time - b.time)) := by
  obtain ⟨hqueued, -, -⟩ := counted_of_timeline hn ha
  obtain ⟨b, x, ctx', hb, hx, hstep, hreached, hlead⟩ := follows_timeline_succ hcode ha
  obtain ⟨-, hrequired, hpending⟩ := counted_of_timeline hn hb
  obtain ⟨c, hc, hcage, hccycles⟩ := hlead.due_cases (settled_step hpending.settled hstep)
    hqueued.waitCycles_nonneg hd
  obtain ⟨hbarrier, hage, hcycles⟩ :=
    due_step_cases hpending.settled hrequired.waitCycles_nonneg hstep hc
  refine ⟨b, x, hb, hx, hbarrier, ?_, ?_⟩
  · rw [hcage]
    exact hage
  · rw [hreached, hccycles]
    unfold spent
    rcases hcycles with ⟨hp, hcycles⟩ | ⟨e, he, hcycles⟩
    · exact .inl ⟨hp, by omega⟩
    · exact .inr ⟨e, he, by omega⟩

/-- What is due has the age of the newest result in its register. -/
theorem age_of_due (hcode : Placed code) (hn : entry.Normal)
    (ha : (timeline cost entry code)[k]? = some a) (hd : a.pending.due r s = some d) :
    d.age = newestAge entry (withoutHints code) s r k := by
  induction k generalizing a d with
  | zero =>
    obtain ⟨e, he, hage, -⟩ := due_of_timeline_zero hcode hn ha hd
    rw [hage, newestAge_zero he]
  | succ k ih =>
    obtain ⟨b, x, hb, hx, -, hage, -⟩ := due_of_timeline_succ hcode hn ha hd
    rw [newestAge_succ hx]
    rcases hage with ⟨hp, hage⟩ | ⟨hp, e, he, hage⟩
    · rw [Instr.aged_of_produces hp, hage]
    · rw [Instr.aged_of_not_produces hp, ← ih hb he, hage]

/-- What a scan has of a result when it comes to the `k`-th plain instruction: its cycles are over,
an instruction before that waits for it, the hint in front does, or it is due. -/
inductive Fate (cost : Instr → Cost) (entry : Pending) (code : List Instr) (o : Result) (k : Nat)
    (a : Moment) : Prop where
  | finished (h : o.left cost entry code k ≤ 0)
  | waited {m : Nat} {b : Moment} (hm : o.start ≤ m) (hk : m < k)
    (hb : (timeline cost entry code)[m]? = some b)
    (hc : b.required.covers o.source
      (newestAge entry (withoutHints code) o.source o.reg m) = true)
  | queued (hc : a.queued.covers o.source
      (newestAge entry (withoutHints code) o.source o.reg k) = true)
  | due {d : Due} (hd : a.pending.due o.reg o.source = some d)
    (hle : o.left cost entry code k ≤ d.cycles)

/-- A result that is due behind a plain instruction goes on to the next one. -/
private theorem Fate.of_due {q : Requirement} {ctx : Pending} {now : Int}
    (hf : a.Follows cost q ctx now) (hctx : ctx.Settled) (hc : 0 ≤ a.queued.waitCycles)
    (hd : ctx.due o.reg o.source = some d)
    (hage : d.age = newestAge entry (withoutHints code) o.source o.reg k)
    (hleft : o.left cost entry code k ≤ d.cycles - (a.time - now)) :
    Fate cost entry code o k a := by
  rcases hf.lead.due_of_due hctx hc hd with ⟨e, he, hle⟩ | hlong | hcover
  · exact .due he (Int.le_trans hleft hle)
  · exact .finished (by omega)
  · exact .queued (hage ▸ hcover)

theorem covers_demand {q q' : Requirement} {ctx : Pending} {i : Instr} {age : Int}
    (h : ctx.demand q i = .ok q') (hc : q.covers s age = true) : q'.covers s age = true := by
  rcases Pending.demand_cases h with ⟨-, rfl⟩ | ⟨units, -, -, rfl⟩
  · exact hc
  · have hwithin := (Requirement.within_foldl_join q (ctx.valuesAt units)).1
    have hage := Int.le_trans (hwithin.age_le s) (Requirement.age_le_of_covers hc)
    exact (Requirement.covers_iff (Requirement.ne_salu_of_covers hc)).mpr hage

/-- What becomes of a result from one instruction to the next. -/
theorem Fate.succ (h : Fate cost entry code o k b) (hcode : Placed code) (hn : entry.Normal)
    (ho : o.OpenAt cost entry (withoutHints code) (k + 1)) (hle : o.start ≤ k)
    (hb : (timeline cost entry code)[k]? = some b)
    (ha : (timeline cost entry code)[k + 1]? = some a) : Fate cost entry code o (k + 1) a := by
  obtain ⟨hqueued, -, -⟩ := counted_of_timeline hn ha
  obtain ⟨-, hrequired, hpending⟩ := counted_of_timeline hn hb
  obtain ⟨b', x, ctx', hb', hx, hstep, hfollows⟩ := follows_timeline_succ hcode ha
  obtain rfl : b = b' := Option.some.inj (hb.symm.trans hb')
  have hlead := hfollows.lead.le hqueued.waitCycles_nonneg
  have hwait := hrequired.waitCycles_nonneg
  have hleft := left_succ hb ha o
  unfold spent at hlead
  cases h with
  | finished h => exact .finished (by omega)
  | waited hm hk hc hcover => exact .waited hm (Nat.lt_succ_of_lt hk) hc hcover
  | queued hcover =>
    have hdemand := demand_of_stop (stop_of_timeline hb) hx
    exact .waited hle (Nat.lt_succ_self k) hb (covers_demand hdemand hcover)
  | due hd hcycles =>
    have hage := age_of_due hcode hn hb hd
    have hbarrier := ho.unbarred k x hle (Nat.lt_succ_self k) hx
    have hrecent := ho.recent (k + 1) ho.le (Nat.le_refl _)
    rw [newestAge_succ hx, ← hage] at hrecent
    rcases due_of_step hpending.settled hwait hstep hbarrier hd with
      ⟨e, he, heage, hecycles⟩ | hfar | hlong | hcover
    · refine .of_due hfollows (settled_step hpending.settled hstep) hqueued.waitCycles_nonneg he
        ?_ ?_
      · rw [heage, newestAge_succ hx, hage]
      · unfold spent
        omega
    · omega
    · exact .finished (by omega)
    · exact .waited hle (Nat.lt_succ_self k) hb (hage ▸ hcover)

end Scan

end DelayHint

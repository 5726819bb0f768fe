import DelayHint.Proofs.Requirement.Encoding
import DelayHint.Proofs.Scan.Results

/-! The clock of a scan. Every instruction takes the cycles of its wait and of its issue, and a hint
that is already in the code takes its own. What is due at a register can end at such a hint, too. -/
namespace DelayHint

theorem Requirement.Counted.waitCycles_nonneg {lo : Int} {q : Requirement} (h : q.Counted lo) :
    0 ≤ q.waitCycles :=
  Int.le_trans h.salu q.saluCycles_le_waitCycles

namespace Instr

variable {i : Instr} {s : Source} {r : Reg}

theorem isBarrier_of_isHint (h : i.isHint) : i.isBarrier = false := by
  have hop : i.opcode = .sDelayAlu := by simpa [isHint] using h
  unfold isBarrier isExp format
  rw [hop]
  rfl

theorem count_of_isHint (h : i.isHint) (s : Source) : s.count i = 0 := by
  have hop : i.opcode = .sDelayAlu := by simpa [isHint] using h
  have hvalu : i.isValu = false := by
    rw [isValu, format, hop]
    rfl
  have htrans : i.isTrans = false := by
    rw [isTrans, pipe, hop]
    rfl
  cases s <;> simp [Source.count, Source.counts, hvalu, htrans]

theorem not_produces_of_defs_eq_nil (h : i.defs = []) : ¬ i.Produces s r := by
  intro hp
  have hwrites : i.writes = .ok [] := by
    rw [Instr.writes, h]
    rfl
  have hr := (writes_iff_mem hwrites).mp hp.writes
  cases hr

end Instr

namespace Scan

/-- The cycles that an instruction takes: those of its wait and those of its issue. -/
def spent (cost : Instr → Cost) (q : Requirement) (i : Instr) : Int :=
  q.waitCycles + (cost i).issue.toNat

/-- A stop with the hint that the scan has found there, and with the time. -/
structure Moment extends Stop where
  kept : Option Instr
  /-- When the scan is through with the plain instruction before. -/
  reached : Int
  /-- When it comes to this one, and is through with the hint. -/
  time : Int

/-- The stops of a scan as moments. `kept` is the hint right in front of the code. -/
def moments (cost : Instr → Cost) (kept : Option Instr) (q : Requirement) (ctx : Pending)
    (reached now : Int) : List Instr → List Moment
  | [] => []
  | i :: rest =>
    match step cost q ctx i with
    | .error _ => []
    | .ok (q', ctx') =>
      if i.isHint then moments cost (some i) q' ctx' reached (now + spent cost q' i) rest
      else ⟨⟨q, ctx, q'⟩, kept, reached, now⟩ ::
        moments cost none (left q') ctx' (now + spent cost q' i) (now + spent cost q' i) rest

/-- The moments of the scan of a block, from what is pending at its start. -/
def timeline (cost : Instr → Cost) (ctx : Pending) (code : List Instr) : List Moment :=
  moments cost none .empty ctx 0 0 code

/-- The cycles that a scan takes to the `k`-th plain instruction, from the place behind the one
before `start`. The hints on the way take theirs, too. -/
def passed (cost : Instr → Cost) (ctx : Pending) (code : List Instr) (start k : Nat) : Int :=
  (((timeline cost ctx code)[k]?).map Moment.time).getD 0 -
    (((timeline cost ctx code)[start]?).map Moment.reached).getD 0

/-- How a scan comes from one plain instruction to the next: at once, or by the hint in between. -/
inductive Lead (cost : Instr → Cost) (q : Requirement) (ctx : Pending) (now : Int) :
    Option Instr → Requirement → Pending → Int → Prop where
  | direct : Lead cost q ctx now none q ctx now
  | hint {h : Instr} {q' : Requirement} {ctx' : Pending} (hh : h.isHint) (hdefs : h.defs = [])
    (hoperands : h.operands = []) (hs : step cost q ctx h = .ok (q', ctx')) :
    Lead cost q ctx now (some h) q' ctx' (now + spent cost q' h)

/-- The scan comes to the moment from a place behind a plain instruction. -/
structure Moment.Follows (cost : Instr → Cost) (q : Requirement) (ctx : Pending) (now : Int)
    (a : Moment) : Prop where
  reached_eq : a.reached = now
  lead : Lead cost q ctx now a.kept a.queued a.pending a.time

section Moments

variable {cost : Instr → Cost} {kept : Option Instr} {q q' q₀ : Requirement}
  {ctx ctx' ctx₀ : Pending} {reached now : Int} {i x : Instr} {code rest : List Instr} {k : Nat}
  {a b : Moment}

private theorem moments_cons_of_isHint (hi : i.isHint) (hs : step cost q ctx i = .ok (q', ctx')) :
    moments cost kept q ctx reached now (i :: rest) =
      moments cost (some i) q' ctx' reached (now + spent cost q' i) rest := by
  simp [moments, hs, hi]

private theorem moments_cons_of_not_isHint (hi : ¬ i.isHint)
    (hs : step cost q ctx i = .ok (q', ctx')) :
    moments cost kept q ctx reached now (i :: rest) = ⟨⟨q, ctx, q'⟩, kept, reached, now⟩ ::
      moments cost none (left q') ctx' (now + spent cost q' i) (now + spent cost q' i) rest := by
  simp [moments, hs, hi]

private theorem map_toStop_moments (cost : Instr → Cost) (kept : Option Instr) (q : Requirement)
    (ctx : Pending) (reached now : Int) (code : List Instr) :
    (moments cost kept q ctx reached now code).map Moment.toStop = stops cost q ctx code := by
  induction code generalizing kept q ctx reached now with
  | nil => rfl
  | cons i rest ih =>
    cases hs : step cost q ctx i with
    | error f => simp [moments, stops, hs]
    | ok out =>
      by_cases hi : i.isHint
      · rw [moments_cons_of_isHint hi hs, stops_cons_of_isHint hi hs, ih]
      · rw [moments_cons_of_not_isHint hi hs, stops_cons_of_not_isHint hi hs, List.map_cons, ih]

/-- A moment is that of a plain instruction, with the hint in front of it. -/
theorem slot_of_moments (ha : (moments cost kept q ctx reached now code)[k]? = some a) :
    ∃ x, (withoutHints code)[k]? = some x ∧ (slots kept code)[k]? = some (a.kept, x) := by
  induction code generalizing kept q ctx reached now k with
  | nil => cases ha
  | cons i rest ih =>
    cases hs : step cost q ctx i with
    | error f => simp [moments, hs] at ha
    | ok out =>
      by_cases hi : i.isHint
      · rw [moments_cons_of_isHint hi hs] at ha
        rw [withoutHints_cons_of_isHint hi, slots, if_pos hi]
        exact ih ha
      · rw [moments_cons_of_not_isHint hi hs] at ha
        rw [withoutHints_cons_of_not_isHint hi, slots, if_neg hi]
        cases k with
        | zero =>
          obtain rfl := Option.some.inj ha
          exact ⟨i, rfl, rfl⟩
        | succ k => exact ih ha

private theorem follows_head (hlead : Lead cost q₀ ctx₀ reached kept q ctx now)
    (hcode : Placed (kept.toList ++ code))
    (ha : (moments cost kept q ctx reached now code)[0]? = some a) :
    a.Follows cost q₀ ctx₀ reached := by
  induction code generalizing kept q ctx now with
  | nil => cases ha
  | cons i rest ih =>
    cases hs : step cost q ctx i with
    | error f => simp [moments, hs] at ha
    | ok out =>
      by_cases hi : i.isHint
      · rw [moments_cons_of_isHint hi hs] at ha
        cases hlead with
        | direct =>
          obtain ⟨hplaced, -⟩ := placed_cons.mp hcode
          obtain ⟨hdefs, hoperands, -⟩ := hplaced hi
          exact ih (.hint hi hdefs hoperands hs) hcode ha
        | hint hh =>
          obtain ⟨hplaced, -⟩ := placed_cons.mp hcode
          obtain ⟨-, -, -, x, hx, -, hnot⟩ := hplaced hh
          obtain rfl : i = x := Option.some.inj hx
          exact absurd hi hnot
      · rw [moments_cons_of_not_isHint hi hs] at ha
        obtain rfl := Option.some.inj ha
        exact ⟨rfl, hlead⟩

/-- From each moment the plain instruction there leads on to the next one. -/
private theorem follows_succ (hcode : Placed (kept.toList ++ code))
    (hb : (moments cost kept q ctx reached now code)[k + 1]? = some b) :
    ∃ a x ctx', (moments cost kept q ctx reached now code)[k]? = some a ∧
      (withoutHints code)[k]? = some x ∧
      step cost a.queued a.pending x = .ok (a.required, ctx') ∧
      b.Follows cost (left a.required) ctx' (a.time + spent cost a.required x) := by
  induction code generalizing kept q ctx reached now k with
  | nil => cases hb
  | cons i rest ih =>
    have hcons : Placed (i :: rest) := by
      cases kept with
      | none => exact hcode
      | some h => exact (placed_cons.mp hcode).2
    cases hs : step cost q ctx i with
    | error f => simp [moments, hs] at hb
    | ok out =>
      by_cases hi : i.isHint
      · rw [moments_cons_of_isHint hi hs] at hb ⊢
        rw [withoutHints_cons_of_isHint hi]
        exact ih hcons hb
      · rw [moments_cons_of_not_isHint hi hs] at hb ⊢
        rw [withoutHints_cons_of_not_isHint hi]
        have hrest : Placed rest := (placed_cons.mp hcons).2
        cases k with
        | zero => exact ⟨_, i, out.2, rfl, rfl, hs, follows_head .direct hrest hb⟩
        | succ k => exact ih hrest hb

end Moments

section Leads

variable {cost : Instr → Cost} {kept : Option Instr} {q q' : Requirement} {ctx ctx' : Pending}
  {now time : Int} {r : Reg} {s : Source} {d e : Due}

theorem Lead.le (h : Lead cost q ctx now kept q' ctx' time) (hc : 0 ≤ q'.waitCycles) :
    now ≤ time := by
  cases h with
  | direct => exact Int.le_refl _
  | hint hh hdefs hoperands hs =>
    unfold spent
    omega

/-- What is due behind a hint was due before it, and has grown no older. -/
theorem Lead.due_cases (h : Lead cost q ctx now kept q' ctx' time) (hctx : ctx.Settled)
    (hc : 0 ≤ q'.waitCycles) (he : ctx'.due r s = some e) :
    ∃ d, ctx.due r s = some d ∧ e.age = d.age ∧ e.cycles = d.cycles - (time - now) := by
  cases h with
  | direct => exact ⟨e, he, rfl, by omega⟩
  | hint hh hdefs hoperands hs =>
    have hnot {i : Instr} (hi : i.defs = []) : ¬ i.Produces s r :=
      Instr.not_produces_of_defs_eq_nil hi
    obtain ⟨-, hage, hcycles⟩ := due_step_cases hctx hc hs he
    obtain ⟨-, d, hd, hage⟩ := hage.resolve_left fun hp => hnot hdefs hp.1
    obtain ⟨d', hd', hcycles⟩ := hcycles.resolve_left fun hp => hnot hdefs hp.1
    obtain rfl : d = d' := Option.some.inj (hd.symm.trans hd')
    rw [Instr.count_of_isHint hh] at hage
    refine ⟨d, hd, by omega, ?_⟩
    unfold spent
    omega

/-- What is due stays due through a hint, unless its cycles are over or the hint counts back to it.
-/
theorem Lead.due_of_due (h : Lead cost q ctx now kept q' ctx' time) (hctx : ctx.Settled)
    (hc : 0 ≤ q'.waitCycles) (hd : ctx.due r s = some d) :
    (∃ e, ctx'.due r s = some e ∧ d.cycles - (time - now) ≤ e.cycles) ∨ d.cycles ≤ time - now ∨
      q'.covers s d.age = true := by
  cases h with
  | direct => exact .inl ⟨d, hd, by omega⟩
  | hint hh hdefs hoperands hs =>
    obtain ⟨hopen, -⟩ := Pending.due_open hd
    have haged := Instr.aged_of_not_produces (Instr.not_produces_of_defs_eq_nil (s := s) (r := r)
      hdefs) d.age
    rw [Instr.count_of_isHint hh] at haged
    unfold spent
    rcases due_of_step hctx hc hs (Instr.isBarrier_of_isHint hh) hd with
      ⟨e, he, -, hcycles⟩ | hfar | hlong | hcover
    · exact .inl ⟨e, he, by omega⟩
    · omega
    · exact .inr (.inl (by omega))
    · exact .inr (.inr hcover)

end Leads

/-- What holds of queued and of pending requirements holds of what is required. -/
theorem required_induction {cost : Instr → Cost} {ctx : Pending} {code : List Instr}
    {P : Requirement → Prop} {J : Pending → Prop} {k : Nat} {t : Stop} {x : Instr}
    (hempty : P .empty) (hjoin : ∀ {a b}, P a → P b → P (a.join b))
    (hhint : ∀ {q} (i : Instr), P q → P (q.withHint i))
    (hget : ∀ {ctx r e}, J ctx → ctx.get? r = some e → P e)
    (hstep : ∀ {q q' ctx ctx' i}, i ∈ code → step cost q ctx i = .ok (q', ctx') →
      J ctx → J ctx')
    (hctx : J ctx) (ht : (stops cost .empty ctx code)[k]? = some t)
    (hx : (withoutHints code)[k]? = some x) : P t.queued ∧ P t.required ∧ J t.pending := by
  have hdemand {q q' : Requirement} {ctx : Pending} {i : Instr} (hq : P q) (hctx : J ctx)
      (hd : ctx.demand q i = .ok q') : P q' :=
    Pending.demand_induction hjoin (hget hctx) hq hd
  have hstop : P t.queued ∧ J t.pending := by
    refine stops_induction (motive := fun q ctx => P q ∧ J ctx) ?_ ?_ ⟨hempty, hctx⟩
      (List.mem_of_getElem? ht)
    · rintro q q' ctx ctx' i hi hh ⟨hq, hctx⟩ hs
      obtain ⟨waited, hd, -, -⟩ := step_eq_ok hs
      rw [if_pos hh] at hd
      exact ⟨hdemand (hhint i hq) hctx hd, hstep hi hs hctx⟩
    · rintro q q' ctx ctx' i hi hh ⟨hq, hctx⟩ hs
      obtain ⟨waited, hd, -, -⟩ := step_eq_ok hs
      rw [if_neg hh] at hd
      exact ⟨left_induction hempty (hdemand hq hctx hd), hstep hi hs hctx⟩
  exact ⟨hstop.1, hdemand hstop.1 hstop.2 (demand_of_stop ht hx), hstop.2⟩

theorem counted_of_stop {cost : Instr → Cost} {entry : Pending} {code : List Instr} {k : Nat}
    {t : Stop} {x : Instr} (hn : entry.Normal) (ht : (stops cost .empty entry code)[k]? = some t)
    (hx : (withoutHints code)[k]? = some x) :
    t.queued.Counted 0 ∧ t.required.Counted 0 ∧ t.pending.Normal :=
  required_induction (.empty (by decide)) .join (fun i hq => hq.withHint (by decide) i)
    (fun hctx he => .of_normal (hctx _ _ he)) (fun _ hs hctx => normal_step hs hctx) hn ht hx

section Timeline

variable {cost : Instr → Cost} {entry : Pending} {code : List Instr} {k : Nat} {a b : Moment}
  {x : Instr} {r : Reg} {s : Source} {d : Due}

theorem stop_of_timeline (ha : (timeline cost entry code)[k]? = some a) :
    (stops cost .empty entry code)[k]? = some a.toStop := by
  rw [← map_toStop_moments cost none .empty entry 0 0 code, List.getElem?_map]
  exact congrArg (Option.map Moment.toStop) ha

theorem follows_timeline_zero (hcode : Placed code)
    (ha : (timeline cost entry code)[0]? = some a) : a.Follows cost .empty entry 0 :=
  follows_head .direct hcode ha

theorem follows_timeline_succ (hcode : Placed code)
    (hb : (timeline cost entry code)[k + 1]? = some b) :
    ∃ a x ctx', (timeline cost entry code)[k]? = some a ∧ (withoutHints code)[k]? = some x ∧
      step cost a.queued a.pending x = .ok (a.required, ctx') ∧
      b.Follows cost (left a.required) ctx' (a.time + spent cost a.required x) := by
  have hplaced : Placed ((none : Option Instr).toList ++ code) := hcode
  exact follows_succ hplaced hb

theorem counted_of_timeline (hn : entry.Normal) (ha : (timeline cost entry code)[k]? = some a) :
    a.queued.Counted 0 ∧ a.required.Counted 0 ∧ a.pending.Normal := by
  obtain ⟨x, hx, -⟩ := slot_of_moments ha
  exact counted_of_stop hn (stop_of_timeline ha) hx

end Timeline

end Scan

end DelayHint

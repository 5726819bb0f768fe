import DelayHint.Proofs.Scan.Timeline

/-! No dependency is missed. A result stays due at its register until it is old enough, its cycles
are over, or some instruction has waited for it or for a newer one. -/
namespace DelayHint

namespace Scan

variable {cost : Instr → Cost} {ctx last : Pending} {code out : List Instr} {s : Source}
  {i j k : Nat} {w : Instr} {r : Reg} {a : Stop}

/-- The result of the instruction at `i` need not be waited for at `k`: too many instructions are in
between, its cycles are over, or a wait on the way has covered it. -/
def Retired (cost : Instr → Cost) (ctx : Pending) (code : List Instr) (s : Source) (w : Instr)
    (i k : Nat) : Prop :=
  s.limit ≤ distance s code i k ∨ (cost w).tracked ≤ elapsed cost ctx code i k ∨
    ∃ m, i < m ∧ m < k ∧ (requiredAt cost ctx code m).age s < s.limit ∧
      (requiredAt cost ctx code m).covers s (distance s code i m) = true

/-- The register is due at `k`, no older than the result of the instruction at `i` and with no fewer
cycles left. -/
def Awaited (cost : Instr → Cost) (ctx : Pending) (code : List Instr) (s : Source) (w : Instr)
    (i k : Nat) (due : Option Due) : Prop :=
  ∃ d, due = some d ∧ d.age ≤ distance s code i k ∧
    (cost w).tracked - elapsed cost ctx code i k ≤ d.cycles

theorem Retired.succ (hcode : ∀ x ∈ code, ¬ x.isHint) (hctx : ctx.Settled) (hik : i < k)
    {x : Instr} (hx : code[k]? = some x) (ha : (stops cost .empty ctx code)[k]? = some a)
    (h : Retired cost ctx code s w i k) : Retired cost ctx code s w i (k + 1) := by
  have hdistance := distance_succ (s := s) (Nat.le_of_lt hik) hx
  have helapsed := elapsed_succ hik hx ha
  have hcount := s.count_nonneg x
  have hwait : 0 ≤ a.required.waitCycles := by
    rw [← requiredAt_of_stop ha]
    exact Requirement.waitCycles_nonneg (normalized_requiredAt cost hcode hctx k)
  rcases h with hfar | hlong | ⟨m, him, hmk, hm⟩
  · exact .inl (by omega)
  · exact .inr (.inl (by omega))
  · exact .inr (.inr ⟨m, him, by omega, hm⟩)

/-- Wherever a scan stops behind a write, the result is still due or need not be waited for. What is
due is no older than the result, so a wait that covers the one covers the other. -/
theorem retired_or_awaited (hcode : ∀ x ∈ code, ¬ x.isHint) (hctx : ctx.Settled)
    (hw : Writer s r code i j w) (hik : i + 1 ≤ k) (hkj : k ≤ j)
    (ha : (stops cost .empty ctx code)[k]? = some a) :
    Retired cost ctx code s w i k ∨ Awaited cost ctx code s w i k (a.pending.due r s) := by
  induction k, hik using Nat.le_induction generalizing a with
  | base =>
    obtain ⟨b, x, hb, hx, hsettled, hnormal, hstep⟩ := step_of_plain hcode hctx ha
    obtain rfl : w = x := Option.some.inj (hw.getElem?.symm.trans hx)
    have hdistance : distance s code i (i + 1) = s.count w := by
      rw [distance_succ (Nat.le_refl i) hx, distance_self, Int.zero_add]
    have helapsed := elapsed_next cost ctx hx
    rcases due_of_produces hsettled (Requirement.waitCycles_nonneg hnormal) hstep hw.produces with
      ⟨d, hd, hage, hcycles⟩ | hfar | hlong
    · exact .inr ⟨d, hd, by omega, by omega⟩
    · exact .inl (.inl (by omega))
    · exact .inl (.inr (.inl (by omega)))
  | succ k hik ih =>
    obtain ⟨b, x, hb, hx, hsettled, hnormal, hstep⟩ := step_of_plain hcode hctx ha
    have hbarrier : x.isBarrier = false := hw.between k x (by omega) (by omega) hx
    have hdistance := distance_succ (s := s) (Nat.le_of_lt hik) hx
    have helapsed := elapsed_succ hik hx hb
    rcases ih (by omega) hb with hretired | ⟨d, hd, hage, hcycles⟩
    · exact .inl (hretired.succ hcode hctx hik hx hb)
    · have haged := x.aged_le s r (hsettled.age_due hd)
      rcases due_of_step hsettled (Requirement.waitCycles_nonneg hnormal) hstep hbarrier hd with
        ⟨e, he, heage, hecycles⟩ | hfar | hlong | hcover
      · exact .inr ⟨e, he, by omega, by omega⟩
      · exact .inl (.inl (by omega))
      · exact .inl (.inr (.inl (by omega)))
      · have hrequired := requiredAt_of_stop hb
        have hopen := Pending.due_open hd
        have hle := Requirement.age_le_of_covers hcover
        refine .inl (.inr (.inr ⟨k, hik, Nat.lt_succ_self k, ?_, ?_⟩))
        · rw [hrequired]
          omega
        · rw [hrequired]
          exact Requirement.covers_mono hage hcover

/-- A read waits for the result, unless it need not. -/
theorem retired_or_required (hcode : ∀ x ∈ code, ¬ x.isHint) (hctx : ctx.Settled)
    (h : Run cost .empty ctx code out last) (hd : Dependency s code i j w) :
    Retired cost ctx code s w i j ∨
      (requiredAt cost ctx code j).age s < s.limit ∧
      (requiredAt cost ctx code j).age s ≤ distance s code i j ∧
      (cost w).tracked - elapsed cost ctx code i j ≤ (requiredAt cost ctx code j).cyclesOf s := by
  obtain ⟨r, x, hw, hx, halu, hreads⟩ := hd
  obtain ⟨a, ha⟩ := h.exists_stop hcode hx
  obtain ⟨hsettled, hdemand⟩ := demand_of_plain hcode hctx hx ha
  rcases retired_or_awaited hcode hctx hw hw.lt (Nat.le_refl j) ha with
    hretired | ⟨d, hdue, hage, hcycles⟩
  · exact .inl hretired
  · obtain ⟨hage', hcycles'⟩ := Pending.due_demand hdemand halu hreads hdue
    have hopen := Pending.due_open hdue
    rw [requiredAt_of_stop ha]
    exact .inr ⟨by omega, by omega, by omega⟩

/-- A counted result is old, there, or waited for on the way or at the read. -/
theorem waited_of_dependency (hcode : ∀ x ∈ code, ¬ x.isHint) (hctx : ctx.Settled)
    (h : Run cost .empty ctx code out last) (hd : Dependency s code i j w) :
    s.limit ≤ distance s code i j ∨ (cost w).tracked ≤ elapsed cost ctx code i j ∨
      ∃ k, i < k ∧ k ≤ j ∧ (requiredAt cost ctx code k).age s < s.limit ∧
        (requiredAt cost ctx code k).age s ≤ distance s code i k := by
  have hlt : i < j := by
    obtain ⟨r, x, hw, -⟩ := hd
    exact hw.lt
  rcases retired_or_required hcode hctx h hd with
    (hfar | hlong | ⟨k, hik, hkj, hopen, hcover⟩) | ⟨hopen, hle, -⟩
  · exact .inl hfar
  · exact .inr (.inl hlong)
  · exact .inr (.inr ⟨k, hik, Nat.le_of_lt hkj, hopen, Requirement.age_le_of_covers hcover⟩)
  · exact .inr (.inr ⟨j, hlt, Nat.le_refl j, hopen, hle⟩)

/-- Scalar results are never retired by a count, so a read waits for what is left of them. -/
theorem salu_of_dependency (hcode : ∀ x ∈ code, ¬ x.isHint) (hctx : ctx.Settled)
    (h : Run cost .empty ctx code out last) (hd : Dependency .salu code i j w) :
    (cost w).tracked - elapsed cost ctx code i j ≤
      (requiredAt cost ctx code j).cyclesOf .salu := by
  rcases retired_or_required hcode hctx h hd with
    (hfar | hlong | ⟨k, -, -, -, hcover⟩) | ⟨-, -, hcycles⟩
  · rw [distance_salu] at hfar
    cases hfar
  · have hzero := Requirement.cyclesOf_nonneg (normalized_requiredAt cost hcode hctx j) .salu
    omega
  · cases hcover
  · exact hcycles

/-- No recent dependency is missed in plain code, whatever is pending in front of it. In the new
code each instruction has the hint for what it requires in front of it. A vector result that is read
at most four counted instructions later is there, or was waited for on the way or at the read, and
so is a transcendental result within three. The read of a scalar result waits for all that is left
of its cycles. -/
theorem dependency_covered (hctx : ctx.Settled) (hcode : ∀ x ∈ code, ¬ x.isHint)
    (h : block cost ctx code = .ok (out, last)) :
    (∀ k x, code[k]? = some x →
      (slots none out)[k]? = some ((requiredAt cost ctx code k).hint?, x)) ∧
    (∀ i j w, Dependency .valu code i j w → 5 ≤ distance .valu code i j ∨
      (cost w).tracked ≤ elapsed cost ctx code i j ∨ ∃ k, i < k ∧ k ≤ j ∧
        (requiredAt cost ctx code k).valuInstrs.toInt ≤ min 4 (distance .valu code i k)) ∧
    (∀ i j w, Dependency .trans code i j w → 4 ≤ distance .trans code i j ∨
      (cost w).tracked ≤ elapsed cost ctx code i j ∨ ∃ k, i < k ∧ k ≤ j ∧
        (requiredAt cost ctx code k).transInstrs.toInt ≤ min 3 (distance .trans code i k)) ∧
    ∀ i j w, Dependency .salu code i j w →
      (cost w).tracked - elapsed cost ctx code i j ≤
        (requiredAt cost ctx code j).saluCycles.toInt := by
  have hrun := run_of_eq_ok h
  refine ⟨fun k x hx => hrun.slot_requiredAt hcode hx, fun i j w hd => ?_, fun i j w hd => ?_,
    fun i j w hd => ?_⟩
  · refine (waited_of_dependency hcode hctx hrun hd).imp_right (Or.imp_right ?_)
    rintro ⟨k, hik, hkj, hopen, hle⟩
    exact ⟨k, hik, hkj, le_min (Int.le_of_lt_add_one hopen) hle⟩
  · refine (waited_of_dependency hcode hctx hrun hd).imp_right (Or.imp_right ?_)
    rintro ⟨k, hik, hkj, hopen, hle⟩
    exact ⟨k, hik, hkj, le_min (Int.le_of_lt_add_one hopen) hle⟩
  · exact salu_of_dependency hcode hctx hrun hd

/-- The vector result is waited for at the read, after an older transcendental one in its register,
and one of the two cycles of the scalar result is left. -/
theorem dependency_covered_mixedReads : ∃ ctx out last, Pending.Settled ctx ∧ ctx.size = 1 ∧
    block classCost ctx mixedReads = .ok (out, last) ∧
    (∃ w, Dependency .valu mixedReads 1 3 w) ∧ (∃ w, Dependency .salu mixedReads 2 3 w) ∧
    (∃ k, 1 < k ∧ k ≤ 3 ∧ (requiredAt classCost ctx mixedReads k).valuInstrs.toInt ≤
      min 4 (distance .valu mixedReads 1 k)) ∧
    1 ≤ (requiredAt classCost ctx mixedReads 3).saluCycles.toInt := by
  have hsettled : Pending.Settled (Pending.record RegMap.empty 256 ⟨5, 0, 2, 6, 0⟩) := by
    intro r q hq
    rw [Pending.get?_record] at hq
    split at hq
    · obtain rfl := Option.some.inj hq
      constructor <;> decide
    · cases hq
  have hbetween (i : Nat) : ∀ m x, i < m → m < 3 → mixedReads[m]? = some x →
      x.isBarrier = false := by
    intro m x _ hm hx
    have hall : ∀ y ∈ mixedReads, y.isBarrier = false := by decide
    exact hall x (List.mem_of_getElem? hx)
  have hvalu : Dependency .valu mixedReads 1 3 (.unary .vMovB32 256 266) :=
    ⟨256, _, ⟨by decide, rfl, by decide, hbetween 1⟩, rfl, by decide, by decide⟩
  have hsalu : Dependency .salu mixedReads 2 3 (.unary .sMovB32 0 5) :=
    ⟨0, _, ⟨by decide, rfl, by decide, hbetween 2⟩, rfl, by decide, by decide⟩
  have hplain : ∀ x ∈ mixedReads, ¬ x.isHint := by decide
  have hblock : ∃ out last, block classCost (Pending.record RegMap.empty 256 ⟨5, 0, 2, 6, 0⟩)
      mixedReads = .ok (out, last) := ⟨_, _, rfl⟩
  obtain ⟨out, last, hblock⟩ := hblock
  obtain ⟨-, hwaited, -, hleft⟩ := dependency_covered hsettled hplain hblock
  refine ⟨_, _, _, hsettled, rfl, hblock, ⟨_, hvalu⟩, ⟨_, hsalu⟩, ?_, hleft 2 3 _ hsalu⟩
  rcases hwaited 1 3 _ hvalu with hfar | hlong | hk
  · exact absurd hfar (by decide)
  · exact absurd hlong (by decide)
  · exact hk

end Scan

end DelayHint

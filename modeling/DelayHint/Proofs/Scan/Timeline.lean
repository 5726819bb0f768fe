import DelayHint.Proofs.Layout
import DelayHint.Proofs.Scan.Results
import Mathlib.Algebra.BigOperators.Intervals

/-! The time line of plain code: what is required at each place, how many instructions lie between
two places, and how many cycles. A dependency is a write and a later read of the same register. -/
namespace DelayHint

/-- The instructions from `i` up to `k` that count for a kind. -/
def distance (s : Source) (code : List Instr) (i k : Nat) : Int :=
  ((code.take k).drop i).countP s.counts

/-- The instruction `w` at `i` gives a register a result of a kind, and no barrier follows up to
`k`. -/
structure Writer (s : Source) (r : Reg) (code : List Instr) (i k : Nat) (w : Instr) : Prop where
  lt : i < k
  getElem? : code[i]? = some w
  produces : w.Produces s r
  between : ∀ m x, i < m → m < k → code[m]? = some x → x.isBarrier = false

/-- The ALU instruction at `j` reads a register that the one at `i` writes. -/
def Dependency (s : Source) (code : List Instr) (i j : Nat) (w : Instr) : Prop :=
  ∃ r x, Writer s r code i j w ∧ code[j]? = some x ∧ x.isAlu = true ∧ x.Reads r

section Places

variable {s : Source} {code : List Instr} {x : Instr} {i k : Nat}

theorem distance_self (s : Source) (code : List Instr) (i : Nat) : distance s code i i = 0 := by
  have hnil : (code.take i).drop i = [] := List.drop_eq_nil_of_le (List.length_take_le i code)
  rw [distance, hnil]
  rfl

theorem distance_succ (hik : i ≤ k) (hx : code[k]? = some x) :
    distance s code i (k + 1) = distance s code i k + s.count x := by
  have hlen : i ≤ (code.take k).length := by
    have hlt : k < code.length := (List.getElem?_eq_some_iff.mp hx).1
    rw [List.length_take]
    omega
  rw [distance, distance, List.take_add_one, hx, Option.toList_some,
    List.drop_append_of_le_length hlen, List.countP_append, List.countP_singleton, Source.count]
  split <;> simp

theorem distance_salu (code : List Instr) (i k : Nat) : distance .salu code i k = 0 := by
  have hnone : ((code.take k).drop i).countP Source.salu.counts = 0 :=
    List.countP_eq_zero.mpr fun _ _ => Bool.false_ne_true
  rw [distance, hnone]
  rfl

theorem Writer.succ {r : Reg} {w : Instr} (h : Writer s r code i k w) (hx : code[k]? = some x)
    (hb : x.isBarrier = false) : Writer s r code i (k + 1) w where
  lt := Nat.lt_succ_of_lt h.lt
  getElem? := h.getElem?
  produces := h.produces
  between m y him hmk hy := by
    rcases Nat.lt_succ_iff_lt_or_eq.mp hmk with hlt | rfl
    · exact h.between m y him hlt hy
    · obtain rfl : x = y := Option.some.inj (hx.symm.trans hy)
      exact hb

theorem writer_self {r : Reg} (hx : code[k]? = some x) (hp : x.Produces s r) :
    Writer s r code k (k + 1) x where
  lt := Nat.lt_succ_self k
  getElem? := hx
  produces := hp
  between m y hkm hmk := absurd hkm (by omega)

end Places

namespace Scan

variable {cost : Instr → Cost} {ctx : Pending} {code : List Instr} {q : Requirement} {i k : Nat}
  {x : Instr} {a b : Stop}

/-- What is required at a place, nothing behind a fault. -/
def requiredAt (cost : Instr → Cost) (ctx : Pending) (code : List Instr) (k : Nat) : Requirement :=
  (((stops cost .empty ctx code)[k]?).map Stop.required).getD .empty

/-- The cycles that the instruction at a place takes to issue. -/
def issueAt (cost : Instr → Cost) (code : List Instr) (k : Nat) : Int :=
  ((code[k]?).map fun x => ((cost x).issue.toNat : Int)).getD 0

/-- The cycles from the instruction at `i` to the one at `k`: what those from `i` on take to issue,
and the waits in between. -/
def elapsed (cost : Instr → Cost) (ctx : Pending) (code : List Instr) (i k : Nat) : Int :=
  (∑ m ∈ Finset.Ico i k, issueAt cost code m) +
    ∑ m ∈ Finset.Ico (i + 1) k, (requiredAt cost ctx code m).waitCycles

theorem requiredAt_of_stop (h : (stops cost .empty ctx code)[k]? = some a) :
    requiredAt cost ctx code k = a.required := by
  rw [requiredAt, h]
  rfl

private theorem issueAt_of_getElem? (h : code[k]? = some x) :
    issueAt cost code k = (cost x).issue.toNat := by
  rw [issueAt, h]
  rfl

theorem elapsed_next (cost : Instr → Cost) (ctx : Pending) (h : code[i]? = some x) :
    elapsed cost ctx code i (i + 1) = (cost x).issue.toNat := by
  rw [elapsed, Finset.sum_Ico_succ_top (Nat.le_refl i), Finset.Ico_self, Finset.Ico_self,
    Finset.sum_empty, Finset.sum_empty, issueAt_of_getElem? h]
  omega

theorem elapsed_succ (hik : i < k) (hx : code[k]? = some x)
    (ha : (stops cost .empty ctx code)[k]? = some a) : elapsed cost ctx code i (k + 1) =
      elapsed cost ctx code i k + a.required.waitCycles + (cost x).issue.toNat := by
  rw [elapsed, elapsed, Finset.sum_Ico_succ_top (Nat.le_of_lt hik),
    Finset.sum_Ico_succ_top (show i + 1 ≤ k from hik), issueAt_of_getElem? hx,
    requiredAt_of_stop ha]
  omega

private theorem length_stops_le (cost : Instr → Cost) (q : Requirement) (ctx : Pending)
    (code : List Instr) : (stops cost q ctx code).length ≤ code.length := by
  induction code generalizing q ctx with
  | nil => exact Nat.le_refl 0
  | cons j rest ih =>
    cases hs : step cost q ctx j with
    | error f => simp [stops, hs]
    | ok out =>
      by_cases hj : j.isHint
      · rw [stops_cons_of_isHint hj hs]
        exact Nat.le_succ_of_le (ih _ _)
      · rw [stops_cons_of_not_isHint hj hs]
        exact Nat.succ_le_succ (ih _ _)

theorem queued_of_plain (hcode : ∀ i ∈ code, ¬ i.isHint) (hctx : ctx.Settled)
    (ha : a ∈ stops cost .empty ctx code) : a.queued = .empty ∧ a.pending.Settled := by
  refine stops_induction (motive := fun q ctx => q = .empty ∧ ctx.Settled)
    (fun hi hh => absurd hh (hcode _ hi)) ?_ ⟨rfl, hctx⟩ ha
  rintro q q' ctx ctx' i - hi ⟨rfl, hctx⟩ hs
  exact ⟨left_eq_empty hctx.normalized hi hs, settled_step hctx hs⟩

theorem demand_of_plain (hcode : ∀ i ∈ code, ¬ i.isHint) (hctx : ctx.Settled)
    (hx : code[k]? = some x) (ha : (stops cost .empty ctx code)[k]? = some a) :
    a.pending.Settled ∧ a.pending.demand .empty x = .ok a.required := by
  obtain ⟨hqueued, hsettled⟩ := queued_of_plain hcode hctx (List.mem_of_getElem? ha)
  have hdemand := demand_of_stop ha (by rwa [withoutHints_eq_self hcode])
  rw [hqueued] at hdemand
  exact ⟨hsettled, hdemand⟩

theorem stop_of_requiredAt (hcode : ∀ i ∈ code, ¬ i.isHint) (hctx : ctx.Settled)
    (h : requiredAt cost ctx code k ≠ .empty) :
    ∃ a x, (stops cost .empty ctx code)[k]? = some a ∧ code[k]? = some x ∧ a.pending.Settled ∧
      a.pending.demand .empty x = .ok a.required := by
  have ha : ∃ a, (stops cost .empty ctx code)[k]? = some a := by
    rw [← Option.ne_none_iff_exists']
    intro hnone
    rw [requiredAt, hnone] at h
    exact h rfl
  obtain ⟨a, ha⟩ := ha
  have hlen := length_stops_le cost .empty ctx code
  have hlt : k < (stops cost .empty ctx code).length := (List.getElem?_eq_some_iff.mp ha).1
  have hx : code[k]? = some (code[k]) := List.getElem?_eq_getElem (by omega)
  exact ⟨a, _, ha, hx, demand_of_plain hcode hctx hx ha⟩

theorem normalized_requiredAt (cost : Instr → Cost) (hcode : ∀ i ∈ code, ¬ i.isHint)
    (hctx : ctx.Settled) (k : Nat) :
    (requiredAt cost ctx code k).Normalized := by
  by_cases h : requiredAt cost ctx code k = .empty
  · rw [h]
    exact ⟨rfl⟩
  · obtain ⟨a, x, ha, -, hsettled, hdemand⟩ := stop_of_requiredAt hcode hctx h
    rw [requiredAt_of_stop ha]
    exact hsettled.normalized.demand ⟨rfl⟩ hdemand

theorem pending_head_stops (hcode : ∀ i ∈ code, ¬ i.isHint)
    (h : (stops cost q ctx code)[0]? = some a) : a.pending = ctx := by
  cases code with
  | nil => cases h
  | cons j rest =>
    cases hs : step cost q ctx j with
    | error f => simp [stops, hs] at h
    | ok out =>
      rw [stops_cons_of_not_isHint (hcode j List.mem_cons_self) hs] at h
      obtain rfl := Option.some.inj h
      rfl

/-- From each stop one step leads to the next. -/
theorem step_of_stops (hcode : ∀ i ∈ code, ¬ i.isHint) (hx : code[k]? = some x)
    (ha : (stops cost q ctx code)[k]? = some a) (hb : (stops cost q ctx code)[k + 1]? = some b) :
    step cost a.queued a.pending x = .ok (a.required, b.pending) := by
  induction code generalizing q ctx k with
  | nil => cases hx
  | cons j rest ih =>
    have hrest : ∀ i ∈ rest, ¬ i.isHint := fun i hi => hcode i (List.mem_cons_of_mem _ hi)
    cases hs : step cost q ctx j with
    | error f => simp [stops, hs] at ha
    | ok out =>
      rw [stops_cons_of_not_isHint (hcode j List.mem_cons_self) hs] at ha hb
      cases k with
      | zero =>
        obtain rfl := Option.some.inj ha
        obtain rfl := Option.some.inj hx
        have hpending : b.pending = out.2 := pending_head_stops hrest hb
        rw [hpending]
        exact hs
      | succ k => exact ih hrest hx ha hb

/-- Each stop of plain code but the first is one step away from the stop before, where nothing is
queued. -/
theorem step_of_plain (hcode : ∀ i ∈ code, ¬ i.isHint) (hctx : ctx.Settled)
    (hb : (stops cost .empty ctx code)[k + 1]? = some b) :
    ∃ a x, (stops cost .empty ctx code)[k]? = some a ∧ code[k]? = some x ∧ a.pending.Settled ∧
      a.required.Normalized ∧
      step cost .empty a.pending x = .ok (a.required, b.pending) := by
  have hlt : k + 1 < (stops cost .empty ctx code).length := (List.getElem?_eq_some_iff.mp hb).1
  have hlen := length_stops_le cost .empty ctx code
  have ha := List.getElem?_eq_getElem (Nat.lt_of_succ_lt hlt)
  have hx : code[k]? = some (code[k]) := List.getElem?_eq_getElem (by omega)
  obtain ⟨hqueued, hsettled⟩ := queued_of_plain hcode hctx (List.mem_of_getElem? ha)
  have hstep := step_of_stops hcode hx ha hb
  rw [hqueued] at hstep
  have hnormal := normalized_requiredAt cost hcode hctx k
  rw [requiredAt_of_stop ha] at hnormal
  exact ⟨_, _, ha, hx, hsettled, hnormal, hstep⟩

theorem Run.exists_stop {out : List Instr} {last : Pending} (h : Run cost .empty ctx code out last)
    (hcode : ∀ i ∈ code, ¬ i.isHint) (hx : code[k]? = some x) :
    ∃ a, (stops cost .empty ctx code)[k]? = some a := by
  have hlen := h.length_stops
  rw [withoutHints_eq_self hcode] at hlen
  have hlt : k < code.length := (List.getElem?_eq_some_iff.mp hx).1
  exact ⟨_, List.getElem?_eq_getElem (by omega)⟩

/-- In the new code each instruction has the hint for what it requires in front of it. -/
theorem Run.slot_requiredAt {out : List Instr} {last : Pending}
    (h : Run cost .empty ctx code out last) (hcode : ∀ i ∈ code, ¬ i.isHint)
    (hx : code[k]? = some x) :
    (slots none out)[k]? = some ((requiredAt cost ctx code k).hint?, x) := by
  obtain ⟨a, ha⟩ := h.exists_stop hcode hx
  rw [requiredAt_of_stop ha]
  exact h.slot_iff.mpr ⟨a, ha, by rwa [withoutHints_eq_self hcode], rfl⟩

end Scan

/-- A transcendental, a vector and a scalar result, and an instruction that reads all three. -/
def mixedReads : List Instr :=
  let reads : List Reg := [⟨256, by decide⟩, ⟨257, by decide⟩, ⟨0, by decide⟩]
  [.unary .vRcpF32 257 267, .unary .vMovB32 256 266, .unary .sMovB32 0 5,
    { opcode := .vFmaF32, defs := [⟨⟨258, by decide⟩, 1, Nat.one_pos⟩]
      operands := reads.map fun r => .reg ⟨r, 1, Nat.one_pos⟩ }]

/-- The cost of an instruction by its class alone. -/
def classCost (i : Instr) : Cost := CycleModel.gfx11Cost i.pipe

end DelayHint

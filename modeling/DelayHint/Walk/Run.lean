import DelayHint.Total
import DelayHint.Walk.Basic

/-! The walk ends. A scan uses up capacity: a block is visited for the first time, or the results
pending at its start became stricter. A way back lowers the loop progress, and every other step
comes closer to the end of the program. -/
namespace DelayHint

namespace Pending

/-- How often the entry of a register can still become stricter. An untracked register can also
become tracked. -/
def roomAt (ctx : Pending) (r : Reg) : Nat := ((ctx.get? r).map Requirement.room).getD 1276

def room (ctx : Pending) : Nat := total ctx.roomAt (List.finRange 512)

theorem roomAt_join_le (a b : Pending) (r : Reg) : roomAt (a.join b) r ≤ a.roomAt r := by
  simp only [roomAt, get?_join]
  cases a.get? r with
  | none =>
    cases b.get? r with
    | none => simp
    | some v =>
      have := v.room_le
      simp only [Option.merge_none_left, Option.map_some, Option.getD_some, Option.map_none,
        Option.getD_none]
      omega
  | some u =>
    cases b.get? r with
    | none => simp
    | some v => simpa using Requirement.room_join_le u v

theorem room_join_le (a b : Pending) : room (a.join b) ≤ a.room :=
  total_le fun r _ => roomAt_join_le a b r

/-- Where a context becomes stricter, some register has less room. -/
theorem exists_room_lt {a b : Pending} (h : a.tightenedBy b) :
    ∃ r q, (a.join b).get? r = some q ∧ q.room < a.roomAt r := by
  obtain ⟨r, v, hv, hu⟩ := RegMap.changes_iff.mp h
  cases ha : a.get? r with
  | none =>
    have := v.room_le
    refine ⟨r, v, by rw [get?_join, ha, hv, Option.merge_none_left], ?_⟩
    rw [roomAt, ha, Option.map_none, Option.getD_none]
    omega
  | some u =>
    refine ⟨r, u.join v, by rw [get?_join, ha, hv, Option.merge_some_some], ?_⟩
    rw [roomAt, ha, Option.map_some, Option.getD_some]
    exact Requirement.room_join_lt (hu u ha)

theorem roomAt_of_get? {ctx : Pending} {r : Reg} {q : Requirement} (h : ctx.get? r = some q) :
    ctx.roomAt r = q.room := by
  rw [roomAt, h, Option.map_some, Option.getD_some]

theorem room_join_lt {a b : Pending} (h : a.tightenedBy b) : room (a.join b) < a.room := by
  obtain ⟨r, q, hq, hlt⟩ := exists_room_lt h
  refine total_lt (fun r _ => roomAt_join_le a b r) (List.mem_finRange r) ?_
  rw [roomAt_of_get? hq]
  exact hlt

end Pending

/-- How often a block can still be scanned. -/
def Cell.capacity (c : Cell) : Nat := (if c.visited then 0 else 1) + c.entry.room

namespace Walk

def capacity (s : Walk) : Nat := total Cell.capacity s.cells

theorem room_gather {cells : List Cell} {preds : List Nat} {ctx entry : Pending} {changed : Bool}
    (h : gather cells ctx preds = .ok (entry, changed)) :
    entry.room ≤ ctx.room ∧ (changed → entry.room < ctx.room) := by
  induction preds generalizing ctx entry changed with
  | nil =>
    cases h
    simp
  | cons p rest ih =>
    obtain ⟨c, later, -, hg, rfl⟩ := gather_cons h
    obtain ⟨hle, hlt⟩ := ih hg
    have hj := Pending.room_join_le ctx c.exit
    refine ⟨Nat.le_trans hle hj, fun hc => ?_⟩
    rcases Bool.or_eq_true_iff.mp hc with hc | hc
    · exact Nat.lt_of_le_of_lt hle (Pending.room_join_lt hc)
    · exact Nat.lt_of_lt_of_le (hlt hc) hj

private theorem progress_arrive_le {loops loops' : LoopStack} {b : Block} {back : Option Nat}
    (h : arrive loops b = .ok (back, loops')) : loops'.progress ≤ loops.progress := by
  unfold arrive at h
  split at h
  · cases h
    exact Nat.le_refl _
  · split at h
    · exact LoopStack.progress_leave_le h
    · cases h
      exact Nat.le_refl _

private theorem progress_arrive_lt {loops loops' : LoopStack} {b : Block} {header : Nat}
    (h : arrive loops b = .ok (some header, loops')) : loops'.progress < loops.progress := by
  unfold arrive at h
  split at h
  · cases h
  · split at h
    · exact LoopStack.progress_leave_lt h
    · cases h

/-- The order in which a walk comes closer to its end. -/
abbrev Closer : Nat × Nat × Nat → Nat × Nat × Nat → Prop :=
  Prod.Lex (· < ·) (Prod.Lex (· < ·) (· < ·))

abbrev remaining (s : Walk) : Nat × Nat × Nat :=
  (s.capacity, s.loops.progress, s.cells.length - s.pos)

private theorem closer_of_progress {c p p' d d' : Nat} (hp : p' ≤ p) (hd : d' < d) :
    Closer (c, p', d') (c, p, d) := by
  rcases Nat.lt_or_eq_of_le hp with h | rfl
  · exact .right _ (.left _ _ h)
  · exact .right _ (.right _ hd)

theorem remaining_step {cost : Instr → Cost} {s t : Walk} {cell : Cell}
    (hc : s.cells[s.pos]? = some cell) (h : step cost s cell = .ok t) :
    Closer t.remaining s.remaining := by
  have hpos : s.pos < s.cells.length := (List.getElem?_eq_some_iff.mp hc).1
  have hnext : s.cells.length - (s.pos + 1) < s.cells.length - s.pos := by omega
  cases step_of_eq_ok h with
  | discard => exact .right _ (.right _ hnext)
  | back _ _ ha => exact .right _ (.left _ _ (progress_arrive_lt ha))
  | idle _ _ ha _ _ => exact closer_of_progress (progress_arrive_le ha) hnext
  | visit _ _ _ hg hv _ =>
    refine .left _ _ (total_set_lt hc ?_)
    obtain ⟨hle, hlt⟩ := room_gather hg
    simp only [Cell.capacity, if_true]
    by_cases hcv : cell.visited
    · have := hlt (hv hcv)
      simp only [hcv, if_true]
      omega
    · simp only [hcv, Bool.false_eq_true, if_false]
      omega

def run (cost : Instr → Cost) (s : Walk) : Except Fault Walk :=
  match _hc : s.cells[s.pos]? with
  | none => .ok s
  | some cell =>
    match _h : step cost s cell with
    | .error f => .error f
    | .ok t => run cost t
termination_by s.remaining
decreasing_by exact remaining_step (by assumption) (by assumption)

theorem run_of_end {cost : Instr → Cost} {s : Walk} (hc : s.cells[s.pos]? = none) :
    run cost s = .ok s := by
  rw [run]
  split
  · rfl
  · rename_i hc'
    cases hc.symm.trans hc'

theorem run_of_step {cost : Instr → Cost} {s : Walk} {cell : Cell}
    (hc : s.cells[s.pos]? = some cell) : run cost s = (step cost s cell).bind (run cost) := by
  rw [run]
  split
  · rename_i hc'
    cases hc.symm.trans hc'
  · rename_i cell' hc'
    obtain rfl : cell = cell' := Option.some.inj (hc.symm.trans hc')
    split
    · rename_i hs
      rw [hs, Except.bind]
    · rename_i hs
      rw [hs, Except.bind]

/-- What every step keeps holds at the end. -/
theorem run_induction {cost : Instr → Cost} {motive : Walk → Prop} {s t : Walk}
    (hs : motive s) (hstep : ∀ s t cell, motive s → s.cells[s.pos]? = some cell →
      Step cost s cell t → motive t) (h : run cost s = .ok t) :
    motive t ∧ t.cells[t.pos]? = none := by
  fun_induction run cost s with
  | case1 s hc =>
    cases h
    exact ⟨hs, hc⟩
  | case2 => cases h
  | case3 s cell hc u hu ih => exact ih (hstep s u cell hs hc (step_of_eq_ok hu)) h

end Walk

end DelayHint

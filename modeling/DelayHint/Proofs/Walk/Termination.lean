import DelayHint.Proofs.Pending.Normal
import DelayHint.Proofs.Walk.History

/-! Every walk ends, and how often it scans a block is bounded. A scan of a block that was scanned
before tightens what is pending at its start, and in a normal context an entry can be tightened 390
times after it was added. -/
namespace DelayHint

theorem Requirement.Normal.room_range {q : Requirement} (h : q.Normal) :
    256 ≤ q.room ∧ q.room ≤ 646 := by
  obtain ⟨hv, ht, hc, -, -, -⟩ := h
  simp only [room, roomBelow, roomAbove]
  omega

namespace Pending

/-- How often the entry of a register in a normal context can still be added or tightened. -/
def slackAt (ctx : Pending) (r : Reg) : Nat := min (ctx.roomAt r) 647 - 256

/-- How often a normal context can still be tightened. -/
def slack (ctx : Pending) : Nat := total ctx.slackAt (List.finRange 512)

theorem slack_join_le (a b : Pending) : slack (a.join b) ≤ a.slack := by
  refine total_le fun r _ => ?_
  have := roomAt_join_le a b r
  unfold slackAt
  omega

theorem slack_join_lt {a b : Pending} (ha : a.Normal) (hb : b.Normal) (h : a.tightenedBy b) :
    slack (a.join b) < a.slack := by
  obtain ⟨r, q, hq, hlt⟩ := exists_room_lt h
  obtain ⟨hlo, hhi⟩ := ((ha.join hb) r q hq).room_range
  refine total_lt (fun r _ => ?_) (List.mem_finRange r) ?_
  · have := roomAt_join_le a b r
    unfold slackAt
    omega
  · have hj : roomAt (a.join b) r = q.room := roomAt_of_get? hq
    unfold slackAt
    omega

end Pending

theorem Pending.slack_empty : Pending.slack RegMap.empty = 512 * 391 := by
  have hall : ∀ r ∈ List.finRange 512, Pending.slackAt RegMap.empty r = 391 := by
    intro r _
    unfold slackAt roomAt
    rw [RegMap.get?_empty, Option.map_none, Option.getD_none]
    omega
  rw [Pending.slack, total_eq_mul hall, List.length_finRange]

/-- How often a block can still be scanned. -/
def Cell.allowance (c : Cell) : Nat := (if c.visited then 0 else 1) + c.entry.slack

/-- Both contexts of a block are normal. -/
def Cell.Normal (c : Cell) : Prop := c.entry.Normal ∧ c.exit.Normal

namespace Walk

variable {cost : Instr → Cost} {blocks : List Block} {s t : Walk} {cell : Cell}

theorem slack_gather {cells : List Cell} {preds : List Nat} {ctx entry : Pending} {changed : Bool}
    (hcells : ∀ c ∈ cells, c.Normal) (hctx : ctx.Normal)
    (h : gather cells ctx preds = .ok (entry, changed)) :
    entry.Normal ∧ entry.slack ≤ ctx.slack ∧ (changed → entry.slack < ctx.slack) := by
  induction preds generalizing ctx entry changed with
  | nil =>
    cases h
    exact ⟨hctx, Nat.le_refl _, by simp⟩
  | cons p rest ih =>
    obtain ⟨c, later, hc, hg, rfl⟩ := gather_cons h
    have hexit := (hcells c (List.mem_of_getElem? hc)).2
    obtain ⟨hn, hle, hlt⟩ := ih (hctx.join hexit) hg
    have hj := Pending.slack_join_le ctx c.exit
    refine ⟨hn, Nat.le_trans hle hj, fun hc => ?_⟩
    rcases Bool.or_eq_true_iff.mp hc with hc | hc
    · exact Nat.lt_of_le_of_lt hle (Pending.slack_join_lt hctx hexit hc)
    · exact Nat.lt_of_lt_of_le (hlt hc) hj

/-- The number of scans so far. -/
def numVisits (s : Walk) : Nat := (s.events.toList.filterMap Event.visit?).length

/-- All contexts are normal, and the scans so far and those still possible are within bounds. -/
structure Budgeted (bound : Nat) (s : Walk) : Prop where
  normal : ∀ c ∈ s.cells, c.Normal
  visits_le : s.numVisits + total Cell.allowance s.cells ≤ bound

theorem budgeted_start (blocks : List Block) :
    Budgeted (blocks.length * (1 + 512 * 391)) (start blocks) := by
  have hfresh : ∀ c ∈ (start blocks).cells, ∃ b, c = { block := b } := by
    intro c hc
    obtain ⟨b, -, rfl⟩ := List.mem_map.mp hc
    exact ⟨b, rfl⟩
  constructor
  · intro c hc
    obtain ⟨b, rfl⟩ := hfresh c hc
    exact ⟨Pending.normal_empty, Pending.normal_empty⟩
  · have hone : ∀ c ∈ (start blocks).cells, c.allowance = 1 + 512 * 391 := by
      intro c hc
      obtain ⟨b, rfl⟩ := hfresh c hc
      rw [Cell.allowance, Pending.slack_empty]
      rfl
    have hlen : (start blocks).cells.length = blocks.length := List.length_map ..
    have hnone : (start blocks).numVisits = 0 := rfl
    have htotal : total Cell.allowance (start blocks).cells = blocks.length * (1 + 512 * 391) := by
      rw [total_eq_mul hone, hlen]
    omega

private theorem numVisits_push_loopAgain (s : Walk) (exit header : Nat) (loops : LoopStack)
    (pos : Nat) :
    numVisits { s with loops, pos, events := s.events.push (.loopAgain exit header) } =
      s.numVisits := by
  simp [numVisits, Event.visit?]

private theorem numVisits_push_scan (s : Walk) (v : Visit) (cells : List Cell) (loops : LoopStack)
    (pos : Nat) :
    numVisits { s with cells, loops, pos, events := s.events.push (.scan v) } =
      s.numVisits + 1 := by
  simp [numVisits, Event.visit?]

/-- A scan is paid for: by the block's first scan, or because what is pending at its start got
tighter. -/
theorem Budgeted.step {bound : Nat} (hs : Budgeted bound s) (hc : s.cells[s.pos]? = some cell)
    (h : Step cost s cell t) : Budgeted bound t := by
  obtain ⟨hn, hle⟩ := hs
  cases h with
  | discard => exact ⟨hn, hle⟩
  | idle => exact ⟨hn, hle⟩
  | back => exact ⟨hn, by rw [numVisits_push_loopAgain]; exact hle⟩
  | @visit _ _ _ entry exit changed instrs _ hg hv hscan =>
    have hcell : cell.Normal := hn cell (List.mem_of_getElem? hc)
    obtain ⟨hentry, hsl, hlt⟩ := slack_gather hn hcell.1 hg
    have hexit : exit.Normal := Scan.normal_block hscan hentry
    constructor
    · intro c hmem
      rcases List.mem_or_eq_of_mem_set hmem with hmem | rfl
      · exact hn c hmem
      · exact ⟨hentry, hexit⟩
    · have hpaid : Cell.allowance
          { block := { cell.block with instrs }, entry, exit, visited := true } <
          cell.allowance := by
        simp only [Cell.allowance, if_true]
        by_cases hcv : cell.visited
        · have := hlt (hv hcv)
          simp only [hcv, if_true]
          omega
        · simp only [hcv, Bool.false_eq_true, if_false]
          omega
      have htotal := total_set_lt hc hpaid
      rw [numVisits_push_scan]
      show s.numVisits + 1 + total Cell.allowance (s.cells.set s.pos _) ≤ bound
      omega

theorem run_budgeted (h : run cost (start blocks) = .ok t) :
    Budgeted (blocks.length * (1 + 512 * 391)) t :=
  (start_induction (budgeted_start blocks) (fun _ hs hc hstep => hs.step hc hstep) h).1

end Walk

/-- Insertion ends on every program: some number of rounds is enough for the walk, it gives up with
a fault or comes to the end of the blocks, and then it has scanned no block too often. -/
theorem Program.insertHints_ends (p : Program) :
    (∃ rounds, Walk.runWithin p.cost rounds (Walk.start p.blocks) =
      some (Walk.run p.cost (Walk.start p.blocks))) ∧
    (∀ w, Walk.run p.cost (Walk.start p.blocks) = .ok w → p.blocks.length ≤ w.pos) ∧
    ∀ r, p.insertHints = .ok r → r.visits.length ≤ p.blocks.length * (1 + 512 * 391) := by
  refine ⟨Walk.exists_runWithin _ _, fun w hw => ?_, fun r hr => ?_⟩
  · obtain ⟨-, -, hend⟩ := Walk.start_induction (motive := fun _ => True) trivial
      (fun _ _ _ _ => trivial) hw
    exact hend
  · obtain ⟨w, hw, rfl⟩ := insertHints_eq_ok.mp hr
    have hle := (Walk.run_budgeted hw).visits_le
    show w.numVisits ≤ _
    omega

theorem insertHints_ends_nestedLoops : ∃ r, nestedLoops.insertHints = .ok r ∧
    8 < r.visits.length ∧ r.visits.length ≤ 6 * (1 + 512 * 391) := by
  obtain ⟨r, hr, hv⟩ := Program.exists_insertHints (p := nestedLoops) (n := 40)
    (P := fun r => decide (8 < r.visits.length)) (by decide +kernel)
  obtain ⟨-, -, hle⟩ := nestedLoops.insertHints_ends
  exact ⟨r, hr, of_decide_eq_true hv, hle r hr⟩

end DelayHint

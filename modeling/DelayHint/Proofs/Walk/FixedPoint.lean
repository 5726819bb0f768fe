import DelayHint.Proofs.Pending.Join
import DelayHint.Proofs.Walk.History

/-! The walk ends at a fixed point. Behind every block the walk has passed, what is pending at its
start covers what is pending at the end of its predecessors, or the block heads an open loop in
which something has changed since. Such a loop is walked again, and at the end no loop is open. -/
namespace DelayHint

namespace LoopStack

/-- The headers of the open loops in which something has changed since they were entered. -/
def changedLoops (s : LoopStack) : List Nat := s.headers.drop (s.depth - s.progress)

/-- A change at the full depth is a change in every open loop. -/
private theorem changedLoops_processed {s : LoopStack} (h : s.progress ≤ s.depth) :
    (s.processed s.depth).changedLoops = s.headers := by
  simp only [changedLoops, processed, depth] at h ⊢
  rw [Nat.max_eq_right h, Nat.sub_self, List.drop_zero]

private theorem changedLoops_enter {s : LoopStack} (h : s.progress ≤ s.depth) (header : Nat) :
    (s.enter header).changedLoops = s.changedLoops := by
  simp only [changedLoops, enter, depth, List.length_cons] at h ⊢
  rw [Nat.succ_sub h, List.drop_succ_cons]

/-- Leaving a loop for good: nothing has changed in it. -/
private theorem leave_none {s t : LoopStack} (hp : s.progress ≤ s.depth)
    (h : s.leave = .ok (none, t)) :
    t.changedLoops = s.changedLoops ∧ t.progress ≤ t.depth := by
  unfold leave at h
  split at h
  · cases h
  · rename_i header rest hs
    split at h
    · cases h
    · rename_i hne
      cases h
      rw [depth, hs, List.length_cons] at hp hne
      have hle : s.progress ≤ rest.length := by omega
      refine ⟨?_, Nat.min_le_right ..⟩
      simp only [changedLoops, depth, hs, List.length_cons, Nat.min_eq_left hle]
      rw [Nat.succ_sub hle, List.drop_succ_cons]

/-- Leaving a loop to walk it again: something has changed in every loop around it. -/
private theorem leave_some {s t : LoopStack} {header : Nat} (h : s.leave = .ok (some header, t)) :
    s.headers = header :: t.headers ∧ t.progress = t.depth := by
  unfold leave at h
  split at h
  · cases h
  · rename_i head rest hs
    split at h
    · rename_i hd
      cases h
      refine ⟨hs, ?_⟩
      rw [depth, hs, List.length_cons] at hd
      simp only [depth]
      omega
    · cases h

end LoopStack

namespace Walk

variable {loops loops' : LoopStack} {b : Block}

private theorem nest_of_arrive {back : Option Nat} (hd : ¬ b.isDiscardExit)
    (h : arrive loops b = .ok (back, loops')) : b.nest loops.headers = some loops'.headers := by
  rw [Bool.not_eq_true] at hd
  unfold arrive at h
  simp only [Block.nest, hd, Bool.false_eq_true, if_false]
  split at h
  · rename_i hh
    cases h
    simp [hh, LoopStack.enter]
  · rename_i hh
    split at h
    · rename_i he
      unfold LoopStack.leave at h
      split at h
      · cases h
      · rename_i hs
        cases h
        simp [hh, he, hs]
    · rename_i he
      cases h
      simp [hh, he]

private theorem arrive_none (hp : loops.progress ≤ loops.depth)
    (h : arrive loops b = .ok (none, loops')) :
    loops'.changedLoops = loops.changedLoops ∧ loops'.progress ≤ loops'.depth := by
  unfold arrive at h
  split at h
  · cases h
    exact ⟨LoopStack.changedLoops_enter hp _, Nat.le_succ_of_le hp⟩
  · split at h
    · exact LoopStack.leave_none hp h
    · cases h
      exact ⟨rfl, hp⟩

theorem arrive_some {header : Nat} (h : arrive loops b = .ok (some header, loops')) :
    loops.headers = header :: loops'.headers ∧ loops'.progress = loops'.depth := by
  unfold arrive at h
  split at h
  · cases h
  · split at h
    · exact LoopStack.leave_some h
    · cases h

variable {cells : List Cell} {preds : List Nat} {ctx entry : Pending} {changed : Bool}

/-- Gathering covers the context it starts from and what is pending behind each predecessor. -/
theorem covers_of_gather (h : gather cells ctx preds = .ok (entry, changed)) :
    entry.Covers ctx ∧ ∀ q ∈ preds, ∀ {c}, cells[q]? = some c → entry.Covers c.exit := by
  induction preds generalizing ctx entry changed with
  | nil =>
    cases h
    exact ⟨Pending.covers_self _, by simp⟩
  | cons p rest ih =>
    obtain ⟨d, later, hd, hg, rfl⟩ := gather_cons h
    obtain ⟨hctx, hrest⟩ := ih hg
    obtain ⟨hstart, hfirst⟩ := hctx.of_join
    refine ⟨hstart, fun q hq c hc => ?_⟩
    rcases List.mem_cons.mp hq with rfl | hq
    · obtain rfl : d = c := Option.some.inj (hd.symm.trans hc)
      exact hfirst
    · exact hrest q hq hc

theorem eq_of_gather_unchanged (h : gather cells ctx preds = .ok (entry, false)) : entry = ctx := by
  induction preds generalizing ctx with
  | nil =>
    cases h
    rfl
  | cons p rest ih =>
    obtain ⟨d, later, -, hg, hc⟩ := gather_cons h
    obtain ⟨ht, rfl⟩ := Bool.or_eq_false_iff.mp hc.symm
    rw [ih hg]
    exact Pending.covers_iff_not_tightenedBy.mpr ht

/-- What holds of a walk over a structured layout in front of every block it comes to. -/
structure Settling (blocks : List Block) (s : Walk) : Prop where
  nest : openLoops blocks s.pos = some s.loops.headers
  progress_le : s.loops.progress ≤ s.loops.depth
  visited : ∀ {pos : Nat} {b : Block} {c : Cell}, pos < s.pos → blocks[pos]? = some b →
    ¬ b.isDiscardExit → s.cells[pos]? = some c → c.visited
  covers : ∀ {pos q : Nat} {b : Block} {c d : Cell}, pos < s.pos → blocks[pos]? = some b →
    ¬ b.isDiscardExit → q ∈ b.preds → s.cells[pos]? = some c → s.cells[q]? = some d →
    c.entry.Covers d.exit ∨ pos ∈ s.loops.changedLoops

theorem settling_start (blocks : List Block) : Settling blocks (start blocks) where
  nest := openLoops_zero blocks
  progress_le := Nat.le_refl 0
  visited h := absurd h (Nat.not_lt_zero _)
  covers h := absurd h (Nat.not_lt_zero _)

variable {cost : Instr → Cost} {blocks : List Block} {s t : Walk} {cell : Cell}

theorem Settling.discard (hs : Settling blocks s) (hb : blocks[s.pos]? = some b)
    (hd : b.isDiscardExit) : Settling blocks { s with pos := s.pos + 1 } := by
  have hpos {pos : Nat} {b' : Block} (hlt : pos < s.pos + 1) (hb' : blocks[pos]? = some b')
      (hd' : ¬ b'.isDiscardExit) : pos < s.pos := by
    rcases Nat.lt_succ_iff_lt_or_eq.mp hlt with h | rfl
    · exact h
    · obtain rfl : b = b' := Option.some.inj (hb.symm.trans hb')
      exact absurd hd hd'
  constructor
  · rw [openLoops_succ hb, hs.nest]
    simp [Block.nest, hd]
  · exact hs.progress_le
  · intro pos b' c hlt hb' hd'
    exact hs.visited (hpos hlt hb' hd') hb' hd'
  · intro pos q b' c d hlt hb' hd'
    exact hs.covers (hpos hlt hb' hd') hb' hd'

/-- Only the blocks in front of the header count now, and all loops around it have changed. -/
theorem Settling.back (hs : Settling blocks s) (hst : Structured blocks) {header : Nat}
    (ha : arrive s.loops cell.block = .ok (some header, loops)) (events : Array Event) :
    Settling blocks { s with loops, pos := header, events } := by
  obtain ⟨hh, hp⟩ := arrive_some ha
  have hnest : openLoops blocks s.pos = some ([] ++ header :: loops.headers) := by
    rw [hs.nest, hh, List.nil_append]
  obtain ⟨hlt, hout⟩ := openLoops_header hst.index_eq hnest
  constructor
  · exact hout
  · exact Nat.le_of_eq hp
  · intro pos b' c hlt'
    exact hs.visited (Nat.lt_trans hlt' hlt)
  · intro pos q b' c d hlt' hb' hd' hq hc hdq
    refine (hs.covers (Nat.lt_trans hlt' hlt) hb' hd' hq hc hdq).imp_right fun hmem => ?_
    have hmem' : pos ∈ header :: loops.headers := hh ▸ List.mem_of_mem_drop hmem
    have hall : loops.changedLoops = loops.headers := by
      rw [LoopStack.changedLoops, hp, Nat.sub_self, List.drop_zero]
    rw [hall]
    exact (List.mem_cons.mp hmem').resolve_left (Nat.ne_of_lt hlt')

/-- A walk that stands in the open loops of the layout does so behind the next block as well. -/
theorem openLoops_arrive (hn : openLoops blocks s.pos = some s.loops.headers)
    (hb : blocks[s.pos]? = some b) (hcell : cell.block.shape = b.shape)
    (hd : ¬ cell.block.isDiscardExit) {back : Option Nat}
    (ha : arrive s.loops cell.block = .ok (back, loops)) :
    openLoops blocks (s.pos + 1) = some loops.headers := by
  rw [openLoops_succ hb, hn, Option.bind_some, ← Block.nest_congr hcell]
  exact nest_of_arrive hd ha

theorem Settling.idle (hs : Settling blocks s) (hb : blocks[s.pos]? = some b)
    (hc : s.cells[s.pos]? = some cell) (hcell : cell.block.shape = b.shape)
    (hd : ¬ cell.block.isDiscardExit) (ha : arrive s.loops cell.block = .ok (none, loops))
    (hg : gather s.cells cell.entry cell.block.preds = .ok (entry, false)) (hv : cell.visited) :
    Settling blocks { s with loops, pos := s.pos + 1 } := by
  obtain ⟨hsame, hp⟩ := arrive_none hs.progress_le ha
  constructor
  · exact openLoops_arrive hs.nest hb hcell hd ha
  · exact hp
  · intro pos b' c hlt hb' hd' hc'
    rcases Nat.lt_succ_iff_lt_or_eq.mp hlt with h | rfl
    · exact hs.visited h hb' hd' hc'
    · obtain rfl : cell = c := Option.some.inj (hc.symm.trans hc')
      exact hv
  · intro pos q b' c d hlt hb' hd' hq hc' hdq
    rcases Nat.lt_succ_iff_lt_or_eq.mp hlt with h | rfl
    · exact hsame ▸ hs.covers h hb' hd' hq hc' hdq
    · obtain rfl : cell = c := Option.some.inj (hc.symm.trans hc')
      obtain rfl : b = b' := Option.some.inj (hb.symm.trans hb')
      obtain ⟨-, -, -, hpreds, -⟩ := Block.shape_eq_iff.mp hcell
      have hcov := (covers_of_gather hg).2 q (hpreds ▸ hq) hdq
      rw [eq_of_gather_unchanged hg] at hcov
      exact .inl hcov

/-- The end of the visited block is new, and it can only lead back to the header of an open loop. -/
theorem Settling.visit (hs : Settling blocks s) (hst : Structured blocks)
    (hb : blocks[s.pos]? = some b) (hc : s.cells[s.pos]? = some cell)
    (hcell : cell.block.shape = b.shape) (hd : ¬ cell.block.isDiscardExit)
    (ha : arrive s.loops cell.block = .ok (none, loops))
    (hg : gather s.cells cell.entry cell.block.preds = .ok (entry, changed))
    (exit : Pending) (instrs : List Instr) (events : Array Event) :
    Settling blocks {
      cells := s.cells.set s.pos
        { block := { cell.block with instrs }, entry, exit, visited := true }
      loops := loops.processed cell.block.depth
      pos := s.pos + 1
      events } := by
  obtain ⟨hsame, hp⟩ := arrive_none hs.progress_le ha
  obtain ⟨hlt, rfl⟩ := List.getElem?_eq_some_iff.mp hb
  obtain ⟨-, -, hdepth, hpreds, -⟩ := Block.shape_eq_iff.mp hcell
  have hnest := openLoops_arrive hs.nest hb hcell hd ha
  have hdeep : cell.block.depth = loops.depth := by
    have h := hst.depth_eq s.pos hlt (Block.isDiscardExit_congr hcell ▸ hd)
    rw [hnest] at h
    rw [hdepth]
    exact (Option.some.inj h).symm
  have hall : (loops.processed cell.block.depth).changedLoops = loops.headers := by
    rw [hdeep, LoopStack.changedLoops_processed hp]
  have hcells (pos : Nat) (hne : s.pos ≠ pos) (c : Cell) :
      (s.cells.set s.pos c)[pos]? = s.cells[pos]? := List.getElem?_set_ne hne
  constructor
  · exact hnest
  · simp only [hdeep, LoopStack.processed, LoopStack.depth] at hp ⊢
    omega
  · intro pos b' c hlt' hb' hd' hc'
    by_cases he : s.pos = pos
    · subst he
      rw [List.getElem?_set_self (List.getElem?_eq_some_iff.mp hc).1] at hc'
      cases hc'
      rfl
    · rw [hcells pos he] at hc'
      exact hs.visited (by simp only at hlt'; omega) hb' hd' hc'
  · intro pos q b' c d hlt' hb' hd' hq hc' hdq
    simp only [hall] at hlt' ⊢
    by_cases heq : s.pos = q
    · subst heq
      obtain ⟨hlt'', rfl⟩ := List.getElem?_eq_some_iff.mp hb'
      obtain ⟨headers, hh, hmem⟩ := hst.inside pos hlt'' s.pos hq (by omega)
      rw [Option.mem_def, hnest] at hh
      exact .inr (Option.some.inj hh ▸ hmem)
    · rw [hcells q heq] at hdq
      by_cases he : s.pos = pos
      · subst he
        obtain rfl := Option.some.inj (hb.symm.trans hb')
        rw [List.getElem?_set_self (List.getElem?_eq_some_iff.mp hc).1] at hc'
        cases hc'
        exact .inl ((covers_of_gather hg).2 q (hpreds ▸ hq) hdq)
      · rw [hcells pos he] at hc'
        refine (hs.covers (by omega) hb' hd' hq hc' hdq).imp_right fun hmem => ?_
        rw [← hsame] at hmem
        exact List.mem_of_mem_drop hmem

theorem Settling.step (hs : Settling blocks s) (ht : Tracked cost blocks s)
    (hst : Structured blocks) (hc : s.cells[s.pos]? = some cell) (h : Step cost s cell t) :
    Settling blocks t := by
  obtain ⟨b, hb, hr⟩ := ht.current hc
  have hcell := hr.shape_eq
  cases h with
  | discard _ hd => exact hs.discard hb (Block.isDiscardExit_congr hcell ▸ hd)
  | back _ _ ha => exact hs.back hst ha _
  | idle _ hd ha hg hv => exact hs.idle hb hc hcell hd ha hg hv
  | visit _ hd ha hg _ _ => exact hs.visit hst hb hc hcell hd ha hg _ _ _

/-- At the end of a walk over a structured layout, every block has been scanned and covers its
predecessors: no loop is open any more. -/
theorem run_settled (hst : Structured blocks) (h : run cost (start blocks) = .ok t) {pos : Nat}
    (hb : blocks[pos]? = some b) (hd : ¬ b.isDiscardExit) :
    ∃ c, t.cells[pos]? = some c ∧ Recorded cost b (Event.visitsOf t.events.toList pos) c ∧
      c.visited ∧ ∀ q ∈ b.preds, ∃ e, t.cells[q]? = some e ∧ c.entry.Covers e.exit := by
  obtain ⟨hs, ht, hend⟩ := start_induction (settling_start blocks)
    (fun ht hs hc hstep => hs.step ht hst hc hstep) h
  have hnone : t.loops.headers = [] := by
    have hnest := hs.nest
    rw [openLoops_of_length_le hend, hst.closed] at hnest
    exact (Option.some.inj hnest).symm
  have hlt : pos < t.pos := Nat.lt_of_lt_of_le (List.getElem?_eq_some_iff.mp hb).1 hend
  obtain ⟨c, hc, hr⟩ := ht.recorded hb
  refine ⟨c, hc, hr, hs.visited hlt hb hd hc, fun q hq => ?_⟩
  have hqlt : q < blocks.length := hst.preds_lt b (List.mem_of_getElem? hb) q hq
  obtain ⟨e, he, -⟩ := ht.recorded (List.getElem?_eq_getElem hqlt)
  refine ⟨e, he, (hs.covers hlt hb hd hq hc he).resolve_right fun hmem => ?_⟩
  rw [LoopStack.changedLoops, hnone, List.drop_nil] at hmem
  cases hmem

end Walk

/-- Insertion ends at a fixed point. What is pending at the start of a block covers what is pending
behind each of its predecessors, and its last scan went from there to what is pending at its end. -/
theorem Program.insertHints_fixedPoint {p : Program} {r : Insertion} (hst : Structured p.blocks)
    (h : p.insertHints = .ok r) {pos : Nat} {b : Block} (hb : p.blocks[pos]? = some b)
    (hd : ¬ b.isDiscardExit) :
    ∃ entry exit v, r.entries[pos]? = some entry ∧ r.exits[pos]? = some exit ∧
      (∀ q ∈ b.preds, ∃ out, r.exits[q]? = some out ∧ entry.tightenedBy out = false ∧
        entry.join out = entry) ∧
      (r.visitsOf pos).getLast? = some v ∧ v.entry = entry ∧ v.exit = exit ∧
      Scan.block p.cost v.entry v.before = .ok (v.after, v.exit) := by
  obtain ⟨w, hw, rfl⟩ := insertHints_eq_ok.mp h
  obtain ⟨c, hc, hr, hv, hcovers⟩ := Walk.run_settled hst hw hb hd
  obtain ⟨v, hlast, hentry, hexit, -, hscan⟩ := hr.last_visit hv
  obtain ⟨-, hin, hout⟩ := Insertion.getElem?_ofWalk (p := p) hc
  refine ⟨c.entry, c.exit, v, hin, hout, fun q hq => ?_, hlast, hentry, hexit, hscan⟩
  obtain ⟨e, he, hcov⟩ := hcovers q hq
  obtain ⟨-, -, hpred⟩ := Insertion.getElem?_ofWalk (p := p) he
  exact ⟨e.exit, hpred, Pending.covers_iff_not_tightenedBy.mp hcov, hcov⟩

theorem insertHints_fixedPoint_nestedLoops : ∃ r entry v, nestedLoops.insertHints = .ok r ∧
    r.entries[2]? = some entry ∧ 1 < entry.size ∧ 1 < (r.visitsOf 2).length ∧
    (∃ out, r.exits[3]? = some out ∧ entry.tightenedBy out = false ∧ entry.join out = entry) ∧
    (r.visitsOf 2).getLast? = some v ∧ v.entry = entry := by
  obtain ⟨r, hr, hsome⟩ := Program.exists_insertHints (p := nestedLoops) (n := 40)
    (P := fun r => r.entries[2]?.any (1 < ·.size) && decide (1 < (r.visitsOf 2).length))
    (by decide +kernel)
  obtain ⟨hsize, hvisits⟩ := Bool.and_eq_true_iff.mp hsome
  obtain ⟨entry, exit, v, hentry, -, hpreds, hlast, hv, -⟩ :=
    Program.insertHints_fixedPoint structured_nestedBlocks hr
      (show nestedLoops.blocks[2]? = some _ from rfl) (by decide)
  rw [hentry] at hsize
  exact ⟨r, entry, v, hr, hentry, of_decide_eq_true hsize, of_decide_eq_true hvisits,
    hpreds 3 (by decide), hlast, hv⟩

end DelayHint

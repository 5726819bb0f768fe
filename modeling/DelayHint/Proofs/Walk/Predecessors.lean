import DelayHint.Proofs.Walk.Safety

/-! The order in which a block lists its predecessors makes no difference, nor does listing one of
them again. What is gathered at a block is the least context above its entry and the exits of its
predecessors, and the change flag says whether that is more than the entry. So two walks over blocks
with the same sets of predecessors go step by step together. -/
namespace DelayHint

theorem Pending.Within.antisymm {a b : Pending} (hab : a.Within b) (hba : b.Within a) : a = b :=
  calc a = a.join b := (join_eq_iff_within.mpr hba).symm
    _ = b.join a := join_comm a b
    _ = b := join_eq_iff_within.mpr hab

/-- The block with another list of predecessors. -/
def Block.withPreds (b : Block) (preds : List Nat) : Block := { b with preds }

/-- The program in which the block at each position has the predecessors that `preds` gives it. -/
def Program.withPreds (p : Program) (preds : Nat → List Nat) : Program :=
  { p with blocks := p.blocks.mapIdx fun pos b => b.withPreds (preds pos) }

/-- Positions of blocks, the same ones at each block as in the list that it has. -/
def SamePreds (preds : Nat → List Nat) (blocks : List Block) : Prop :=
  ∀ (pos : Nat) (b : Block), blocks[pos]? = some b →
    (∀ q ∈ b.preds, q < blocks.length) ∧ ∀ q, q ∈ preds pos ↔ q ∈ b.preds

def Cell.withPreds (c : Cell) (preds : List Nat) : Cell :=
  { c with block := c.block.withPreds preds }

namespace Walk

def withPreds (preds : Nat → List Nat) (s : Walk) : Walk :=
  { s with cells := s.cells.mapIdx fun pos c => c.withPreds (preds pos) }

variable {cost : Instr → Cost} {blocks : List Block} {s : Walk} {cell : Cell}
  {cells : List Cell} {ctx entry : Pending} {changed : Bool} {ps ps' : List Nat}
  {preds : Nat → List Nat}

/-- The change flag only says whether something was gathered that was not there. -/
theorem changed_iff (h : gather cells ctx ps = .ok (entry, changed)) :
    changed = true ↔ entry ≠ ctx := by
  constructor
  · intro hc he
    have hlt := (room_gather h).2 hc
    rw [he] at hlt
    exact Nat.lt_irrefl _ hlt
  · intro hne
    cases changed with
    | true => rfl
    | false => exact absurd (eq_of_gather_unchanged h) hne

/-- What is gathered from some blocks is within what is gathered from more of them. -/
theorem within_of_gather {entry' : Pending} {changed' : Bool} (hsub : ∀ q ∈ ps, q ∈ ps')
    (h : gather cells ctx ps = .ok (entry, changed))
    (h' : gather cells ctx ps' = .ok (entry', changed')) : entry.Within entry' := by
  obtain ⟨hctx, hexits⟩ := covers_of_gather h'
  refine gather_induction (J := fun a => a.Within entry') Pending.Within.join ?_ ?_ h
  · intro q hq c hc
    exact Pending.join_eq_iff_within.mp (hexits q (hsub q hq) hc)
  · exact Pending.join_eq_iff_within.mp hctx

theorem gather_congr (hin : ∀ q ∈ ps, q < cells.length) (hsame : ∀ q, q ∈ ps' ↔ q ∈ ps) :
    gather cells ctx ps' = gather cells ctx ps := by
  have hin' : ∀ q ∈ ps', q < cells.length := fun q hq => hin q ((hsame q).mp hq)
  obtain ⟨entry, changed, h⟩ := exists_gather ctx hin
  obtain ⟨entry', changed', h'⟩ := exists_gather ctx hin'
  have hentry : entry' = entry :=
    (within_of_gather (fun q hq => (hsame q).mp hq) h' h).antisymm
      (within_of_gather (fun q hq => (hsame q).mpr hq) h h')
  have hchanged : changed' = changed := by
    rw [Bool.eq_iff_iff, changed_iff h', changed_iff h, hentry]
  rw [h, h', hentry, hchanged]

private theorem getElem?_withPreds (preds : Nat → List Nat) (s : Walk) (pos : Nat) :
    (s.withPreds preds).cells[pos]? = (s.cells[pos]?).map fun c => c.withPreds (preds pos) :=
  List.getElem?_mapIdx

private theorem map_cells_withPreds {α : Type} {g : Cell → α}
    (hg : ∀ c ps, g (Cell.withPreds c ps) = g c) (preds : Nat → List Nat) (s : Walk) :
    (s.withPreds preds).cells.map g = s.cells.map g := by
  apply List.ext_getElem?
  intro pos
  rw [List.getElem?_map, getElem?_withPreds, Option.map_map, List.getElem?_map]
  exact congrArg (fun h => (s.cells[pos]?).map h) (funext fun c => hg c _)

theorem start_withPreds (preds : Nat → List Nat) (p : Program) :
    start (p.withPreds preds).blocks = (start p.blocks).withPreds preds := by
  rw [start, withPreds, start, mk.injEq]
  refine ⟨List.ext_getElem? fun pos => ?_, rfl, rfl, rfl⟩
  simp only [Program.withPreds, List.getElem?_map, List.getElem?_mapIdx, Option.map_map]
  rfl

/-- Gathering looks at the exits of other blocks only. -/
theorem gather_withPreds (preds : Nat → List Nat) (s : Walk) (ctx : Pending) (ps : List Nat) :
    gather (s.withPreds preds).cells ctx ps = gather s.cells ctx ps := by
  have hlen : (s.withPreds preds).cells.length = s.cells.length := List.length_mapIdx
  induction ps generalizing ctx with
  | nil => rfl
  | cons p rest ih =>
    simp only [gather, getElem?_withPreds, hlen]
    cases s.cells[p]? with
    | none => rfl
    | some c =>
      simp only [Option.map_some, ih]
      rfl

theorem scan_withPreds (preds : Nat → List Nat) (s : Walk) (cell : Cell) (loops : LoopStack)
    (entry : Pending) : scan cost (s.withPreds preds) (cell.withPreds (preds s.pos)) loops entry =
      (scan cost s cell loops entry).map (withPreds preds) := by
  unfold scan
  show (Scan.block cost entry cell.block.instrs >>= _) = _
  cases Scan.block cost entry cell.block.instrs with
  | error f => rfl
  | ok out =>
    show Except.ok _ = Except.ok _
    simp only [withPreds, List.mapIdx_set]
    rfl

theorem step_withPreds (hin : ∀ q ∈ cell.block.preds, q < s.cells.length)
    (hsame : ∀ q, q ∈ preds s.pos ↔ q ∈ cell.block.preds) :
    step cost (s.withPreds preds) (cell.withPreds (preds s.pos)) =
      (step cost s cell).map (withPreds preds) := by
  have hgather : gather (s.withPreds preds).cells (cell.withPreds (preds s.pos)).entry
      (cell.withPreds (preds s.pos)).block.preds = gather s.cells cell.entry cell.block.preds := by
    rw [gather_withPreds]
    exact gather_congr hin hsame
  have harrive : arrive (s.withPreds preds).loops (cell.withPreds (preds s.pos)).block =
      arrive s.loops cell.block := rfl
  unfold step
  rw [hgather, harrive]
  by_cases hindex : cell.block.index ≠ s.pos
  · rw [if_pos hindex]
    exact if_pos hindex
  by_cases hdiscard : cell.block.isDiscardExit
  · rw [if_neg hindex, if_pos hdiscard]
    exact (if_neg hindex).trans (if_pos hdiscard)
  rw [if_neg hindex, if_neg hdiscard]
  refine (if_neg hindex).trans ((if_neg hdiscard).trans ?_)
  cases arrive s.loops cell.block with
  | error f => rfl
  | ok out =>
    obtain ⟨back, loops⟩ := out
    cases back with
    | some header => rfl
    | none =>
      cases gather s.cells cell.entry cell.block.preds with
      | error f => rfl
      | ok out =>
        obtain ⟨entry, changed⟩ := out
        by_cases hidle : (cell.visited && !changed) = true
        · refine (if_pos hidle).trans ?_
          simp only [if_pos hidle]
          rfl
        · refine (if_neg hidle).trans ?_
          simp only [if_neg hidle]
          exact scan_withPreds preds s cell loops entry

/-- Two walks that differ in the lists of predecessors only go together. -/
theorem run_withPreds (hp : SamePreds preds blocks) (hs : Tracked cost blocks s) :
    run cost (s.withPreds preds) = (run cost s).map (withPreds preds) := by
  have hstep {s : Walk} {cell : Cell} (hs : Tracked cost blocks s)
      (hc : s.cells[s.pos]? = some cell) :
      run cost (s.withPreds preds) =
        ((step cost s cell).map (withPreds preds)).bind (run cost) := by
    have hcell := getElem?_withPreds preds s s.pos
    rw [hc, Option.map_some] at hcell
    obtain ⟨b, hb, hr⟩ := hs.current hc
    obtain ⟨-, -, -, hpreds, -⟩ := Block.shape_eq_iff.mp hr.shape_eq
    obtain ⟨hin, hsame⟩ := hp s.pos b hb
    rw [← hs.length_eq] at hin
    rw [run_of_step hcell, step_withPreds (hpreds ▸ hin) (hpreds ▸ hsame)]
  fun_induction run cost s with
  | case1 s hc =>
    have hend := getElem?_withPreds preds s s.pos
    rw [hc, Option.map_none] at hend
    rw [run_of_end hend]
    rfl
  | case2 s cell hc f hf =>
    rw [hstep hs hc, hf]
    rfl
  | case3 s cell hc t ht ih =>
    rw [hstep hs hc, ht, ← ih (hs.step hc (step_of_eq_ok ht))]
    rfl

end Walk

/-- What a walk has found, with other lists of predecessors. -/
theorem Insertion.ofWalk_withPreds (preds : Nat → List Nat) (p : Program) (w : Walk) :
    ofWalk (p.withPreds preds) (w.withPreds preds) =
      { ofWalk p w with program := (ofWalk p w).program.withPreds preds } := by
  have hblocks : (w.withPreds preds).cells.map Cell.block =
      (w.cells.map Cell.block).mapIdx fun pos b => b.withPreds (preds pos) := by
    apply List.ext_getElem?
    intro pos
    rw [List.getElem?_map, Walk.getElem?_withPreds, List.getElem?_mapIdx, List.getElem?_map,
      Option.map_map, Option.map_map]
    rfl
  have hentries := Walk.map_cells_withPreds (g := Cell.entry) (fun _ _ => rfl) preds w
  have hexits := Walk.map_cells_withPreds (g := Cell.exit) (fun _ _ => rfl) preds w
  simp only [ofWalk, hblocks, hentries, hexits]
  rfl

/-- Two programs that differ only in how their blocks list their predecessors, in another order or
with repetitions. Insertion fails on both with the same fault, or it gives both the same hints, the
same contexts, the same history of scans and the same messages. -/
theorem Program.insertHints_withPreds {p : Program} {preds : Nat → List Nat}
    (hp : SamePreds preds p.blocks) :
    (∃ f, p.insertHints = .error f ∧ (p.withPreds preds).insertHints = .error f) ∨
    ∃ r r', p.insertHints = .ok r ∧ (p.withPreds preds).insertHints = .ok r' ∧
      r'.program = r.program.withPreds preds ∧ r'.entries = r.entries ∧ r'.exits = r.exits ∧
      r'.events = r.events ∧ r'.visits.length = r.visits.length ∧ r'.numHints = r.numHints ∧
      r'.log = r.log := by
  have hstart : Walk.Tracked p.cost p.blocks (Walk.start p.blocks) := Walk.tracked_start
  have hrun := Walk.run_withPreds hp hstart
  rw [← Walk.start_withPreds] at hrun
  cases hw : Walk.run p.cost (Walk.start p.blocks) with
  | error f =>
    rw [hw] at hrun
    refine .inl ⟨f, ?_, ?_⟩
    · rw [insertHints, hw]
      rfl
    · rw [insertHints]
      exact congrArg (· >>= _) hrun
  | ok w =>
    rw [hw] at hrun
    refine .inr ⟨_, _, insertHints_eq_ok.mpr ⟨w, hw, rfl⟩,
      insertHints_eq_ok.mpr ⟨w.withPreds preds, hrun, rfl⟩, ?_⟩
    rw [Insertion.ofWalk_withPreds]
    refine ⟨rfl, rfl, rfl, rfl, rfl, rfl, ?_⟩
    simp only [Insertion.log, Program.withPreds, List.length_mapIdx]
    rfl

/-- The predecessors of the nested loops, backwards and each of them twice. -/
def doubledPreds (pos : Nat) : List Nat :=
  ((nestedBlocks[pos]?).map fun b => b.preds.reverse ++ b.preds).getD []

theorem samePreds_doubledPreds : SamePreds doubledPreds nestedBlocks := by
  have hin : ∀ b ∈ nestedBlocks, ∀ q ∈ b.preds, q < nestedBlocks.length := by decide
  intro pos b hb
  refine ⟨hin b (List.mem_of_getElem? hb), fun q => ?_⟩
  simp [doubledPreds, hb]

/-- The header of the inner loop is entered from two blocks, and both loops are walked again. -/
theorem insertHints_withPreds_nestedLoops : SamePreds doubledPreds nestedLoops.blocks ∧
    nestedLoops.withPreds doubledPreds ≠ nestedLoops ∧
    ∃ r r', nestedLoops.insertHints = .ok r ∧
      (nestedLoops.withPreds doubledPreds).insertHints = .ok r' ∧
      nestedLoops.blocks.length < r.visits.length ∧ 0 < r.numHints ∧
      r'.program = r.program.withPreds doubledPreds ∧ r'.exits = r.exits ∧ r'.log = r.log := by
  refine ⟨samePreds_doubledPreds, fun h => ?_, ?_⟩
  · have hblocks : (nestedLoops.withPreds doubledPreds).blocks = nestedLoops.blocks := by rw [h]
    exact absurd hblocks (by decide)
  obtain ⟨r₁, hr₁, hmore⟩ := Program.exists_insertHints (p := nestedLoops) (n := 40)
    (P := fun r => decide (nestedLoops.blocks.length < r.visits.length ∧ 0 < r.numHints))
    (by decide +kernel)
  obtain ⟨hvisits, hhints⟩ := of_decide_eq_true hmore
  rcases Program.insertHints_withPreds (p := nestedLoops) samePreds_doubledPreds with
    ⟨f, hf, -⟩ | ⟨r, r', hr, hr', hprogram, -, hexits, -, -, -, hlog⟩
  · cases hr₁.symm.trans hf
  · obtain rfl : r₁ = r := Except.ok.inj (hr₁.symm.trans hr)
    exact ⟨r₁, r', hr, hr', hvisits, hhints, hprogram, hexits, hlog⟩

end DelayHint

import DelayHint.Proofs.Scan.Cut
import DelayHint.Proofs.Walk.Safety

/-! Blocks in a row. Straight-line code may be cut into blocks anywhere: nothing stays queued at a
cut, and the one context that is joined there comes through unchanged. -/
namespace DelayHint

/-- A block of straight-line code at a position: no loop begins or ends at it, and its only
predecessor is the block in front of it. -/
structure Block.InRow (pos : Nat) (b : Block) : Prop where
  index_eq : b.index = pos
  not_isLoopHeader : ¬ b.isLoopHeader
  not_isLoopExit : ¬ b.isLoopExit
  not_isDiscardExit : ¬ b.isDiscardExit
  preds_eq : b.preds = if pos = 0 then [] else [pos - 1]

/-- The blocks stand in a row. -/
def Straight (blocks : List Block) : Prop :=
  ∀ (pos : Nat) (b : Block), blocks[pos]? = some b → b.InRow pos

/-- The code of blocks, one after the other. -/
def codeOf (blocks : List Block) : List Instr := blocks.flatMap Block.instrs

private theorem codeOf_take_succ {blocks : List Block} {pos : Nat} {b : Block}
    (hb : blocks[pos]? = some b) :
    codeOf (blocks.take (pos + 1)) = codeOf (blocks.take pos) ++ b.instrs := by
  rw [codeOf, codeOf, List.take_add_one, hb, List.flatMap_append, Option.toList_some,
    List.flatMap_singleton]

private theorem Straight.openLoops_eq {blocks : List Block} (h : Straight blocks) {pos : Nat}
    (hle : pos ≤ blocks.length) : openLoops blocks pos = some [] := by
  induction pos with
  | zero => rfl
  | succ pos ih =>
    have hb := List.getElem?_eq_getElem (Nat.lt_of_succ_le hle)
    obtain ⟨-, hheader, hexit, -, -⟩ := h pos _ hb
    rw [openLoops_succ hb, ih (Nat.le_of_succ_le hle), Option.bind_some]
    simp [Block.nest, hheader, hexit]

theorem Straight.walkable {blocks : List Block} (h : Straight blocks) : Walkable blocks where
  index_eq pos hlt := (h pos _ (List.getElem?_eq_getElem hlt)).index_eq
  preds_lt b hb q hq := by
    obtain ⟨pos, hlt, rfl⟩ := List.mem_iff_getElem.mp hb
    rw [(h pos _ (List.getElem?_eq_getElem hlt)).preds_eq] at hq
    split at hq
    · cases hq
    · rw [List.mem_singleton.mp hq]
      omega
  nested := ⟨[], h.openLoops_eq (Nat.le_refl _)⟩

namespace Walk

variable {cost : Instr → Cost} {blocks : List Block} {s t : Walk} {cell : Cell}

/-- The blocks that a walk in a row has behind it, with their hints. -/
def behind (s : Walk) : List Cell := s.cells.take s.pos

/-- What is pending behind them. -/
def lastExit (s : Walk) : Pending := (s.behind.getLast?.map Cell.exit).getD RegMap.empty

/-- A walk in a row has scanned the code behind it as if it were one block, each piece once, and the
blocks ahead are as they were. -/
structure Advanced (cost : Instr → Cost) (blocks : List Block) (s : Walk) : Prop where
  ahead : ∀ {pos : Nat} {b : Block}, s.pos ≤ pos → blocks[pos]? = some b →
    s.cells[pos]? = some { block := b }
  scanned : Scan.block cost RegMap.empty (codeOf (blocks.take s.pos)) =
    .ok (codeOf (s.behind.map Cell.block), s.lastExit)
  visits_eq : (s.events.toList.filterMap Event.visit?).map Visit.after =
    s.behind.map fun c => c.block.instrs

theorem advanced_start : Advanced cost blocks (start blocks) where
  ahead _ hb := by rw [start, List.getElem?_map, hb]; rfl
  scanned := rfl
  visits_eq := rfl

/-- In a row, the entry of a block is the exit of the block in front of it. -/
theorem gather_inRow {b : Block} {entry : Pending} {changed : Bool} (hb : b.InRow s.pos)
    (h : gather s.cells RegMap.empty b.preds = .ok (entry, changed)) : entry = s.lastExit := by
  rw [hb.preds_eq] at h
  unfold lastExit behind
  split at h
  · rename_i hzero
    rw [hzero]
    cases h
    rfl
  · rename_i hpos
    obtain ⟨c, later, hc, hg, -⟩ := gather_cons h
    cases hg
    rw [List.getLast?_take, if_neg hpos, hc, Option.some_or]
    apply RegMap.ext_get?
    intro r
    rw [Pending.get?_join, RegMap.get?_empty, Option.merge_none_left]
    rfl

/-- In a row, a step scans the next block from what is pending in front of it. -/
theorem step_inRow {b : Block} (hb : b.InRow s.pos) (h : Step cost s { block := b } t) :
    ∃ c v, Scan.block cost s.lastExit b.instrs = .ok (c.block.instrs, c.exit) ∧
      t.cells = s.cells.set s.pos c ∧ t.pos = s.pos + 1 ∧ t.events = s.events.push (.scan v) ∧
      v.after = c.block.instrs := by
  have harrive : arrive s.loops b = .ok (none, s.loops) := by
    simp [arrive, hb.not_isLoopHeader, hb.not_isLoopExit]
  cases h with
  | discard _ hd => exact absurd hd hb.not_isDiscardExit
  | back _ _ ha => cases harrive.symm.trans ha
  | idle _ _ _ _ hv => cases hv
  | visit _ _ _ hg _ hscan =>
    obtain rfl := gather_inRow hb hg
    exact ⟨_, _, hscan, rfl, rfl, rfl, rfl⟩

theorem Advanced.step (hs : Advanced cost blocks s) (hrow : Straight blocks)
    (hplain : ∀ i ∈ codeOf blocks, ¬ i.isHint) (ht : Tracked cost blocks s)
    (hc : s.cells[s.pos]? = some cell) (h : Step cost s cell t) : Advanced cost blocks t := by
  obtain ⟨b, hb, -⟩ := ht.current hc
  obtain rfl : { block := b } = cell :=
    Option.some.inj ((hs.ahead (Nat.le_refl _) hb).symm.trans hc)
  obtain ⟨c, v, hscan, hcells, hpos, hevents, hafter⟩ := step_inRow (hrow s.pos b hb) h
  have hbehind : t.behind = s.behind ++ [c] := by
    rw [behind, hcells, hpos, List.take_add_one, List.take_set_of_le (Nat.le_refl _),
      List.getElem?_set_self (List.getElem?_eq_some_iff.mp hc).1]
    rfl
  refine ⟨fun {pos d} hle hd => ?_, ?_, ?_⟩
  · rw [hpos] at hle
    rw [hcells, List.getElem?_set_ne (by omega)]
    exact hs.ahead (Nat.le_of_succ_le hle) hd
  · have hfront : ∀ i ∈ codeOf (blocks.take s.pos), ¬ i.isHint := by
      intro i hi
      obtain ⟨d, hd, hi⟩ := List.mem_flatMap.mp hi
      exact hplain i (List.mem_flatMap.mpr ⟨d, List.mem_of_mem_take hd, hi⟩)
    have hlast : t.lastExit = c.exit := by
      rw [lastExit, hbehind, List.getLast?_concat]
      rfl
    have hcode : codeOf (t.behind.map Cell.block) =
        codeOf (s.behind.map Cell.block) ++ c.block.instrs := by
      simp [hbehind, codeOf]
    rw [hpos, codeOf_take_succ hb, Scan.block_append hfront Pending.normalized_empty, hs.scanned,
      hcode, hlast]
    exact bind_eq_ok.mpr ⟨_, rfl, bind_eq_ok.mpr ⟨_, hscan, rfl⟩⟩
  · rw [hevents, hbehind, Array.toList_push, List.filterMap_append, List.map_append, hs.visits_eq,
      List.map_append]
    simp [Event.visit?, hafter]

end Walk

namespace Program

variable {p : Program} {r : Insertion}

/-- Insertion into blocks in a row is one scan of their code. -/
theorem block_of_straight (hrow : Straight p.blocks) (hne : p.blocks ≠ [])
    (hplain : ∀ i ∈ codeOf p.blocks, ¬ i.isHint) (h : p.insertHints = .ok r) :
    ∃ last, Scan.block p.cost RegMap.empty (codeOf p.blocks) =
        .ok (codeOf r.program.blocks, last) ∧
      r.exits.getLast? = some last ∧
      r.numHints = (codeOf r.program.blocks).countP Instr.isHint := by
  obtain ⟨w, hw, rfl⟩ := insertHints_eq_ok.mp h
  obtain ⟨hadv, htracked, hend⟩ := Walk.start_induction (motive := Walk.Advanced p.cost p.blocks)
    Walk.advanced_start (fun ht hs hc hst => hs.step hrow hplain ht hc hst) hw
  have hbehind : w.behind = w.cells := List.take_of_length_le (htracked.length_eq ▸ hend)
  obtain ⟨-, hscan, hvisits⟩ := hadv
  rw [List.take_of_length_le hend, hbehind] at hscan
  rw [hbehind] at hvisits
  refine ⟨w.lastExit, hscan, ?_, ?_⟩
  · have hcells : w.cells ≠ [] := by
      rw [← List.length_pos_iff, htracked.length_eq]
      exact List.length_pos_iff.mpr hne
    rw [Walk.lastExit, hbehind, List.getLast?_eq_some_getLast hcells]
    simp [Insertion.ofWalk, List.getLast?_eq_some_getLast hcells]
  · calc (Insertion.ofWalk p w).numHints
        = ((Insertion.ofWalk p w).visits.flatMap Visit.after).countP Instr.isHint :=
          List.countP_flatMap.symm
      _ = ((w.cells.map fun c => c.block.instrs).flatten).countP Instr.isHint := by
          rw [List.flatMap_def, ← hvisits]
          rfl
      _ = (codeOf (w.cells.map Cell.block)).countP Instr.isHint := by
          rw [codeOf, List.flatMap_def, List.map_map]
          rfl

/-- Straight-line code may be cut into blocks in any way. Insertion returns for both programs, the
code with hints is the same when the blocks are put together again, it takes as many hints, and the
same is pending at the end. -/
theorem insertHints_straight {p p' : Program} (hrow : Straight p.blocks)
    (hrow' : Straight p'.blocks) (hne : p.blocks ≠ []) (hne' : p'.blocks ≠ [])
    (hmodel : p'.model = p.model) (hwave : p'.wave = p.wave)
    (hcode : codeOf p'.blocks = codeOf p.blocks)
    (hplain : ∀ i ∈ codeOf p.blocks, ¬ i.isHint)
    (hfits : ∀ i ∈ codeOf p.blocks, ∀ s ∈ i.spans, s.Fits) :
    ∃ r r', p.insertHints = .ok r ∧ p'.insertHints = .ok r' ∧
      codeOf r.program.blocks = codeOf r'.program.blocks ∧ r.numHints = r'.numHints ∧
      r.exits.getLast? = r'.exits.getLast? := by
  have hreturns {p : Program} (hrow : Straight p.blocks)
      (hplain : ∀ i ∈ codeOf p.blocks, ¬ i.isHint)
      (hfits : ∀ i ∈ codeOf p.blocks, ∀ s ∈ i.spans, s.Fits) : ∃ r, p.insertHints = .ok r := by
    have hhinted : ∀ b ∈ p.blocks, Hinted Requirement.Writable (fun i => ∀ s ∈ i.spans, s.Fits)
        b.instrs := by
      intro b hb
      refine .of_plain fun i hi => ?_
      have hmem : i ∈ codeOf p.blocks := List.mem_flatMap.mpr ⟨b, hb, hi⟩
      exact ⟨hplain i hmem, hfits i hmem⟩
    obtain ⟨w, hw, -, -⟩ :=
      Walk.exists_run_start (Scan.steady_normal p.cost) hrow.walkable hhinted
    exact ⟨_, insertHints_eq_ok.mpr ⟨w, hw, rfl⟩⟩
  have hcost : p'.cost = p.cost := by
    funext i
    rw [cost, cost, hmodel, hwave]
  obtain ⟨r, hr⟩ := hreturns hrow hplain hfits
  obtain ⟨r', hr'⟩ := hreturns hrow' (hcode ▸ hplain) (hcode ▸ hfits)
  obtain ⟨last, hscan, hexit, hhints⟩ := block_of_straight hrow hne hplain hr
  obtain ⟨last', hscan', hexit', hhints'⟩ := block_of_straight hrow' hne' (hcode ▸ hplain) hr'
  rw [hcost, hcode] at hscan'
  obtain ⟨hout, rfl⟩ := Prod.mk.inj (Except.ok.inj (hscan.symm.trans hscan'))
  refine ⟨r, r', hr, hr', hout, ?_, ?_⟩
  · rw [hhints, hhints', hout]
  · rw [hexit, hexit']

end Program

/-- Pieces of code as blocks in a row, on the first hardware that has hints. -/
def row (pieces : List (List Instr)) : Program where
  model := CycleModel.ofClasses .gfx11 CycleModel.gfx11Cost
  wave := .w32
  blocks := pieces.mapIdx fun pos instrs =>
    { index := pos, kind := .empty, depth := 0, preds := if pos = 0 then [] else [pos - 1]
      succs := if pos + 1 < pieces.length then [pos + 1] else [], instrs }

theorem straight_row (pieces : List (List Instr)) : Straight (row pieces).blocks := by
  intro pos b hb
  rw [row, List.getElem?_mapIdx] at hb
  obtain ⟨instrs, -, rfl⟩ := Option.map_eq_some_iff.mp hb
  have hnone : ∀ l, BlockKind.empty.has l = false := by
    intro l
    cases l <;> rfl
  refine ⟨rfl, ?_, ?_, ?_, rfl⟩
  · simp [Block.isLoopHeader, hnone]
  · simp [Block.isLoopExit, hnone]
  · simp [Block.isDiscardExit, hnone]

/-- The results of the first piece are read in the third one, and the second one is empty. -/
def threePieces : List (List Instr) :=
  [[.unary .vRcpF32 257 267, .unary .vMovB32 256 266], [],
    [.unary .vMovB32 258 257, .unary .vMovB32 259 256]]

theorem insertHints_straight_threePieces :
    Straight (row threePieces).blocks ∧ (row threePieces).blocks.length = 3 ∧
    ∃ r r', (row threePieces).insertHints = .ok r ∧
      (row [threePieces.flatten]).insertHints = .ok r' ∧ 0 < r.numHints ∧
      codeOf r.program.blocks = codeOf r'.program.blocks ∧ r.numHints = r'.numHints ∧
      r.exits.getLast? = r'.exits.getLast? := by
  refine ⟨straight_row _, rfl, ?_⟩
  obtain ⟨r₁, hr₁, hhints⟩ := Program.exists_insertHints (p := row threePieces) (n := 10)
    (P := fun r => decide (0 < r.numHints)) (by decide +kernel)
  have hone : Straight (row [threePieces.flatten]).blocks := straight_row _
  obtain ⟨r, r', hr, hr', hsame⟩ := Program.insertHints_straight (p := row threePieces)
    (straight_row _) hone (by decide) (by decide) rfl rfl rfl (by decide) (by decide)
  obtain rfl : r₁ = r := Except.ok.inj (hr₁.symm.trans hr)
  exact ⟨r₁, r', hr, hr', of_decide_eq_true hhints, hsame⟩

end DelayHint

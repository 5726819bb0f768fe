import DelayHint.Insert
import DelayHint.Proofs.Layout
import DelayHint.Proofs.Scan.Run

/-! The history of a walk. Its scans of a block start from the code that the scan before has left,
and the last of them left what the walk knows about the block. -/
namespace DelayHint

/-- The scans of the block at a position, in order. -/
def Event.visitsOf (events : List Event) (pos : Nat) : List Visit :=
  (events.filterMap Event.visit?).filter fun v => v.block = pos

/-- The scans of the block at a position during insertion. -/
def Insertion.visitsOf (r : Insertion) (pos : Nat) : List Visit := Event.visitsOf r.events pos

theorem Event.visitsOf_append_loopAgain (events : List Event) (exit header pos : Nat) :
    visitsOf (events ++ [.loopAgain exit header]) pos = visitsOf events pos := by
  simp [visitsOf, visit?]

theorem Event.visitsOf_append_scan (events : List Event) (v : Visit) (pos : Nat) :
    visitsOf (events ++ [.scan v]) pos =
      visitsOf events pos ++ if v.block = pos then [v] else [] := by
  by_cases h : v.block = pos <;> simp [visitsOf, visit?, h]

/-- What a walk knows about a block `b` after its scans `vs`. -/
inductive Recorded (cost : Instr → Cost) (b : Block) : List Visit → Cell → Prop where
  | unvisited : Recorded cost b [] { block := b }
  | visited {vs : List Visit} {c : Cell} {v : Visit} (h : Recorded cost b vs c)
    (hb : v.before = c.block.instrs)
    (hs : Scan.block cost v.entry v.before = .ok (v.after, v.exit)) :
    Recorded cost b (vs ++ [v])
      { block := { c.block with instrs := v.after }, entry := v.entry, exit := v.exit
        visited := true }

namespace Recorded

variable {cost : Instr → Cost} {b : Block} {vs : List Visit} {c : Cell}

theorem shape_eq (h : Recorded cost b vs c) : c.block.shape = b.shape := by
  induction h with
  | unvisited => rfl
  | visited _ _ _ ih => exact ih

theorem block_of_unvisited (h : Recorded cost b vs c) (hc : c.visited = false) : c.block = b := by
  cases h with
  | unvisited => rfl
  | visited => cases hc

/-- The last scan of a visited block left its code and both its contexts. -/
theorem last_visit (h : Recorded cost b vs c) (hc : c.visited) :
    ∃ v, vs.getLast? = some v ∧ v.entry = c.entry ∧ v.exit = c.exit ∧
      v.after = c.block.instrs ∧ Scan.block cost v.entry v.before = .ok (v.after, v.exit) := by
  cases h with
  | unvisited => cases hc
  | visited _ _ hs => exact ⟨_, List.getLast?_concat, rfl, rfl, rfl, hs⟩

end Recorded

namespace Walk

/-- The walk, given up after a number of rounds. -/
def runWithin (cost : Instr → Cost) : Nat → Walk → Option (Except Fault Walk)
  | 0, _ => none
  | n + 1, s =>
    match s.cells[s.pos]? with
    | none => some (.ok s)
    | some cell =>
      match step cost s cell with
      | .error f => some (.error f)
      | .ok t => runWithin cost n t

theorem run_eq_of_runWithin {cost : Instr → Cost} {n : Nat} {s : Walk} {r : Except Fault Walk}
    (h : runWithin cost n s = some r) : run cost s = r := by
  induction n generalizing s with
  | zero => cases h
  | succ n ih =>
    unfold runWithin at h
    split at h
    · rename_i hc
      rw [run_of_end hc]
      exact Option.some.inj h
    · rename_i cell hc
      rw [run_of_step hc]
      split at h
      · rename_i f hf
        rw [hf, Except.bind]
        exact Option.some.inj h
      · rename_i t ht
        rw [ht, Except.bind]
        exact ih h

/-- Some number of rounds is enough for every walk. -/
theorem exists_runWithin (cost : Instr → Cost) (s : Walk) :
    ∃ n, runWithin cost n s = some (run cost s) := by
  fun_induction run cost s with
  | case1 s hc => exact ⟨1, by simp only [runWithin, hc]⟩
  | case2 s cell hc f hf => exact ⟨1, by simp only [runWithin, hc, hf]⟩
  | case3 s cell hc t ht ih =>
    obtain ⟨n, hn⟩ := ih
    exact ⟨n + 1, by simp only [runWithin, hc, ht, hn]⟩

/-- The cells of a walk over `blocks` are what its history says. -/
structure Tracked (cost : Instr → Cost) (blocks : List Block) (s : Walk) : Prop where
  length_eq : s.cells.length = blocks.length
  recorded : ∀ {pos : Nat} {b : Block}, blocks[pos]? = some b →
    ∃ c, s.cells[pos]? = some c ∧ Recorded cost b (Event.visitsOf s.events.toList pos) c

variable {cost : Instr → Cost} {blocks : List Block} {s t : Walk} {cell : Cell}

theorem tracked_start : Tracked cost blocks (start blocks) where
  length_eq := List.length_map ..
  recorded hb := ⟨_, by rw [start, List.getElem?_map, hb]; rfl, .unvisited⟩

/-- The block that a walk stands in front of. -/
theorem Tracked.current (hs : Tracked cost blocks s) (hc : s.cells[s.pos]? = some cell) :
    ∃ b, blocks[s.pos]? = some b ∧ Recorded cost b (Event.visitsOf s.events.toList s.pos) cell := by
  have hlt : s.pos < blocks.length := hs.length_eq ▸ (List.getElem?_eq_some_iff.mp hc).1
  obtain ⟨c, hc', hr⟩ := hs.recorded (List.getElem?_eq_getElem hlt)
  obtain rfl : cell = c := Option.some.inj (hc.symm.trans hc')
  exact ⟨_, List.getElem?_eq_getElem hlt, hr⟩

/-- What scans keep of a block is the same for all blocks at once. -/
theorem Tracked.map_block {α : Type} {f : Block → α} (hs : Tracked cost blocks s)
    (hf : ∀ {b vs c}, Recorded cost b vs c → f c.block = f b) :
    (s.cells.map Cell.block).map f = blocks.map f := by
  apply List.ext_getElem?
  intro pos
  cases hb : blocks[pos]? with
  | none =>
    have hc : s.cells[pos]? = none := by
      rw [List.getElem?_eq_none_iff, hs.length_eq]
      exact List.getElem?_eq_none_iff.mp hb
    simp [hb, hc]
  | some b =>
    obtain ⟨c, hc, hr⟩ := hs.recorded hb
    simp only [List.getElem?_map, hb, hc, Option.map_some, hf hr]

theorem Tracked.step (hs : Tracked cost blocks s) (hc : s.cells[s.pos]? = some cell)
    (h : Step cost s cell t) : Tracked cost blocks t := by
  cases h with
  | discard => exact ⟨hs.length_eq, hs.recorded⟩
  | idle => exact ⟨hs.length_eq, hs.recorded⟩
  | back =>
    refine ⟨hs.length_eq, fun {pos b} hb => ?_⟩
    rw [Array.toList_push, Event.visitsOf_append_loopAgain]
    exact hs.recorded hb
  | @visit _ _ _ entry exit _ instrs _ _ _ hscan =>
    refine ⟨by rw [List.length_set, hs.length_eq], fun {pos b} hb => ?_⟩
    rw [Array.toList_push, Event.visitsOf_append_scan]
    obtain ⟨c, hc', hr⟩ := hs.recorded hb
    by_cases hp : s.pos = pos
    · subst hp
      obtain rfl : cell = c := Option.some.inj (hc.symm.trans hc')
      refine ⟨_, List.getElem?_set_self (List.getElem?_eq_some_iff.mp hc).1, ?_⟩
      rw [if_pos rfl]
      exact hr.visited (v := ⟨s.pos, cell.visited, entry, exit, cell.block.instrs, instrs⟩)
        rfl hscan
    · rw [if_neg hp, List.append_nil]
      exact ⟨c, by rw [List.getElem?_set_ne hp, hc'], hr⟩

/-- What every step of a tracked walk keeps holds when the walk over a program ends. -/
theorem start_induction {motive : Walk → Prop} (h0 : motive (start blocks))
    (hstep : ∀ {s t : Walk} {cell : Cell}, Tracked cost blocks s → motive s →
      s.cells[s.pos]? = some cell → Step cost s cell t → motive t)
    (h : run cost (start blocks) = .ok t) :
    motive t ∧ Tracked cost blocks t ∧ blocks.length ≤ t.pos := by
  obtain ⟨⟨hm, ht⟩, hend⟩ := run_induction
    (motive := fun s => motive s ∧ Tracked cost blocks s) ⟨h0, tracked_start⟩
    (fun s t cell hs hc hst => ⟨hstep hs.2 hs.1 hc hst, hs.2.step hc hst⟩) h
  exact ⟨hm, ht, ht.length_eq ▸ List.getElem?_eq_none_iff.mp hend⟩

end Walk

/-- What insertion gives for a block is what the walk knows about it. -/
theorem Insertion.getElem?_ofWalk {p : Program} {w : Walk} {pos : Nat} {c : Cell}
    (hc : w.cells[pos]? = some c) : (ofWalk p w).program.blocks[pos]? = some c.block ∧
      (ofWalk p w).entries[pos]? = some c.entry ∧ (ofWalk p w).exits[pos]? = some c.exit := by
  simp only [ofWalk, List.getElem?_map, hc, Option.map_some, and_self]

namespace Program

/-- Insertion gives what the walk has found when it ends. -/
theorem insertHints_eq_ok {p : Program} {r : Insertion} : p.insertHints = .ok r ↔
    ∃ w, Walk.run p.cost (Walk.start p.blocks) = .ok w ∧ r = .ofWalk p w := by
  unfold insertHints
  constructor
  · intro h
    obtain ⟨w, hw, hr⟩ := bind_eq_ok.mp h
    exact ⟨w, hw, (Except.ok.inj hr).symm⟩
  · rintro ⟨w, hw, rfl⟩
    rw [hw]
    rfl

theorem exists_insertHints {p : Program} {n : Nat} {P : Insertion → Bool}
    (h : (Walk.runWithin p.cost n (Walk.start p.blocks)).any fun e =>
      e.toOption.any fun w => P (.ofWalk p w)) :
    ∃ r, p.insertHints = .ok r ∧ P r := by
  cases hn : Walk.runWithin p.cost n (Walk.start p.blocks) with
  | none => simp [hn] at h
  | some e =>
    cases e with
    | error f => simp [hn, Except.toOption] at h
    | ok w =>
      rw [hn] at h
      exact ⟨.ofWalk p w, insertHints_eq_ok.mpr ⟨w, Walk.run_eq_of_runWithin hn, rfl⟩, h⟩

end Program

/-- The nested loops on the first hardware that has hints. -/
def nestedLoops : Program :=
  ⟨CycleModel.ofClasses .gfx11 CycleModel.gfx11Cost, .w32, nestedBlocks⟩

end DelayHint

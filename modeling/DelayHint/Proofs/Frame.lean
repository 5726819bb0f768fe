import DelayHint.Proofs.Compact.Waits
import DelayHint.Proofs.Scan.Slots
import DelayHint.Proofs.Walk.History
import DelayHint.Schedule

/-! The passes touch nothing but hints. Without its hints, a program is the same in front of each
pass and behind it, and a discard exit keeps its hints as well. -/
namespace DelayHint

/-- A block without the hints in its code. -/
def Block.bare (b : Block) : Block := { b with instrs := withoutHints b.instrs }

/-- A program without its hints. -/
def Program.bare (p : Program) : Program := { p with blocks := p.blocks.map Block.bare }

private theorem Block.bare_congr {a b : Block} (hs : a.shape = b.shape)
    (hi : withoutHints a.instrs = withoutHints b.instrs) : a.bare = b.bare := by
  obtain ⟨hindex, hkind, hdepth, hpreds, hsuccs⟩ := Block.shape_eq_iff.mp hs
  cases a
  cases b
  simp_all [bare]

private theorem withoutHints_append (xs ys : List Instr) :
    withoutHints (xs ++ ys) = withoutHints xs ++ withoutHints ys := List.filter_append ..

namespace Compact

/-- Compacted code has the same plain instructions in the same order: only hints are merged. -/
theorem withoutHints_run (st : Option (Instr × List Instr)) (rest : List Instr)
    (hst : ∀ x ∈ st, x.1.isHint) :
    withoutHints (run st rest).1 = withoutHints (held st ++ rest) := by
  have single {i : Instr} (hi : i.isSingleHint) : i.isHint := (Bool.and_eq_true_iff.mp hi).1
  fun_induction run st rest with
  | case1 => rfl
  | case2 => simp [held]
  | case3 i rest hi ih =>
    refine ih fun x hx => ?_
    obtain rfl := Option.mem_some_iff.mp hx
    exact single hi
  | case4 i rest hi out n hrun ih =>
    have hout := ih (by simp)
    rw [hrun, held, List.nil_append] at hout
    rw [held, List.nil_append]
    by_cases hint : i.isHint
    · rw [withoutHints_cons_of_isHint hint, withoutHints_cons_of_isHint hint, hout]
    · rw [withoutHints_cons_of_not_isHint hint, withoutHints_cons_of_not_isHint hint, hout]
  | case5 h between i rest hi hlt out n hrun ih =>
    have hout := ih (by simp)
    rw [hrun, held, List.nil_append] at hout
    have hh : h.isHint := hst _ rfl
    have hmerged : (h.mergeHint between.length i).isHint := hh
    rw [held, List.cons_append, withoutHints_cons_of_isHint hmerged, withoutHints_cons_of_isHint hh,
      withoutHints_append, withoutHints_append, withoutHints_cons_of_isHint (single hi), hout]
  | case6 h between i rest hi hlt out n hrun ih =>
    have hout := ih fun x hx => by
      obtain rfl := Option.mem_some_iff.mp hx
      exact single hi
    rw [hrun] at hout
    have hh : h.isHint := hst _ rfl
    rw [held, List.cons_append, withoutHints_cons_of_isHint hh, withoutHints_cons_of_isHint hh,
      withoutHints_append, withoutHints_append, hout]
    rfl
  | case7 h between i rest hi ih =>
    have hout := ih fun x hx => by
      obtain rfl := Option.mem_some_iff.mp hx
      exact hst (h, between) rfl
    rw [hout]
    simp [held]

end Compact

theorem Program.bare_compact (p : Program) : p.compact.bare = p.bare := by
  have hblock : ∀ b ∈ p.blocks, ({ b with instrs := (Compact.block b.instrs).1 } : Block).bare =
      b.bare := by
    intro b _
    have hrun := Compact.withoutHints_run none b.instrs (by simp)
    exact Block.bare_congr rfl hrun
  simp only [bare, compact, List.map_map, Program.mk.injEq, true_and]
  exact List.map_congr_left hblock

/-- Between its scans a block keeps its plain instructions. -/
theorem Recorded.withoutHints_eq {cost : Instr → Cost} {b : Block} {vs : List Visit} {c : Cell}
    (h : Recorded cost b vs c) : withoutHints c.block.instrs = withoutHints b.instrs ∧
      ∀ v ∈ vs, withoutHints v.after = withoutHints b.instrs := by
  induction h with
  | unvisited => exact ⟨rfl, by simp⟩
  | visited _ hb hs ih =>
    obtain ⟨hc, hvs⟩ := ih
    have hafter := (Scan.run_of_eq_ok hs).withoutHints_eq
    rw [hb, hc] at hafter
    refine ⟨hafter, fun v hv => ?_⟩
    rcases List.mem_append.mp hv with hv | hv
    · exact hvs v hv
    · rw [List.mem_singleton.mp hv]
      exact hafter

namespace Walk

variable {cost : Instr → Cost} {blocks : List Block} {s t : Walk} {cell : Cell}

/-- No discard exit has been scanned. -/
def SkipsDiscards (blocks : List Block) (s : Walk) : Prop :=
  ∀ {pos : Nat} {b : Block}, blocks[pos]? = some b → b.isDiscardExit →
    Event.visitsOf s.events.toList pos = []

theorem SkipsDiscards.step (hs : SkipsDiscards blocks s) (ht : Tracked cost blocks s)
    (hc : s.cells[s.pos]? = some cell) (h : Step cost s cell t) : SkipsDiscards blocks t := by
  cases h with
  | discard => exact hs
  | idle => exact hs
  | back =>
    intro pos b hb hd
    rw [Array.toList_push, Event.visitsOf_append_loopAgain]
    exact hs hb hd
  | visit _ hd =>
    intro pos b hb hdiscard
    rw [Array.toList_push, Event.visitsOf_append_scan, hs hb hdiscard, List.nil_append, if_neg]
    rintro rfl
    obtain ⟨b', hb', hr⟩ := ht.current hc
    obtain rfl : b = b' := Option.some.inj (hb.symm.trans hb')
    exact hd (Block.isDiscardExit_congr hr.shape_eq ▸ hdiscard)

/-- A discard exit ends as it was, with nothing known about it. -/
private theorem cell_of_discard (h : run cost (start blocks) = .ok t) {pos : Nat} {b : Block}
    (hb : blocks[pos]? = some b) (hd : b.isDiscardExit) : t.cells[pos]? = some { block := b } := by
  obtain ⟨hskip, ht, -⟩ := start_induction (motive := SkipsDiscards blocks) (fun _ _ => rfl)
    (fun ht hs hc hstep => hs.step ht hc hstep) h
  obtain ⟨c, hc, hr⟩ := ht.recorded hb
  rw [hskip hb hd] at hr
  rw [hc]
  generalize hvs : ([] : List Visit) = vs at hr
  cases hr with
  | unvisited => rfl
  | visited => simp at hvs

end Walk

/-- Insertion gives a program that is the same without its hints. -/
theorem Program.bare_insertHints {p : Program} {r : Insertion} (h : p.insertHints = .ok r) :
    r.program.bare = p.bare := by
  obtain ⟨w, hw, rfl⟩ := insertHints_eq_ok.mp h
  obtain ⟨-, ht, -⟩ := Walk.start_induction (motive := fun _ => True) trivial
    (fun _ _ _ _ => trivial) hw
  have hblocks : (w.cells.map Cell.block).map Block.bare = p.blocks.map Block.bare :=
    ht.map_block fun hr => Block.bare_congr hr.shape_eq hr.withoutHints_eq.1
  simp only [bare, Insertion.ofWalk, hblocks]

theorem Program.bare_scheduleWith {p : Program} {switches : Switches} {s : Scheduled}
    (h : p.scheduleWith switches = .ok s) : s.program.bare = p.bare := by
  unfold scheduleWith at h
  split at h
  · cases h
    rfl
  · obtain ⟨-, -, h⟩ := bind_eq_ok.mp h
    obtain ⟨r, hr, h⟩ := bind_eq_ok.mp h
    obtain ⟨-, -, h⟩ := bind_eq_ok.mp h
    cases h
    show (r.program.compactUnless switches.noCombine).1.bare = p.bare
    unfold compactUnless
    split
    · exact bare_insertHints hr
    · exact (bare_compact r.program).trans (bare_insertHints hr)

theorem Program.bare_schedule {p : Program} {settings : Settings} {s : Scheduled}
    (h : p.schedule settings = .ok s) : s.program.bare = p.bare := by
  unfold schedule at h
  split at h
  · obtain ⟨s', hs, h⟩ := bind_eq_ok.mp h
    cases h
    exact bare_scheduleWith (s := s') hs
  · cases h
    rfl

/-- Without hardware that has hints, or when insertion is switched off, nothing happens. -/
theorem Program.schedule_of_off {p : Program} {settings : Settings}
    (h : p.model.generation.hasHints = false ∨ settings.read.1.noDelay = true) :
    ∃ s, p.schedule settings = .ok s ∧ s.program = p := by
  unfold schedule
  split
  · rename_i hhas
    have hoff : settings.read.1.noDelay = true := h.resolve_left (by simp [hhas])
    refine ⟨⟨p, .known settings.read.1, settings.read.2 ++ [], ""⟩, ?_, rfl⟩
    simp only [scheduleWith, hoff, if_true]
    rfl
  · exact ⟨_, rfl, rfl⟩

/-- The passes touch nothing but hints, whatever the switches are and however often a block is
scanned. Insertion leaves discard exits alone and knows nothing about them, and nothing happens on
hardware without hints or when insertion is switched off. -/
theorem Program.bare_passes (p : Program) :
    (∀ r, p.insertHints = .ok r → r.program.bare = p.bare ∧
      ∀ (pos : Nat) (b : Block), p.blocks[pos]? = some b →
        (∀ v ∈ r.visitsOf pos, withoutHints v.after = withoutHints b.instrs) ∧
        (b.isDiscardExit → r.program.blocks[pos]? = some b ∧
          r.entries[pos]? = some RegMap.empty ∧ r.exits[pos]? = some RegMap.empty)) ∧
    p.compact.bare = p.bare ∧
    (∀ settings s, p.schedule settings = .ok s → s.program.bare = p.bare) ∧
    ∀ settings, p.model.generation.hasHints = false ∨ settings.read.1.noDelay = true →
      ∃ s, p.schedule settings = .ok s ∧ s.program = p := by
  refine ⟨fun r hr => ⟨bare_insertHints hr, fun pos b hb => ?_⟩, p.bare_compact,
    fun _ _ hs => bare_schedule hs, fun _ h => schedule_of_off h⟩
  obtain ⟨w, hw, rfl⟩ := insertHints_eq_ok.mp hr
  obtain ⟨-, ht, -⟩ := Walk.start_induction (motive := fun _ => True) trivial
    (fun _ _ _ _ => trivial) hw
  obtain ⟨c, hc, hrec⟩ := ht.recorded hb
  refine ⟨hrec.withoutHints_eq.2, fun hd => ?_⟩
  exact Insertion.getElem?_ofWalk (Walk.cell_of_discard hw hb hd)

/-- A loop of one block with a discard exit behind it that already has a hint. -/
def discardInLoop : Program where
  model := CycleModel.ofClasses .gfx11 CycleModel.gfx11Cost
  wave := .w32
  blocks :=
    [{ index := 0, kind := .ofLabel .loopHeader, depth := 1, preds := [0], succs := [0, 1, 2]
       instrs := [.unary .vMovB32 256 257, .unary .vMovB32 257 256] },
     { index := 1, kind := .ofLabel .discardEarlyExit, depth := 0, preds := [0]
       instrs := [{ opcode := .sDelayAlu, imm := 1 }, .unary .vMovB32 258 257] },
     { index := 2, kind := .ofLabel .loopExit, depth := 0, preds := [0]
       instrs := [.unary .vMovB32 259 257] }]

theorem bare_passes_discardInLoop : ∃ r b, discardInLoop.insertHints = .ok r ∧
    3 ≤ r.visits.length ∧ discardInLoop.numInstrs < r.program.numInstrs ∧
    r.program.bare = discardInLoop.bare ∧ discardInLoop.blocks[1]? = some b ∧
    b.instrs.any Instr.isHint ∧ r.program.blocks[1]? = some b ∧
    r.entries[1]? = some RegMap.empty ∧ r.exits[1]? = some RegMap.empty ∧
    ∃ s, discardInLoop.schedule (.known { noDelay := true }) = .ok s ∧
      s.program = discardInLoop := by
  obtain ⟨r, hr, hsome⟩ := Program.exists_insertHints (p := discardInLoop) (n := 20)
    (P := fun r => decide (3 ≤ r.visits.length ∧ discardInLoop.numInstrs < r.program.numInstrs))
    (by decide +kernel)
  obtain ⟨hvisits, hmore⟩ := of_decide_eq_true hsome
  obtain ⟨hinsert, -, -, hoff⟩ := discardInLoop.bare_passes
  obtain ⟨hbare, hblocks⟩ := hinsert r hr
  obtain ⟨-, hdiscard⟩ := hblocks 1 _ rfl
  obtain ⟨hblock, hentry, hexit⟩ := hdiscard (by decide)
  exact ⟨r, _, hr, hvisits, hmore, hbare, rfl, by decide, hblock, hentry, hexit,
    hoff _ (.inr rfl)⟩

end DelayHint

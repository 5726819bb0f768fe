import DelayHint.Proofs.Scan.Total
import DelayHint.Proofs.Validity
import DelayHint.Proofs.Walk.FixedPoint
import DelayHint.Proofs.Walk.Reached

/-! Walks that return. In a layout where every exit closes a loop, the open loops of a walk are
those of the layout in front of it, also after it went back, so no exit finds none. The scans return
and leave code that can be scanned again, and all its hints are well formed. -/
namespace DelayHint

namespace Walk

variable {cost : Instr → Cost} {blocks : List Block} {s t : Walk} {cell : Cell}
  {J : Pending → Prop} {P : Requirement → Prop} {Q : Instr → Prop}

theorem exists_gather {cells : List Cell} {preds : List Nat} (ctx : Pending)
    (h : ∀ q ∈ preds, q < cells.length) :
    ∃ entry changed, gather cells ctx preds = .ok (entry, changed) := by
  induction preds generalizing ctx with
  | nil => exact ⟨ctx, false, rfl⟩
  | cons p rest ih =>
    have hlt : p < cells.length := h p List.mem_cons_self
    have hc := List.getElem?_eq_getElem hlt
    obtain ⟨entry, changed, hg⟩ :=
      ih (ctx.join cells[p].exit) fun q hq => h q (List.mem_cons_of_mem _ hq)
    refine ⟨entry, ctx.tightenedBy cells[p].exit || changed, ?_⟩
    simp [gather, hc, hg, bind, Except.bind, pure, Except.pure]

theorem exists_arrive {loops : LoopStack} {b : Block} {headers : List Nat}
    (hd : ¬ b.isDiscardExit) (h : b.nest loops.headers = some headers) :
    ∃ back loops', arrive loops b = .ok (back, loops') := by
  unfold Block.nest at h
  unfold arrive
  rw [if_neg hd] at h
  split
  · exact ⟨_, _, rfl⟩
  · rename_i hh
    rw [if_neg hh] at h
    split
    · rename_i he
      rw [if_pos he] at h
      unfold LoopStack.leave
      split
      · rename_i hs
        rw [hs] at h
        cases h
      · exact ⟨_, _, rfl⟩
    · exact ⟨_, _, rfl⟩

/-- A walk stands in the open loops of the layout, its scans kept `J` and `P`, and so did those
before. -/
structure Kept (blocks : List Block) (J : Pending → Prop) (P : Requirement → Prop)
    (Q : Instr → Prop) (s : Walk) : Prop where
  nest : openLoops blocks s.pos = some s.loops.headers
  cells : ∀ c ∈ s.cells, J c.entry ∧ J c.exit ∧ Hinted P Q c.block.instrs
  visits : ∀ pos, ∀ v ∈ Event.visitsOf s.events.toList pos, J v.entry ∧ Hinted P Q v.before

/-- Scans that return such code keep it. -/
theorem keeps_of_steady (st : Scan.Steady cost J P Q) : Scan.Keeps cost J (Hinted P Q) where
  empty := st.empty
  join := st.join
  scan hctx hcode h := by
    obtain ⟨out, last, hout, hhinted, hlast⟩ := st.block_eq_ok hcode hctx
    obtain ⟨rfl, rfl⟩ := Prod.mk.inj (Except.ok.inj (h.symm.trans hout))
    exact ⟨hlast, hhinted⟩

theorem Kept.keeping (hs : Kept blocks J P Q s) : Keeping J (Hinted P Q) s := ⟨hs.cells, hs.visits⟩

theorem Kept.gather (hs : Kept blocks J P Q s) (st : Scan.Steady cost J P Q)
    (hc : s.cells[s.pos]? = some cell) {entry : Pending} {changed : Bool}
    (hg : gather s.cells cell.entry cell.block.preds = .ok (entry, changed)) : J entry :=
  hs.keeping.gather (keeps_of_steady st) hc hg

theorem kept_start (st : Scan.Steady cost J P Q) (hcode : ∀ b ∈ blocks, Hinted P Q b.instrs) :
    Kept blocks J P Q (start blocks) := by
  obtain ⟨hcells, hvisits⟩ := keeping_start (keeps_of_steady st) hcode
  exact ⟨openLoops_zero blocks, hcells, hvisits⟩

/-- A walk that stands in the open loops of the layout does so after a step. -/
theorem openLoops_step (hn : openLoops blocks s.pos = some s.loops.headers)
    (hw : Walkable blocks) (ht : Tracked cost blocks s) (hc : s.cells[s.pos]? = some cell)
    (h : Step cost s cell t) : openLoops blocks t.pos = some t.loops.headers := by
  obtain ⟨b, hb, hr⟩ := ht.current hc
  have hcell := hr.shape_eq
  cases h with
  | discard _ hd =>
    rw [openLoops_succ hb, hn, Option.bind_some, ← Block.nest_congr hcell]
    simp [Block.nest, hd]
  | @back _ _ header loops ha =>
    obtain ⟨hh, -⟩ := arrive_some ha
    have hinner : openLoops blocks s.pos = some ([] ++ header :: loops.headers) := by
      rw [hn, hh, List.nil_append]
    exact (openLoops_header hw.index_eq hinner).2
  | idle _ hd ha => exact openLoops_arrive hn hb hcell hd ha
  | visit _ hd ha =>
    have hopen := openLoops_arrive hn hb hcell hd ha
    exact hopen

theorem Kept.step (hs : Kept blocks J P Q s) (st : Scan.Steady cost J P Q)
    (hw : Walkable blocks) (ht : Tracked cost blocks s) (hc : s.cells[s.pos]? = some cell)
    (h : Step cost s cell t) : Kept blocks J P Q t := by
  obtain ⟨hcells, hvisits⟩ := hs.keeping.step (keeps_of_steady st) hc h
  exact ⟨openLoops_step hs.nest hw ht hc h, hcells, hvisits⟩

/-- No step of such a walk faults. -/
theorem Kept.exists_step (hs : Kept blocks J P Q s) (st : Scan.Steady cost J P Q)
    (hw : Walkable blocks) (ht : Tracked cost blocks s) (hc : s.cells[s.pos]? = some cell) :
    ∃ t, Walk.step cost s cell = .ok t := by
  obtain ⟨b, hb, hr⟩ := ht.current hc
  obtain ⟨hlt, rfl⟩ := List.getElem?_eq_some_iff.mp hb
  obtain ⟨hindex, -, -, hpreds, -⟩ := Block.shape_eq_iff.mp hr.shape_eq
  unfold Walk.step
  rw [if_neg (by rw [hindex, hw.index_eq s.pos hlt]; exact not_not_intro rfl)]
  split
  · exact ⟨_, rfl⟩
  · rename_i hd
    obtain ⟨all, hall⟩ := hw.nested
    obtain ⟨headers, hheaders⟩ := exists_openLoops_of_le (Nat.succ_le_of_lt hlt) hall
    rw [openLoops_succ hb, hs.nest, Option.bind_some, ← Block.nest_congr hr.shape_eq] at hheaders
    obtain ⟨back, loops, ha⟩ := exists_arrive hd hheaders
    rw [ha]
    cases back with
    | some header => exact ⟨_, rfl⟩
    | none =>
      have hin : ∀ q ∈ cell.block.preds, q < s.cells.length := by
        rw [ht.length_eq, hpreds]
        exact hw.preds_lt _ (List.getElem_mem hlt)
      obtain ⟨entry, changed, hg⟩ := exists_gather cell.entry hin
      dsimp only
      rw [hg]
      dsimp only
      split
      · exact ⟨_, rfl⟩
      · obtain ⟨-, -, hcode⟩ := hs.cells cell (List.mem_of_getElem? hc)
        obtain ⟨out, last, hout, -, -⟩ := st.block_eq_ok hcode (hs.gather st hc hg)
        exact ⟨_, bind_eq_ok.mpr ⟨(out, last), hout, rfl⟩⟩

/-- A walk returns if no step faults where `motive` holds, and every step keeps it. -/
theorem exists_run {motive : Walk → Prop} (hs : motive s)
    (hstep : ∀ {s cell}, motive s → s.cells[s.pos]? = some cell →
      ∃ t, step cost s cell = .ok t ∧ motive t) : ∃ t, run cost s = .ok t ∧ motive t := by
  fun_induction run cost s with
  | case1 s hc => exact ⟨s, rfl, hs⟩
  | case2 s cell hc f hf =>
    obtain ⟨t, ht, -⟩ := hstep hs hc
    rw [hf] at ht
    cases ht
  | case3 s cell hc t ht ih =>
    obtain ⟨t', ht', hm⟩ := hstep hs hc
    obtain rfl : t = t' := Except.ok.inj (ht.symm.trans ht')
    exact ih hm

/-- The walk over a program returns, and at its end everything has been kept. -/
theorem exists_run_start (st : Scan.Steady cost J P Q) (hw : Walkable blocks)
    (hcode : ∀ b ∈ blocks, Hinted P Q b.instrs) :
    ∃ t, run cost (start blocks) = .ok t ∧ Kept blocks J P Q t ∧ Tracked cost blocks t := by
  refine exists_run (motive := fun s => Kept blocks J P Q s ∧ Tracked cost blocks s)
    ⟨kept_start st hcode, tracked_start⟩ fun {s cell} hs hc => ?_
  obtain ⟨t, ht⟩ := hs.1.exists_step st hw hs.2 hc
  exact ⟨t, ht, hs.1.step st hw hs.2 hc (step_of_eq_ok ht),
    hs.2.step hc (step_of_eq_ok ht)⟩

end Walk

theorem Hinted.valid {P : Requirement → Prop} {Q : Instr → Prop} {code : List Instr}
    (h : Hinted P Q code) (hP : ∀ {q}, P q → q.Writable)
    (hQ : ∀ {i}, Q i → ∀ s ∈ i.spans, s.Fits) : ∀ i ∈ code, i.Valid := by
  intro i hi
  rcases h.mem hi with ⟨hplain, hfits⟩ | ⟨p, hp, -, hh⟩
  · exact ⟨fun hint => absurd hint hplain, hQ hfits⟩
  · exact ⟨fun _ => ((hP hp).validHint hh).1, by simp [Requirement.spans_hint hh]⟩

namespace Program

variable {p : Program}

theorem walkable_of_valid (hv : p.violation? = none) (hb : Balanced p.blocks) :
    Walkable p.blocks := by
  rw [violation?_eq_none_iff] at hv
  obtain ⟨headers, hheaders, -⟩ := hb.exists_openLoops (Nat.le_refl p.blocks.length)
  refine ⟨fun pos h => ?_, fun b hmem q hq => ?_, headers, hheaders⟩
  · exact (hv pos _ (List.getElem?_eq_getElem h)).index_eq
  · obtain ⟨pos, h, rfl⟩ := List.mem_iff_getElem.mp hmem
    exact (hv pos _ (List.getElem?_eq_getElem h)).preds_lt q hq

theorem hinted_of_valid {P : Requirement → Prop} {Q : Instr → Prop} (hv : p.violation? = none)
    (hplain : ∀ b ∈ p.blocks, ∀ i ∈ b.instrs, ¬ i.isHint)
    (hQ : ∀ b ∈ p.blocks, ∀ i ∈ b.instrs, (∀ s ∈ i.spans, s.Fits) → Q i) :
    ∀ b ∈ p.blocks, Hinted P Q b.instrs := by
  rw [violation?_eq_none_iff] at hv
  intro b hmem
  obtain ⟨pos, h, rfl⟩ := List.mem_iff_getElem.mp hmem
  have hvalid := hv pos _ (List.getElem?_eq_getElem h)
  exact Hinted.of_plain fun i hi => ⟨hplain _ hmem i hi, hQ _ hmem i hi (hvalid.instrs i hi).fits⟩

/-- On a valid program without hints insertion returns. It leaves a program of the same shape, and
every hint was written for the instruction behind it. -/
theorem exists_insertHints_of_steady {J : Pending → Prop} {P : Requirement → Prop}
    {Q : Instr → Prop} (st : Scan.Steady p.cost J P Q) (hv : p.violation? = none)
    (hb : Balanced p.blocks) (hplain : ∀ b ∈ p.blocks, ∀ i ∈ b.instrs, ¬ i.isHint)
    (hQ : ∀ b ∈ p.blocks, ∀ i ∈ b.instrs, (∀ s ∈ i.spans, s.Fits) → Q i) :
    ∃ r, p.insertHints = .ok r ∧ r.program.violation? = none ∧
      ∀ b ∈ r.program.blocks, Hinted P Q b.instrs := by
  obtain ⟨w, hw, hkept, ht⟩ := Walk.exists_run_start st (walkable_of_valid hv hb)
    (hinted_of_valid hv hplain hQ)
  refine ⟨.ofWalk p w, insertHints_eq_ok.mpr ⟨w, hw, rfl⟩, ?_, fun b hmem => ?_⟩
  · rw [violation?_eq_none_iff] at hv ⊢
    intro pos b' hb'
    have hlen : (Insertion.ofWalk p w).program.blocks.length = p.blocks.length := by
      rw [← ht.length_eq]
      exact List.length_map ..
    have hlt : pos < p.blocks.length := hlen ▸ (List.getElem?_eq_some_iff.mp hb').1
    obtain ⟨c, hc, hr⟩ := ht.recorded (List.getElem?_eq_getElem hlt)
    obtain rfl := Option.some.inj ((Insertion.getElem?_ofWalk hc).1.symm.trans hb')
    obtain ⟨hindex, -, -, hpreds, hsuccs⟩ := Block.shape_eq_iff.mp hr.shape_eq
    obtain ⟨hi, hp, hs, -⟩ := hv pos _ (List.getElem?_eq_getElem hlt)
    rw [hlen]
    refine ⟨hindex.trans hi, hpreds ▸ hp, hsuccs ▸ hs, ?_⟩
    exact (hkept.cells c (List.mem_of_getElem? hc)).2.2.valid st.writable st.fits
  · obtain ⟨c, hc, rfl⟩ := List.mem_map.mp hmem
    exact (hkept.cells c hc).2.2

/-- Insertion is safe on valid programs, whatever the hardware is. If a program has no hints and
every exit closes a loop in layout order, no fault comes up and the result is valid again. -/
theorem insertHints_safe (hv : p.violation? = none)
    (hplain : ∀ b ∈ p.blocks, ∀ i ∈ b.instrs, ¬ i.isHint) (hb : Balanced p.blocks) :
    ∃ r, p.insertHints = .ok r ∧ r.program.violation? = none := by
  obtain ⟨r, hr, hvalid, -⟩ := exists_insertHints_of_steady (Scan.steady_normal p.cost) hv hb hplain
    fun _ _ _ _ hfits => hfits
  exact ⟨r, hr, hvalid⟩

end Program

theorem insertHints_safe_nestedLoops : nestedLoops.violation? = none ∧
    (∀ b ∈ nestedLoops.blocks, ∀ i ∈ b.instrs, ¬ i.isHint) ∧ Balanced nestedLoops.blocks ∧
    ∃ r, nestedLoops.insertHints = .ok r ∧ r.program.violation? = none :=
  ⟨by decide, by decide, by decide,
    Program.insertHints_safe (by decide) (by decide) (by decide)⟩

end DelayHint

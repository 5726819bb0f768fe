import DelayHint.Proofs.Scan.Existing
import DelayHint.Proofs.Scan.Repeat
import DelayHint.Proofs.Walk.WaitCodes

/-! Waits only get stricter from one scan of a block to the next. A scan reads back the hints of the
scan before, and without matrix instructions each of them holds all that it was written for, except
scalar cycles that it has no room for. -/
namespace DelayHint

namespace Instr

/-- The hint `h'` waits for all that `h` waits for, and stands for no fewer cycles. -/
structure AsStrict (h h' : Instr) : Prop where
  keeps : ∀ {w : Wait} {s : Source}, h.WaitsFor w → w.source? = some s → h'.Keeps w
  valuCycles_le : h.passFlags.toNat % 65536 ≤ h'.passFlags.toNat % 65536
  transCycles_le : h.passFlags.toNat / 65536 ≤ h'.passFlags.toNat / 65536

variable {h h' h'' : Instr}

theorem asStrict_refl (h : Instr) : h.AsStrict h where
  keeps hw _ := .inl ⟨_, hw, rfl, Int.le_refl _⟩
  valuCycles_le := Nat.le_refl _
  transCycles_le := Nat.le_refl _

private theorem AsStrict.waitsForBoth (hh : h.AsStrict h') (hb : h.WaitsForBoth) :
    h'.WaitsForBoth := by
  obtain ⟨⟨a, ha⟩, ⟨b, hb⟩⟩ := hb
  constructor
  · rcases hh.keeps ha rfl with ⟨v, hv, hsource, -⟩ | ⟨hsalu, -⟩
    · obtain ⟨back, rfl⟩ := Wait.source?_eq_some_iff.mp hsource
      exact ⟨back, hv⟩
    · cases hsalu
  · rcases hh.keeps hb rfl with ⟨v, hv, hsource, -⟩ | ⟨hsalu, -⟩
    · obtain ⟨back, rfl⟩ := Wait.source?_eq_some_iff.mp hsource
      exact ⟨back, hv⟩
    · cases hsalu

theorem AsStrict.trans (hh : h.AsStrict h') (hh' : h'.AsStrict h'') : h.AsStrict h'' where
  keeps {w s} hw hs := by
    rcases hh.keeps hw hs with ⟨v, hv, hsource, hle⟩ | ⟨hsalu, hboth⟩
    · rcases hh'.keeps hv (hsource.trans hs) with ⟨u, hu, hsource', hle'⟩ | ⟨hsalu, hboth⟩
      · exact .inl ⟨u, hu, hsource'.trans hsource, Int.le_trans hle' hle⟩
      · exact .inr ⟨hsource ▸ hsalu, hboth⟩
    · exact .inr ⟨hsalu, hh'.waitsForBoth hboth⟩
  valuCycles_le := Nat.le_trans hh.valuCycles_le hh'.valuCycles_le
  transCycles_le := Nat.le_trans hh.transCycles_le hh'.transCycles_le

end Instr

/-- Where a hint stands in `code`, one that is as strict stands in `code'`. -/
def Tightening (code code' : List Instr) : Prop :=
  ∀ (k : Nat) (h x : Instr), (slots none code)[k]? = some (some h, x) →
    ∃ h', (slots none code')[k]? = some (some h', x) ∧ h.AsStrict h'

theorem tightening_refl (code : List Instr) : Tightening code code :=
  fun _ h _ hslot => ⟨h, hslot, h.asStrict_refl⟩

theorem Tightening.trans {a b c : List Instr} (hab : Tightening a b) (hbc : Tightening b c) :
    Tightening a c := by
  intro k h x hslot
  obtain ⟨h', hslot', hh⟩ := hab k h x hslot
  obtain ⟨h'', hslot'', hh'⟩ := hbc k h' x hslot'
  exact ⟨h'', hslot'', hh.trans hh'⟩

private theorem Hinted.group_of_slot {P : Requirement → Prop} {Q : Instr → Prop} {code : List Instr}
    {k : Nat} {h x : Instr} (hc : Hinted P Q code)
    (hslot : (slots none code)[k]? = some (some h, x)) :
    (groups [] code)[k]? = some ([h], x) ∧ ∃ p, P p ∧ p.isEmpty = false ∧ p.hint = .ok h := by
  induction hc generalizing k with
  | nil => cases hslot
  | plain hx _ _ ih =>
    simp only [slots, if_neg hx, groups_cons_of_not_isHint hx] at hslot ⊢
    cases k with
    | zero => cases hslot
    | succ k => exact ih hslot
  | @hint p i y rest hp he hi hx _ _ ih =>
    have hhint := Requirement.isHint_of_hint hi
    simp only [slots, if_pos hhint, if_neg hx] at hslot
    rw [groups_cons_of_isHint hhint, groups_cons_of_not_isHint hx]
    cases k with
    | zero =>
      cases hslot
      exact ⟨rfl, p, hp, he, hi⟩
    | succ k => exact ih hslot

theorem Requirement.Writable.soundHint {q : Requirement} {h : Instr} (hq : q.Writable)
    (hh : q.hint = .ok h) : h.SoundHint := by
  obtain ⟨hvalid, -⟩ := hq.validHint hh
  obtain ⟨hv, ht⟩ := hq.cycles_nonneg
  obtain ⟨hvc, htc⟩ := cycles_withCycles hv ht .empty
  obtain ⟨-, -, rfl⟩ := hint_eq_ok hh
  refine ⟨hvalid, ?_, ?_⟩
  · show 0 ≤ (empty.withCycles q.cycleWord).valuCycles.toInt
    rwa [hvc]
  · show 0 ≤ (empty.withCycles q.cycleWord).transCycles.toInt
    rwa [htc]

/-- The cycles of the two units stand in the two halves of the word beside a hint. -/
private theorem Requirement.passFlags_of_hint {q : Requirement} {h : Instr} (hh : q.hint = .ok h) :
    h.passFlags.toNat % 65536 = q.valuCycles.toInt.toNat ∧
      h.passFlags.toNat / 65536 = q.transCycles.toInt.toNat := by
  obtain ⟨-, -, rfl⟩ := hint_eq_ok hh
  have hword := q.toNat_cycleWord
  have hle := Int8.toInt_lt q.valuCycles
  simp only [hword]
  omega

namespace Scan

variable {cost : Instr → Cost} {ctx last : Pending} {code out : List Instr} {i : Instr}

/-- Code whose hints were written for what they can express, without matrix instructions. -/
def Written : List Instr → Prop := Hinted (Requirement.Expressible 127) fun i => ¬ i.isWmma

theorem Written.not_isWmma (hc : Written code) (hi : i ∈ code) : ¬ i.isWmma := by
  rcases Hinted.mem hc hi with ⟨-, hw⟩ | ⟨p, -, -, hh⟩
  · exact hw
  · exact Instr.not_isWmma_of_isHint (Requirement.isHint_of_hint hh)

theorem Written.soundHint (hc : Written code) (hi : i ∈ code) (hh : i.isHint) : i.SoundHint := by
  rcases Hinted.mem hc hi with ⟨hplain, -⟩ | ⟨p, hp, -, hhint⟩
  · exact absurd hh hplain
  · exact hp.writable.soundHint hhint

theorem keeps_written (cost : Instr → Cost) : Keeps cost (Pending.Expressible 127) Written where
  empty r e he := by cases he
  join := Pending.Expressible.join
  scan {ctx exit code out} hctx hcode h := by
    have hstep {q q' : Requirement} {ctx ctx' : Pending} {i : Instr}
        (hs : step cost q ctx i = .ok (q', ctx')) (hctx : ctx.Expressible 127)
        (hq : q.Expressible 127)
        (hi : ¬ i.isHint ∧ ¬ i.isWmma ∨
          q.isEmpty = true ∧ ∃ p : Requirement, p.Expressible 127 ∧ p.hint = .ok i) :
        ctx'.Expressible 127 ∧ q'.Expressible 127 := by
      obtain ⟨waited, hd, -, -⟩ := step_eq_ok hs
      have hdemand := Pending.demand_induction Requirement.Expressible.join
        (fun he => (hctx _ _ he).2) (P := Requirement.Expressible 127) (h := hd)
      rcases hi with ⟨hplain, hw⟩ | ⟨he, p, hp, hh⟩
      · rw [if_neg hplain] at hdemand
        exact ⟨expressible_step hw hs hctx, hdemand hq⟩
      · have hhint := Requirement.isHint_of_hint hh
        rw [if_pos hhint, hq.eq_empty he] at hdemand
        exact ⟨expressible_step (Instr.not_isWmma_of_isHint hhint) hs hctx,
          hdemand (hp.withHint hh)⟩
    obtain ⟨hout, hexit⟩ := (run_of_eq_ok h).hinted (Requirement.expressible_empty (by decide))
      hstep hcode hctx (Requirement.expressible_empty (by decide)) rfl
    exact ⟨hexit, hout⟩

theorem expressible_of_stop (hctx : ctx.Expressible 127) (hcode : Written code) {q : Requirement}
    {s : Stop} (hs : s ∈ stops cost q ctx code) : s.pending.Expressible 127 :=
  stops_induction (motive := fun _ ctx => ctx.Expressible 127)
    (fun hi _ hctx hs => expressible_step (hcode.not_isWmma hi) hs hctx)
    (fun hi _ hctx hs => expressible_step (hcode.not_isWmma hi) hs hctx) hctx hs

/-- What is required at an instruction takes as many cycles as the hint in front of it says. -/
theorem cycles_of_group {p : Requirement} {g x : Instr} {k : Nat} {s : Stop} (hcode : Written code)
    (hp : p.Writable) (hh : p.hint = .ok g) (hg : (groups [] code)[k]? = some ([g], x))
    (hs : (stops cost .empty ctx code)[k]? = some s) :
    p.valuCycles.toInt ≤ s.required.valuCycles.toInt ∧
      p.transCycles.toInt ≤ s.required.transCycles.toInt := by
  have hoperands : ∀ i ∈ code, i.isHint → i.operands = [] :=
    fun i hi hh => (hcode.soundHint hi hh).operands_eq
  obtain ⟨q, -, hqueued⟩ := queued_of_group hoperands (q := .empty) rfl hg hs
  obtain ⟨hv, ht⟩ := hp.cycles_nonneg
  obtain ⟨hvc, htc⟩ := Requirement.cycles_withCycles hv ht q
  obtain ⟨-, hvle, -, htle, -⟩ :=
    Pending.within_of_demand (demand_of_stop hs (getElem?_of_group hg))
  obtain ⟨-, -, rfl⟩ := Requirement.hint_eq_ok hh
  rw [← hvc, ← htc]
  rw [hqueued] at hvle htle
  exact ⟨hvle, htle⟩

/-- A scan makes the hints that it finds stricter, if it changes them at all. -/
theorem Run.tightening (h : Run cost .empty ctx code out last) (hctx : ctx.Expressible 127)
    (hcode : Written code) : Tightening code out := by
  intro k g x hslot
  obtain ⟨hg, p, hp, hne, hh⟩ := Hinted.group_of_slot hcode hslot
  have hsound : ∀ i ∈ code, i.isHint → i.SoundHint := fun i hi => hcode.soundHint hi
  have hmem {w : Wait} : w ∈ [g].flatMap Instr.conditions ↔ g.WaitsFor w := by
    rw [List.flatMap_singleton, Instr.mem_conditions]
  obtain ⟨w, src, hw, hsrc⟩ := hp.exists_wait hne hh
  obtain ⟨s, g', hs, hh', hslot'⟩ := exists_hint_of_group hsound h hg (hmem.mpr hw) hsrc
  have hread {e : Requirement} (he : s.pending.ReadBy x e) : e.Expressible 127 := by
    obtain ⟨-, r, -, hr⟩ := he
    exact (expressible_of_stop hctx hcode (List.mem_of_getElem? hs) r e hr).2
  obtain ⟨hvle, htle⟩ := cycles_of_group hcode hp.writable hh hg hs
  obtain ⟨hvalu, htrans⟩ := Requirement.passFlags_of_hint hh
  obtain ⟨hvalu', htrans'⟩ := Requirement.passFlags_of_hint hh'
  refine ⟨g', hslot', ⟨fun {w src} hw hsrc => ?_, by omega, by omega⟩⟩
  have hlast : lastLevel src ([g].flatMap Instr.conditions) ≤ w.level := by
    obtain ⟨v, hv⟩ := exists_lastWait (hmem.mpr hw) hsrc
    rw [lastLevel_of_lastWait hv]
    exact Int.le_of_eq (Requirement.level_eq_of_waitsFor hp.writable.ranged hp.salu_range.1 hh
      (hmem.mp (mem_of_lastWait hv)) hw (source?_of_lastWait hv) hsrc)
  rw [keeps_iff_of_group hsound hg hs hh' (fun e he => (hread he).trans_range.1) hsrc]
  refine .inl ⟨.inl hlast, fun _ e he hzero => ?_⟩
  have hone := (hread he).valu_range.1
  rw [hzero] at hone
  exact absurd hone (by decide)

end Scan

/-- What every scan does to the code of a block holds between any two of them. -/
theorem Recorded.tightening {cost : Instr → Cost} {b : Block} {vs : List Visit} {c : Cell}
    (h : Recorded cost b vs c)
    (hvs : ∀ v ∈ vs, v.entry.Expressible 127 ∧ Scan.Written v.before) :
    vs.Pairwise (fun v w => Tightening v.after w.after) ∧
      ∀ v ∈ vs, Tightening v.after c.block.instrs := by
  induction h with
  | unvisited => exact ⟨.nil, by simp⟩
  | @visited vs c v _ hb hs ih =>
    obtain ⟨hpairs, hold⟩ := ih fun u hu => hvs u (List.mem_append_left _ hu)
    obtain ⟨hentry, hbefore⟩ := hvs v (List.mem_append_right _ (List.mem_singleton_self v))
    have hscan : Tightening c.block.instrs v.after :=
      hb ▸ (Scan.run_of_eq_ok hs).tightening hentry hbefore
    have hnew : ∀ u ∈ vs, Tightening u.after v.after := fun u hu => (hold u hu).trans hscan
    refine ⟨List.pairwise_append.mpr ⟨hpairs, List.pairwise_singleton _ _, ?_⟩, fun u hu => ?_⟩
    · intro u hu w hw
      rw [List.mem_singleton.mp hw]
      exact hnew u hu
    · rcases List.mem_append.mp hu with hu | hu
      · exact hnew u hu
      · rw [List.mem_singleton.mp hu]
        exact tightening_refl _

/-- Waits only get stricter while hints are inserted, whether insertion returns or not. Take two
scans of one block: where the earlier one left a hint, the later one left a hint, with a vector and
a transcendental wait for no older instruction, and no fewer cycles. A scalar wait is there for as
many cycles unless the later hint has no room for it. -/
theorem Program.waits_tighten {p : Program}
    (hplain : ∀ b ∈ p.blocks, ∀ i ∈ b.instrs, ¬ i.isHint ∧ ¬ i.isWmma) :
    (∀ s, Walk.Reached p.cost p.blocks s → ∀ pos < p.blocks.length,
      (Event.visitsOf s.events.toList pos).Pairwise fun v w => Tightening v.after w.after) ∧
    ∀ r, p.insertHints = .ok r → ∀ pos < p.blocks.length,
      (r.visitsOf pos).Pairwise fun v w => Tightening v.after w.after := by
  have hreached {s : Walk} (hs : Walk.Reached p.cost p.blocks s) {pos : Nat}
      (hpos : pos < p.blocks.length) :
      (Event.visitsOf s.events.toList pos).Pairwise fun v w => Tightening v.after w.after := by
    have hkeeping := hs.keeping (Scan.keeps_written p.cost)
      fun b hb => Hinted.of_plain (hplain b hb)
    obtain ⟨c, -, hrec⟩ := hs.tracked.recorded (List.getElem?_eq_getElem hpos)
    exact (hrec.tightening (hkeeping.visits pos)).1
  refine ⟨fun s hs pos hpos => hreached hs hpos, fun r hr pos hpos => ?_⟩
  obtain ⟨w, hw, rfl⟩ := insertHints_eq_ok.mp hr
  exact hreached (Walk.Reached.start.run hw) hpos

/-- A loop that reads a register in front of the instruction that writes it. On the way in, the
register was written one instruction earlier. -/
def closerLoop : Program where
  model := CycleModel.ofClasses .gfx11 CycleModel.gfx11Cost
  wave := .w32
  blocks :=
    [{ index := 0, kind := .ofLabel .topLevel, depth := 0, succs := [1]
       instrs := [.unary .vMovB32 256 266, .unary .vMovB32 258 266] },
     { index := 1, kind := .ofLabel .loopHeader, depth := 1, preds := [0, 1], succs := [1, 2]
       instrs := [.unary .vMovB32 257 256, .unary .vMovB32 256 266] },
     { index := 2, kind := .ofLabel .loopExit, depth := 0, preds := [1] }]

/-- The first hint is read back and waits before the loop's own result is looked up, of whose four
cycles one is left by then. The second hint still stands for the three cycles of the first one. -/
theorem waits_tighten_closerLoop : ∃ r v w h h', closerLoop.insertHints = .ok r ∧
    (∀ b ∈ closerLoop.blocks, ∀ i ∈ b.instrs, ¬ i.isHint ∧ ¬ i.isWmma) ∧
    r.visitsOf 1 = [v, w] ∧
    (slots none v.after)[0]? = some (some h, .unary .vMovB32 257 256) ∧
    (slots none w.after)[0]? = some (some h', .unary .vMovB32 257 256) ∧
    h' ≠ h ∧ h.WaitsFor (.valuDep 1) ∧ h.AsStrict h' := by
  let found (back : Nat) : Option (Option Instr × Instr) :=
    some (some { opcode := .sDelayAlu, imm := Immediate.ofWaits back 0, passFlags := 3 },
      .unary .vMovB32 257 256)
  have hplain : ∀ b ∈ closerLoop.blocks, ∀ i ∈ b.instrs, ¬ i.isHint ∧ ¬ i.isWmma := by decide
  obtain ⟨r, hr, hslots⟩ := Program.exists_insertHints (p := closerLoop) (n := 10)
    (P := fun r => decide
      ((r.visitsOf 1).map (fun v => (slots none v.after)[0]?) = [found 2, found 1]))
    (by decide +kernel)
  obtain ⟨v, vs, hv, hfirst, hrest⟩ := List.map_eq_cons_iff.mp (of_decide_eq_true hslots)
  obtain ⟨w, ws, rfl, hsecond, hnil⟩ := List.map_eq_cons_iff.mp hrest
  obtain rfl := List.map_eq_nil_iff.mp hnil
  have hpairs := (Program.waits_tighten hplain).2 r hr 1 (by decide)
  rw [hv, List.pairwise_pair] at hpairs
  obtain ⟨h', hslot', hstrict⟩ := hpairs 0 _ _ hfirst
  obtain ⟨hsome, -⟩ := Prod.mk.inj (Option.some.inj (hsecond.symm.trans hslot'))
  obtain rfl := Option.some.inj hsome
  exact ⟨r, v, w, _, _, hr, hplain, hv, hfirst, hslot', by decide, by decide, hstrict⟩

end DelayHint

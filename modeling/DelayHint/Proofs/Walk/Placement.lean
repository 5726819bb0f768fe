import DelayHint.Proofs.Requirement.Encoding
import DelayHint.Proofs.Scan.Slots
import DelayHint.Proofs.Walk.Reached

/-! Where hints stand. What a scan has queued comes from the instruction that it writes the hint
for, or from a hint that already stood there, so every hint is in front of an ALU instruction. -/
namespace DelayHint

namespace Scan

variable {cost : Instr → Cost} {q q' q'' : Requirement} {ctx ctx' last : Pending} {i : Instr}
  {code rest hints out : List Instr}

private theorem ranged_demand (hq : q.Ranged) (hn : ctx.Normal) (h : ctx.demand q i = .ok q') :
    q'.Ranged :=
  Pending.demand_induction Requirement.Ranged.join (fun he => (hn _ _ he).ranged) hq h

/-- What is written for an instruction was asked for by it or by a hint in front of it. -/
private theorem isAlu_of_demand (hd : ctx.demand q i = .ok q') (hq : q.isEmpty = false → i.isAlu)
    (he : q'.isEmpty = false) : i.isAlu := by
  rcases Pending.demand_cases hd with ⟨-, rfl⟩ | ⟨units, halu, -, -⟩
  · exact hq he
  · exact halu

private theorem placed_flush (hf : flush q = .ok (hints, q')) (hq : q.Ranged) (hi : ¬ i.isHint)
    (halu : q.isEmpty = false → i.isAlu) (hout : Placed out) : Placed (hints ++ i :: out) := by
  have hplain : Placed (i :: out) := placed_cons.mpr ⟨fun h => absurd h hi, hout⟩
  rcases flush_cases hf with ⟨-, rfl, -⟩ | ⟨h, he, hh, rfl, -⟩
  · exact hplain
  · obtain ⟨hvalu, htrans, -⟩ := Requirement.hint_eq_ok hh
    obtain ⟨hvalid, hskip⟩ := Requirement.Writable.validHint ⟨hq, hvalu, htrans⟩ hh
    refine placed_cons.mpr ⟨fun _ => ?_, hplain⟩
    exact ⟨hvalid.defs_eq, hvalid.operands_eq, hskip, i, rfl, halu he, hi⟩

/-- A scan of code with hints in their places leaves such code. What is queued belongs to the next
instruction. -/
theorem Run.placed (h : Run cost q ctx code out last) (hcode : Placed code) (hctx : ctx.Normal)
    (hq : q.Ranged) (hnext : q.isEmpty = false → AluNext code) : Placed out := by
  induction h with
  | done hf =>
    rcases flush_cases hf with ⟨-, rfl, -⟩ | ⟨h, he, -, -, -⟩
    · exact hcode
    · obtain ⟨x, hx, -⟩ := hnext he
      cases hx
  | hint hi hs _ ih =>
    obtain ⟨waited, hd, -, -⟩ := step_eq_ok hs
    rw [if_pos hi] at hd
    obtain ⟨hhint, hrest⟩ := placed_cons.mp hcode
    obtain ⟨-, -, -, halu⟩ := hhint hi
    exact ih hrest (normal_step hs hctx) (ranged_demand (hq.withHint _) hctx hd) fun _ => halu
  | plain hi hs hf _ ih =>
    obtain ⟨waited, hd, -, -⟩ := step_eq_ok hs
    rw [if_neg hi] at hd
    have hq' := ranged_demand hq hctx hd
    obtain ⟨-, rfl, -⟩ := flush_eq_ok hf
    have hout := ih (placed_cons.mp hcode).2 (normal_step hs hctx)
      (left_induction (Requirement.ranged_of_isEmpty rfl) hq') fun he => by
        rw [isEmpty_left] at he
        cases he
    refine placed_flush hf hq' hi (isAlu_of_demand hd fun he => ?_) hout
    obtain ⟨x, hx, halu, -⟩ := hnext he
    exact Option.some.inj hx ▸ halu

theorem keeps_placed (cost : Instr → Cost) : Keeps cost Pending.Normal Placed where
  empty := Pending.normal_empty
  join := Pending.Normal.join
  scan hctx hcode h := by
    have hplaced := (run_of_eq_ok h).placed hcode hctx (Requirement.ranged_of_isEmpty rfl)
      fun he => by cases he
    exact ⟨normal_block h hctx, hplaced⟩

end Scan

/-- Where hints stand after insertion into a program without any. In every block of the result, and
after every scan on the way there, each hint has no registers, skips no instruction and is right in
front of an ALU instruction that is not a hint. -/
theorem Program.hints_placed {p : Program} {r : Insertion}
    (hplain : ∀ b ∈ p.blocks, ∀ i ∈ b.instrs, ¬ i.isHint) (h : p.insertHints = .ok r) :
    (∀ b ∈ r.program.blocks, Placed b.instrs) ∧
      ∀ pos < p.blocks.length, ∀ v ∈ r.visitsOf pos, Placed v.after := by
  obtain ⟨w, hw, rfl⟩ := insertHints_eq_ok.mp h
  have hreached : Walk.Reached p.cost p.blocks w := Walk.Reached.start.run hw
  have hkeeps := Scan.keeps_placed p.cost
  obtain ⟨hcells, hvisits⟩ := hreached.keeping hkeeps fun b hb => placed_of_plain (hplain b hb)
  constructor
  · intro b hb
    obtain ⟨c, hc, rfl⟩ := List.mem_map.mp hb
    exact (hcells c hc).2.2
  · intro pos hpos v hv
    obtain ⟨c, -, hrec⟩ := hreached.tracked.recorded (List.getElem?_eq_getElem hpos)
    obtain ⟨hentry, hbefore⟩ := hvisits pos v hv
    exact (hkeeps.scan hentry hbefore (hrec.scan_of_mem hv)).2

/-- The last scan of the inner header comes upon the hint of an earlier one. -/
theorem hints_placed_nestedLoops : ∃ r v b, nestedLoops.insertHints = .ok r ∧
    (∀ b ∈ nestedLoops.blocks, ∀ i ∈ b.instrs, ¬ i.isHint) ∧
    (r.visitsOf 2).getLast? = some v ∧ v.before.any Instr.isHint ∧
    r.program.blocks[2]? = some b ∧ b.instrs.any Instr.isHint ∧ Placed b.instrs := by
  have hplain : ∀ b ∈ nestedLoops.blocks, ∀ i ∈ b.instrs, ¬ i.isHint := by decide
  obtain ⟨r, hr, hall⟩ := Program.exists_insertHints (p := nestedLoops) (n := 40)
    (P := fun r => (r.visitsOf 2).getLast?.any (fun v => v.before.any Instr.isHint) &&
      r.program.blocks[2]?.any fun b => b.instrs.any Instr.isHint) (by decide +kernel)
  obtain ⟨hlast, hblock⟩ := Bool.and_eq_true_iff.mp hall
  obtain ⟨v, hv, hbefore⟩ := (Option.any_eq_true _ _).mp hlast
  obtain ⟨b, hb, hhint⟩ := (Option.any_eq_true _ _).mp hblock
  exact ⟨r, v, b, hr, hplain, hv, hbefore, hb, hhint,
    (Program.hints_placed hplain hr).1 b (List.mem_of_getElem? hb)⟩

end DelayHint

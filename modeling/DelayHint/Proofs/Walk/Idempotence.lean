import DelayHint.Proofs.Scan.Repeat
import DelayHint.Proofs.Walk.Safety

/-! A second insertion changes nothing. Its walk may come to the loops in other states than the
first one, but nowhere is more pending than at the end of the first walk. From there on down every
scan writes the hints that are already there. -/
namespace DelayHint

namespace Walk

variable {cost : Instr → Cost} {blocks : List Block} {s t w : Walk} {cell : Cell}

/-- The walk `s` has the code of `w`, and no more is pending anywhere. -/
def Below (w s : Walk) : Prop :=
  ∀ (pos : Nat) (c : Cell), s.cells[pos]? = some c → ∃ d, w.cells[pos]? = some d ∧
    c.block = d.block ∧ c.entry.Within d.entry ∧ c.exit.Within d.exit

/-- In the walk `w` every block covers its predecessors, and a scan of its code that starts with no
more pending leaves the code as it is. -/
def Repeatable (cost : Instr → Cost) (w : Walk) : Prop :=
  ∀ (pos : Nat) (d : Cell), w.cells[pos]? = some d → ¬ d.block.isDiscardExit →
    (∀ q ∈ d.block.preds, ∀ {e}, w.cells[q]? = some e → e.exit.Within d.entry) ∧
    ∀ {ctx : Pending}, ctx.Expressible 1 → ctx.Within d.entry →
      ∃ last : Pending, Scan.block cost ctx d.block.instrs = .ok (d.block.instrs, last) ∧
        last.Within d.exit

/-- The end of a walk over a structured layout is such a walk. -/
theorem repeatable_of_run (hc : Prompt cost) (hst : Structured blocks)
    (hrun : run cost (start blocks) = .ok w)
    (hkept : Kept blocks (Pending.Expressible 1) (Requirement.Expressible 1) Instr.Ordinary w)
    (ht : Tracked cost blocks w) : Repeatable cost w := by
  intro pos d hd hdis
  have hlt : pos < blocks.length := ht.length_eq ▸ (List.getElem?_eq_some_iff.mp hd).1
  obtain ⟨c, hget, hr⟩ := ht.recorded (List.getElem?_eq_getElem hlt)
  obtain rfl : c = d := Option.some.inj (hget.symm.trans hd)
  have hshape := hr.shape_eq
  obtain ⟨d, hd, hr, hv, hcovers⟩ := run_settled hst hrun (List.getElem?_eq_getElem hlt)
    (Block.isDiscardExit_congr hshape ▸ hdis)
  obtain rfl : c = d := Option.some.inj (hget.symm.trans hd)
  obtain ⟨v, hlast, hentry, hexit, hafter, hscan⟩ := hr.last_visit hv
  obtain ⟨hbefore, hcode⟩ := hkept.visits pos v (List.mem_of_getLast? hlast)
  obtain ⟨-, -, -, hpreds, -⟩ := Block.shape_eq_iff.mp hshape
  refine ⟨fun q hq e he => ?_, fun hctx hle => ?_⟩
  · obtain ⟨e', he', hcov⟩ := hcovers q (hpreds ▸ hq)
    obtain rfl : e = e' := Option.some.inj (he.symm.trans he')
    exact Pending.join_eq_iff_within.mp hcov
  · rw [← hafter, ← hexit]
    exact Scan.run_again hc hcode hctx hbefore (hentry ▸ hle) (Scan.run_of_eq_ok hscan)

private theorem below_start (w : Walk) : Below w (start (w.cells.map Cell.block)) := by
  intro pos c hc
  rw [start, List.map_map, List.getElem?_map] at hc
  obtain ⟨d, hd, rfl⟩ := Option.map_eq_some_iff.mp hc
  exact ⟨d, hd, rfl, Pending.empty_within _, Pending.empty_within _⟩

theorem Below.step (hs : Below w s) (hw : Repeatable cost w) (hp : Prompt cost)
    (hk : Kept blocks (Pending.Expressible 1) (Requirement.Expressible 1) Instr.Ordinary s)
    (hc : s.cells[s.pos]? = some cell) (h : Step cost s cell t) : Below w t := by
  cases h with
  | discard => exact hs
  | idle => exact hs
  | back => exact hs
  | @visit _ hdis loops entry exit _ instrs _ hg _ hscan =>
    obtain ⟨d, hd, hblock, hentry, -⟩ := hs _ _ hc
    rw [hblock] at hdis hg hscan
    obtain ⟨hpreds, hagain⟩ := hw _ _ hd hdis
    have hle : entry.Within d.entry := by
      refine gather_induction (J := fun ctx => ctx.Within d.entry) Pending.Within.join ?_ hentry hg
      intro q hq e he
      obtain ⟨f, hf, -, -, hexit⟩ := hs _ _ he
      exact hexit.trans (hpreds q hq hf)
    obtain ⟨last, hlast, hexit⟩ := hagain (hk.gather hp.steady hc (hblock ▸ hg)) hle
    obtain ⟨rfl, rfl⟩ := Prod.mk.inj (Except.ok.inj (hscan.symm.trans hlast))
    intro pos c hc'
    by_cases hpos : s.pos = pos
    · subst hpos
      rw [List.getElem?_set_self (List.getElem?_eq_some_iff.mp hc).1] at hc'
      cases hc'
      exact ⟨d, hd, by rw [hblock], hle, hexit⟩
    · rw [List.getElem?_set_ne hpos] at hc'
      exact hs pos c hc'

/-- A walk over the code that a walk has left ends with the same code. -/
theorem exists_run_again (hc : Prompt cost) (hst : Structured blocks)
    (hcode : ∀ b ∈ blocks, Hinted (Requirement.Expressible 1) Instr.Ordinary b.instrs) :
    ∃ w t, run cost (start blocks) = .ok w ∧ run cost (start (w.cells.map Cell.block)) = .ok t ∧
      t.cells.map Cell.block = w.cells.map Cell.block := by
  obtain ⟨w, hw, hkept, ht⟩ := exists_run_start hc.steady hst.walkable hcode
  have hwalk : Walkable (w.cells.map Cell.block) :=
    hst.walkable.congr (ht.map_block fun hr => hr.shape_eq).symm
  have hcode' : ∀ b ∈ w.cells.map Cell.block,
      Hinted (Requirement.Expressible 1) Instr.Ordinary b.instrs := by
    intro b hb
    obtain ⟨c, hmem, rfl⟩ := List.mem_map.mp hb
    exact (hkept.cells c hmem).2.2
  obtain ⟨t, ht', -, -⟩ := exists_run_start hc.steady hwalk hcode'
  have hrep := repeatable_of_run hc hst hw hkept ht
  obtain ⟨⟨-, hbelow⟩, htracked, -⟩ := start_induction
    (motive := fun s => Kept (w.cells.map Cell.block) (Pending.Expressible 1)
      (Requirement.Expressible 1) Instr.Ordinary s ∧ Below w s)
    ⟨kept_start hc.steady hcode', below_start w⟩
    (fun ht hs hget hstep => ⟨hs.1.step hc.steady hwalk ht hget hstep,
      hs.2.step hrep hc hs.1 hget hstep⟩) ht'
  refine ⟨w, t, hw, ht', List.ext_getElem (by simp [htracked.length_eq]) fun pos h1 h2 => ?_⟩
  rw [List.length_map] at h1
  obtain ⟨d, hd, hblock, -⟩ := hbelow pos _ (List.getElem?_eq_getElem h1)
  obtain ⟨_, rfl⟩ := List.getElem?_eq_some_iff.mp hd
  rw [List.getElem_map, List.getElem_map, hblock]

end Walk

namespace CycleModel

variable {g : Generation} {m : CycleModel} {i : Instr}

private theorem cost_of_gfx11 (hm : gfx11 g = .ok m) (hi : ¬ i.isValu) (lanes : Nat) :
    m.cost i lanes = gfx11Cost i.pipe := by
  unfold gfx11 at hm
  split at hm
  · obtain rfl := Except.ok.inj hm
    exact if_neg fun h => hi h.2
  · cases hm

private theorem prompt_of_gfx11 (hm : gfx11 g = .ok m) (lanes : Nat) :
    Prompt fun i => m.cost i lanes where
  hint i hi := by
    rw [Instr.isHint, beq_iff_eq] at hi
    have hv : ¬ i.isValu := by
      rw [Instr.isValu, Instr.format, hi]
      decide
    rw [cost_of_gfx11 hm hv, Instr.pipe, hi]
    rfl
  salu i hi := by
    have hall : ∀ o : Opcode, o.format.isSalu → ¬ o.format.isValu ∧
        (gfx11Cost o.pipe).latency.toNat ≤ 1 + (gfx11Cost o.pipe).issue.toNat := by
      intro o
      cases o <;> decide
    obtain ⟨hv, hle⟩ := hall i.opcode hi
    rw [cost_of_gfx11 hm hv]
    exact hle

end CycleModel

/-- Insertion is idempotent from GFX11 on. If a program is structured and valid and has neither
hints nor matrix instructions, both insertions return and the second one leaves the program as it
is. -/
theorem Program.insertHints_idempotent {p : Program} {g : Generation}
    (hm : CycleModel.gfx11 g = .ok p.model) (hst : Structured p.blocks) (hv : p.violation? = none)
    (hplain : ∀ b ∈ p.blocks, ∀ i ∈ b.instrs, ¬ i.isHint)
    (hwmma : ∀ b ∈ p.blocks, ∀ i ∈ b.instrs, ¬ i.isWmma) :
    ∃ r r', p.insertHints = .ok r ∧ r.program.insertHints = .ok r' ∧ r'.program = r.program := by
  obtain ⟨w, t, hw, ht, hsame⟩ := Walk.exists_run_again
    (CycleModel.prompt_of_gfx11 hm p.wave.lanes) hst
    (hinted_of_valid hv hplain fun b hb i hi hfits => ⟨hfits, hwmma b hb i hi⟩)
  refine ⟨.ofWalk p w, .ofWalk { p with blocks := w.cells.map Cell.block } t,
    insertHints_eq_ok.mpr ⟨w, hw, rfl⟩, insertHints_eq_ok.mpr ⟨t, ht, rfl⟩, ?_⟩
  simp only [Insertion.ofWalk, hsame]

/-- The nested loops on GFX12, with 64 lanes. -/
def wideLoops : Program :=
  { nestedLoops with
    model := (CycleModel.gfx11 .gfx12).toOption.getD nestedLoops.model
    wave := .w64 }

theorem insertHints_idempotent_wideLoops : CycleModel.gfx11 .gfx12 = .ok wideLoops.model ∧
    ∃ r r', wideLoops.insertHints = .ok r ∧ wideLoops.blocks.length < r.visits.length ∧
      wideLoops.numInstrs < r.program.numInstrs ∧ r.program.insertHints = .ok r' ∧
      r'.program = r.program := by
  refine ⟨rfl, ?_⟩
  obtain ⟨r, r', hr, hr', hsame⟩ := Program.insertHints_idempotent (p := wideLoops) (g := .gfx12)
    rfl structured_nestedBlocks (by decide) (by decide) (by decide)
  obtain ⟨r₁, hr₁, hmore⟩ := Program.exists_insertHints (p := wideLoops) (n := 40)
    (P := fun r => decide (wideLoops.blocks.length < r.visits.length ∧
      wideLoops.numInstrs < r.program.numInstrs)) (by decide +kernel)
  obtain rfl : r = r₁ := Except.ok.inj (hr.symm.trans hr₁)
  obtain ⟨hvisits, hnum⟩ := of_decide_eq_true hmore
  exact ⟨r, r', hr, hvisits, hnum, hr', hsame⟩

end DelayHint

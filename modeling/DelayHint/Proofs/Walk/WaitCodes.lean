import DelayHint.Proofs.Compact.Validity
import DelayHint.Proofs.Walk.Reached
import DelayHint.Proofs.Walk.Revisit

/-! What the hints of a program wait for in the end. Each stands for the requirement that the last
scan of its block found there, and has the codes of its counts. A vector count of zero has no code,
and only a matrix instruction leaves one: its own result is not one instruction old when the next
instruction is issued. -/
namespace DelayHint

private theorem Requirement.valu_pos_of_settle? {p q : Requirement} (hq : 1 ≤ q.valuInstrs.toInt)
    (h : q.settle? = some p) : 1 ≤ p.valuInstrs.toInt := by
  have hv := valu_normalize q
  rw [(settle?_eq_some h).1]
  split at hv <;> omega

namespace Pending

variable {cost : Instr → Cost} {ctx ctx' : Pending} {q : Requirement} {r : Reg}

/-- Whatever is waited for, what is still pending has been counted before. -/
theorem Expressible.wait (h : ctx.Expressible 127) (hw : ctx.wait q = .ok ctx') :
    ctx'.Expressible 127 := by
  intro r e he
  have hn : e.Normal := h.normal.wait hw r e he
  refine ⟨hn, hn.expressible ?_ (Int8.toInt_le _)⟩
  rcases wait_cases hw with ⟨-, rfl⟩ | ⟨-, rfl⟩
  · exact (h r e he).2.valu_range.1
  · rw [discharge, RegMap.get?_filterMap] at he
    obtain ⟨d, hd, hset⟩ := Option.bind_eq_some_iff.mp he
    rw [get?_pass] at hd
    obtain ⟨c, hc, hpass⟩ := Option.bind_eq_some_iff.mp hd
    have hc' : 1 ≤ (c.advance false false q.maxCycles.toInt).valuInstrs.toInt :=
      (h r c hc).2.valu_range.1
    have hpos : 1 ≤ d.valuInstrs.toInt := Requirement.valu_pos_of_settle? hc' hpass
    refine Requirement.valu_pos_of_settle? ?_ hset
    simp only
    split
    · decide
    · exact hpos

end Pending

namespace Scan

variable {cost : Instr → Cost} {q q' : Requirement} {ctx ctx' last : Pending}
  {code out : List Instr} {i : Instr}

theorem expressible_step (hi : ¬ i.isWmma) (h : step cost q ctx i = .ok (q', ctx'))
    (hctx : ctx.Expressible 127) : ctx'.Expressible 127 := by
  obtain ⟨waited, -, hw, hissue⟩ := step_eq_ok h
  have hcost : i.isSalu →
      min 127 ((cost i).latency.toNat : Int) ≤ 127 + (cost i).issue.toNat := fun _ => by omega
  exact (hctx.wait hw).issue (by decide) hi hcost hissue

/-- Without matrix instructions every pending result stays one that a hint can wait for. -/
theorem keeps_expressible (cost : Instr → Cost) : Keeps cost (Pending.Expressible 127)
    fun code => ∀ i ∈ code, ¬ i.isWmma where
  empty r e he := by cases he
  join := Pending.Expressible.join
  scan {ctx exit code out} hctx hcode h := by
    have hrun := run_of_eq_ok h
    refine ⟨hrun.pending (fun hi hs => expressible_step (hcode _ hi) hs) hctx, fun i hi => ?_⟩
    by_cases hh : i.isHint
    · exact Instr.not_isWmma_of_isHint hh
    · have hmem : i ∈ withoutHints out := List.mem_filter.mpr ⟨hi, by simpa using hh⟩
      rw [hrun.withoutHints_eq] at hmem
      exact hcode i (List.mem_filter.mp hmem).1

/-- A scan leaves every hint in front of an instruction, and written for it. What every step keeps
of the queue and the pending results holds of what the hints are written for. -/
theorem Run.hinted {J : Pending → Prop} {P : Requirement → Prop} {Q : Instr → Prop}
    (hempty : P .empty)
    (hstep : ∀ {q q' ctx ctx' i}, step cost q ctx i = .ok (q', ctx') → J ctx → P q →
      ¬ i.isHint ∧ Q i ∨ q.isEmpty = true ∧ (∃ p, P p ∧ p.hint = .ok i) → J ctx' ∧ P q')
    (h : Run cost q ctx code out last) (hcode : Hinted P Q code) (hJ : J ctx) (hP : P q)
    (he : q.isEmpty = true) : Hinted P Q out ∧ J last := by
  have hplain {q q' : Requirement} {hints out : List Instr} {x : Instr}
      (hf : flush q = .ok (hints, q')) (hP : P q) (hx : ¬ x.isHint) (hQ : Q x)
      (hout : Hinted P Q out) : Hinted P Q (hints ++ x :: out) := by
    rcases flush_cases hf with ⟨-, rfl, -⟩ | ⟨hint, hne, hh, rfl, -⟩
    · exact .plain hx hQ hout
    · exact .hint hP hne hh hx hQ hout
  induction hcode generalizing q ctx out with
  | nil =>
    cases h with
    | done hf =>
      rcases flush_cases hf with ⟨-, rfl, -⟩ | ⟨-, hne, -, -, -⟩
      · exact ⟨.nil, hJ⟩
      · rw [he] at hne
        cases hne
  | plain hx hQ _ ih =>
    cases h with
    | hint hi => exact absurd hi hx
    | plain _ hs hf h =>
      obtain ⟨hJ', hP'⟩ := hstep hs hJ hP (.inl ⟨hx, hQ⟩)
      obtain ⟨-, rfl, -⟩ := flush_eq_ok hf
      obtain ⟨hout, hlast⟩ := ih h hJ' (left_induction hempty hP') (isEmpty_left _)
      exact ⟨hplain hf hP' hx hQ hout, hlast⟩
  | hint hp _ hi hx hQ _ ih =>
    cases h with
    | plain hn => exact absurd (Requirement.isHint_of_hint hi) hn
    | hint _ hs₁ h =>
      obtain ⟨hJ₁, hP₁⟩ := hstep hs₁ hJ hP (.inr ⟨he, _, hp, hi⟩)
      cases h with
      | hint hi => exact absurd hi hx
      | plain _ hs hf h =>
        obtain ⟨hJ', hP'⟩ := hstep hs hJ₁ hP₁ (.inl ⟨hx, hQ⟩)
        obtain ⟨-, rfl, -⟩ := flush_eq_ok hf
        obtain ⟨hout, hlast⟩ := ih h hJ' (left_induction hempty hP') (isEmpty_left _)
        exact ⟨hplain hf hP' hx hQ hout, hlast⟩

theorem keeps_hinted (cost : Instr → Cost) : Keeps cost Pending.Normal
    (Hinted (fun _ => True) (fun _ => True)) where
  empty := Pending.normal_empty
  join := Pending.Normal.join
  scan hctx hcode h := by
    obtain ⟨hout, hexit⟩ := (run_of_eq_ok h).hinted trivial
      (fun hs hctx _ _ => ⟨normal_step hs hctx, trivial⟩) hcode hctx trivial rfl
    exact ⟨hexit, hout⟩

end Scan

/-- The hints of such code are those in front of its instructions. -/
theorem Hinted.filter_isHint {P : Requirement → Prop} {Q : Instr → Prop} {code : List Instr}
    (h : Hinted P Q code) :
    code.filter Instr.isHint = (slots none code).filterMap Prod.fst := by
  induction h with
  | nil => rfl
  | plain hx _ _ ih => simp [slots, hx, ih]
  | hint _ _ hi hx _ _ ih => simp [slots, Requirement.isHint_of_hint hi, hx, ih]

private theorem slot_ne_of_plain {code : List Instr} {k : Nat} {hint x : Instr}
    (hcode : ∀ i ∈ code, ¬ i.isHint) : (slots none code)[k]? ≠ some (some hint, x) := by
  intro h
  have hhinted : Hinted (fun _ => True) (fun _ => True) code :=
    .of_plain fun i hi => ⟨hcode i hi, trivial⟩
  have hmem : hint ∈ (slots none code).filterMap Prod.fst :=
    List.mem_filterMap.mpr ⟨_, List.mem_of_getElem? h, rfl⟩
  rw [← hhinted.filter_isHint] at hmem
  obtain ⟨hin, hhint⟩ := List.mem_filter.mp hmem
  exact hcode hint hin hhint

/-- What the last scan of a block requires at its `k`-th plain instruction. -/
def Insertion.required? (r : Insertion) (pos k : Nat) : Option Requirement := do
  let v ← (r.visitsOf pos).getLast?
  let s ← (Scan.stops r.program.cost .empty v.entry v.before)[k]?
  return s.required

namespace Program

variable {p : Program} {r : Insertion} {w : Walk} {pos k : Nat} {hint x : Instr}

/-- Where a hint stands in the end, the last scan of the block required something. -/
theorem stop_of_slot (hplain : ∀ b ∈ p.blocks, ∀ i ∈ b.instrs, ¬ i.isHint)
    (hw : Walk.run p.cost (Walk.start p.blocks) = .ok w)
    (hslot : (Insertion.ofWalk p w).slot? pos k = some (some hint, x)) :
    ∃ v s, v ∈ Event.visitsOf w.events.toList pos ∧
      (Insertion.ofWalk p w).required? pos k = some s.required ∧
      (Scan.stops p.cost .empty v.entry v.before)[k]? = some s ∧
      (withoutHints v.before)[k]? = some x ∧ s.required.hint? = some hint := by
  have htracked := (Walk.Reached.start.run hw).tracked
  obtain ⟨b', hb', hslot⟩ := Option.bind_eq_some_iff.mp hslot
  have hlt : pos < p.blocks.length := by
    rw [← htracked.length_eq]
    have := (List.getElem?_eq_some_iff.mp hb').1
    rwa [Insertion.ofWalk, List.length_map] at this
  obtain ⟨c, hc, hrec⟩ := htracked.recorded (List.getElem?_eq_getElem hlt)
  obtain rfl : c.block = b' :=
    Option.some.inj ((Insertion.getElem?_ofWalk (p := p) hc).1.symm.trans hb')
  cases hvisited : c.visited with
  | false =>
    rw [hrec.block_of_unvisited hvisited] at hslot
    exact absurd hslot (slot_ne_of_plain (hplain _ (List.getElem_mem hlt)))
  | true =>
    obtain ⟨v, hlast, -, -, hafter, hscan⟩ := hrec.last_visit hvisited
    rw [← hafter] at hslot
    obtain ⟨s, hs, hx, hg⟩ := (Scan.run_of_eq_ok hscan).slot_iff.mp hslot
    refine ⟨v, s, List.mem_of_getLast? hlast, ?_, hs, hx, hg⟩
    have hlast' : ((Insertion.ofWalk p w).visitsOf pos).getLast? = some v := hlast
    simp only [Insertion.required?, hlast', Option.bind_eq_bind, Option.bind_some]
    exact Option.bind_eq_some_iff.mpr ⟨s, hs, rfl⟩

/-- What the hints of a program wait for in the end, if there were none at first. They all stand in
front of instructions. Each was written for what its instruction requires, which is something. It
has a code for a transcendental count, and one for a vector count except zero. The first field is
empty only if that zero is all there is, and a count of zero comes from matrix instructions. -/
theorem hints_wait (hplain : ∀ b ∈ p.blocks, ∀ i ∈ b.instrs, ¬ i.isHint)
    (h : p.insertHints = .ok r) :
    (∀ b ∈ r.program.blocks,
      b.instrs.filter Instr.isHint = (slots none b.instrs).filterMap Prod.fst) ∧
    ∀ pos k hint x, r.slot? pos k = some (some hint, x) →
      ∃ q, r.required? pos k = some q ∧ q.isEmpty = false ∧ q.hint = .ok hint ∧
        (q.transInstrs < 4 → ∃ back, hint.WaitsFor (.transDep back)) ∧
        (q.valuInstrs < 5 → ((∃ back, hint.WaitsFor (.valuDep back)) ↔ q.valuInstrs ≠ 0)) ∧
        (Immediate.first hint.imm = 0 ↔
          q.valuInstrs = 0 ∧ q.transInstrs = 4 ∧ q.saluCycles = 0) ∧
        (q.valuInstrs = 0 → ∃ b ∈ p.blocks, ∃ i ∈ b.instrs, i.isWmma) := by
  obtain ⟨w, hw, rfl⟩ := insertHints_eq_ok.mp h
  have hreached : Walk.Reached p.cost p.blocks w := Walk.Reached.start.run hw
  have hkeeping := hreached.keeping (Scan.keeps_hinted p.cost)
    fun b hb => .of_plain fun i hi => ⟨hplain b hb i hi, trivial⟩
  refine ⟨fun b hb => ?_, fun pos k hint x hslot => ?_⟩
  · obtain ⟨c, hc, rfl⟩ := List.mem_map.mp hb
    exact (hkeeping.cells c hc).2.2.filter_isHint
  · obtain ⟨v, s, hv, hrequired, hs, hx, hg⟩ := stop_of_slot hplain hw hslot
    obtain ⟨hne, hhint⟩ := Requirement.hint?_eq_some hg
    obtain ⟨-, hcounted, -⟩ := Scan.counted_of_stop (hkeeping.visits pos v hv).1 hs hx
    obtain ⟨htrans, hvalu, hfirst⟩ :=
      Requirement.waitsFor_of_hint hcounted.ranged hcounted.salu hhint
    refine ⟨s.required, hrequired, hne, hhint, htrans, hvalu, hfirst hne, fun hzero => ?_⟩
    by_contra hnone
    have hwmma : ∀ b ∈ p.blocks, ∀ i ∈ b.instrs, ¬ i.isWmma :=
      fun b hb i hi hw => hnone ⟨b, hb, i, hi, hw⟩
    obtain ⟨hentry, hbefore⟩ :=
      (hreached.keeping (Scan.keeps_expressible p.cost) hwmma).visits pos v hv
    obtain ⟨-, hcounted', -⟩ := Scan.required_induction (P := Requirement.Counted 1)
      (.empty (by decide)) .join (fun i hq => hq.withHint (by decide) i)
      (fun hctx he => .of_expressible (hctx _ _ he).2)
      (fun hi hs hctx => Scan.expressible_step (hbefore _ hi) hs hctx) hentry hs hx
    have hone := hcounted'.valu
    rw [hzero, Int8.toInt_zero] at hone
    exact absurd hone (by decide)

end Program

/-- The hint in the inner header was written on the last way round, for the vector result of the
body. -/
theorem hints_wait_nestedLoops : ∃ r hint x q, nestedLoops.insertHints = .ok r ∧
    (∀ b ∈ nestedLoops.blocks, ∀ i ∈ b.instrs, ¬ i.isHint) ∧
    r.slot? 2 0 = some (some hint, x) ∧ r.required? 2 0 = some q ∧ q.valuInstrs = 1 ∧
    (∃ back, hint.WaitsFor (.valuDep back)) ∧ Immediate.first hint.imm ≠ 0 := by
  let hint : Instr := { opcode := .sDelayAlu, imm := 1, passFlags := 4 }
  have hplain : ∀ b ∈ nestedLoops.blocks, ∀ i ∈ b.instrs, ¬ i.isHint := by decide
  obtain ⟨r, hr, hall⟩ := Program.exists_insertHints (p := nestedLoops) (n := 40)
    (P := fun r => decide (r.slot? 2 0 = some (some hint, .unary .vMovB32 258 257) ∧
      (r.required? 2 0).map Requirement.valuInstrs = some 1)) (by decide +kernel)
  obtain ⟨hslot, hone⟩ := of_decide_eq_true hall
  obtain ⟨-, hhints⟩ := Program.hints_wait hplain hr
  obtain ⟨q, hq, -, -, -, hvalu, hfirst, -⟩ := hhints 2 0 _ _ hslot
  rw [hq, Option.map_some, Option.some.injEq] at hone
  refine ⟨r, hint, _, q, hr, hplain, hslot, hq, hone, (hvalu ?_).mpr ?_, fun hzero => ?_⟩
  · rw [hone]
    decide
  · rw [hone]
    decide
  · have hvalu0 := (hfirst.mp hzero).1
    rw [hone] at hvalu0
    exact absurd hvalu0 (by decide)

/-- A matrix instruction and an instruction that reads its result. -/
def matrixResult : Program :=
  oneBlock [.matrix ⟨304, by decide⟩ ⟨288, by decide⟩ ⟨312, by decide⟩, .unary .vMovB32 258 304]

/-- The hint in front of the read was written for a vector result, and waits for nothing. -/
theorem hint_without_wait_matrixResult : matrixResult.violation? = none ∧
    (∀ b ∈ matrixResult.blocks, ∀ i ∈ b.instrs, ¬ i.isHint) ∧
    ∃ r hint x q, matrixResult.insertHints = .ok r ∧ r.slot? 0 1 = some (some hint, x) ∧
      r.required? 0 1 = some q ∧ q.valuInstrs < Requirement.valuNop ∧
      Immediate.first hint.imm = Wait.noDep.code ∧
      ∀ back, ¬ hint.WaitsFor (.valuDep back) := by
  refine ⟨by decide, by decide, ?_⟩
  let hint : Instr := { opcode := .sDelayAlu, imm := 0, passFlags := 8 }
  obtain ⟨r, hr, hall⟩ := Program.exists_insertHints (p := matrixResult) (n := 5)
    (P := fun r => decide (r.slot? 0 1 = some (some hint, .unary .vMovB32 258 304) ∧
      r.required? 0 1 = some ⟨0, 8, 4, 0, 0⟩)) (by decide +kernel)
  obtain ⟨hslot, hq⟩ := of_decide_eq_true hall
  exact ⟨r, hint, _, _, hr, hslot, hq, by decide, rfl, by decide⟩

end DelayHint

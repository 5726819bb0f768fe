import DelayHint.Proofs.Pending.Normal
import DelayHint.Proofs.Walk.History

/-! Every moment of a walk: the states that it comes through from block to block, and within a scan
what is queued and pending between two instructions. What joins and scans keep holds at all of
them, also on the way to a fault. -/
namespace DelayHint

namespace Scan

variable {cost : Instr → Cost} {q q' : Requirement} {ctx ctx' last : Pending}
  {code rest out : List Instr}

/-- What is queued and pending behind some code. -/
def after (cost : Instr → Cost) (q : Requirement) (ctx : Pending) :
    List Instr → Except Fault (Requirement × Pending)
  | [] => .ok (q, ctx)
  | i :: rest => do
    let (q, ctx) ← step cost q ctx i
    if i.isHint then after cost q ctx rest
    else
      let (_, q) ← flush q
      after cost q ctx rest

theorem after_cons_cases {i : Instr} (h : after cost q ctx (i :: rest) = .ok (q', ctx')) :
    ∃ q₁ q₂ ctx₁, step cost q ctx i = .ok (q₁, ctx₁) ∧
      after cost q₂ ctx₁ rest = .ok (q', ctx') := by
  obtain ⟨⟨q₁, ctx₁⟩, hs, h⟩ := bind_eq_ok.mp h
  dsimp only at h
  split at h
  · exact ⟨q₁, q₁, ctx₁, hs, h⟩
  · obtain ⟨⟨hints, q₂⟩, -, h⟩ := bind_eq_ok.mp h
    exact ⟨q₁, q₂, ctx₁, hs, h⟩

/-- What every instruction keeps of the pending results holds behind each of them. -/
theorem pending_after {motive : Pending → Prop}
    (hstep : ∀ {q q' ctx ctx' i}, step cost q ctx i = .ok (q', ctx') → motive ctx → motive ctx')
    (h0 : motive ctx) (h : after cost q ctx code = .ok (q', ctx')) : motive ctx' := by
  induction code generalizing q ctx with
  | nil =>
    obtain ⟨-, rfl⟩ := Prod.mk.inj (Except.ok.inj h)
    exact h0
  | cons i rest ih =>
    obtain ⟨q₁, q₂, ctx₁, hs, hrest⟩ := after_cons_cases h
    exact ih (hstep hs h0) hrest

/-- A scan that returns comes behind each of its instructions, and ends with what is pending behind
the last one. -/
theorem Run.exists_after (h : Run cost q ctx code out last) (k : Nat) :
    ∃ q' ctx', after cost q ctx (code.take k) = .ok (q', ctx') ∧
      (code.length ≤ k → ctx' = last) := by
  induction h generalizing k with
  | done => exact ⟨_, _, by rw [List.take_nil]; rfl, fun _ => rfl⟩
  | hint hi hs _ ih =>
    cases k with
    | zero => exact ⟨_, _, rfl, fun hk => absurd hk (by simp)⟩
    | succ k =>
      obtain ⟨q', ctx', ha, hend⟩ := ih k
      refine ⟨q', ctx', ?_, fun hk => hend (Nat.le_of_succ_le_succ hk)⟩
      rw [List.take_succ_cons, after, hs]
      exact (if_pos hi).trans ha
  | plain hi hs hf _ ih =>
    cases k with
    | zero => exact ⟨_, _, rfl, fun hk => absurd hk (by simp)⟩
    | succ k =>
      obtain ⟨q', ctx', ha, hend⟩ := ih k
      refine ⟨q', ctx', ?_, fun hk => hend (Nat.le_of_succ_le_succ hk)⟩
      rw [List.take_succ_cons, after, hs]
      exact (if_neg hi).trans (bind_eq_ok.mpr ⟨_, hf, ha⟩)

/-- What joins and scans keep: `J` of the pending results and `K` of the code. -/
structure Keeps (cost : Instr → Cost) (J : Pending → Prop) (K : List Instr → Prop) : Prop where
  empty : J RegMap.empty
  join : ∀ {a b}, J a → J b → J (a.join b)
  scan : ∀ {ctx exit code out}, J ctx → K code → block cost ctx code = .ok (out, exit) →
    J exit ∧ K out

theorem keeps_normal (cost : Instr → Cost) : Keeps cost Pending.Normal fun _ => True where
  empty := Pending.normal_empty
  join := Pending.Normal.join
  scan hctx _ h := ⟨normal_block h hctx, trivial⟩

end Scan

namespace Walk

variable {cost : Instr → Cost} {blocks : List Block} {s t : Walk} {cell : Cell}
  {J : Pending → Prop} {K : List Instr → Prop}

/-- The states that the walk over some blocks comes through, whether it returns or not. -/
inductive Reached (cost : Instr → Cost) (blocks : List Block) : Walk → Prop where
  | start : Reached cost blocks (start blocks)
  | step {s t : Walk} {cell : Cell} (h : Reached cost blocks s)
    (hc : s.cells[s.pos]? = some cell) (hs : Walk.step cost s cell = .ok t) :
    Reached cost blocks t

theorem Reached.run (hs : Reached cost blocks s) (h : run cost s = .ok t) :
    Reached cost blocks t := by
  fun_induction Walk.run cost s with
  | case1 => exact Except.ok.inj h ▸ hs
  | case2 => cases h
  | case3 s cell hc u hu ih => exact ih (hs.step hc hu) h

theorem Reached.tracked (h : Reached cost blocks s) : Tracked cost blocks s := by
  induction h with
  | start => exact tracked_start
  | step _ hc hs ih => exact ih.step hc (step_of_eq_ok hs)

/-- What joins keep holds of what is gathered. -/
theorem gather_induction {cells : List Cell} {preds : List Nat} {ctx entry : Pending}
    {changed : Bool} (hjoin : ∀ {a b}, J a → J b → J (a.join b))
    (hpreds : ∀ q ∈ preds, ∀ {c}, cells[q]? = some c → J c.exit) (hctx : J ctx)
    (h : gather cells ctx preds = .ok (entry, changed)) : J entry := by
  induction preds generalizing ctx entry changed with
  | nil =>
    cases h
    exact hctx
  | cons p rest ih =>
    obtain ⟨c, later, hc, hg, -⟩ := gather_cons h
    exact ih (fun q hq => hpreds q (List.mem_cons_of_mem _ hq))
      (hjoin hctx (hpreds p List.mem_cons_self hc)) hg

/-- The blocks of a walk and its scans so far have `J` and `K`. -/
structure Keeping (J : Pending → Prop) (K : List Instr → Prop) (s : Walk) : Prop where
  cells : ∀ c ∈ s.cells, J c.entry ∧ J c.exit ∧ K c.block.instrs
  visits : ∀ pos, ∀ v ∈ Event.visitsOf s.events.toList pos, J v.entry ∧ K v.before

theorem keeping_start (hk : Scan.Keeps cost J K) (hcode : ∀ b ∈ blocks, K b.instrs) :
    Keeping J K (start blocks) where
  cells c hc := by
    obtain ⟨b, hb, rfl⟩ := List.mem_map.mp hc
    exact ⟨hk.empty, hk.empty, hcode b hb⟩
  visits pos v hv := by cases hv

theorem Keeping.gather (hs : Keeping J K s) (hk : Scan.Keeps cost J K)
    (hc : s.cells[s.pos]? = some cell) {entry : Pending} {changed : Bool}
    (hg : gather s.cells cell.entry cell.block.preds = .ok (entry, changed)) : J entry :=
  gather_induction hk.join (fun _ _ _ hq => (hs.cells _ (List.mem_of_getElem? hq)).2.1)
    (hs.cells cell (List.mem_of_getElem? hc)).1 hg

theorem Keeping.step (hs : Keeping J K s) (hk : Scan.Keeps cost J K)
    (hc : s.cells[s.pos]? = some cell) (h : Step cost s cell t) : Keeping J K t := by
  cases h with
  | discard => exact ⟨hs.cells, hs.visits⟩
  | idle => exact ⟨hs.cells, hs.visits⟩
  | back =>
    refine ⟨hs.cells, fun pos v hv => ?_⟩
    rw [Array.toList_push, Event.visitsOf_append_loopAgain] at hv
    exact hs.visits pos v hv
  | @visit _ _ _ entry exit _ instrs _ hg _ hscan =>
    have hcode : K cell.block.instrs := (hs.cells cell (List.mem_of_getElem? hc)).2.2
    have hentry : J entry := hs.gather hk hc hg
    obtain ⟨hexit, hout⟩ := hk.scan hentry hcode hscan
    refine ⟨fun c hmem => ?_, fun pos v hv => ?_⟩
    · rcases List.mem_or_eq_of_mem_set hmem with hmem | rfl
      · exact hs.cells c hmem
      · exact ⟨hentry, hexit, hout⟩
    · rw [Array.toList_push, Event.visitsOf_append_scan] at hv
      rcases List.mem_append.mp hv with hv | hv
      · exact hs.visits pos v hv
      · split at hv
        · rw [List.mem_singleton.mp hv]
          exact ⟨hentry, hcode⟩
        · cases hv

/-- What joins and scans keep holds whenever a walk stands between two blocks. -/
theorem Reached.keeping (h : Reached cost blocks s) (hk : Scan.Keeps cost J K)
    (hcode : ∀ b ∈ blocks, K b.instrs) : Keeping J K s := by
  induction h with
  | start => exact keeping_start hk hcode
  | step _ hc hs ih => exact ih.step hk hc (step_of_eq_ok hs)

end Walk

/-- Each scan in the history of a block returned what the history says. -/
theorem Recorded.scan_of_mem {cost : Instr → Cost} {b : Block} {vs : List Visit} {c : Cell}
    (h : Recorded cost b vs c) {v : Visit} (hv : v ∈ vs) :
    Scan.block cost v.entry v.before = .ok (v.after, v.exit) := by
  induction h with
  | unvisited => cases hv
  | visited _ _ hs ih =>
    rcases List.mem_append.mp hv with hv | hv
    · exact ih hv
    · rw [List.mem_singleton.mp hv]
      exact hs

/-- Whatever hints, loops and cycle costs a program has, every context is normal at all times: at
the start and the end of every block and between any two instructions of a scan, also if the walk
faults later on, and in the result. -/
theorem Program.pending_normal (p : Program) :
    (∀ s, Walk.Reached p.cost p.blocks s →
      (∀ c ∈ s.cells, c.entry.Normal ∧ c.exit.Normal) ∧
      ∀ cell entry changed, s.cells[s.pos]? = some cell →
        Walk.gather s.cells cell.entry cell.block.preds = .ok (entry, changed) →
        ∀ k q ctx, Scan.after p.cost .empty entry (cell.block.instrs.take k) = .ok (q, ctx) →
          ctx.Normal) ∧
    ∀ r, p.insertHints = .ok r →
      (∀ ctx ∈ r.entries ++ r.exits, ctx.Normal) ∧
      ∀ pos < p.blocks.length, ∀ v ∈ r.visitsOf pos, ∀ k,
        ∃ q ctx, Scan.after p.cost .empty v.entry (v.before.take k) = .ok (q, ctx) ∧
          ctx.Normal ∧ (v.before.length ≤ k → ctx = v.exit) := by
  have hkeeps := Scan.keeps_normal p.cost
  have hreached {s : Walk} (hs : Walk.Reached p.cost p.blocks s) :
      Walk.Keeping Pending.Normal (fun _ => True) s := hs.keeping hkeeps fun _ _ => trivial
  have hbetween {entry ctx : Pending} {q : Requirement} {code : List Instr} (hn : entry.Normal)
      (ha : Scan.after p.cost .empty entry code = .ok (q, ctx)) : ctx.Normal :=
    Scan.pending_after (fun hstep hctx => Scan.normal_step hstep hctx) hn ha
  constructor
  · intro s hs
    refine ⟨fun c hc => ?_, fun cell entry changed hc hg k q ctx ha => ?_⟩
    · obtain ⟨hentry, hexit, -⟩ := (hreached hs).cells c hc
      exact ⟨hentry, hexit⟩
    · exact hbetween ((hreached hs).gather hkeeps hc hg) ha
  · intro r hr
    obtain ⟨w, hw, rfl⟩ := insertHints_eq_ok.mp hr
    have hend : Walk.Reached p.cost p.blocks w := Walk.Reached.start.run hw
    obtain ⟨hcells, hvisits⟩ := hreached hend
    refine ⟨fun ctx hctx => ?_, fun pos hpos v hv k => ?_⟩
    · rcases List.mem_append.mp hctx with hctx | hctx
      · obtain ⟨c, hc, rfl⟩ := List.mem_map.mp hctx
        exact (hcells c hc).1
      · obtain ⟨c, hc, rfl⟩ := List.mem_map.mp hctx
        exact (hcells c hc).2.1
    · obtain ⟨c, -, hrec⟩ := hend.tracked.recorded (List.getElem?_eq_getElem hpos)
      have hrun := Scan.run_of_eq_ok (hrec.scan_of_mem hv)
      obtain ⟨q, ctx, ha, hlast⟩ := hrun.exists_after k
      exact ⟨q, ctx, ha, hbetween (hvisits pos v hv).1 ha, hlast⟩

/-- A hint without wait codes whose cycle counts are below zero stands between two instructions. -/
def strayHint : Program where
  model := CycleModel.ofClasses .gfx11 CycleModel.gfx11Cost
  wave := .w32
  blocks :=
    [{ index := 0, kind := .ofLabel .topLevel, depth := 0
       instrs := [.unary .vMovB32 256 266, { opcode := .sDelayAlu, passFlags := 0x00ff00ff },
         .unary .vMovB32 257 256] }]

/-- Behind the hint its negative counts are queued, and what is pending is still normal. -/
theorem pending_normal_strayHint : ∃ b q ctx, strayHint.blocks = [b] ∧
    Scan.after strayHint.cost .empty RegMap.empty (b.instrs.take 2) = .ok (q, ctx) ∧
    q.valuCycles < 0 ∧ ctx.size = 1 ∧ ctx.Normal ∧
    ∃ r, strayHint.insertHints = .ok r ∧ r.exits.map RegMap.size = [1] ∧
      ∀ ctx ∈ r.entries ++ r.exits, ctx.Normal := by
  obtain ⟨hreached, hresult⟩ := strayHint.pending_normal
  obtain ⟨-, hbetween⟩ := hreached _ .start
  obtain ⟨r, hr, hsize⟩ := Program.exists_insertHints (p := strayHint) (n := 5)
    (P := fun r => r.exits.map RegMap.size == [1]) (by decide +kernel)
  refine ⟨_, _, _, rfl, rfl, by decide, by decide, ?_, r, hr, beq_iff_eq.mp hsize, (hresult r hr).1⟩
  exact hbetween _ _ _ rfl rfl 2 _ _ rfl

end DelayHint

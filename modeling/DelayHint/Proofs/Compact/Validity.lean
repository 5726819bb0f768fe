import DelayHint.Proofs.Compact.Waits
import DelayHint.Proofs.Scan.Expressible
import DelayHint.Proofs.Walk.Safety
import DelayHint.Schedule

/-! When compacted code is valid. A merged hint is well formed if the hint whose wait it took up has
a wait code. A requirement for the result of a matrix instruction may have none, all others do. -/
namespace DelayHint

/-- The hint `m` took up the wait of `j`. The one thing that can be wrong with it is that it skips
to no wait. -/
structure Instr.TookUp (m j : Instr) : Prop where
  valid_iff : m.Valid ↔ j.imm ≠ 0
  alone : ∀ {block ip v}, m.violation? block ip = some v → v = .hintSkipAlone block ip

private theorem Instr.tookUp_mergeHint {h j : Instr} {d : ℕ} (hh : h.isHint)
    (hlt : h.imm.toNat < 16)
    (hv : h.Valid) (hj : j.isHint) (hjlt : j.imm.toNat < 16) (hjv : j.Valid) (hd : 0 < d)
    (hreach : d < Compact.reach) : (h.mergeHint d j).TookUp j := by
  have hsix : Compact.reach = 6 := rfl
  have hmerge : (h.mergeHint d j).imm.toNat = h.imm.toNat + 16 * d + 128 * j.imm.toNat :=
    Immediate.toNat_merge hlt (by omega) hjlt
  have hhint : (h.mergeHint d j).isHint := hh
  obtain ⟨hops, hdefs, -, hfirst, -, -, -⟩ := hv.hint hh
  obtain ⟨-, -, -, hjfirst, -, -, -⟩ := hjv.hint hj
  have hskip : Immediate.skip (h.mergeHint d j).imm = d := skip_mergeHint hlt (by omega) hjlt
  have hsecond : Immediate.second (h.mergeHint d j).imm = j.imm.toNat := by
    rw [Immediate.second, hmerge]
    omega
  have hzero : j.imm ≠ 0 ↔ j.imm.toNat ≠ 0 := by
    rw [ne_eq, ← UInt32.toNat_inj, UInt32.toNat_zero]
  have hok {block ip : ℕ} : (h.mergeHint d j).violation? block ip =
      if j.imm.toNat = 0 then some (.hintSkipAlone block ip) else none := by
    have hspans : (h.mergeHint d j).spanViolation? block ip = none :=
      spanViolation?_eq_none_iff.mpr hv.fits
    unfold Immediate.first at hfirst hjfirst
    rw [violation?, if_pos hhint, hspans, Option.or_none, hintViolation?,
      if_neg (not_not_intro ⟨hops, hdefs⟩), if_neg (by omega),
      if_neg (by rw [isNone_ofCode?, Immediate.first]; omega),
      if_neg (by rw [isNone_ofCode?, hsecond]; omega),
      if_neg (by rw [hskip, Immediate.maxSkip]; omega), hskip, hsecond]
    simp only [Nat.ne_of_gt hd, ne_eq, not_false_eq_true, true_and]
  constructor
  · have hnone : (h.mergeHint d j).violation? 0 0 = none ↔ (h.mergeHint d j).Valid :=
      violation?_eq_none_iff
    rw [← hnone, hok, hzero]
    split <;> simp_all
  · intro block ip v hviolation
    rw [hok] at hviolation
    split at hviolation
    · exact (Option.some.inj hviolation).symm
    · cases hviolation

namespace Compact

/-- The hints whose wait is given to a hint before them. The number counts the instructions since
the open single hint, if there is one. -/
def absorbed : Option ℕ → List Instr → List Instr
  | _, [] => []
  | none, i :: rest => if i.isSingleHint then absorbed (some 0) rest else absorbed none rest
  | some between, i :: rest =>
    if i.isSingleHint then
      if between < reach then i :: absorbed none rest else absorbed (some 0) rest
    else absorbed (some (between + 1)) rest

private theorem mem_of_mem_absorbed {st : Option ℕ} {code : List Instr} {j : Instr}
    (h : j ∈ absorbed st code) : j ∈ code ∧ j.isHint := by
  fun_induction absorbed st code with
  | case1 => cases h
  | case2 i rest hi ih => exact ⟨List.mem_cons_of_mem _ (ih h).1, (ih h).2⟩
  | case3 i rest hi ih => exact ⟨List.mem_cons_of_mem _ (ih h).1, (ih h).2⟩
  | case4 between i rest hi hlt ih =>
    rcases List.mem_cons.mp h with rfl | h
    · exact ⟨List.mem_cons_self, (Bool.and_eq_true_iff.mp hi).1⟩
    · exact ⟨List.mem_cons_of_mem _ (ih h).1, (ih h).2⟩
  | case5 between i rest hi hlt ih => exact ⟨List.mem_cons_of_mem _ (ih h).1, (ih h).2⟩
  | case6 between i rest hi ih => exact ⟨List.mem_cons_of_mem _ (ih h).1, (ih h).2⟩

/-- The code `out` has valid instructions and, for each hint of `js`, one that took up its wait. -/
structure Accounts (out js : List Instr) : Prop where
  valid_or : ∀ m ∈ out, m.Valid ∨ ∃ j ∈ js, m.TookUp j
  exists_tookUp : ∀ j ∈ js, ∃ m ∈ out, m.TookUp j

theorem Accounts.append {xs out js : List Instr} (h : Accounts out js) (hxs : ∀ x ∈ xs, x.Valid) :
    Accounts (xs ++ out) js where
  valid_or m hm := by
    rcases List.mem_append.mp hm with hm | hm
    · exact .inl (hxs m hm)
    · exact h.valid_or m hm
  exists_tookUp j hj := by
    obtain ⟨m, hm, htook⟩ := h.exists_tookUp j hj
    exact ⟨m, List.mem_append_right xs hm, htook⟩

theorem Accounts.cons {m j : Instr} {out js : List Instr} (h : Accounts out js)
    (htook : m.TookUp j) : Accounts (m :: out) (j :: js) where
  valid_or n hn := by
    rcases List.mem_cons.mp hn with rfl | hn
    · exact .inr ⟨j, List.mem_cons_self, htook⟩
    · rcases h.valid_or n hn with hvalid | ⟨k, hk, htook⟩
      · exact .inl hvalid
      · exact .inr ⟨k, List.mem_cons_of_mem _ hk, htook⟩
  exists_tookUp k hk := by
    rcases List.mem_cons.mp hk with rfl | hk
    · exact ⟨m, List.mem_cons_self, htook⟩
    · obtain ⟨n, hn, htook⟩ := h.exists_tookUp k hk
      exact ⟨n, List.mem_cons_of_mem _ hn, htook⟩

/-- Compacted code accounts for the absorbed hints. -/
theorem accounts_run (st : Option (Instr × List Instr)) (rest : List Instr)
    (hst : ∀ x ∈ st, x.1.isSingleHint) (hg : Guarded (held st ++ rest))
    (hv : ∀ i ∈ held st ++ rest, i.Valid) :
    Accounts (run st rest).1 (absorbed (st.map (·.2.length)) rest) := by
  fun_induction run st rest with
  | case1 => exact ⟨by simp, by simp [absorbed]⟩
  | case2 h between =>
    exact ⟨fun m hm => .inl (hv m (by simpa [held] using hm)), by simp [absorbed]⟩
  | case3 i rest hi ih =>
    have habs : absorbed none (i :: rest) = absorbed (some 0) rest := by simp [absorbed, hi]
    rw [Option.map_none, habs]
    exact ih (by simpa using hi) hg hv
  | case4 i rest hi out n hrun ih =>
    have habs : absorbed none (i :: rest) = absorbed none rest := by simp [absorbed, hi]
    rw [Option.map_none, habs]
    rw [hrun] at ih
    have hout := ih (by simp) (guarded_cons.mp hg).2 fun j hj => hv j (List.mem_cons_of_mem _ hj)
    show Accounts ([i] ++ out) _
    exact hout.append (by simpa using hv i List.mem_cons_self)
  | case5 h between i rest hi hlt out n hrun ih =>
    have habs : absorbed (some between.length) (i :: rest) = i :: absorbed none rest := by
      simp [absorbed, hi, hlt]
    have hgi := Guarded.of_append (show Guarded (h :: between ++ i :: rest) from hg)
    obtain ⟨hh, hhlt⟩ := single_of_guarded hg (hst _ rfl)
    obtain ⟨hi, hilt⟩ := single_of_guarded hgi hi
    have hmerged : (h.mergeHint between.length i).TookUp i :=
      Instr.tookUp_mergeHint hh hhlt (hv h List.mem_cons_self) hi hilt (hv i (by simp))
        (List.length_pos_iff.mpr (between_ne_nil hg hh hi)) hlt
    simp only [held, List.cons_append, List.mem_cons, List.mem_append] at hv
    rw [hrun] at ih
    have hout := ih (by simp) (guarded_cons.mp hgi).2 fun j hj => hv j (.inr (.inr (.inr hj)))
    rw [Option.map_some, habs]
    exact (hout.append fun j hj => hv j (.inr (.inl hj))).cons hmerged
  | case6 h between i rest hi hlt out n hrun ih =>
    have habs : absorbed (some between.length) (i :: rest) = absorbed (some 0) rest := by
      simp [absorbed, hi, hlt]
    have hgi := Guarded.of_append (show Guarded (h :: between ++ i :: rest) from hg)
    rw [hrun] at ih
    have hout := ih (by simpa using hi) hgi fun j hj => hv j (List.mem_append_right _ hj)
    rw [Option.map_some, habs]
    show Accounts (h :: between ++ out) _
    exact hout.append fun j hj => hv j (List.mem_append_left _ hj)
  | case7 h between i rest hi ih =>
    have heq : held (some (h, between ++ [i])) ++ rest = held (some (h, between)) ++ i :: rest := by
      simp [held]
    have habs : absorbed (some between.length) (i :: rest) =
        absorbed (some (between.length + 1)) rest := by
      simp [absorbed, hi]
    rw [heq] at ih
    rw [Option.map_some, habs]
    simpa using ih (by simpa using hst) hg hv

/-- Compacted code is valid exactly when every absorbed hint has a wait code, and otherwise some
hint skips to no wait. -/
theorem valid_block_iff {code : List Instr} (hg : Guarded code) (hv : ∀ i ∈ code, i.Valid) :
    ((∀ i ∈ (block code).1, i.Valid) ↔ ∀ j ∈ absorbed none code, j.imm ≠ 0) ∧
      ∀ i ∈ (block code).1, ∀ {pos ip v}, i.violation? pos ip = some v →
        v = .hintSkipAlone pos ip := by
  obtain ⟨hout, hall⟩ := accounts_run none code (by simp) hg hv
  refine ⟨⟨fun h j hj => ?_, fun h m hm => ?_⟩, fun m hm pos ip v hviolation => ?_⟩
  · obtain ⟨m, hm, htook⟩ := hall j hj
    exact htook.valid_iff.mp (h m hm)
  · rcases hout m hm with hvalid | ⟨j, hj, htook⟩
    · exact hvalid
    · exact htook.valid_iff.mpr (h j hj)
  · rcases hout m hm with hvalid | ⟨j, -, htook⟩
    · rw [Instr.violation?_eq_none_iff.mpr hvalid] at hviolation
      cases hviolation
    · exact htook.alone hviolation

end Compact

namespace Program

variable {p : Program} {r : Insertion}

theorem violation?_compact_eq_none_iff (hv : p.violation? = none)
    (hg : ∀ b ∈ p.blocks, Guarded b.instrs) : p.compact.violation? = none ↔
      ∀ b ∈ p.blocks, ∀ j ∈ Compact.absorbed none b.instrs, j.imm ≠ 0 := by
  rw [violation?_eq_none_iff] at hv ⊢
  have hlen : p.compact.blocks.length = p.blocks.length := List.length_map ..
  have hcode {pos : ℕ} {b : Block} (hb : p.blocks[pos]? = some b) :=
    (Compact.valid_block_iff (hg b (List.mem_of_getElem? hb)) (hv pos b hb).instrs).1
  rw [hlen]
  constructor
  · intro h b hmem
    obtain ⟨pos, hlt, rfl⟩ := List.mem_iff_getElem.mp hmem
    have hb := List.getElem?_eq_getElem hlt
    have hb' : p.compact.blocks[pos]? =
        some { p.blocks[pos] with instrs := (Compact.block p.blocks[pos].instrs).1 } := by
      rw [compact, List.getElem?_map, hb, Option.map_some]
    exact (hcode hb).mp (h pos _ hb').instrs
  · intro h pos b' hb'
    rw [compact, List.getElem?_map] at hb'
    obtain ⟨b, hb, rfl⟩ := Option.map_eq_some_iff.mp hb'
    obtain ⟨hi, hp, hs, -⟩ := hv pos b hb
    exact ⟨hi, hp, hs, (hcode hb).mpr (h b (List.mem_of_getElem? hb))⟩

private theorem alone_of_violation?_compact (hv : p.violation? = none)
    (hg : ∀ b ∈ p.blocks, Guarded b.instrs) {v : Violation}
    (h : p.compact.violation? = some v) : ∃ block ip, v = .hintSkipAlone block ip := by
  rw [violation?_eq_none_iff] at hv
  obtain ⟨⟨b', pos⟩, hmem, hviolation⟩ := List.exists_of_findSome?_eq_some h
  rw [List.mem_zipIdx_iff_getElem?, compact, List.getElem?_map] at hmem
  obtain ⟨b, hb, rfl⟩ := Option.map_eq_some_iff.mp hmem
  obtain ⟨hi, hp, hs, hcode⟩ := hv pos b hb
  have hlen : p.compact.blocks.length = p.blocks.length := List.length_map ..
  rw [hlen] at hviolation
  obtain ⟨i, hmem, ip, hv'⟩ := Block.exists_of_violation?
    (b := { b with instrs := (Compact.block b.instrs).1 }) hi hp hs hviolation
  have hcompact := Compact.valid_block_iff (hg b (List.mem_of_getElem? hb)) hcode
  exact ⟨pos, ip, hcompact.2 i hmem hv'⟩

private theorem check_of_valid (h : p.violation? = none) (wanted : Bool)
    (fault : Violation → Fault) :
    p.check wanted fault = .ok () := by
  rw [check, h]

/-- With a valid program at every stage, the passes return one under all switches. -/
theorem exists_scheduleWith (hv : p.violation? = none) (hr : p.insertHints = .ok r)
    (hrv : r.program.violation? = none) (hcv : r.program.compact.violation? = none)
    (switches : Switches) :
    ∃ s, p.scheduleWith switches = .ok s ∧ s.program.violation? = none := by
  have hdone : (r.program.compactUnless switches.noCombine).1.violation? = none := by
    unfold compactUnless
    split
    · exact hrv
    · exact hcv
  unfold scheduleWith
  split
  · exact ⟨_, rfl, hv⟩
  · rw [check_of_valid hv, hr]
    have hcheck := check_of_valid hdone switches.validate .invalidAfter
    exact ⟨_, bind_eq_ok.mpr ⟨(), rfl, bind_eq_ok.mpr ⟨r, rfl, bind_eq_ok.mpr ⟨(), hcheck, rfl⟩⟩⟩,
      hdone⟩

theorem exists_schedule (hv : p.violation? = none) (hr : p.insertHints = .ok r)
    (hrv : r.program.violation? = none) (hcv : r.program.compact.violation? = none)
    (settings : Settings) : ∃ s, p.schedule settings = .ok s ∧ s.program.violation? = none := by
  unfold schedule
  split
  · obtain ⟨s, hs, hvalid⟩ := exists_scheduleWith hv hr hrv hcv settings.read.1
    exact ⟨_, bind_eq_ok.mpr ⟨s, hs, rfl⟩, hvalid⟩
  · exact ⟨_, rfl, hv⟩

/-- A defect behind compaction is reported when the check is switched on. -/
theorem schedule_eq_error (hhints : p.model.generation.hasHints) (hv : p.violation? = none)
    (hr : p.insertHints = .ok r) {v : Violation} (hcv : r.program.compact.violation? = some v) :
    p.schedule (.known { validate := true }) = .error (.invalidAfter v) := by
  have hcheck : r.program.compact.check true .invalidAfter = .error (.invalidAfter v) := by
    rw [check, hcv]
    rfl
  have hwith : p.scheduleWith { validate := true } = .error (.invalidAfter v) := by
    simp only [scheduleWith, Bool.false_eq_true, if_false, check_of_valid hv, hr, compactUnless,
      bind, Except.bind, hcheck]
  simp only [schedule, hhints, if_true, Settings.read, hwith, bind, Except.bind]

end Program

/-- Every hint that was written for an instruction stands in front of it. -/
theorem Hinted.guarded {P : Requirement → Prop} {Q : Instr → Prop} {code : List Instr}
    (h : Hinted P Q code) (hP : ∀ {q}, P q → q.Writable) : Guarded code := by
  induction h with
  | nil => simp [Guarded]
  | plain hx _ _ ih => exact guarded_cons.mpr ⟨fun hi => absurd hi hx, ih⟩
  | hint hp _ hi hx _ _ ih =>
    refine guarded_cons.mpr ⟨fun _ => ⟨((hP hp).validHint hi).2, _, rfl, hx⟩, ?_⟩
    exact guarded_cons.mpr ⟨fun h => absurd h hx, ih⟩

private theorem Requirement.Expressible.imm_ne_zero {most : Int} {q : Requirement} {i : Instr}
    (hq : q.Expressible most) (he : q.isEmpty = false) (hi : q.hint = .ok i) : i.imm ≠ 0 := by
  have hcode := hq.code_ne_zero he
  obtain ⟨hfirst, hsecond⟩ := codes_le hq.writable.ranged
  obtain ⟨-, -, rfl⟩ := hint_eq_ok hi
  intro hzero
  have hread := congrArg Immediate.first hzero
  rw [first_ofWaits (by omega) (by omega)] at hread
  exact hcode hread

/-- Insertion and compaction leave a valid program exactly when every hint whose wait is moved to
another one has a wait code. Otherwise some hint skips to no wait, and the passes fail with that
if they check. Without matrix instructions every hint has a code. -/
theorem Program.compact_valid_iff {p : Program} (hv : p.violation? = none)
    (hplain : ∀ b ∈ p.blocks, ∀ i ∈ b.instrs, ¬ i.isHint) (hb : Balanced p.blocks) :
    ∃ r, p.insertHints = .ok r ∧
      (r.program.compact.violation? = none ↔
        ∀ b ∈ r.program.blocks, ∀ j ∈ Compact.absorbed none b.instrs, j.imm ≠ 0) ∧
      (r.program.compact.violation? = none →
        ∀ settings, ∃ s, p.schedule settings = .ok s ∧ s.program.violation? = none) ∧
      (∀ v, r.program.compact.violation? = some v → (∃ block ip, v = .hintSkipAlone block ip) ∧
        (p.model.generation.hasHints →
          p.schedule (.known { validate := true }) = .error (.invalidAfter v))) ∧
      ((∀ b ∈ p.blocks, ∀ i ∈ b.instrs, ¬ i.isWmma) →
        r.program.compact.violation? = none) := by
  obtain ⟨r, hr, hrv, hhinted⟩ := exists_insertHints_of_steady (Scan.steady_normal p.cost) hv hb
    hplain fun _ _ _ _ hfits => hfits
  have hg : ∀ b ∈ r.program.blocks, Guarded b.instrs := fun b hmem => (hhinted b hmem).guarded id
  have hiff := violation?_compact_eq_none_iff hrv hg
  refine ⟨r, hr, hiff, fun hcv => exists_schedule hv hr hrv hcv, fun v hcv => ?_, fun hwmma => ?_⟩
  · exact ⟨alone_of_violation?_compact hrv hg hcv, fun hhints => schedule_eq_error hhints hv hr hcv⟩
  · have hcost : ∀ i : Instr, i.isSalu →
        min 127 ((p.cost i).latency.toNat : Int) ≤ 127 + (p.cost i).issue.toNat := by
      intro i _
      omega
    obtain ⟨r', hr', -, hhinted'⟩ := exists_insertHints_of_steady
      (Scan.steady_expressible (by decide) hcost) hv hb hplain
      fun b hb i hi hfits => ⟨hfits, hwmma b hb i hi⟩
    obtain rfl : r = r' := Except.ok.inj (hr.symm.trans hr')
    refine hiff.mpr fun b hmem j hj => ?_
    obtain ⟨hj, hhint⟩ := Compact.mem_of_mem_absorbed hj
    rcases (hhinted' b hmem).mem hj with ⟨hplain, -⟩ | ⟨q, hq, he, hi⟩
    · exact absurd hhint hplain
    · exact hq.imm_ne_zero he hi

/-- Two results that are read at once. The second hint is merged into the first. -/
def twoReads : Program :=
  oneBlock [.unary .vMovB32 256 257, .unary .vMovB32 258 256, .unary .vRcpF32 259 258]

theorem compact_valid_iff_twoReads : ∃ r, twoReads.insertHints = .ok r ∧
    r.program.mergedPairs = 1 ∧ r.program.compact.violation? = none ∧
    ∃ s, twoReads.schedule (.known { validate := true }) = .ok s ∧ s.program.violation? = none := by
  obtain ⟨r, hr, -, hschedule, -, hwmma⟩ :=
    Program.compact_valid_iff (p := twoReads) (by decide) (by decide) (by decide)
  obtain ⟨r', hr', hpairs⟩ := Program.exists_insertHints (p := twoReads) (n := 5)
    (P := fun r => r.program.mergedPairs == 1) (by decide +kernel)
  obtain rfl : r = r' := Except.ok.inj (hr.symm.trans hr')
  have hvalid := hwmma (by decide)
  exact ⟨r, hr, beq_iff_eq.mp hpairs, hvalid, hschedule hvalid _⟩

/-- A matrix instruction on eight registers each, added to what `dst` holds. -/
def Instr.matrix (dst left right : Reg) : Instr where
  opcode := .vWmmaF32F16
  defs := [⟨dst, 8, Nat.succ_pos 7⟩]
  operands := [left, right, dst].map fun r => .reg ⟨r, 8, Nat.succ_pos 7⟩

/-- The result of a matrix instruction is read at once, and another wait is close in front. -/
def matrixRead : Program :=
  oneBlock [.unary .vMovB32 256 266, .unary .vMovB32 257 256,
    .matrix ⟨296, by decide⟩ ⟨272, by decide⟩ ⟨280, by decide⟩, .unary .vMovB32 258 296]

theorem not_compact_valid_matrixRead : matrixRead.violation? = none ∧
    (∀ b ∈ matrixRead.blocks, ∀ i ∈ b.instrs, ¬ i.isHint) ∧ Balanced matrixRead.blocks ∧
    (∃ r, matrixRead.insertHints = .ok r ∧
      r.program.compact.violation? = some (.hintSkipAlone 0 1)) ∧
    matrixRead.schedule (.known { validate := true }) =
      .error (.invalidAfter (.hintSkipAlone 0 1)) := by
  obtain ⟨r, hr, halone⟩ := Program.exists_insertHints (p := matrixRead) (n := 5)
    (P := fun r => r.program.compact.violation? == some (.hintSkipAlone 0 1)) (by decide +kernel)
  have hcv := beq_iff_eq.mp halone
  exact ⟨by decide, by decide, by decide, ⟨r, hr, hcv⟩,
    Program.schedule_eq_error rfl (by decide) hr hcv⟩

end DelayHint

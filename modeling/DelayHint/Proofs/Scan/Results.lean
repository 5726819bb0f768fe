import DelayHint.Proofs.Pending.Due
import DelayHint.Proofs.Scan.Slots

/-! What one instruction does to what is due at a register. It waits for what it reads, its own
results are due from then on, and all other results grow older. -/
namespace DelayHint

/-- The instructions by which the age of a kind is counted. Matrix instructions are left out, and
transcendental ones count for both kinds of vector instructions. -/
def Source.counts : Source → Instr → Bool
  | valu, i => i.isValu && !i.isWmma
  | trans, i => i.isTrans
  | salu, _ => false

/-- What an instruction adds to the age of a kind. -/
def Source.count (s : Source) (i : Instr) : Int := if s.counts i then 1 else 0

private theorem Source.issued_eq_count (s : Source) (i : Instr) :
    s.issued (i.isValu && !i.isWmma) i.isTrans = s.count i := by
  cases s <;> rfl

theorem Source.count_nonneg (s : Source) (i : Instr) : 0 ≤ s.count i := by
  unfold count
  split <;> decide

namespace Instr

/-- The kind of the results of an ALU instruction. -/
def source (i : Instr) : Source :=
  if i.isTrans then .trans else if i.isValu then .valu else .salu

def Writes (i : Instr) (r : Reg) : Prop := r ∈ i.writes.toOption.getD []

def Reads (i : Instr) (r : Reg) : Prop := r ∈ i.reads.toOption.getD []

instance (i : Instr) (r : Reg) : Decidable (i.Writes r) := inferInstanceAs (Decidable (_ ∈ _))

instance (i : Instr) (r : Reg) : Decidable (i.Reads r) := inferInstanceAs (Decidable (_ ∈ _))

/-- The instruction gives a register a result of a kind. -/
structure Produces (i : Instr) (s : Source) (r : Reg) : Prop where
  isAlu : i.isAlu = true
  source : i.source = s
  writes : i.Writes r

instance (i : Instr) (s : Source) (r : Reg) : Decidable (i.Produces s r) :=
  decidable_of_iff (i.isAlu = true ∧ i.source = s ∧ i.Writes r)
    ⟨fun h => ⟨h.1, h.2.1, h.2.2⟩, fun h => ⟨h.isAlu, h.source, h.writes⟩⟩

/-- The age of the newest result of a register behind the instruction. -/
def aged (i : Instr) (s : Source) (r : Reg) (age : Int) : Int :=
  (if i.Produces s r then 0 else age) + s.count i

variable {i : Instr} {r : Reg} {units : List Reg}

theorem aged_of_produces {s : Source} (h : i.Produces s r) (age : Int) :
    i.aged s r age = s.count i := by
  rw [aged, if_pos h, Int.zero_add]

theorem aged_of_not_produces {s : Source} (h : ¬ i.Produces s r) (age : Int) :
    i.aged s r age = age + s.count i := by
  rw [aged, if_neg h]

theorem aged_le (i : Instr) (s : Source) (r : Reg) {age : Int} (h : 0 ≤ age) :
    i.aged s r age ≤ age + s.count i := by
  unfold aged
  split <;> omega

theorem writes_iff_mem (h : i.writes = .ok units) : i.Writes r ↔ r ∈ units := by
  unfold Writes
  rw [h]
  rfl

theorem reads_iff_mem (h : i.reads = .ok units) : i.Reads r ↔ r ∈ units := by
  unfold Reads
  rw [h]
  rfl

theorem isBarrier_of_isAlu (h : i.isAlu = true) : i.isBarrier = false := by
  unfold isAlu isValu isSalu at h
  unfold isBarrier isExp
  cases hf : i.format <;> rw [hf] at h <;> first | rfl | cases h

end Instr

/-- The latency as far as it is tracked. -/
def Cost.tracked (c : Cost) : Int := min c.latency.toNat 127

/-- What is due at a register when it has just been written: the longer of the new result and of
what was due before. -/
def Due.renew (latency : Int) (old : Option Due) : Option Due :=
  if 0 < max ((old.map Due.cycles).getD 0) latency then
    some ⟨0, max ((old.map Due.cycles).getD 0) latency⟩
  else none

private theorem Due.renew_of_pos {latency : Int} {old : Option Due}
    (h : 0 < max ((old.map Due.cycles).getD 0) latency) : Due.renew latency old =
      some ⟨0, max ((old.map Due.cycles).getD 0) latency⟩ := if_pos h

theorem Due.renew_eq_some {latency : Int} {old : Option Due} {e : Due} :
    Due.renew latency old = some e ↔
      e.age = 0 ∧ e.cycles = max ((old.map Due.cycles).getD 0) latency ∧ 0 < e.cycles := by
  obtain ⟨age, left⟩ := e
  unfold Due.renew
  split
  · simp only [Option.some.injEq, Due.mk.injEq]
    omega
  · simp only [reduceCtorEq, false_iff]
    omega

/-- A second result in the same register is new and takes at least as long. -/
private theorem Due.exists_renew (p : Prop) [Decidable p] (latency : Int) {old : Option Due}
    {d : Due}
    (h : old = some d) (hcycles : 0 < d.cycles) :
    ∃ l, (if p then Due.renew latency old else old) = some l ∧
      l.age = (if p then 0 else d.age) ∧ d.cycles ≤ l.cycles := by
  subst h
  split
  · have hpos : 0 < max d.cycles latency := by omega
    exact ⟨⟨0, max d.cycles latency⟩, if_pos hpos, rfl, Int.le_max_left _ _⟩
  · exact ⟨d, rfl, rfl, Int.le_refl _⟩

namespace Pending

variable {cost : Instr → Cost} {ctx ctx' after : Pending} {q q' : Requirement} {i : Instr}
  {r : Reg} {s : Source} {latency : UInt8} {d e : Due}

theorem age_written (i : Instr) (latency : UInt8) (s : Source) :
    (written i latency).age s = if i.source = s then 0 else Requirement.empty.age s := by
  unfold written Instr.source
  by_cases ht : i.isTrans = true
  · cases s <;> simp [ht, Requirement.age]
  · by_cases hv : i.isValu = true
    · cases s <;> simp [ht, hv, Requirement.age]
    · cases s <;> simp [ht, hv, Requirement.age]

theorem cyclesOf_written (i : Instr) (c : Cost) (s : Source) :
    (written i c.latency).cyclesOf s = if i.source = s then c.tracked else 0 := by
  have hclamp : (Int8.ofIntClamp c.latency.toNat).toInt = c.tracked := by
    rw [Requirement.toInt_ofIntClamp, Cost.tracked]
    omega
  unfold written Instr.source
  by_cases ht : i.isTrans = true
  · cases s <;> simp [ht, Requirement.cyclesOf, Requirement.empty, hclamp]
  · by_cases hv : i.isValu = true
    · cases s <;> simp [ht, hv, Requirement.cyclesOf, Requirement.empty, hclamp]
    · cases s <;> simp [ht, hv, Requirement.cyclesOf, Requirement.empty, hclamp]

theorem Settled.age_due (hctx : ctx.Settled) (h : ctx.due r s = some d) : 0 ≤ d.age := by
  obtain ⟨q, hq, hd⟩ := Option.bind_eq_some_iff.mp h
  rw [(Requirement.due_eq_some.mp hd).1]
  exact (hctx r q hq).age_nonneg s

/-- The cycles of an entry are those that are due. -/
private theorem cycles_due (h : q.Normalized) (s : Source) :
    ((q.due s).map Due.cycles).getD 0 = q.cyclesOf s := by
  rcases Requirement.open_or_shut h s with hopen | ⟨hzero, -⟩
  · have hd : q.due s = some ⟨q.age s, q.cyclesOf s⟩ :=
      Requirement.due_eq_some.mpr ⟨rfl, rfl, hopen⟩
    rw [hd]
    rfl
  · have hd : q.due s = none := Requirement.due_eq_none.mpr (by omega)
    rw [hd, hzero]
    rfl

theorem due_written (i : Instr) (c : Cost) (s : Source) :
    (written i c.latency).due s = if i.source = s then Due.renew c.tracked none else none := by
  have hage := age_written i c.latency s
  have hcycles := cyclesOf_written i c s
  have hlimit := s.limit_pos
  split
  · rename_i hs
    rw [if_pos hs] at hage hcycles
    apply Option.ext
    intro e
    rw [Requirement.due_eq_some, Due.renew_eq_some, Option.map_none, Option.getD_none]
    omega
  · rename_i hs
    rw [if_neg hs] at hcycles
    rw [Requirement.due_eq_none]
    omega

/-- A new result is due from now on, and results of other kinds stay as they are. -/
private theorem due_join_written (hq : q.Settled) (i : Instr) (c : Cost) (s : Source) :
    (q.join (written i c.latency)).due s =
      if i.source = s then Due.renew c.tracked (q.due s) else q.due s := by
  have hage := age_written i c.latency s
  have hcycles := cyclesOf_written i c s
  have hlimit := s.limit_pos
  have hnonneg := hq.age_nonneg s
  have hold := cycles_due hq.toNormalized s
  apply Option.ext
  intro e
  rw [Requirement.due_eq_some, Requirement.age_join, Requirement.cyclesOf_join]
  split
  · rename_i hs
    rw [if_pos hs] at hage hcycles
    rw [Due.renew_eq_some, hold]
    omega
  · rename_i hs
    rw [if_neg hs] at hage hcycles
    rw [Requirement.due_eq_some]
    rcases Requirement.open_or_shut hq.toNormalized s with hopen | ⟨hzero, -⟩
    · have hle : q.age s ≤ Requirement.empty.age s := by
        by_cases hsalu : s = .salu
        · subst hsalu
          exact Int.le_refl 0
        · have := Requirement.age_empty hsalu
          omega
      omega
    · omega

theorem due_produce (hctx : ctx.Settled) (h : ctx.produce i (cost i).latency = .ok after) (r : Reg)
    (s : Source) : after.due r s =
      if i.Produces s r then Due.renew (cost i).tracked (ctx.due r s) else ctx.due r s := by
  rcases produce_cases h with ⟨hn, rfl⟩ | ⟨units, halu, hu, rfl⟩
  · have hnot : ¬ i.Produces s r := fun hp => by
      have := hp.isAlu
      rw [hn] at this
      cases this
    rw [if_neg hnot]
  · obtain ⟨hin, hout⟩ := get?_recordAll ctx units (written i (cost i).latency) r
    by_cases hr : r ∈ units
    · have hiff : i.Produces s r ↔ i.source = s :=
        ⟨fun hp => hp.source, fun hs => ⟨halu, hs, (Instr.writes_iff_mem hu).mpr hr⟩⟩
      rw [due, hin hr, Option.bind_some]
      simp only [hiff]
      cases hq : ctx.get? r with
      | none =>
        have hnone : ctx.due r s = none := by rw [due, hq, Option.bind_none]
        rw [hnone]
        exact due_written i (cost i) s
      | some q =>
        have hsome : ctx.due r s = q.due s := by rw [due, hq, Option.bind_some]
        rw [hsome]
        exact due_join_written (hctx r q hq) i (cost i) s
    · have hnot : ¬ i.Produces s r := fun hp => hr ((Instr.writes_iff_mem hu).mp hp.writes)
      rw [due, hout hr, if_neg hnot, due]

/-- What is due after an instruction: its results are added, and it takes its time. -/
theorem due_issue (hctx : ctx.Settled) (h : issue cost ctx i = .ok ctx')
    (hb : i.isBarrier = false) (r : Reg) (s : Source) : ctx'.due r s =
      (if i.Produces s r then Due.renew (cost i).tracked (ctx.due r s) else ctx.due r s).bind
        fun d => d.pass s (s.count i) (cost i).issue.toNat := by
  rcases issue_cases h with ⟨hi, -⟩ | ⟨after, -, hp, rfl⟩
  · rw [hb] at hi
    cases hi
  · rw [due_pass after _ _ (Int.natCast_nonneg _), s.issued_eq_count, due_produce hctx hp]

theorem Settled.issue (hctx : ctx.Settled) (h : Pending.issue cost ctx i = .ok ctx') :
    ctx'.Settled := by
  rcases issue_cases h with ⟨-, rfl⟩ | ⟨after, -, hp, rfl⟩
  · exact settled_empty
  · refine settled_pass (fun hq => ?_) _ _ _
    refine forall_get?_produce (P := fun q => ∀ s, 0 ≤ q.age s) ?_ ?_ ?_ hp hq
    · intro u v hu hv s
      have := hu s
      have := hv s
      rw [Requirement.age_join]
      omega
    · intro r q hq
      exact (hctx r q hq).age_nonneg
    · intro _ s
      rw [age_written]
      cases s <;> split <;> decide

theorem normalized_issue (h : issue cost ctx i = .ok ctx') : ctx'.Normalized := by
  rcases issue_cases h with ⟨-, rfl⟩ | ⟨after, -, -, rfl⟩
  · exact normalized_empty
  · exact normalized_pass after _ _ _

theorem Normalized.demand (hctx : ctx.Normalized) (hq : q.Normalized)
    (h : ctx.demand q i = .ok q') : q'.Normalized :=
  demand_induction Requirement.Normalized.join (hctx _ _) hq h

/-- What an instruction reads is no older than it requires, and takes no longer. -/
theorem due_demand (h : ctx.demand q i = .ok q') (halu : i.isAlu = true) (hr : i.Reads r)
    (hd : ctx.due r s = some d) : q'.age s ≤ d.age ∧ d.cycles ≤ q'.cyclesOf s := by
  rcases demand_cases h with ⟨hn, -⟩ | ⟨units, -, hu, rfl⟩
  · rw [halu] at hn
    cases hn
  · obtain ⟨e, he, hde⟩ := Option.bind_eq_some_iff.mp hd
    obtain ⟨hage, hcycles, -, -⟩ := Requirement.due_eq_some.mp hde
    have hmem : e ∈ ctx.valuesAt units :=
      List.mem_filterMap.mpr ⟨r, (Instr.reads_iff_mem hu).mp hr, he⟩
    have hwithin := (Requirement.within_foldl_join q (ctx.valuesAt units)).2 e hmem
    obtain ⟨h1, h2, h3, h4, h5⟩ := hwithin
    rw [hage, hcycles]
    cases s with
    | valu => exact ⟨h1, h2⟩
    | trans => exact ⟨h3, h4⟩
    | salu => exact ⟨Int.le_refl 0, h5⟩

/-- A number of a requirement is that of what was queued, or of an entry that is read. -/
theorem demand_select {f : Requirement → Int}
    (hf : ∀ a b : Requirement, f (a.join b) = f a ∨ f (a.join b) = f b)
    (h : ctx.demand q i = .ok q') :
    f q' = f q ∨ i.isAlu = true ∧ ∃ r e, i.Reads r ∧ ctx.get? r = some e ∧ f q' = f e := by
  rcases demand_cases h with ⟨-, rfl⟩ | ⟨units, halu, hu, rfl⟩
  · exact .inl rfl
  · rcases Requirement.foldl_join_select hf q (ctx.valuesAt units) with hq | ⟨e, he, heq⟩
    · exact .inl hq
    · obtain ⟨r, hr, hget⟩ := List.mem_filterMap.mp he
      exact .inr ⟨halu, r, e, (Instr.reads_iff_mem hu).mpr hr, hget, heq⟩

/-- The age that an instruction requires is that of a result that it reads. -/
theorem age_demand (hctx : ctx.Settled) (h : ctx.demand .empty i = .ok q) (hs : s ≠ .salu)
    (hlt : q.age s < s.limit) :
    i.isAlu = true ∧ ∃ r d, i.Reads r ∧ ctx.due r s = some d ∧ d.age = q.age s := by
  have hf (a b : Requirement) : (a.join b).age s = a.age s ∨ (a.join b).age s = b.age s := by
    rw [Requirement.age_join]
    omega
  rcases demand_select (f := fun q => q.age s) hf h with he | ⟨halu, r, e, hr, hget, he⟩
  · have hempty := Requirement.age_empty hs
    omega
  · have hopen : e.age s < s.limit ∧ 0 < e.cyclesOf s := by
      rcases Requirement.open_or_shut (hctx r e hget).toNormalized s with hopen | ⟨-, hshut⟩
      · exact hopen
      · have := hshut hs
        omega
    refine ⟨halu, r, ⟨e.age s, e.cyclesOf s⟩, hr, ?_, he.symm⟩
    exact Option.bind_eq_some_iff.mpr ⟨e, hget, Requirement.due_eq_some.mpr ⟨rfl, rfl, hopen⟩⟩

/-- The cycles that an instruction requires are those of a result that it reads. -/
theorem cycles_demand (hctx : ctx.Settled) (h : ctx.demand .empty i = .ok q)
    (hpos : 0 < q.cyclesOf s) :
    i.isAlu = true ∧ ∃ r d, i.Reads r ∧ ctx.due r s = some d ∧ d.cycles = q.cyclesOf s := by
  have hf (a b : Requirement) :
      (a.join b).cyclesOf s = a.cyclesOf s ∨ (a.join b).cyclesOf s = b.cyclesOf s := by
    rw [Requirement.cyclesOf_join]
    omega
  rcases demand_select (f := fun q => q.cyclesOf s) hf h with he | ⟨halu, r, e, hr, hget, he⟩
  · have hempty := Requirement.cyclesOf_empty s
    omega
  · have hopen : e.age s < s.limit ∧ 0 < e.cyclesOf s := by
      rcases Requirement.open_or_shut (hctx r e hget).toNormalized s with hopen | ⟨hshut, -⟩
      · exact hopen
      · omega
    refine ⟨halu, r, ⟨e.age s, e.cyclesOf s⟩, hr, ?_, he.symm⟩
    exact Option.bind_eq_some_iff.mpr ⟨e, hget, Requirement.due_eq_some.mpr ⟨rfl, rfl, hopen⟩⟩

end Pending

namespace Scan

variable {cost : Instr → Cost} {ctx ctx' : Pending} {q q' : Requirement} {i : Instr}
  {r : Reg} {s : Source} {d e : Due}

theorem settled_step (hctx : ctx.Settled) (h : step cost q ctx i = .ok (q', ctx')) :
    ctx'.Settled := by
  obtain ⟨waited, -, hw, hi⟩ := step_eq_ok h
  rw [Pending.eq_waited_of_wait hw] at hi
  exact (hctx.waited q').issue hi

theorem normalized_step (h : step cost q ctx i = .ok (q', ctx')) : ctx'.Normalized := by
  obtain ⟨waited, -, -, hi⟩ := step_eq_ok h
  exact Pending.normalized_issue hi

/-- Behind a plain instruction nothing stays queued. -/
theorem left_eq_empty (hctx : ctx.Normalized) (hi : ¬ i.isHint)
    (h : step cost .empty ctx i = .ok (q, ctx')) : left q = .empty := by
  obtain ⟨waited, hd, -, -⟩ := step_eq_ok h
  rw [if_neg hi] at hd
  have hnormal : q.Normalized := hctx.demand ⟨rfl⟩ hd
  unfold left
  split
  · rename_i he
    exact Requirement.eq_empty_of_isEmpty hnormal he
  · rfl

/-- What is due after an instruction, by what was due before it. -/
theorem due_step (hctx : ctx.Settled) (hc : 0 ≤ q'.waitCycles)
    (h : step cost q ctx i = .ok (q', ctx')) (hb : i.isBarrier = false) (r : Reg) (s : Source) :
    ∃ old, ctx'.due r s = (if i.Produces s r then Due.renew (cost i).tracked old else old).bind
        (fun d => d.pass s (s.count i) (cost i).issue.toNat) ∧
      old = (ctx.due r s).bind fun d =>
        if q'.covers s d.age then none else d.pass s 0 q'.waitCycles := by
  obtain ⟨waited, -, hw, hi⟩ := step_eq_ok h
  rw [Pending.eq_waited_of_wait hw] at hi
  refine ⟨(ctx.waited q').due r s, ?_, Pending.due_waited hc ctx r s⟩
  exact Pending.due_issue (hctx.waited q') hi hb r s

/-- A result stays due, unless it gets too old, its cycles are over or it is waited for. -/
theorem due_of_step (hctx : ctx.Settled) (hc : 0 ≤ q'.waitCycles)
    (h : step cost q ctx i = .ok (q', ctx')) (hb : i.isBarrier = false)
    (hd : ctx.due r s = some d) :
    (∃ e, ctx'.due r s = some e ∧ e.age = i.aged s r d.age ∧
        d.cycles - q'.waitCycles - (cost i).issue.toNat ≤ e.cycles) ∨
      s.limit ≤ i.aged s r d.age ∨ d.cycles ≤ q'.waitCycles + (cost i).issue.toNat ∨
      q'.covers s d.age = true := by
  obtain ⟨old, hnew, hold⟩ := due_step hctx hc h hb r s
  have hlimit := (Pending.due_open hd).1
  by_cases hcover : q'.covers s d.age = true
  · exact .inr (.inr (.inr hcover))
  rw [hd, Option.bind_some, if_neg hcover] at hold
  by_cases hwait : d.cycles ≤ q'.waitCycles
  · exact .inr (.inr (.inl (by omega)))
  have hleft : old = some ⟨d.age, d.cycles - q'.waitCycles⟩ := by
    rw [hold, Due.pass_of_lt (by omega) (by omega), Int.add_zero]
  obtain ⟨l, hl, hlage, hlcycles⟩ :=
    Due.exists_renew (i.Produces s r) (cost i).tracked hleft (by simp only; omega)
  simp only at hlage hlcycles
  have haged : l.age + s.count i = i.aged s r d.age := by rw [hlage, Instr.aged]
  rw [hl, Option.bind_some] at hnew
  by_cases hpass : l.age + s.count i < s.limit ∧ 0 < l.cycles - (cost i).issue.toNat
  · rw [Due.pass_of_lt hpass.1 hpass.2] at hnew
    exact .inl ⟨_, hnew, haged, Int.sub_le_sub_right hlcycles _⟩
  · omega

/-- The result of an instruction is due after it, unless it takes no longer than the issue. -/
theorem due_of_produces (hctx : ctx.Settled) (hc : 0 ≤ q'.waitCycles)
    (h : step cost q ctx i = .ok (q', ctx')) (hp : i.Produces s r) :
    (∃ e, ctx'.due r s = some e ∧ e.age = s.count i ∧
        (cost i).tracked - (cost i).issue.toNat ≤ e.cycles) ∨
      s.limit ≤ s.count i ∨ (cost i).tracked ≤ (cost i).issue.toNat := by
  obtain ⟨old, hnew, -⟩ := due_step hctx hc h (Instr.isBarrier_of_isAlu hp.isAlu) r s
  rw [if_pos hp] at hnew
  have hissue : (0 : Int) ≤ (cost i).issue.toNat := Int.natCast_nonneg _
  by_cases hlong : (cost i).tracked ≤ (cost i).issue.toNat
  · exact .inr (.inr hlong)
  rw [Due.renew_of_pos (by omega), Option.bind_some] at hnew
  by_cases hlimit : s.limit ≤ s.count i
  · exact .inr (.inl hlimit)
  · rw [Due.pass_of_lt (by simp only; omega) (by simp only; omega), Int.zero_add] at hnew
    exact .inl ⟨_, hnew, rfl, Int.sub_le_sub_right (Int.le_max_right _ _) _⟩

/-- What is due after an instruction was due before it, or is a result of the instruction. -/
theorem due_step_cases (hctx : ctx.Settled) (hc : 0 ≤ q'.waitCycles)
    (h : step cost q ctx i = .ok (q', ctx')) (he : ctx'.due r s = some e) :
    i.isBarrier = false ∧
      (i.Produces s r ∧ e.age = s.count i ∨
        ¬ i.Produces s r ∧ ∃ d, ctx.due r s = some d ∧ e.age = d.age + s.count i) ∧
      (i.Produces s r ∧ e.cycles = (cost i).tracked - (cost i).issue.toNat ∨
        ∃ d, ctx.due r s = some d ∧
          e.cycles = d.cycles - q'.waitCycles - (cost i).issue.toNat) := by
  have hb : i.isBarrier = false := by
    obtain ⟨waited, -, -, hi⟩ := step_eq_ok h
    rcases Pending.issue_cases hi with ⟨-, rfl⟩ | ⟨-, hb, -, -⟩
    · cases he
    · exact hb
  obtain ⟨old, hnew, hold⟩ := due_step hctx hc h hb r s
  rw [he] at hnew
  obtain ⟨l, hl, hpass⟩ := Option.bind_eq_some_iff.mp hnew.symm
  obtain ⟨hage, hcycles, -, hpos⟩ := Due.pass_eq_some.mp hpass
  have hbefore {o : Due} (ho : old = some o) :
      ∃ d, ctx.due r s = some d ∧ o.age = d.age ∧ o.cycles = d.cycles - q'.waitCycles := by
    rw [ho] at hold
    obtain ⟨d, hd, hwait⟩ := Option.bind_eq_some_iff.mp hold.symm
    split at hwait
    · cases hwait
    · obtain ⟨hoage, hocycles, -, -⟩ := Due.pass_eq_some.mp hwait
      exact ⟨d, hd, by omega, hocycles⟩
  refine ⟨hb, ?_⟩
  split at hl
  · rename_i hp
    obtain ⟨hlage, hlcycles, -⟩ := Due.renew_eq_some.mp hl
    refine ⟨.inl ⟨hp, by omega⟩, ?_⟩
    cases hold' : old with
    | none =>
      rw [hold', Option.map_none, Option.getD_none] at hlcycles
      exact .inl ⟨hp, by omega⟩
    | some o =>
      rw [hold', Option.map_some, Option.getD_some] at hlcycles
      by_cases hlonger : (cost i).tracked ≤ o.cycles
      · obtain ⟨d, hd, -, hocycles⟩ := hbefore hold'
        exact .inr ⟨d, hd, by omega⟩
      · exact .inl ⟨hp, by omega⟩
  · rename_i hp
    obtain ⟨d, hd, hoage, hocycles⟩ := hbefore hl
    exact ⟨.inr ⟨hp, d, hd, by omega⟩, .inr ⟨d, hd, by omega⟩⟩

end Scan

end DelayHint

import DelayHint.Proofs.Pending.Normal

/-! The order of requirements and of contexts that belongs to the join. Time, waits and instructions
keep it: from less that is pending comes less, and a stricter wait leaves less. -/
namespace DelayHint

namespace Requirement

variable {a a' b b' c p q : Requirement}

/-- The requirement `a` asks for no more than `b`. -/
structure Within (a b : Requirement) : Prop where
  valu_instrs : b.valuInstrs.toInt ≤ a.valuInstrs.toInt
  valu_cycles : a.valuCycles.toInt ≤ b.valuCycles.toInt
  trans_instrs : b.transInstrs.toInt ≤ a.transInstrs.toInt
  trans_cycles : a.transCycles.toInt ≤ b.transCycles.toInt
  salu_cycles : a.saluCycles.toInt ≤ b.saluCycles.toInt

theorem within_refl (a : Requirement) : a.Within a := by
  constructor <;> exact Int.le_refl _

theorem Within.trans (hab : a.Within b) (hbc : b.Within c) : a.Within c := by
  obtain ⟨h1, h2, h3, h4, h5⟩ := hab
  obtain ⟨g1, g2, g3, g4, g5⟩ := hbc
  constructor <;> omega

theorem join_eq_iff_within : b.join a = b ↔ a.Within b := by
  have htight := tightenedBy_iff_toInt (a := b) (b := a)
  rw [tightenedBy_iff] at htight
  constructor
  · intro h
    have hnot := mt htight.mpr (not_not_intro h)
    constructor <;> omega
  · rintro ⟨h1, h2, h3, h4, h5⟩
    apply Decidable.byContradiction
    intro hne
    have := htight.mp hne
    omega

theorem Within.join (ha : a.Within c) (hb : b.Within c) : (a.join b).Within c := by
  obtain ⟨h1, h2, h3, h4, h5⟩ := ha
  obtain ⟨g1, g2, g3, g4, g5⟩ := hb
  constructor <;> simp only [Requirement.join, toInt_min, toInt_max] <;> omega

theorem within_join_left (a b : Requirement) : a.Within (a.join b) := by
  constructor <;> simp only [Requirement.join, toInt_min, toInt_max] <;> omega

theorem within_join_right (a b : Requirement) : b.Within (a.join b) := by
  rw [join_comm]
  exact within_join_left b a

theorem Within.join_join (ha : a.Within a') (hb : b.Within b') :
    (a.join b).Within (a'.join b') :=
  (ha.trans (within_join_left a' b')).join (hb.trans (within_join_right a' b'))

theorem Within.foldl_join {l : List Requirement} (hq : q.Within c) (hl : ∀ e ∈ l, e.Within c) :
    (l.foldl Requirement.join q).Within c :=
  foldl_join_induction (P := fun a => a.Within c) Within.join hq hl

/-- A number that a join takes from one of its two parts is that of one part of a list. -/
theorem foldl_join_select {f : Requirement → Int}
    (hf : ∀ a b : Requirement, f (a.join b) = f a ∨ f (a.join b) = f b) (q : Requirement)
    (l : List Requirement) : f (l.foldl Requirement.join q) = f q ∨
      ∃ e ∈ l, f (l.foldl Requirement.join q) = f e := by
  induction l generalizing q with
  | nil => exact .inl rfl
  | cons e rest ih =>
    rw [List.foldl_cons]
    rcases ih (q.join e) with h | ⟨d, hd, h⟩
    · rw [h]
      exact (hf q e).imp_right fun he => ⟨e, List.mem_cons_self, he⟩
    · exact .inr ⟨d, List.mem_cons_of_mem _ hd, h⟩

/-- A join over a list asks for as much as each of its parts. -/
theorem within_foldl_join (q : Requirement) (l : List Requirement) :
    q.Within (l.foldl Requirement.join q) ∧ ∀ e ∈ l, e.Within (l.foldl Requirement.join q) := by
  induction l generalizing q with
  | nil => exact ⟨within_refl q, by simp⟩
  | cons d rest ih =>
    obtain ⟨hq, hrest⟩ := ih (q.join d)
    refine ⟨(within_join_left q d).trans hq, fun e he => ?_⟩
    rcases List.mem_cons.mp he with rfl | he
    · exact (within_join_right q e).trans hq
    · exact hrest e he

theorem Within.normalize (h : a.Within b) : a.normalize.Within b.normalize := by
  have hva := valu_normalize a
  have hvb := valu_normalize b
  have hta := trans_normalize a
  have htb := trans_normalize b
  have hsa := toInt_saluCycles_normalize a
  have hsb := toInt_saluCycles_normalize b
  obtain ⟨h1, h2, h3, h4, h5⟩ := h
  constructor
  · split at hva <;> split at hvb <;> omega
  · split at hva <;> split at hvb <;> omega
  · split at hta <;> split at htb <;> omega
  · split at hta <;> split at htb <;> omega
  · omega

theorem Within.settle? (h : a.Within b) (ha : a.settle? = some a') :
    ∃ b', b.settle? = some b' ∧ a'.Within b' := by
  obtain ⟨rfl, hne⟩ := settle?_eq_some ha
  have hle := h.normalize
  have hb : b.normalize.isEmpty = false := by
    rw [← Bool.not_eq_true, isEmpty_iff_toInt] at hne ⊢
    rintro ⟨hv, ht, hs⟩
    have hva := valu_normalize a
    have hta := trans_normalize a
    have hsa := toInt_saluCycles_normalize a
    obtain ⟨h1, -, h3, -, h5⟩ := hle
    refine hne ⟨?_, ?_, ?_⟩
    · split at hva <;> omega
    · split at hta <;> omega
    · omega
  exact ⟨b.normalize, by rw [Requirement.settle?, hb, if_neg (by decide)], hle⟩

theorem Within.advance (h : a.Within b) {m n : Int} (hmn : n ≤ m) (valu trans : Bool) :
    (a.advance valu trans m).Within (b.advance valu trans n) := by
  obtain ⟨h1, h2, h3, h4, h5⟩ := h
  constructor
  · simp only [Requirement.advance, toInt_countUp]
    split <;> omega
  · simp only [Requirement.advance, toInt_ofIntClamp]
    omega
  · simp only [Requirement.advance, toInt_countUp]
    split <;> omega
  · simp only [Requirement.advance, toInt_ofIntClamp]
    omega
  · simp only [Requirement.advance, toInt_ofIntClamp]
    omega

/-- Waiting for `p` takes at least as long as waiting for `q` and covers at least as much. -/
structure Outlasts (p q : Requirement) : Prop where
  valu_instrs : p.valuInstrs.toInt ≤ q.valuInstrs.toInt
  trans_instrs : p.transInstrs.toInt ≤ q.transInstrs.toInt
  max_cycles : q.maxCycles.toInt ≤ p.maxCycles.toInt

theorem outlasts_refl (q : Requirement) : q.Outlasts q :=
  ⟨Int.le_refl _, Int.le_refl _, Int.le_refl _⟩

theorem Outlasts.trans (hp : a.Outlasts b) (hq : b.Outlasts c) : a.Outlasts c := by
  obtain ⟨h1, h2, h3⟩ := hp
  obtain ⟨g1, g2, g3⟩ := hq
  constructor <;> omega

theorem toInt_maxCycles (q : Requirement) : q.maxCycles.toInt =
    max q.saluCycles.toInt (max q.valuCycles.toInt q.transCycles.toInt) := by
  rw [maxCycles, toInt_max, toInt_max]

theorem Within.outlasts (h : a.Within b) : b.Outlasts a := by
  obtain ⟨h1, h2, h3, h4, h5⟩ := h
  refine ⟨h1, h3, ?_⟩
  rw [toInt_maxCycles, toInt_maxCycles]
  omega

/-- What is pending in normal form stays as it is when no time passes. -/
theorem Normal.settle?_eq (h : q.Normal) : q.settle? = some q := by
  have hv := valu_normalize q
  have ht := trans_normalize q
  have hs := toInt_saluCycles_normalize q
  obtain ⟨hvr, htr, hc, hvi, hti, hp⟩ := h
  have hsame : q.normalize = q := by
    apply ext_toInt
    · split at hv <;> omega
    · split at hv <;> omega
    · split at ht <;> omega
    · split at ht <;> omega
    · omega
  have hne : ¬ q.isEmpty = true := by
    rw [isEmpty_iff_toInt]
    omega
  rw [Requirement.settle?, hsame, if_neg hne]

private theorem advance_zero (q : Requirement) : q.advance false false 0 = q := by
  have hclamp (x : Int8) : Int8.ofIntClamp (x.toInt - 0) = x := by
    have hlo := Int8.le_toInt x
    have hhi := Int8.toInt_lt x
    rw [← Int8.toInt_inj, toInt_ofIntClamp]
    omega
  simp only [Requirement.advance, hclamp, countUp, Bool.false_eq_true, if_false]

end Requirement

namespace Pending

variable {cost : Instr → Cost} {a a' b b' c ctx : Pending} {p q : Requirement} {i : Instr}

/-- What is pending in `a` is pending in `b` just as strictly. -/
def Within (a b : Pending) : Prop :=
  ∀ (r : Reg) (e : Requirement), a.get? r = some e → ∃ d, b.get? r = some d ∧ e.Within d

theorem within_refl (a : Pending) : a.Within a := fun _ e he => ⟨e, he, Requirement.within_refl e⟩

theorem Within.trans (hab : a.Within b) (hbc : b.Within c) : a.Within c := by
  intro r e he
  obtain ⟨d, hd, hed⟩ := hab r e he
  obtain ⟨f, hf, hdf⟩ := hbc r d hd
  exact ⟨f, hf, hed.trans hdf⟩

theorem empty_within (a : Pending) : Within RegMap.empty a := fun _ _ he => by cases he

theorem join_eq_iff_within : b.join a = b ↔ a.Within b := by
  constructor
  · intro h r e he
    have hr := congrArg (·.get? r) h
    simp only [get?_join, he] at hr
    cases hb : b.get? r with
    | none => simp [hb] at hr
    | some d =>
      rw [hb, Option.merge_some_some, Option.some.injEq] at hr
      exact ⟨d, rfl, Requirement.join_eq_iff_within.mp hr⟩
  · intro h
    apply RegMap.ext_get?
    intro r
    rw [get?_join]
    cases ha : a.get? r with
    | none => simp
    | some e =>
      obtain ⟨d, hd, hed⟩ := h r e ha
      rw [hd, Option.merge_some_some, Requirement.join_eq_iff_within.mpr hed]

theorem Within.join (ha : a.Within c) (hb : b.Within c) : (a.join b).Within c := by
  rw [← join_eq_iff_within] at ha hb ⊢
  rw [← join_assoc, ha, hb]

/-- Changing and settling every entry keeps the order if the change does. -/
theorem Within.filterMap {f g : Requirement → Requirement} (h : a.Within b)
    (hfg : ∀ {r e d}, b.get? r = some d → e.Within d → (f e).Within (g d)) :
    Within (a.filterMap fun e => (f e).settle?) (b.filterMap fun e => (g e).settle?) := by
  intro r e' he'
  rw [RegMap.get?_filterMap] at he'
  obtain ⟨e, he, hset⟩ := Option.bind_eq_some_iff.mp he'
  obtain ⟨d, hd, hed⟩ := h r e he
  obtain ⟨d', hd', hle⟩ := (hfg hd hed).settle? hset
  exact ⟨d', by rw [RegMap.get?_filterMap, hd, Option.bind_some, hd'], hle⟩

theorem Within.pass (h : a.Within b) {m n : Int} (hmn : n ≤ m) (valu trans : Bool) :
    (a.pass valu trans m).Within (b.pass valu trans n) :=
  h.filterMap fun _ hed => hed.advance hmn valu trans

theorem Within.discharge (h : a.Within b) (hb : b.Normal)
    (hv : p.valuInstrs.toInt ≤ q.valuInstrs.toInt)
    (ht : p.transInstrs.toInt ≤ q.transInstrs.toInt) :
    (a.discharge p).Within (b.discharge q) := by
  refine h.filterMap fun {r e d} hd hed => ?_
  obtain ⟨hvr, htr, -, -, -, -⟩ := hb r d hd
  obtain ⟨h1, h2, h3, h4, h5⟩ := hed
  have h5v := Requirement.toInt_valuNop
  have h4t := Requirement.toInt_transNop
  constructor
  · simp only [Int8.le_iff_toInt_le]
    split <;> split <;> omega
  · exact h2
  · simp only [Int8.le_iff_toInt_le]
    split <;> split <;> omega
  · exact h4
  · exact h5

theorem Normal.pass_zero (h : ctx.Normal) : ctx.pass false false 0 = ctx := by
  apply RegMap.ext_get?
  intro r
  rw [get?_pass]
  cases hq : ctx.get? r with
  | none => rfl
  | some q =>
    rw [Option.bind_some, Requirement.advance_zero]
    exact (h r q hq).settle?_eq

theorem Normal.discharge_of_isEmpty (h : ctx.Normal) (hq : q.isEmpty = true) :
    ctx.discharge q = ctx := by
  obtain ⟨hv, ht, -⟩ := Requirement.isEmpty_iff_toInt.mp hq
  have h5 := Requirement.toInt_valuNop
  have h4 := Requirement.toInt_transNop
  apply RegMap.ext_get?
  intro r
  rw [Pending.discharge, RegMap.get?_filterMap]
  cases he : ctx.get? r with
  | none => rfl
  | some e =>
    have hn := h r e he
    rw [Option.bind_some, ← hn.settle?_eq]
    congr 1
    obtain ⟨hvr, htr, -, -, -, -⟩ := hn
    apply Requirement.ext_toInt
    · simp only [Int8.le_iff_toInt_le]
      split <;> omega
    · rfl
    · simp only [Int8.le_iff_toInt_le]
      split <;> omega
    · rfl
    · rfl

/-- What is pending after a wait. -/
def waited (ctx : Pending) (q : Requirement) : Pending :=
  if q.isEmpty then ctx else discharge (ctx.pass false false q.maxCycles.toInt) q

theorem waited_of_isEmpty (ctx : Pending) (h : q.isEmpty = true) : ctx.waited q = ctx := if_pos h

theorem waited_of_not_isEmpty (ctx : Pending) (h : q.isEmpty = false) :
    ctx.waited q = discharge (ctx.pass false false q.maxCycles.toInt) q :=
  if_neg (by simp [h])

theorem eq_waited_of_wait (h : ctx.wait q = .ok a) : a = ctx.waited q := by
  rcases wait_cases h with ⟨he, rfl⟩ | ⟨he, rfl⟩
  · rw [waited_of_isEmpty _ he]
  · rw [waited_of_not_isEmpty _ he]

theorem Normal.pass (h : ctx.Normal) (cycles : Int) : (ctx.pass false false cycles).Normal :=
  normal_pass false (fun hq => (h _ _ hq).countsFrom) _ _

theorem Normal.waited (h : ctx.Normal) (q : Requirement) : (ctx.waited q).Normal := by
  unfold Pending.waited
  split
  · exact h
  · exact (h.pass _).discharge q

/-- The longer wait leaves less. -/
theorem Within.waited (h : a.Within b) (hb : b.Normal) (hp : p.isEmpty = false)
    (hc : 0 ≤ p.maxCycles.toInt) (ho : p.Outlasts q) : (a.waited p).Within (b.waited q) := by
  rw [waited_of_not_isEmpty a hp]
  cases hq : q.isEmpty with
  | true =>
    rw [waited_of_isEmpty b hq]
    have hpass : (a.pass false false p.maxCycles.toInt).Within b := by
      have hzero := h.pass hc false false
      rwa [hb.pass_zero] at hzero
    have hdis := hpass.discharge hb ho.valu_instrs ho.trans_instrs
    rwa [hb.discharge_of_isEmpty hq] at hdis
  | false =>
    rw [waited_of_not_isEmpty b hq]
    exact (h.pass ho.max_cycles false false).discharge (hb.pass _) ho.valu_instrs ho.trans_instrs

theorem Within.record (h : a.Within b) (k : Reg) (q : Requirement) :
    (a.record k q).Within (b.record k q) := by
  intro r e he
  rw [get?_record] at he ⊢
  split at he
  · rename_i hr
    rw [if_pos hr]
    obtain rfl := Option.some.inj he
    refine ⟨_, rfl, ?_⟩
    cases ha : a.get? k with
    | none =>
      cases b.get? k with
      | none => exact Requirement.within_refl q
      | some d => exact Requirement.within_join_right d q
    | some f =>
      obtain ⟨d, hd, hfd⟩ := h k f ha
      rw [hd]
      exact hfd.join_join (Requirement.within_refl q)
  · rename_i hr
    rw [if_neg hr]
    exact h r e he

theorem Within.recordAll (h : a.Within b) (rs : List Reg) (q : Requirement) :
    (a.recordAll rs q).Within (b.recordAll rs q) := by
  induction rs generalizing a b with
  | nil => exact h
  | cons k rest ih => exact ih (h.record k q)

/-- Issuing an instruction keeps the order. -/
theorem Within.issue (h : a.Within b) (ha : Pending.issue cost a i = .ok a')
    (hb : Pending.issue cost b i = .ok b') : a'.Within b' := by
  rcases issue_cases ha with ⟨-, rfl⟩ | ⟨aw, hi, hpa, rfl⟩
  · exact empty_within b'
  rcases issue_cases hb with ⟨hi', -⟩ | ⟨bw, -, hpb, rfl⟩
  · rw [hi] at hi'
    cases hi'
  refine Within.pass ?_ (Int.le_refl _) _ _
  rcases produce_cases hpa with ⟨hn, rfl⟩ | ⟨units, halu, hu, rfl⟩
  · rcases produce_cases hpb with ⟨-, rfl⟩ | ⟨_, halu, -, -⟩
    · exact h
    · rw [hn] at halu
      cases halu
  · rcases produce_cases hpb with ⟨hn, -⟩ | ⟨units', -, hu', rfl⟩
    · rw [halu] at hn
      cases hn
    · obtain rfl : units = units' := Except.ok.inj (hu.symm.trans hu')
      exact h.recordAll units _

/-- The results that are pending for some registers are within those of a larger context. -/
theorem Within.valuesAt (h : a.Within b) {units : List Reg} {e : Requirement}
    (he : e ∈ a.valuesAt units) : ∃ d ∈ b.valuesAt units, e.Within d := by
  obtain ⟨u, hu, hget⟩ := List.mem_filterMap.mp he
  obtain ⟨d, hd, hed⟩ := h u e hget
  exact ⟨d, List.mem_filterMap.mpr ⟨u, hu, hd⟩, hed⟩

end Pending

end DelayHint

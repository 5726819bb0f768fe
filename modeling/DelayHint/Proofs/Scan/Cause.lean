import DelayHint.Proofs.Scan.Timeline

/-! No wait without a cause. What is due at a register in plain code comes from writes of that
register, its age from one and its cycles from one, and a requirement from what is due. -/
namespace DelayHint

namespace Scan

variable {cost : Instr → Cost} {code : List Instr} {s : Source} {k j : Nat} {r : Reg} {a : Stop}
  {d : Due}

/-- What is due was written before: the age counts from one write, the cycles from one. -/
theorem writer_of_due (hcode : ∀ x ∈ code, ¬ x.isHint)
    (ha : (stops cost .empty RegMap.empty code)[k]? = some a) (hd : a.pending.due r s = some d) :
    (∃ i w, Writer s r code i k w ∧ distance s code i k = d.age) ∧
      ∃ i w, Writer s r code i k w ∧
        (cost w).tracked - elapsed cost RegMap.empty code i k = d.cycles := by
  induction k generalizing a d with
  | zero =>
    rw [pending_head_stops hcode ha] at hd
    cases hd
  | succ k ih =>
    obtain ⟨b, x, hb, hx, hsettled, hnormal, hstep⟩ := step_of_plain hcode Pending.settled_empty ha
    obtain ⟨hbarrier, hage, hcycles⟩ := due_step_cases hsettled
      (Requirement.waitCycles_nonneg hnormal) hstep hd
    constructor
    · rcases hage with ⟨hp, hage⟩ | ⟨-, e, he, hage⟩
      · refine ⟨k, x, writer_self hx hp, ?_⟩
        rw [distance_succ (Nat.le_refl k) hx, distance_self, hage, Int.zero_add]
      · obtain ⟨⟨i, w, hw, hdistance⟩, -⟩ := ih hb he
        refine ⟨i, w, hw.succ hx hbarrier, ?_⟩
        rw [distance_succ (Nat.le_of_lt hw.lt) hx, hdistance, hage]
    · rcases hcycles with ⟨hp, hcycles⟩ | ⟨e, he, hcycles⟩
      · refine ⟨k, x, writer_self hx hp, ?_⟩
        rw [elapsed_next cost _ hx, hcycles]
      · obtain ⟨-, i, w, hw, helapsed⟩ := ih hb he
        refine ⟨i, w, hw.succ hx hbarrier, ?_⟩
        rw [elapsed_succ hw.lt hx hb, hcycles, ← helapsed]
        omega

/-- The age that is required of a counted kind is the distance to a write that is read. -/
theorem dependency_of_age (hcode : ∀ x ∈ code, ¬ x.isHint) (hs : s ≠ .salu)
    (hlt : (requiredAt cost RegMap.empty code j).age s < s.limit) :
    ∃ i w, Dependency s code i j w ∧
      distance s code i j = (requiredAt cost RegMap.empty code j).age s := by
  have hne : requiredAt cost RegMap.empty code j ≠ .empty := fun he => by
    rw [he, Requirement.age_empty hs] at hlt
    exact Int.lt_irrefl _ hlt
  obtain ⟨a, x, ha, hx, hsettled, hdemand⟩ := stop_of_requiredAt hcode Pending.settled_empty hne
  rw [requiredAt_of_stop ha] at hlt ⊢
  obtain ⟨halu, r, d, hreads, hd, hage⟩ := Pending.age_demand hsettled hdemand hs hlt
  obtain ⟨⟨i, w, hw, hdistance⟩, -⟩ := writer_of_due hcode ha hd
  exact ⟨i, w, ⟨r, x, hw, hx, halu, hreads⟩, hdistance.trans hage⟩

/-- The cycles that are required are what is left of those of a write that is read. -/
theorem dependency_of_cycles (hcode : ∀ x ∈ code, ¬ x.isHint)
    (hpos : 0 < (requiredAt cost RegMap.empty code j).cyclesOf s) :
    ∃ i w, Dependency s code i j w ∧
      (cost w).tracked - elapsed cost RegMap.empty code i j =
        (requiredAt cost RegMap.empty code j).cyclesOf s := by
  have hne : requiredAt cost RegMap.empty code j ≠ .empty := fun he => by
    rw [he, Requirement.cyclesOf_empty] at hpos
    exact Int.lt_irrefl _ hpos
  obtain ⟨a, x, ha, hx, hsettled, hdemand⟩ := stop_of_requiredAt hcode Pending.settled_empty hne
  rw [requiredAt_of_stop ha] at hpos ⊢
  obtain ⟨halu, r, d, hreads, hd, hcycles⟩ := Pending.cycles_demand hsettled hdemand hpos
  obtain ⟨-, i, w, hw, helapsed⟩ := writer_of_due hcode ha hd
  exact ⟨i, w, ⟨r, x, hw, hx, halu, hreads⟩, helapsed.trans hcycles⟩

/-- A counted kind that is required has cycles left. -/
private theorem cycles_pos_of_age (hcode : ∀ x ∈ code, ¬ x.isHint) (hs : s ≠ .salu)
    (hlt : (requiredAt cost RegMap.empty code j).age s < s.limit) :
    0 < (requiredAt cost RegMap.empty code j).cyclesOf s := by
  have hnormal := normalized_requiredAt cost hcode Pending.settled_empty j
  rcases Requirement.open_or_shut hnormal s with ⟨-, hpos⟩ | ⟨-, hshut⟩
  · exact hpos
  · have := hshut hs
    omega

/-- No wait without a cause in plain code. Only ALU instructions require something, and what they
require is what the hint in front of them is written for. The count and the cycles that one requires
of vector instructions are the distance to a vector instruction and what is left of the cycles of
one, whose results it reads. The same holds of transcendental instructions, and of the cycles of
scalar ones. -/
theorem required_caused (cost : Instr → Cost) (hcode : ∀ x ∈ code, ¬ x.isHint) {j : Nat}
    {q : Requirement} (hq : requiredAt cost RegMap.empty code j = q) (hne : q.isEmpty = false) :
    (∃ x, code[j]? = some x ∧ x.isAlu = true ∧ ∀ out last,
      block cost RegMap.empty code = .ok (out, last) →
        (slots none out)[j]? = some (q.hint?, x)) ∧
    (q.valuInstrs < 5 → 0 < q.valuCycles ∧
      (∃ i w, Dependency .valu code i j w ∧ distance .valu code i j = q.valuInstrs.toInt) ∧
      ∃ i w, Dependency .valu code i j w ∧
        (cost w).tracked - elapsed cost RegMap.empty code i j = q.valuCycles.toInt) ∧
    (q.transInstrs < 4 → 0 < q.transCycles ∧
      (∃ i w, Dependency .trans code i j w ∧ distance .trans code i j = q.transInstrs.toInt) ∧
      ∃ i w, Dependency .trans code i j w ∧
        (cost w).tracked - elapsed cost RegMap.empty code i j = q.transCycles.toInt) ∧
    (0 < q.saluCycles → ∃ i w, Dependency .salu code i j w ∧
      (cost w).tracked - elapsed cost RegMap.empty code i j = q.saluCycles.toInt) := by
  subst hq
  refine ⟨?_, fun hlt => ?_, fun hlt => ?_, fun hpos => ?_⟩
  · have hne' : requiredAt cost RegMap.empty code j ≠ .empty := fun he => by
      rw [he] at hne
      cases hne
    obtain ⟨a, x, ha, hx, -, hdemand⟩ := stop_of_requiredAt hcode Pending.settled_empty hne'
    rw [requiredAt_of_stop ha] at hne'
    refine ⟨x, hx, ?_, fun out last h => (run_of_eq_ok h).slot_requiredAt hcode hx⟩
    rcases Pending.demand_cases hdemand with ⟨-, he⟩ | ⟨-, halu, -⟩
    · exact absurd he hne'
    · exact halu
  · have hlt' : (requiredAt cost RegMap.empty code j).age .valu < Source.valu.limit :=
      Int8.lt_iff_toInt_lt.mp hlt
    have hpos := cycles_pos_of_age hcode (by decide) hlt'
    exact ⟨Int8.lt_iff_toInt_lt.mpr hpos, dependency_of_age hcode (by decide) hlt',
      dependency_of_cycles hcode hpos⟩
  · have hlt' : (requiredAt cost RegMap.empty code j).age .trans < Source.trans.limit :=
      Int8.lt_iff_toInt_lt.mp hlt
    have hpos := cycles_pos_of_age hcode (by decide) hlt'
    exact ⟨Int8.lt_iff_toInt_lt.mpr hpos, dependency_of_age hcode (by decide) hlt',
      dependency_of_cycles hcode hpos⟩
  · exact dependency_of_cycles hcode (Int8.lt_iff_toInt_lt.mp hpos)

/-- The instruction waits for the vector and the transcendental instruction before it, and for the
last cycle of the scalar one. -/
theorem required_caused_mixedReads :
    requiredAt classCost RegMap.empty mixedReads 3 = ⟨1, 3, 1, 7, 1⟩ ∧
    (∃ i w, Dependency .valu mixedReads i 3 w ∧ distance .valu mixedReads i 3 = 1) ∧
    (∃ i w, Dependency .trans mixedReads i 3 w ∧
      (classCost w).tracked - elapsed classCost RegMap.empty mixedReads i 3 = 7) ∧
    ∃ i w, Dependency .salu mixedReads i 3 w ∧
      (classCost w).tracked - elapsed classCost RegMap.empty mixedReads i 3 = 1 := by
  have hq : requiredAt classCost RegMap.empty mixedReads 3 = ⟨1, 3, 1, 7, 1⟩ := by decide
  obtain ⟨-, hvalu, htrans, hsalu⟩ := required_caused classCost (by decide) hq (by decide)
  exact ⟨hq, (hvalu (by decide)).2.1, (htrans (by decide)).2.2, hsalu (by decide)⟩

end Scan

end DelayHint

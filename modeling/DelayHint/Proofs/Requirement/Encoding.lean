import DelayHint.Proofs.Requirement.Level
import DelayHint.Proofs.Validity

/-! Requirements as hints and back. A hint gives back the requirement it was written for, except
that it has room for two wait codes only and for three cycles of a scalar instruction. -/
namespace DelayHint

private theorem toInt_toInt8_of_le {x : UInt8} (h : x.toNat ≤ 127) : x.toInt8.toInt = x.toNat := by
  have hlt : 2 * x.toBitVec.toNat < 2 ^ 8 := by
    show 2 * x.toNat < 2 ^ 8
    omega
  exact BitVec.toInt_eq_toNat_of_lt hlt

/-- One of the two fields of a hint holds the code of a wait. -/
def Instr.WaitsFor (h : Instr) (w : Wait) : Prop :=
  Immediate.first h.imm = w.code ∨ Immediate.second h.imm = w.code

instance (h : Instr) (w : Wait) : Decidable (h.WaitsFor w) := inferInstanceAs (Decidable (_ ∨ _))

namespace Requirement

variable {p q : Requirement} {h : Instr}

/-- What can be written as a hint. -/
structure Writable (q : Requirement) : Prop where
  ranged : q.Ranged
  cycles_nonneg : 0 ≤ q.valuCycles.toInt ∧ 0 ≤ q.transCycles.toInt

theorem Normal.writable (h : q.Normal) : q.Writable :=
  ⟨h.ranged, h.cycles_nonneg.1, h.cycles_nonneg.2.1⟩

theorem Writable.join (hp : p.Writable) (hq : q.Writable) : (p.join q).Writable := by
  constructor
  · exact hp.ranged.join hq.ranged
  · have hpc := hp.cycles_nonneg
    have hqc := hq.cycles_nonneg
    simp only [Requirement.join, toInt_max]
    omega

theorem Writable.exists_hint (hq : q.Writable) : ∃ h, q.hint = .ok h := by
  have hv := hq.ranged.valu
  have ht := hq.ranged.trans
  have hc := hq.cycles_nonneg
  simp only [level] at hv ht
  have hcounts : ¬ (q.valuInstrs < 0 ∨ q.transInstrs < 0) := by
    simp only [Int8.lt_iff_toInt_lt, Int8.toInt_zero]
    omega
  have hcycles : ¬ (q.valuCycles < 0 ∨ q.transCycles < 0) := by
    simp only [Int8.lt_iff_toInt_lt, Int8.toInt_zero]
    omega
  rw [hint, if_neg hcounts, if_neg hcycles]
  exact ⟨_, rfl⟩

theorem toNat_cycleWord (q : Requirement) : q.cycleWord.toNat =
    q.valuCycles.toInt.toNat + 65536 * q.transCycles.toInt.toNat := by
  have hvle := Int8.toInt_lt q.valuCycles
  have htle := Int8.toInt_lt q.transCycles
  rw [cycleWord, Int8.toNatClampNeg, Int8.toNatClampNeg,
    UInt32.toNat_ofNat_of_lt' (by simp only [UInt32.size]; omega)]

/-- The cycles of both units come back from the word beside a hint. -/
theorem cycles_withCycles (hv : 0 ≤ q.valuCycles.toInt) (ht : 0 ≤ q.transCycles.toInt)
    (p : Requirement) : (p.withCycles q.cycleWord).valuCycles = q.valuCycles ∧
      (p.withCycles q.cycleWord).transCycles = q.transCycles := by
  have hvle := Int8.toInt_lt q.valuCycles
  have htle := Int8.toInt_lt q.transCycles
  have hword := q.toNat_cycleWord
  have hlow : q.cycleWord.toUInt8.toNat = q.valuCycles.toInt.toNat := by
    rw [UInt32.toNat_toUInt8, hword]
    omega
  have hhigh : (q.cycleWord >>> 16).toUInt8.toNat = q.transCycles.toInt.toNat := by
    rw [UInt32.toNat_toUInt8, UInt32.toNat_shiftRight, hword, Nat.shiftRight_eq_div_pow]
    show (_ + 65536 * _) / 65536 % 256 = _
    omega
  simp only [withCycles, ← Int8.toInt_inj]
  rw [toInt_toInt8_of_le (by omega), toInt_toInt8_of_le (by omega)]
  omega

/-- Whatever is queued, a hint that was written for a requirement can be taken over. -/
theorem Writable.withHint (hp : p.Writable) (hq : q.Writable) (hh : q.hint = .ok h) :
    (p.withHint h).Writable := by
  refine ⟨hp.ranged.withHint h, ?_⟩
  obtain ⟨hv, ht⟩ := hq.cycles_nonneg
  obtain ⟨hvc, htc⟩ :=
    cycles_withCycles hv ht ((p.withWait (q.codes.getD 0 0)).withWait (q.codes.getD 1 0))
  rw [withHint_of_hint hq.ranged hh, hvc, htc]
  exact hq.cycles_nonneg

theorem salu_withWait (q : Requirement) {code : Nat} (h : code < 16) :
    (q.withWait code).saluCycles.toInt =
      if 9 ≤ code then (code : Int) - 8 else q.saluCycles.toInt := by
  unfold withWait
  by_cases hs : 9 ≤ code
  · rw [if_neg (by omega), if_neg (by omega), if_pos hs, if_pos hs,
      Int8.toInt_ofNat_of_lt (by omega)]
    omega
  · rw [if_neg hs, if_neg hs]
    split
    · rfl
    · split <;> rfl

theorem salu_withHint_nonneg (hq : 0 ≤ q.saluCycles.toInt) (i : Instr) :
    0 ≤ (q.withHint i).saluCycles.toInt := by
  have hfirst := salu_withWait q (Immediate.first_lt i.imm)
  have hsecond := salu_withWait (q.withWait (Immediate.first i.imm)) (Immediate.second_lt i.imm)
  show 0 ≤ ((q.withWait _).withWait _).saluCycles.toInt
  rw [hsecond, hfirst]
  split
  · omega
  · split <;> omega

theorem toInt_saluCode (hs : 0 ≤ q.saluCycles.toInt) :
    (q.saluCode : Int) = if q.saluCycles.toInt = 0 then 0 else min 3 q.saluCycles.toInt + 8 := by
  have hthree : (3 : Int8).toInt = 3 := rfl
  unfold saluCode Int8.toNatClampNeg
  simp only [← Int8.toInt_inj, Int8.toInt_zero, toInt_min, hthree]
  split <;> omega

/-- The scalar code is left out when the other two are there, and it stops at three cycles. -/
theorem salu_withHint_hint (hq : q.Ranged) (hv : 1 ≤ q.valuInstrs.toInt)
    (hs : 0 ≤ q.saluCycles.toInt) (hh : q.hint = .ok h) :
    (empty.withHint h).saluCycles.toInt =
      if q.valuInstrs.toInt < 5 ∧ q.transInstrs.toInt < 4 then 0
      else min 3 q.saluCycles.toInt := by
  obtain ⟨ha, hb⟩ := codes_le hq
  have hfirst := salu_withWait empty (show q.codes.getD 0 0 < 16 by omega)
  have hsecond := salu_withWait (empty.withWait (q.codes.getD 0 0))
    (show q.codes.getD 1 0 < 16 by omega)
  have hnone : empty.saluCycles.toInt = 0 := rfl
  have hvalu := level_valuCode hq
  have htrans := level_transCode hq
  have hsalu := toInt_saluCode hs
  obtain ⟨a, b, ha', hb', hcases⟩ := codes_cases q
  obtain ⟨hvr, htr⟩ := hq
  rw [withHint_of_hint ⟨hvr, htr⟩ hh]
  show ((empty.withWait (q.codes.getD 0 0)).withWait (q.codes.getD 1 0)).saluCycles.toInt = _
  rw [hsecond, hfirst, hnone, ha', hb']
  simp only [level] at hvalu htrans hvr htr
  clear hfirst hsecond hh
  rcases hcases with ⟨_, _, rfl, rfl⟩ | ⟨_, _, rfl, rfl⟩ | ⟨_, _, rfl, rfl⟩ | ⟨_, _, rfl, rfl⟩ <;>
    omega

/-- Read back, a hint gives the requirement it was written for, up to the scalar cycles that it has
no room for. -/
theorem withHint_hint (hq : q.Writable) (hv : 1 ≤ q.valuInstrs.toInt)
    (hs : 0 ≤ q.saluCycles.toInt) (hh : q.hint = .ok h) :
    empty.withHint h = { q with
      saluCycles := if q.valuInstrs.toInt < 5 ∧ q.transInstrs.toInt < 4 then 0
        else min 3 q.saluCycles } := by
  obtain ⟨htrans, hvalu⟩ := level_withHint_hint hq.ranged hh
  have hsalu := salu_withHint_hint hq.ranged hv hs hh
  obtain ⟨hvn, htn⟩ := hq.cycles_nonneg
  obtain ⟨hvc, htc⟩ :=
    cycles_withCycles hvn htn ((empty.withWait (q.codes.getD 0 0)).withWait (q.codes.getD 1 0))
  rw [← withHint_of_hint hq.ranged hh] at hvc htc
  simp only [level] at htrans hvalu
  have hthree : (3 : Int8).toInt = 3 := rfl
  apply ext_toInt
  · exact hvalu.trans (if_neg (by omega))
  · rw [hvc]
  · exact htrans
  · rw [htc]
  · rw [hsalu]
    split
    · rfl
    · rw [toInt_min, hthree]

/-- A written hint is well formed and waits for the next instruction only. -/
theorem Writable.validHint (hq : q.Writable) (hh : q.hint = .ok h) :
    h.ValidHint ∧ Immediate.skip h.imm = 0 := by
  obtain ⟨-, -, rfl⟩ := hint_eq_ok hh
  obtain ⟨hfirst, hsecond⟩ := codes_le hq.ranged
  have himm : (Immediate.ofWaits (q.codes.getD 0 0) (q.codes.getD 1 0)).toNat =
      q.codes.getD 0 0 + 128 * q.codes.getD 1 0 := by
    rw [Immediate.ofWaits, UInt32.toNat_ofNat_of_lt' (by simp only [UInt32.size]; omega)]
  have hskip : Immediate.skip (Immediate.ofWaits (q.codes.getD 0 0) (q.codes.getD 1 0)) = 0 := by
    rw [Immediate.skip, himm]
    omega
  refine ⟨⟨rfl, rfl, ?_, ?_, ?_, ?_, ?_⟩, hskip⟩
  · rw [himm]
    omega
  · rw [first_ofWaits (by omega) (by omega)]
    exact hfirst
  · rw [second_ofWaits (by omega) (by omega)]
    exact hsecond
  · rw [hskip]
    exact Nat.zero_le _
  · exact fun h => absurd hskip h

/-- The immediate of a written hint holds the two wait codes and nothing else. -/
theorem imm_of_hint (hq : q.Ranged) (hh : q.hint = .ok h) :
    h.imm = Immediate.ofWaits (Immediate.first h.imm) (Immediate.second h.imm) := by
  obtain ⟨-, -, rfl⟩ := hint_eq_ok hh
  obtain ⟨hfirst, hsecond⟩ := codes_le hq
  simp only
  rw [first_ofWaits (by omega) (by omega), second_ofWaits (by omega) (by omega)]

/-- A requirement comes back from its hint. If its counts have codes and no cycles are below zero,
one hint is written behind the code and nothing stays queued. The hint is well formed, skips no
instruction and has no more than two wait codes. Read into an empty requirement it gives the same
counts and cycles, but the scalar cycles are left out if the two other codes take the room, and are
three at most. -/
theorem emit_roundTrip (hv : 1 ≤ q.valuInstrs ∧ q.valuInstrs ≤ 5)
    (ht : 1 ≤ q.transInstrs ∧ q.transInstrs ≤ 4)
    (hc : 0 ≤ q.valuCycles ∧ 0 ≤ q.transCycles ∧ 0 ≤ q.saluCycles) (out : List Instr) :
    ∃ h, q.emit out = .ok (out ++ [h], .empty) ∧ h.isHint ∧
      (∀ block ip, h.hintViolation? block ip = none) ∧ Immediate.skip h.imm = 0 ∧
      h.imm = Immediate.ofWaits (Immediate.first h.imm) (Immediate.second h.imm) ∧
      empty.withHint h = { q with
        saluCycles := if q.valuInstrs < 5 ∧ q.transInstrs < 4 then 0 else min 3 q.saluCycles } := by
  have h1 : (1 : Int8).toInt = 1 := rfl
  have h4 : (4 : Int8).toInt = 4 := rfl
  have h5 : (5 : Int8).toInt = 5 := rfl
  simp only [Int8.le_iff_toInt_le, Int8.toInt_zero, h1, h4, h5] at hv ht hc
  simp only [Int8.lt_iff_toInt_lt, h4, h5]
  have hranged : q.Ranged := by
    refine ⟨⟨?_, hv.2⟩, ht⟩
    simp only [level]
    omega
  have hw : q.Writable := ⟨hranged, hc.1, hc.2.1⟩
  obtain ⟨h, hh⟩ := hw.exists_hint
  obtain ⟨hvalid, hskip⟩ := hw.validHint hh
  refine ⟨h, ?_, isHint_of_hint hh, fun _ _ => Instr.hintViolation?_eq_none_iff.mpr hvalid, hskip,
    imm_of_hint hranged hh, withHint_hint hw hv.1 hc.2.2 hh⟩
  rw [emit, hh]
  rfl

/-- A vector and a scalar wait, and transcendental cycles that no count goes with. -/
def mixedWaits : Requirement := ⟨2, 9, 4, 5, 7⟩

/-- All cycles of the two units come back, and three of the seven scalar ones. -/
theorem emit_roundTrip_mixedWaits :
    (1 ≤ mixedWaits.valuInstrs ∧ mixedWaits.valuInstrs ≤ 5) ∧
    (1 ≤ mixedWaits.transInstrs ∧ mixedWaits.transInstrs ≤ 4) ∧
    ∃ h, mixedWaits.emit [] = .ok ([h], .empty) ∧
      (∀ block ip, h.hintViolation? block ip = none) ∧ Immediate.first h.imm = 2 ∧
      Immediate.second h.imm = 11 ∧ empty.withHint h = ⟨2, 9, 4, 5, 3⟩ := by
  obtain ⟨h, hemit, -, hvalid, -, -, hread⟩ :=
    emit_roundTrip (q := mixedWaits) (by decide) (by decide) (by decide) []
  obtain rfl := List.singleton_inj.mp (Prod.mk.inj (Except.ok.inj hemit)).1
  exact ⟨by decide, by decide, _, hemit, hvalid, by decide, by decide, hread⟩

/-- A hint could stand for the requirement: no instruction count is zero, cycles are counted exactly
as long as instructions are, and scalar results take no more than `most` cycles. -/
structure Expressible (most : Int) (q : Requirement) : Prop where
  valu_range : 1 ≤ q.valuInstrs.toInt ∧ q.valuInstrs.toInt ≤ 5
  trans_range : 1 ≤ q.transInstrs.toInt ∧ q.transInstrs.toInt ≤ 4
  salu_range : 0 ≤ q.saluCycles.toInt ∧ q.saluCycles.toInt ≤ most
  cycles_nonneg : 0 ≤ q.valuCycles.toInt ∧ 0 ≤ q.transCycles.toInt
  valu_iff : q.valuInstrs.toInt = 5 ↔ q.valuCycles.toInt = 0
  trans_iff : q.transInstrs.toInt = 4 ↔ q.transCycles.toInt = 0

variable {most : Int}

theorem Expressible.writable (hq : q.Expressible most) : q.Writable :=
  ⟨⟨⟨by have := hq.valu_range; simp only [level]; omega, hq.valu_range.2⟩, hq.trans_range⟩,
    hq.cycles_nonneg⟩

theorem Normal.expressible (hq : q.Normal) (hv : 1 ≤ q.valuInstrs.toInt)
    (hs : q.saluCycles.toInt ≤ most) : q.Expressible most where
  valu_range := ⟨hv, hq.valu_range.2⟩
  trans_range := hq.trans_range
  salu_range := ⟨hq.cycles_nonneg.2.2, hs⟩
  cycles_nonneg := ⟨hq.cycles_nonneg.1, hq.cycles_nonneg.2.1⟩
  valu_iff := hq.valu_iff
  trans_iff := hq.trans_iff

theorem expressible_empty (h : 0 ≤ most) : empty.Expressible most := by
  constructor <;> simp [empty, valuNop, transNop, h]

theorem Expressible.join (hp : p.Expressible most) (hq : q.Expressible most) :
    (p.join q).Expressible most := by
  obtain ⟨hpv, hpt, hps, hpc, hpvi, hpti⟩ := hp
  obtain ⟨hqv, hqt, hqs, hqc, hqvi, hqti⟩ := hq
  constructor <;> simp only [Requirement.join, toInt_min, toInt_max] <;> omega

theorem Expressible.withHint (hq : q.Expressible most) (hh : q.hint = .ok h) :
    (empty.withHint h).Expressible most := by
  have hthree : (3 : Int8).toInt = 3 := rfl
  rw [withHint_hint hq.writable hq.valu_range.1 hq.salu_range.1 hh]
  obtain ⟨hv, ht, hs, hc, hvi, hti⟩ := hq
  refine ⟨hv, ht, ?_, hc, hvi, hti⟩
  simp only
  split
  · rw [Int8.toInt_zero]
    omega
  · rw [toInt_min, hthree]
    omega

theorem Expressible.eq_empty (hq : q.Expressible most) (he : q.isEmpty = true) : q = empty := by
  obtain ⟨hv, ht, hs⟩ := isEmpty_iff_toInt.mp he
  have hvc := hq.valu_iff.mp hv
  have htc := hq.trans_iff.mp ht
  apply ext_toInt
  · exact hv
  · exact hvc
  · exact ht
  · exact htc
  · exact hs

/-- A requirement that asks for something has a wait code. -/
theorem Expressible.code_ne_zero (hq : q.Expressible most) (he : q.isEmpty = false) :
    q.codes.getD 0 0 ≠ 0 := by
  have hvalu := level_valuCode hq.writable.ranged
  have htrans := level_transCode hq.writable.ranged
  have hsalu := toInt_saluCode hq.salu_range.1
  obtain ⟨a, b, ha, -, hcases⟩ := codes_cases q
  rw [← Bool.not_eq_true, isEmpty_iff_toInt] at he
  obtain ⟨hv, ht, hs, -, -, -⟩ := hq
  simp only [level] at hvalu htrans
  rw [ha]
  rcases hcases with ⟨_, _, rfl, rfl⟩ | ⟨_, _, rfl, rfl⟩ | ⟨_, _, rfl, rfl⟩ | ⟨_, _, rfl, rfl⟩
  · omega
  · assumption
  · assumption
  · assumption

/-- The fields of a hint hold the code of the transcendental count, then that of the vector count,
then the scalar code, as far as there is room. -/
theorem fields_of_hint (hq : q.Ranged) (hh : q.hint = .ok h) :
    (q.transCode ≠ 0 → Immediate.first h.imm = q.transCode) ∧
    (q.valuCode ≠ 0 → Immediate.first h.imm = q.valuCode ∨ Immediate.second h.imm = q.valuCode) ∧
    (q.valuCode = 0 → ∀ n < 4, Immediate.first h.imm ≠ n + 1 ∧ Immediate.second h.imm ≠ n + 1) ∧
    (Immediate.first h.imm = 0 ↔ q.transCode = 0 ∧ q.valuCode = 0 ∧ q.saluCode = 0) := by
  obtain ⟨a, b, ha, hb, hcases⟩ := codes_cases q
  have hle := codes_le hq
  rw [ha, hb] at hle
  obtain ⟨-, -, rfl⟩ := hint_eq_ok hh
  simp only [ha, hb]
  rw [first_ofWaits (by omega) (by omega), second_ofWaits (by omega) (by omega)]
  have htrans : q.transCode = 0 ∨ 5 ≤ q.transCode := by
    have hlevel := level_transCode hq
    have hrange := hq.trans
    split at hlevel <;> omega
  have hsalu := saluCode_range q
  clear ha hb hh hle hq
  rcases hcases with
    ⟨ht, hv, rfl, rfl⟩ | ⟨ht, hv, rfl, rfl⟩ | ⟨ht, hv, rfl, rfl⟩ | ⟨ht, hv, rfl, rfl⟩
  · exact ⟨fun h => absurd ht h, fun h => absurd hv h, by omega, by omega⟩
  · exact ⟨fun h => absurd ht h, fun _ => .inl rfl, fun h => absurd h hv, by omega⟩
  · exact ⟨fun _ => rfl, fun h => absurd hv h, by omega, by omega⟩
  · exact ⟨fun _ => rfl, fun _ => .inr rfl, fun h => absurd h hv, by omega⟩

/-- A hint waits for what its requirement counts, except that a vector count of zero has no code. -/
theorem waitsFor_of_hint (hq : q.Ranged) (hs : 0 ≤ q.saluCycles.toInt) (hh : q.hint = .ok h) :
    (q.transInstrs < 4 → ∃ back, h.WaitsFor (.transDep back)) ∧
    (q.valuInstrs < 5 → ((∃ back, h.WaitsFor (.valuDep back)) ↔ q.valuInstrs ≠ 0)) ∧
    (q.isEmpty = false → (Immediate.first h.imm = 0 ↔
      q.valuInstrs = 0 ∧ q.transInstrs = 4 ∧ q.saluCycles = 0)) := by
  obtain ⟨htrans, hvalu, hother, hnone⟩ := fields_of_hint hq hh
  have ht := level_transCode hq
  have hv := level_valuCode hq
  have hsalu := toInt_saluCode hs
  obtain ⟨hvr, htr⟩ := hq
  have h4 : (4 : Int8).toInt = 4 := rfl
  have h5 : (5 : Int8).toInt = 5 := rfl
  simp only [level] at ht hv hvr htr
  simp only [Int8.lt_iff_toInt_lt, ← Int8.toInt_inj, ne_eq, Int8.toInt_zero, h4, h5,
    Instr.WaitsFor, Wait.code]
  refine ⟨fun hlt => ?_, fun hlt => ⟨?_, fun hne => ?_⟩, fun he => ?_⟩
  · refine ⟨⟨q.transCode - 5, by omega⟩, .inl ?_⟩
    rw [htrans (by omega)]
    simp only
    omega
  · rintro ⟨back, hback⟩ hzero
    obtain ⟨hfirst, hsecond⟩ := hother (by omega) back.val back.isLt
    exact hback.elim hfirst hsecond
  · refine ⟨⟨q.valuCode - 1, by omega⟩, ?_⟩
    rw [show q.valuCode - 1 + 1 = q.valuCode by omega]
    exact hvalu (by omega)
  · rw [← Bool.not_eq_true, isEmpty_iff_toInt] at he
    rw [hnone]
    omega

end Requirement

/-- The counts that hints are written for. Vector counts start from `lo`. -/
structure Requirement.Counted (lo : Int) (q : Requirement) : Prop where
  ranged : q.Ranged
  valu : lo ≤ q.valuInstrs.toInt
  salu : 0 ≤ q.saluCycles.toInt

namespace Requirement.Counted

variable {lo : Int} {p q : Requirement}

theorem of_normal (h : q.Normal) : q.Counted 0 := ⟨h.ranged, h.valu_range.1, h.cycles_nonneg.2.2⟩

theorem of_expressible {most : Int} (h : q.Expressible most) : q.Counted 1 :=
  ⟨h.writable.ranged, h.valu_range.1, h.salu_range.1⟩

theorem empty (h : lo ≤ 1) : Requirement.empty.Counted lo :=
  ⟨ranged_of_isEmpty rfl, Int.le_trans h (by decide), by decide⟩

theorem join (hp : p.Counted lo) (hq : q.Counted lo) : (p.join q).Counted lo := by
  obtain ⟨hpr, hpv, hps⟩ := hp
  obtain ⟨hqr, hqv, hqs⟩ := hq
  refine ⟨hpr.join hqr, ?_, ?_⟩
  · simp only [Requirement.join, toInt_min]
    omega
  · simp only [Requirement.join, toInt_max]
    omega

theorem withHint (h : lo ≤ 1) (hq : q.Counted lo) (i : Instr) : (q.withHint i).Counted lo := by
  have hlevel := level_withHint_cases q i (s := .valu) (by decide)
  obtain ⟨hr, hv, hs⟩ := hq
  simp only [level] at hlevel
  exact ⟨hr.withHint i, by omega, salu_withHint_nonneg hs i⟩

end Requirement.Counted

end DelayHint

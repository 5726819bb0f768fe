import DelayHint.Hint
import DelayHint.Proofs.Pending.Normal

/-! The three things that a requirement can wait for, on one scale: the lower the level, the
stricter the requirement. A hint gives back the instruction counts it was written for. -/
namespace DelayHint

/-- The kind of instruction that a result comes from. -/
inductive Source where
  | valu | trans | salu
  deriving DecidableEq

namespace Source

/-- The level at which there is nothing to wait for. -/
def idle : Source → Int
  | valu => 5
  | trans => 4
  | salu => 0

instance {P : Source → Prop} [DecidablePred P] : Decidable (∀ s, P s) :=
  decidable_of_iff (P valu ∧ P trans ∧ P salu)
    ⟨fun h s => match s with
      | valu => h.1
      | trans => h.2.1
      | salu => h.2.2, fun h => ⟨h valu, h trans, h salu⟩⟩

end Source

namespace Requirement

/-- How recent the instruction is that a requirement waits for, by kind. For scalar instructions it
is the cycles left that count. -/
def level (q : Requirement) : Source → Int
  | .valu => q.valuInstrs.toInt
  | .trans => q.transInstrs.toInt
  | .salu => -q.saluCycles.toInt

theorem isEmpty_iff_level {q : Requirement} : q.isEmpty = true ↔ ∀ s, q.level s = s.idle := by
  rw [isEmpty_iff_toInt]
  constructor
  · rintro ⟨hv, ht, hs⟩ s
    cases s <;> simp only [level, Source.idle] <;> omega
  · intro h
    have hv := h .valu
    have ht := h .trans
    have hs := h .salu
    simp only [level, Source.idle] at hv ht hs
    omega

theorem level_join (a b : Requirement) (s : Source) :
    (a.join b).level s = min (a.level s) (b.level s) := by
  cases s with
  | valu => exact toInt_min ..
  | trans => exact toInt_min ..
  | salu =>
    simp only [level, join, toInt_max]
    omega

/-- A join over a list is as strict as each part, and one of the parts is as strict as it is. -/
theorem level_foldl_join (s : Source) (q : Requirement) (l : List Requirement) :
    (l.foldl join q).level s ≤ q.level s ∧ (∀ e ∈ l, (l.foldl join q).level s ≤ e.level s) ∧
      ((l.foldl join q).level s = q.level s ∨ ∃ e ∈ l, (l.foldl join q).level s = e.level s) := by
  induction l generalizing q with
  | nil => simp
  | cons e rest ih =>
    obtain ⟨hq, hrest, hone⟩ := ih (q.join e)
    rw [level_join] at hq hone
    rw [List.foldl_cons]
    refine ⟨by omega, fun d hd => ?_, ?_⟩
    · rcases List.mem_cons.mp hd with rfl | hd
      · omega
      · exact hrest d hd
    · rcases hone with hone | ⟨d, hd, hone⟩
      · rcases Int.le_total (q.level s) (e.level s) with hle | hle
        · exact .inl (by omega)
        · exact .inr ⟨e, List.mem_cons_self, by omega⟩
      · exact .inr ⟨d, List.mem_cons_of_mem _ hd, hone⟩

/-- The instruction counts are among those that stand for a result. -/
structure Ranged (q : Requirement) : Prop where
  valu : 0 ≤ q.level .valu ∧ q.level .valu ≤ 5
  trans : 1 ≤ q.level .trans ∧ q.level .trans ≤ 4

theorem Normal.ranged {q : Requirement} (h : q.Normal) : q.Ranged := ⟨h.valu_range, h.trans_range⟩

theorem ranged_of_isEmpty {q : Requirement} (h : q.isEmpty = true) : q.Ranged := by
  have hv := isEmpty_iff_level.mp h .valu
  have ht := isEmpty_iff_level.mp h .trans
  simp only [Source.idle] at hv ht
  constructor <;> omega

theorem Ranged.join {p q : Requirement} (hp : p.Ranged) (hq : q.Ranged) : (p.join q).Ranged := by
  obtain ⟨hpv, hpt⟩ := hp
  obtain ⟨hqv, hqt⟩ := hq
  constructor
  · rw [level_join]
    omega
  · rw [level_join]
    omega

theorem level_withWait (q : Requirement) (code : Nat) :
    (q.withWait code).level .valu = (if 1 ≤ code ∧ code ≤ 4 then (code : Int) else q.level .valu) ∧
    (q.withWait code).level .trans =
      (if 5 ≤ code ∧ code ≤ 7 then (code : Int) - 4 else q.level .trans) := by
  unfold withWait
  by_cases hv : 1 ≤ code ∧ code ≤ 4
  · have ht : ¬ (5 ≤ code ∧ code ≤ 7) := by omega
    rw [if_pos hv, if_pos hv, if_neg ht]
    exact ⟨Int8.toInt_ofNat_of_lt (by omega), rfl⟩
  · rw [if_neg hv, if_neg hv]
    by_cases ht : 5 ≤ code ∧ code ≤ 7
    · rw [if_pos ht, if_pos ht]
      refine ⟨rfl, ?_⟩
      simp only [level]
      rw [Int8.toInt_ofNat_of_lt (by omega)]
      omega
    · rw [if_neg ht, if_neg ht]
      split <;> exact ⟨rfl, rfl⟩

/-- A hint leaves an instruction count as it is or gives one that a code stands for. -/
theorem level_withHint_cases (q : Requirement) (i : Instr) {s : Source} (hs : s ≠ .salu) :
    (q.withHint i).level s = q.level s ∨
      1 ≤ (q.withHint i).level s ∧ (q.withHint i).level s < s.idle := by
  have hone (q : Requirement) (code : Nat) : (q.withWait code).level s = q.level s ∨
      1 ≤ (q.withWait code).level s ∧ (q.withWait code).level s < s.idle := by
    obtain ⟨hv, ht⟩ := level_withWait q code
    cases s with
    | valu =>
      rw [hv]
      simp only [Source.idle]
      split <;> omega
    | trans =>
      rw [ht]
      simp only [Source.idle]
      split <;> omega
    | salu => exact absurd rfl hs
  have hword : (q.withHint i).level s =
      ((q.withWait (Immediate.first i.imm)).withWait (Immediate.second i.imm)).level s := by
    cases s <;> rfl
  rw [hword]
  rcases hone (q.withWait (Immediate.first i.imm)) (Immediate.second i.imm) with h | h
  · rw [h]
    exact hone q (Immediate.first i.imm)
  · exact .inr h

theorem Ranged.withHint {q : Requirement} (h : q.Ranged) (i : Instr) : (q.withHint i).Ranged := by
  have hvalu := level_withHint_cases q i (s := .valu) (by decide)
  have htrans := level_withHint_cases q i (s := .trans) (by decide)
  obtain ⟨hv, ht⟩ := h
  simp only [Source.idle] at hvalu htrans
  constructor <;> omega

theorem first_ofWaits {a b : Nat} (ha : a < 16) (hb : b < 16) :
    Immediate.first (Immediate.ofWaits a b) = a := by
  unfold Immediate.first Immediate.ofWaits
  rw [UInt32.toNat_ofNat_of_lt' (by simp only [UInt32.size]; omega)]
  omega

theorem second_ofWaits {a b : Nat} (ha : a < 16) (hb : b < 16) :
    Immediate.second (Immediate.ofWaits a b) = b := by
  unfold Immediate.second Immediate.ofWaits
  rw [UInt32.toNat_ofNat_of_lt' (by simp only [UInt32.size]; omega)]
  omega

theorem level_valuCode {q : Requirement} (h : q.Ranged) :
    (q.valuCode : Int) = if q.level .valu = 5 then 0 else q.level .valu := by
  have hv := h.valu
  simp only [level] at hv ⊢
  unfold valuCode Int8.toNatClampNeg
  simp only [← Int8.toInt_inj, toInt_valuNop]
  split <;> omega

theorem level_transCode {q : Requirement} (h : q.Ranged) :
    (q.transCode : Int) = if q.level .trans = 4 then 0 else q.level .trans + 4 := by
  have ht := h.trans
  simp only [level] at ht ⊢
  unfold transCode Int8.toNatClampNeg
  simp only [← Int8.toInt_inj, toInt_transNop]
  split <;> omega

theorem saluCode_range (q : Requirement) : q.saluCode = 0 ∨ 8 ≤ q.saluCode ∧ q.saluCode ≤ 11 := by
  unfold saluCode Int8.toNatClampNeg
  split
  · exact .inl rfl
  · rw [toInt_min]
    have : (3 : Int8).toInt = 3 := rfl
    omega

/-- The codes of the two instruction counts always find a place in a hint. -/
theorem codes_cases (q : Requirement) :
    ∃ a b, q.codes.getD 0 0 = a ∧ q.codes.getD 1 0 = b ∧
      (q.transCode = 0 ∧ q.valuCode = 0 ∧ a = q.saluCode ∧ b = 0 ∨
       q.transCode = 0 ∧ q.valuCode ≠ 0 ∧ a = q.valuCode ∧ b = q.saluCode ∨
       q.transCode ≠ 0 ∧ q.valuCode = 0 ∧ a = q.transCode ∧ b = q.saluCode ∨
       q.transCode ≠ 0 ∧ q.valuCode ≠ 0 ∧ a = q.transCode ∧ b = q.valuCode) := by
  refine ⟨_, _, rfl, rfl, ?_⟩
  unfold codes
  by_cases ht : q.transCode = 0 <;> by_cases hv : q.valuCode = 0 <;>
    by_cases hs : q.saluCode = 0 <;> simp [ht, hv, hs]

/-- The counts and cycles of a requirement that is written as a hint, and what is written. -/
theorem hint_eq_ok {q : Requirement} {h : Instr} (hh : q.hint = .ok h) :
    0 ≤ q.valuCycles.toInt ∧ 0 ≤ q.transCycles.toInt ∧
      h = { opcode := .sDelayAlu
            imm := Immediate.ofWaits (q.codes.getD 0 0) (q.codes.getD 1 0)
            passFlags := q.cycleWord } := by
  unfold hint at hh
  split at hh
  · cases hh
  · split at hh
    · cases hh
    · rename_i hneg
      cases hh
      simp only [Int8.lt_iff_toInt_lt, Int8.toInt_zero, not_or, Int.not_lt] at hneg
      exact ⟨hneg.1, hneg.2, rfl⟩

/-- The codes of a requirement fit the fields of a hint. -/
theorem codes_le {q : Requirement} (hq : q.Ranged) :
    q.codes.getD 0 0 ≤ 11 ∧ q.codes.getD 1 0 ≤ 11 := by
  obtain ⟨a, b, rfl, rfl, hcases⟩ := codes_cases q
  have hv := level_valuCode hq
  have ht := level_transCode hq
  have hs := saluCode_range q
  obtain ⟨hvr, htr⟩ := hq
  omega

/-- A hint is read by its wait codes and then its cycles. -/
theorem withHint_of_hint {q : Requirement} {h : Instr} (hq : q.Ranged) (hh : q.hint = .ok h)
    (p : Requirement) : p.withHint h =
      ((p.withWait (q.codes.getD 0 0)).withWait (q.codes.getD 1 0)).withCycles q.cycleWord := by
  obtain ⟨-, -, rfl⟩ := hint_eq_ok hh
  obtain ⟨ha, hb⟩ := codes_le hq
  have hlt : q.codes.getD 0 0 < 16 ∧ q.codes.getD 1 0 < 16 := by omega
  rw [withHint, first_ofWaits hlt.1 hlt.2, second_ofWaits hlt.1 hlt.2]

/-- Read back, a hint waits for the instruction counts it was written for. A vector count of zero
has no code. -/
theorem level_withHint_hint {q : Requirement} {h : Instr} (hq : q.Ranged) (hh : q.hint = .ok h) :
    (empty.withHint h).level .trans = q.level .trans ∧
      (empty.withHint h).level .valu = if q.level .valu = 0 then 5 else q.level .valu := by
  rw [withHint_of_hint hq hh]
  obtain ⟨a, b, ha, hb, hcases⟩ := codes_cases q
  have hv := level_valuCode hq
  have ht := level_transCode hq
  have hs := saluCode_range q
  obtain ⟨hvr, htr⟩ := hq
  obtain ⟨hv1, ht1⟩ := level_withWait empty a
  obtain ⟨hv2, ht2⟩ := level_withWait (empty.withWait a) b
  have hev : empty.level .valu = 5 := rfl
  have het : empty.level .trans = 4 := rfl
  rw [ha, hb]
  show ((empty.withWait a).withWait b).level .trans = _ ∧
    ((empty.withWait a).withWait b).level .valu = _
  rw [ht2, hv2, ht1, hv1, hev, het]
  clear hv1 hv2 ht1 ht2
  rcases hcases with ⟨_, _, rfl, rfl⟩ | ⟨_, _, rfl, rfl⟩ | ⟨_, _, rfl, rfl⟩ | ⟨_, _, rfl, rfl⟩ <;>
    constructor <;> omega

end Requirement

end DelayHint

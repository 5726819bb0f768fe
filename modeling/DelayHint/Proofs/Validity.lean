import DelayHint.Validate

/-! Programs without a defect. The check finds nothing exactly when every block stands at its index,
its edges lead to blocks, its registers exist and its hints are well formed. -/
namespace DelayHint

namespace Instr

/-- A hint has no registers and a meaning in every field, and it skips only to a wait. -/
structure ValidHint (i : Instr) : Prop where
  operands_eq : i.operands = []
  defs_eq : i.defs = []
  imm_lt : i.imm.toNat < 2048
  first_le : Immediate.first i.imm ≤ 11
  second_le : Immediate.second i.imm ≤ 11
  skip_le : Immediate.skip i.imm ≤ Immediate.maxSkip
  second_ne : Immediate.skip i.imm ≠ 0 → Immediate.second i.imm ≠ 0

structure Valid (i : Instr) : Prop where
  hint : i.isHint → i.ValidHint
  fits : ∀ s ∈ i.spans, s.Fits

variable {i : Instr} {block ip : Nat}

theorem isNone_ofCode? {n : Nat} : (Wait.ofCode? n).isNone = true ↔ 11 < n := by
  rw [Option.isNone_iff_eq_none, ← Option.not_isSome_iff_eq_none, Wait.isSome_ofCode?, Nat.not_le]

theorem hintViolation?_eq_none_iff : i.hintViolation? block ip = none ↔ i.ValidHint := by
  have hite {c : Prop} [Decidable c] {v : Violation} {rest : Option Violation} :
      (if c then some v else rest) = none ↔ ¬ c ∧ rest = none := by
    split <;> simp_all
  unfold hintViolation?
  rw [hite, hite, hite, hite, hite, hite, Decidable.not_not, isNone_ofCode?, isNone_ofCode?]
  constructor
  · rintro ⟨⟨hops, hdefs⟩, himm, hfirst, hsecond, hskip, halone, -⟩
    exact ⟨hops, hdefs, Nat.lt_of_not_le himm, Nat.le_of_not_lt hfirst, Nat.le_of_not_lt hsecond,
      Nat.le_of_not_lt hskip, fun hs hz => halone ⟨hs, hz⟩⟩
  · rintro ⟨hops, hdefs, himm, hfirst, hsecond, hskip, halone⟩
    exact ⟨⟨hops, hdefs⟩, Nat.not_le_of_lt himm, Nat.not_lt_of_le hfirst, Nat.not_lt_of_le hsecond,
      Nat.not_lt_of_le hskip, fun h => halone h.1 h.2, rfl⟩

theorem spanViolation?_eq_none_iff : i.spanViolation? block ip = none ↔ ∀ s ∈ i.spans, s.Fits := by
  simp [spanViolation?]

theorem violation?_eq_none_iff : i.violation? block ip = none ↔ i.Valid := by
  unfold violation?
  rw [Option.or_eq_none_iff, spanViolation?_eq_none_iff]
  constructor
  · rintro ⟨hhint, hfits⟩
    refine ⟨fun hi => ?_, hfits⟩
    rw [if_pos hi] at hhint
    exact hintViolation?_eq_none_iff.mp hhint
  · rintro ⟨hhint, hfits⟩
    refine ⟨?_, hfits⟩
    split
    · exact hintViolation?_eq_none_iff.mpr (hhint ‹_›)
    · rfl

end Instr

/-- The block at position `pos` of `count` blocks has no defect. -/
structure Block.Valid (count pos : Nat) (b : Block) : Prop where
  index_eq : b.index = pos
  preds_lt : ∀ q ∈ b.preds, q < count
  succs_lt : ∀ q ∈ b.succs, q < count
  instrs : ∀ i ∈ b.instrs, i.Valid

variable {count pos : Nat} {b : Block}

theorem Block.instrViolation?_eq_none_iff :
    b.instrViolation? pos = none ↔ ∀ i ∈ b.instrs, i.Valid := by
  unfold instrViolation?
  simp only [List.findSome?_eq_none_iff, Prod.forall, Instr.violation?_eq_none_iff]
  constructor
  · intro h i hi
    obtain ⟨ip, hlt, rfl⟩ := List.mem_iff_getElem.mp hi
    exact h _ ip (List.mem_zipIdx_iff_getElem?.mpr (List.getElem?_eq_getElem hlt))
  · intro h i ip hmem
    exact h i (List.mem_of_getElem? (List.mem_zipIdx_iff_getElem?.mp hmem))

theorem Block.indexViolation?_eq_none_iff : b.indexViolation? pos = none ↔ b.index = pos := by
  simp [indexViolation?]

theorem Block.edgeViolation?_eq_none_iff : b.edgeViolation? count pos = none ↔
    (∀ q ∈ b.preds, q < count) ∧ ∀ q ∈ b.succs, q < count := by
  simp [edgeViolation?]

theorem Block.violation?_eq_none_iff : b.violation? count pos = none ↔ b.Valid count pos := by
  unfold violation?
  rw [Option.or_eq_none_iff, Option.or_eq_none_iff, indexViolation?_eq_none_iff,
    edgeViolation?_eq_none_iff, instrViolation?_eq_none_iff]
  constructor
  · rintro ⟨⟨hi, hpreds, hsuccs⟩, hcode⟩
    exact ⟨hi, hpreds, hsuccs, hcode⟩
  · rintro ⟨hi, hpreds, hsuccs, hcode⟩
    exact ⟨⟨hi, hpreds, hsuccs⟩, hcode⟩

/-- With the rest of the block in order, a defect is one of an instruction. -/
theorem Block.exists_of_violation? {v : Violation} (hi : b.index = pos)
    (hp : ∀ q ∈ b.preds, q < count) (hs : ∀ q ∈ b.succs, q < count)
    (h : b.violation? count pos = some v) :
    ∃ i ∈ b.instrs, ∃ ip, i.violation? pos ip = some v := by
  rw [violation?, indexViolation?_eq_none_iff.mpr hi, edgeViolation?_eq_none_iff.mpr ⟨hp, hs⟩,
    Option.or_none, Option.none_or] at h
  obtain ⟨⟨i, ip⟩, hmem, hviolation⟩ := List.exists_of_findSome?_eq_some h
  exact ⟨i, List.mem_of_getElem? (List.mem_zipIdx_iff_getElem?.mp hmem), ip, hviolation⟩

/-- The check finds nothing exactly when no block has a defect. -/
theorem Program.violation?_eq_none_iff {p : Program} : p.violation? = none ↔
    ∀ (pos : Nat) (b : Block), p.blocks[pos]? = some b → b.Valid p.blocks.length pos := by
  unfold violation?
  simp only [List.findSome?_eq_none_iff, Prod.forall, Block.violation?_eq_none_iff,
    List.mem_zipIdx_iff_getElem?]
  exact forall_comm

end DelayHint

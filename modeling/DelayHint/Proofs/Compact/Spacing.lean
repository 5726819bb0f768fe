import DelayHint.Proofs.Compact.Waits

/-! Compaction leaves nothing to merge. Two hints with a single wait stay apart only if the distance
does not fit the skip field, and code with such distances only is compacted already. -/
namespace DelayHint

/-- Between any two single hints stand at least six instructions. -/
def Spaced (code : List Instr) : Prop :=
  ∀ (j k : ℕ) (g h : Instr), j < k → code[j]? = some g → code[k]? = some h →
    g.isSingleHint → h.isSingleHint → 6 ≤ k - j - 1

variable {h i : Instr} {xs rest out between : List Instr}

theorem spaced_cons : Spaced (i :: rest) ↔
    (i.isSingleHint → ∀ k h, rest[k]? = some h → h.isSingleHint → 6 ≤ k) ∧ Spaced rest := by
  constructor
  · intro hs
    refine ⟨fun hi k h hk hh => ?_, fun j k g h hjk hj hk => ?_⟩
    · exact hs 0 (k + 1) i h (Nat.succ_pos k) rfl hk hi hh
    · have hfar := hs (j + 1) (k + 1) g h (Nat.succ_lt_succ hjk) hj hk
      rwa [Nat.add_sub_add_right] at hfar
  · intro ⟨hhead, hrest⟩ j k g h hjk hj hk hg hh
    obtain ⟨k, rfl⟩ : ∃ m, k = m + 1 := ⟨k - 1, by omega⟩
    cases j with
    | zero =>
      obtain rfl : i = g := Option.some.inj hj
      exact hhead hg k h hk hh
    | succ j =>
      have hfar := hrest j k g h (Nat.lt_of_succ_lt_succ hjk) hj hk hg hh
      rwa [Nat.add_sub_add_right]

theorem Spaced.of_append (hs : Spaced (xs ++ rest)) : Spaced rest := by
  induction xs with
  | nil => exact hs
  | cons x xs ih => exact ih (spaced_cons.mp hs).2

theorem Spaced.append (hout : Spaced out) (hxs : ∀ x ∈ xs, ¬ x.isSingleHint) :
    Spaced (xs ++ out) := by
  induction xs with
  | nil => exact hout
  | cons x xs ih =>
    refine spaced_cons.mpr ⟨fun hx => absurd hx (hxs x List.mem_cons_self), ?_⟩
    exact ih fun y hy => hxs y (List.mem_cons_of_mem _ hy)

/-- A single hint may stand in front if no other one follows, or the first one is far away. -/
private theorem Spaced.cons_append (hout : Spaced out) (hbetween : ∀ x ∈ between, ¬ x.isSingleHint)
    (hfar : out ≠ [] → 6 ≤ between.length) : Spaced (h :: (between ++ out)) := by
  refine spaced_cons.mpr ⟨fun _ k g hk hg => ?_, hout.append hbetween⟩
  have hle : between.length ≤ k := by
    by_contra hlt
    rw [List.getElem?_append_left (Nat.lt_of_not_le hlt)] at hk
    exact hbetween g (List.mem_of_getElem? hk) hg
  have hne : out ≠ [] := by
    intro hnil
    rw [hnil, List.append_nil, List.getElem?_eq_none hle] at hk
    cases hk
  exact Nat.le_trans (hfar hne) hle

/-- A merged hint has two waits. -/
private theorem Instr.not_isSingleHint_mergeHint (h : Instr) (d : ℕ) (hi : i.isSingleHint)
    (himm : i.imm ≠ 0) : ¬ (h.mergeHint d i).isSingleHint := by
  have hlt : i.imm.toNat < 128 := by
    have hsingle := (Bool.and_eq_true_iff.mp hi).2
    rw [Immediate.isSingle, beq_iff_eq] at hsingle
    omega
  have hpos : 0 < i.imm.toNat := by
    rw [ne_eq, ← UInt32.toNat_inj, UInt32.toNat_zero] at himm
    omega
  have hseven : (i.imm <<< 7).toNat = i.imm.toNat * 128 := by
    rw [UInt32.toNat_shiftLeft, Nat.shiftLeft_eq]
    exact Nat.mod_eq_of_lt (by show i.imm.toNat * 2 ^ 7 < 2 ^ 32; omega)
  have hle : (i.imm <<< 7).toNat ≤ (h.mergeHint d i).imm.toNat := by
    show _ ≤ (Immediate.merge h.imm d i.imm).toNat
    rw [Immediate.merge, UInt32.toNat_or]
    exact Nat.right_le_or
  intro hmerged
  have hsingle := (Bool.and_eq_true_iff.mp hmerged).2
  rw [Immediate.isSingle, beq_iff_eq] at hsingle
  omega

namespace Compact

/-- Compacted code is spaced, if every hint waits for something. A merged hint is no candidate any
more, and one with two waits stays behind the open one without closing it. -/
theorem spaced_run (st : Option (Instr × List Instr)) (rest : List Instr)
    (hst : ∀ x ∈ st, ∀ y ∈ x.2, ¬ y.isSingleHint)
    (himm : ∀ i ∈ rest, i.isHint → i.imm ≠ 0) : Spaced (run st rest).1 := by
  have hnil : Spaced [] := fun j k g h _ hj => by cases hj
  fun_induction run st rest with
  | case1 => exact hnil
  | case2 h between =>
    have hout := hnil.cons_append (h := h) (hst _ rfl) (absurd rfl)
    rwa [List.append_nil] at hout
  | case3 i rest hi ih =>
    exact ih (by simp) fun j hj => himm j (List.mem_cons_of_mem _ hj)
  | case4 i rest hi out n hrun ih =>
    rw [hrun] at ih
    have hout := ih (by simp) fun j hj => himm j (List.mem_cons_of_mem _ hj)
    exact spaced_cons.mpr ⟨fun h => absurd h hi, hout⟩
  | case5 h between i rest hi hlt out n hrun ih =>
    rw [hrun] at ih
    have hout := ih (by simp) fun j hj => himm j (List.mem_cons_of_mem _ hj)
    have hhint : i.isHint := (Bool.and_eq_true_iff.mp hi).1
    have hmerged := Instr.not_isSingleHint_mergeHint h between.length hi
      (himm i List.mem_cons_self hhint)
    exact spaced_cons.mpr ⟨fun h => absurd h hmerged, hout.append (hst _ rfl)⟩
  | case6 h between i rest hi hlt out n hrun ih =>
    rw [hrun] at ih
    have hout := ih (by simp) fun j hj => himm j (List.mem_cons_of_mem _ hj)
    exact hout.cons_append (hst _ rfl) fun _ => Nat.le_of_not_lt hlt
  | case7 h between i rest hi ih =>
    refine ih (fun x hx y hy => ?_) fun j hj => himm j (List.mem_cons_of_mem _ hj)
    obtain rfl := Option.mem_some_iff.mp hx
    rcases List.mem_append.mp hy with hy | hy
    · exact hst _ rfl y hy
    · rwa [List.mem_singleton.mp hy]

/-- In spaced code nothing is merged. -/
theorem run_of_spaced (st : Option (Instr × List Instr)) (rest : List Instr)
    (hst : ∀ x ∈ st, x.1.isSingleHint) (hs : Spaced (held st ++ rest)) :
    run st rest = (held st ++ rest, 0) := by
  fun_induction run st rest with
  | case1 => rfl
  | case2 => simp [held]
  | case3 i rest hi ih => exact ih (by simpa using hi) hs
  | case4 i rest hi out n hrun ih =>
    have hout := ih (by simp) (spaced_cons.mp hs).2
    rw [hrun] at hout
    obtain ⟨rfl, rfl⟩ := Prod.mk.inj hout
    rfl
  | case5 h between i rest hi hlt out n hrun ih =>
    have hhead := (spaced_cons.mp hs).1 (hst _ rfl)
    have hfar := hhead between.length i (by simp) hi
    exact absurd hlt (Nat.not_lt_of_le hfar)
  | case6 h between i rest hi hlt out n hrun ih =>
    have hrest : Spaced (i :: rest) :=
      Spaced.of_append (show Spaced (h :: between ++ i :: rest) from hs)
    have hout := ih (by simpa using hi) hrest
    rw [hrun] at hout
    obtain ⟨rfl, rfl⟩ := Prod.mk.inj hout
    rfl
  | case7 h between i rest hi ih =>
    have heq : held (some (h, between ++ [i])) ++ rest = held (some (h, between)) ++ i :: rest := by
      simp [held]
    rw [heq] at ih
    exact ih (by simpa using hst) hs

end Compact

namespace Program

variable {p : Program}

theorem compact_of_spaced (h : ∀ b ∈ p.blocks, Spaced b.instrs) :
    p.mergedPairs = 0 ∧ p.compact = p := by
  have hblock : ∀ b ∈ p.blocks, Compact.block b.instrs = (b.instrs, 0) := by
    intro b hb
    exact Compact.run_of_spaced none b.instrs (by simp) (h b hb)
  constructor
  · have hzero : ∀ b ∈ p.blocks, (Compact.block b.instrs).2 = 0 := by
      intro b hb
      rw [hblock b hb]
    rw [mergedPairs, total_eq_mul hzero, Nat.mul_zero]
  · have hmap : p.blocks.map (fun b => { b with instrs := (Compact.block b.instrs).1 }) =
        p.blocks.map id := by
      apply List.map_congr_left
      intro b hb
      rw [hblock b hb, id]
    rw [compact, hmap, List.map_id]

/-- Compaction is maximal. If every hint waits for something, at least six instructions stand
between any two single hints of a block afterwards, and to compact once more merges nothing and
changes nothing. -/
theorem compact_spaced (himm : ∀ b ∈ p.blocks, ∀ i ∈ b.instrs, i.isHint → i.imm ≠ 0) :
    (∀ b ∈ p.compact.blocks, Spaced b.instrs) ∧
      p.compact.mergedPairs = 0 ∧ p.compact.compact = p.compact := by
  have hspaced : ∀ b ∈ p.compact.blocks, Spaced b.instrs := by
    intro b' hb'
    obtain ⟨b, hb, rfl⟩ := List.mem_map.mp hb'
    exact Compact.spaced_run none b.instrs (by simp) (himm b hb)
  exact ⟨hspaced, compact_of_spaced hspaced⟩

end Program

/-- Three single hints, with one for two waits among them, and a fourth one that is too far from the
third to be merged with it. -/
def crowdedHints : List Instr :=
  [{ opcode := .sDelayAlu, imm := 1 }, .unary .vMovB32 256 257,
   { opcode := .sDelayAlu, imm := 261 }, .unary .vMovB32 258 256,
   { opcode := .sDelayAlu, imm := 9 }, { opcode := .sDelayAlu, imm := 18 }] ++
  List.replicate 6 (.unary .vMovB32 259 258) ++
  [{ opcode := .sDelayAlu, imm := 3 }, .unary .vMovB32 260 259]

theorem compact_spaced_crowdedHints :
    (∀ b ∈ (oneBlock crowdedHints).blocks, ∀ i ∈ b.instrs, i.isHint → i.imm ≠ 0) ∧
    (oneBlock crowdedHints).mergedPairs = 1 ∧
    ∃ b, (oneBlock crowdedHints).compact.blocks = [b] ∧ Spaced b.instrs ∧
      b.instrs.countP Instr.isSingleHint = 2 ∧
      (oneBlock crowdedHints).compact.mergedPairs = 0 ∧
      (oneBlock crowdedHints).compact.compact = (oneBlock crowdedHints).compact := by
  have himm : ∀ b ∈ (oneBlock crowdedHints).blocks, ∀ i ∈ b.instrs, i.isHint → i.imm ≠ 0 := by
    decide
  obtain ⟨hspaced, hnone, hsame⟩ := Program.compact_spaced himm
  exact ⟨himm, by decide, _, rfl, hspaced _ List.mem_cons_self, by decide, hnone, hsame⟩

end DelayHint

import Mathlib.Algebra.BigOperators.Group.List.Basic
import Mathlib.Algebra.Group.Pi.Basic
import Mathlib.Algebra.Order.Group.Multiset
import DelayHint.Instr

/-! The waits that the hints of some code enforce. Each hint has a wait code for the instruction
right behind it and one for an instruction further on. -/
namespace DelayHint

/-- Wait codes by the number of instructions that come first. -/
abbrev Agenda := ℕ → Multiset ℕ

/-- The wait code, unless it stands for no wait. -/
def waitOf (code : ℕ) : Multiset ℕ := if code = 0 then 0 else {code}

namespace Agenda

/-- Waits for one instruction only. -/
def only (n : ℕ) (m : Multiset ℕ) : Agenda := fun d => if d = n then m else 0

theorem only_zero (n : ℕ) : only n 0 = 0 := by
  funext d
  simp [only]

end Agenda

/-- The waits of a hint for the instructions behind it. -/
def Instr.waits (i : Instr) : Agenda :=
  if i.isHint then
    .only 0 (waitOf (Immediate.first i.imm)) +
      .only (Immediate.skip i.imm) (waitOf (Immediate.second i.imm))
  else 0

theorem Instr.waits_of_not_isHint {i : Instr} (h : ¬ i.isHint) : i.waits = 0 := if_neg h

theorem Instr.waits_of_skip_eq_zero {i : Instr} (h : i.isHint → Immediate.skip i.imm = 0) :
    i.waits = .only 0 (i.waits 0) := by
  funext d
  by_cases hi : i.isHint
  · by_cases hd : d = 0 <;> simp [waits, Agenda.only, hi, h hi, hd]
  · simp [waits_of_not_isHint hi, Agenda.only]

/-- The wait codes that apply to the instruction at a position of some code. -/
def waitsOn (code : List Instr) (pos : ℕ) : Multiset ℕ :=
  (code.zipIdx.map fun x => if x.2 < pos then x.1.waits (pos - 1 - x.2) else 0).sum

/-- The instructions that are not hints, in order, each with the wait codes that apply to it. -/
def enforced (code : List Instr) : List (Instr × Multiset ℕ) :=
  (code.zipIdx.filter fun x => !x.1.isHint).map fun x => (x.1, waitsOn code x.2)

namespace Agenda

/-- The agenda behind an instruction. -/
def next (a : Agenda) (i : Instr) : Agenda := fun d => a (d + 1) + i.waits d

/-- The agenda behind some code. -/
def after (a : Agenda) (code : List Instr) : Agenda := code.foldl next a

/-- The instructions that are not hints, each with the wait codes due at it. -/
def serve (a : Agenda) : List Instr → List (Instr × Multiset ℕ)
  | [] => []
  | i :: rest => if i.isHint then (a.next i).serve rest else (i, a 0) :: (a.next i).serve rest

variable {a : Agenda} {i : Instr} {m : Multiset ℕ} {n : ℕ}

theorem serve_append (a : Agenda) (xs ys : List Instr) :
    a.serve (xs ++ ys) = a.serve xs ++ (a.after xs).serve ys := by
  induction xs generalizing a with
  | nil => rfl
  | cons i rest ih =>
    simp only [List.cons_append, serve, ih, after, List.foldl_cons]
    split
    · rfl
    · rfl

private theorem next_add_only (a : Agenda) (n : ℕ) (m : Multiset ℕ) (i : Instr) :
    (a + only (n + 1) m).next i = a.next i + only n m := by
  funext d
  simp only [next, Pi.add_apply, only, Nat.add_right_cancel_iff]
  rw [add_right_comm]

/-- What is due only behind some code does not matter for it and is due there. -/
theorem serve_add_only {xs : List Instr} (h : xs.length ≤ n) :
    (a + only n m).serve xs = a.serve xs ∧
      (a + only n m).after xs = a.after xs + only (n - xs.length) m := by
  induction xs generalizing a n with
  | nil => exact ⟨rfl, rfl⟩
  | cons i rest ih =>
    obtain ⟨k, rfl⟩ : ∃ k, n = k + 1 := ⟨n - 1, by simp only [List.length_cons] at h; omega⟩
    obtain ⟨hserve, hafter⟩ := ih (a := a.next i) (n := k) (by simpa using h)
    have hnow : (a + only (k + 1) m) 0 = a 0 := by simp [only]
    constructor
    · simp only [serve, next_add_only, hserve, hnow]
    · simp only [after, List.foldl_cons, next_add_only, List.length_cons, Nat.add_sub_add_right]
      exact hafter

theorem next_only (m : Multiset ℕ) (i : Instr) : (only 0 m).next i = i.waits := by
  funext d
  simp [next, only]

end Agenda

private theorem waitsOn_concat (code : List Instr) (i : Instr) {pos : ℕ} (h : code.length < pos) :
    waitsOn (code ++ [i]) pos = waitsOn code pos + i.waits (pos - 1 - code.length) := by
  simp [waitsOn, List.zipIdx_append, h]

/-- Only what stands in front of an instruction can apply to it. -/
private theorem waitsOn_append (xs ys : List Instr) :
    waitsOn (xs ++ ys) xs.length = waitsOn xs xs.length := by
  have hzero : ((ys.zipIdx xs.length).map fun x =>
      if x.2 < xs.length then x.1.waits (xs.length - 1 - x.2) else 0).sum = 0 := by
    apply List.sum_eq_zero
    intro m hm
    obtain ⟨x, hx, rfl⟩ := List.mem_map.mp hm
    have hle := List.le_snd_of_mem_zipIdx hx
    rw [if_neg (by omega)]
  rw [waitsOn, List.zipIdx_append, List.map_append, List.sum_append, Nat.zero_add, hzero, add_zero,
    waitsOn]

/-- The agenda that some code leaves behind. -/
def agenda (code : List Instr) : Agenda := fun d => waitsOn code (code.length + d)

private theorem agenda_concat (code : List Instr) (i : Instr) :
    agenda (code ++ [i]) = (agenda code).next i := by
  funext d
  have hlt : code.length < (code ++ [i]).length + d := by simp; omega
  rw [agenda, waitsOn_concat code i hlt, Agenda.next, agenda]
  congr 2
  · simp only [List.length_append, List.length_singleton]
    omega
  · simp only [List.length_append, List.length_singleton]
    omega

/-- Counting positions and going through the code instruction by instruction give the same waits. -/
theorem enforced_eq_serve (code : List Instr) : enforced code = Agenda.serve 0 code := by
  have hgen (done rest : List Instr) :
      ((rest.zipIdx done.length).filter fun x => !x.1.isHint).map
        (fun x => (x.1, waitsOn (done ++ rest) x.2)) = (agenda done).serve rest := by
    induction rest generalizing done with
    | nil => rfl
    | cons i rest ih =>
      have hrest := ih (done ++ [i])
      rw [List.append_assoc, List.singleton_append, agenda_concat, List.length_append,
        List.length_singleton] at hrest
      have hnow : waitsOn (done ++ i :: rest) done.length = agenda done 0 := waitsOn_append ..
      rw [List.zipIdx_cons, Agenda.serve]
      by_cases hi : i.isHint
      · rw [List.filter_cons_of_neg (by simp [hi]), if_pos hi, hrest]
      · rw [List.filter_cons_of_pos (by simp [hi]), if_neg hi, List.map_cons, hrest, hnow]
  exact hgen [] code

end DelayHint

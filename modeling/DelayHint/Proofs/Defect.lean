import DelayHint.Proofs.Validity

/-! Defects and their places. A place tells which check fails: it starts with the position of the
block, then comes the check within the block, then, for an instruction, its position and the check
within the instruction. In lexicographic order the places stand in the order of the checks, and the
check of a program answers with the defect at the first place. -/
namespace DelayHint

/-- The checks of a hint in their order: when each fails, and what it then answers. -/
def Instr.hintChecks (block ip : Nat) (i : Instr) : List (Bool × Violation) :=
  [(¬ (i.operands = [] ∧ i.defs = []), .hintRegisters block ip),
    (2048 ≤ i.imm.toNat, .hintImmediate block ip i.imm),
    (11 < Immediate.first i.imm, .hintWait block ip (Immediate.first i.imm)),
    (11 < Immediate.second i.imm, .hintWait block ip (Immediate.second i.imm)),
    (5 < Immediate.skip i.imm, .hintSkip block ip (Immediate.skip i.imm)),
    (Immediate.skip i.imm ≠ 0 ∧ Immediate.second i.imm = 0, .hintSkipAlone block ip)]

/-- What is wrong with the instruction at `ip` of a block, and where. Place 0 has the checks of a
hint, and place 1 the spans, those written before those read. -/
inductive Instr.Defect (block ip : Nat) (i : Instr) : List Nat → Violation → Prop
  | hint {k : Nat} {v : Violation} (hi : i.isHint)
      (h : (i.hintChecks block ip)[k]? = some (true, v)) : Defect block ip i [0, k] v
  | span {k : Nat} {s : Span} (hs : (i.defs ++ i.operands.filterMap Operand.span?)[k]? = some s)
      (h : 512 < s.base.val + s.size) :
      Defect block ip i [1, k] (.register block ip (s.base.val + s.size - 1))

/-- What is wrong with a block at `pos` of `count` blocks. Place 0 is its index, place 1 has its
edges, the predecessors before the successors, and place 2 its instructions. -/
inductive Block.Defect (count pos : Nat) (b : Block) : List Nat → Violation → Prop
  | index (h : b.index ≠ pos) : Defect count pos b [0] (.blockIndex pos b.index)
  | edge {k target : Nat} (ht : (b.preds ++ b.succs)[k]? = some target) (h : count ≤ target) :
      Defect count pos b [1, k] (.edge pos target)
  | instr {ip : Nat} {i : Instr} {place : List Nat} {v : Violation} (hi : b.instrs[ip]? = some i)
      (h : i.Defect pos ip place v) : Defect count pos b (2 :: ip :: place) v

/-- What is wrong with a program, by the position of the block. -/
inductive Program.Defect (p : Program) : List Nat → Violation → Prop
  | block {pos : Nat} {b : Block} {place : List Nat} {v : Violation}
      (hb : p.blocks[pos]? = some b) (h : b.Defect p.blocks.length pos place v) :
      Defect p (pos :: place) v

namespace Violation

/-- A search answers with the defect at the first place in lexicographic order. -/
structure IsFirst (defect : List Nat → Violation → Prop) (found : Option Violation) : Prop where
  eq_none_iff : found = none ↔ ∀ place v, ¬ defect place v
  eq_some_iff (v : Violation) : found = some v ↔ ∃ place, defect place v ∧
    ∀ other w, defect other w → ¬ List.Lex (· < ·) other place

variable {α : Type} {defect : List Nat → Violation → Prop} {v : Violation}

theorem IsFirst.congr {defect' : List Nat → Violation → Prop} {found : Option Violation}
    (h : IsFirst defect found) (hd : ∀ place v, defect place v ↔ defect' place v) :
    IsFirst defect' found := by
  have heq : defect = defect' := funext fun place => funext fun v => propext (hd place v)
  exact heq ▸ h

/-- A search with one place. -/
theorem IsFirst.of_found {found : Option Violation}
    (h : ∀ place v, defect place v ↔ place = [] ∧ found = some v) : IsFirst defect found where
  eq_none_iff := by
    rw [Option.eq_none_iff_forall_ne_some]
    constructor
    · intro hnone place v hd
      exact hnone v ((h place v).mp hd).2
    · intro hnone v hv
      exact hnone [] v ((h [] v).mpr ⟨rfl, hv⟩)
  eq_some_iff v := by
    constructor
    · intro hv
      refine ⟨[], (h [] v).mpr ⟨rfl, hv⟩, ?_⟩
      intro other w _ hlex
      cases hlex
    · rintro ⟨place, hd, -⟩
      exact ((h place v).mp hd).2

private theorem findSome?_eq_some_iff_getElem? {l : List α} {f : α → Option Violation} :
    l.findSome? f = some v ↔ ∃ (k : Nat) (x : α), l[k]? = some x ∧ f x = some v ∧
      ∀ j < k, ∀ y, l[j]? = some y → f y = none := by
  rw [List.findSome?_eq_some_iff]
  constructor
  · rintro ⟨front, x, back, rfl, hx, hfront⟩
    refine ⟨front.length, x, by simp, hx, fun j hj y hy => ?_⟩
    rw [List.getElem?_append_left hj] at hy
    exact hfront y (List.mem_of_getElem? hy)
  · rintro ⟨k, x, hk, hx, hfront⟩
    obtain ⟨hlt, rfl⟩ := List.getElem?_eq_some_iff.mp hk
    refine ⟨l.take k, l[k], l.drop (k + 1), ?_, hx, fun y hy => ?_⟩
    · rw [List.getElem_cons_drop, List.take_append_drop]
    · obtain ⟨j, hj⟩ := List.mem_iff_getElem?.mp hy
      rw [List.getElem?_take] at hj
      split at hj
      · exact hfront j ‹_› y hj
      · cases hj

/-- A search through a list, whose members have their defects at the places that start with their
position. A place before a defect lies in an earlier member, which has none, or in the same one. -/
theorem IsFirst.findSome? {l : List α} {f : α → Option Violation} (hnil : ∀ v, ¬ defect [] v)
    (hlt : ∀ k rest v, defect (k :: rest) v → k < l.length)
    (h : ∀ k x, l[k]? = some x → IsFirst (fun rest => defect (k :: rest)) (f x)) :
    IsFirst defect (l.findSome? f) := by
  have hmember {k : Nat} {rest : List Nat} {v : Violation} (hd : defect (k :: rest) v) :
      ∃ x, l[k]? = some x := ⟨_, List.getElem?_eq_getElem (hlt k rest v hd)⟩
  constructor
  · rw [List.findSome?_eq_none_iff]
    constructor
    · intro hnone place v hd
      cases place with
      | nil => exact hnil v hd
      | cons k rest =>
        obtain ⟨x, hx⟩ := hmember hd
        exact (h k x hx).eq_none_iff.mp (hnone x (List.mem_of_getElem? hx)) rest v hd
    · intro hnone x hx
      obtain ⟨k, hk⟩ := List.mem_iff_getElem?.mp hx
      exact (h k x hk).eq_none_iff.mpr fun rest v => hnone (k :: rest) v
  · intro v
    rw [findSome?_eq_some_iff_getElem?]
    constructor
    · rintro ⟨k, x, hk, hx, hfront⟩
      obtain ⟨rest, hd, hfirst⟩ := ((h k x hk).eq_some_iff v).mp hx
      refine ⟨k :: rest, hd, fun other w hother hlex => ?_⟩
      cases hlex with
      | nil => exact hnil w hother
      | rel hearlier =>
        obtain ⟨y, hy⟩ := hmember hother
        exact (h _ y hy).eq_none_iff.mp (hfront _ hearlier y hy) _ w hother
      | cons hrest => exact hfirst _ w hother hrest
    · rintro ⟨place, hd, hfirst⟩
      cases place with
      | nil => exact absurd hd (hnil v)
      | cons k rest =>
        obtain ⟨x, hx⟩ := hmember hd
        refine ⟨k, x, hx, ?_, fun j hj y hy => ?_⟩
        · refine ((h k x hx).eq_some_iff v).mpr ⟨rest, hd, fun other w hother hlex => ?_⟩
          exact hfirst (k :: other) w hother (.cons hlex)
        · refine (h j y hy).eq_none_iff.mpr fun other w hother => ?_
          exact hfirst (j :: other) w hother (.rel hj)

/-- A search through a list in which every member has one place. -/
theorem IsFirst.of_members {l : List α} {f : α → Option Violation}
    (h : ∀ place v, defect place v ↔ ∃ (k : Nat) (x : α), place = [k] ∧ l[k]? = some x ∧
      f x = some v) : IsFirst defect (l.findSome? f) := by
  apply IsFirst.findSome?
  · intro v hd
    obtain ⟨k, x, hplace, -⟩ := (h [] v).mp hd
    cases hplace
  · intro k rest v hd
    obtain ⟨k, x, hplace, hk, -⟩ := (h _ v).mp hd
    cases hplace
    exact (List.getElem?_eq_some_iff.mp hk).1
  · intro k x hk
    apply IsFirst.of_found
    intro rest v
    rw [h]
    constructor
    · rintro ⟨k', x', hplace, hk', hx'⟩
      cases hplace
      rw [hk, Option.some.injEq] at hk'
      exact ⟨rfl, hk' ▸ hx'⟩
    · rintro ⟨rfl, hx⟩
      exact ⟨k, x, rfl, hk, hx⟩

/-- A search through a list with positions, whose defects are those of its members. -/
theorem IsFirst.findSome?_zipIdx {l : List α} {f : α × Nat → Option Violation}
    {own : Nat → α → List Nat → Violation → Prop} (h : ∀ k x, IsFirst (own k x) (f (x, k)))
    (hd : ∀ place v, defect place v ↔ ∃ (k : Nat) (x : α) (rest : List Nat), place = k :: rest ∧
      l[k]? = some x ∧ own k x rest v) : IsFirst defect (l.zipIdx.findSome? f) := by
  apply IsFirst.findSome?
  · intro v hv
    obtain ⟨k, x, rest, hplace, -⟩ := (hd [] v).mp hv
    cases hplace
  · intro k rest v hv
    obtain ⟨k, x, rest, hplace, hk, -⟩ := (hd _ v).mp hv
    cases hplace
    rw [List.length_zipIdx]
    exact (List.getElem?_eq_some_iff.mp hk).1
  · intro k y hy
    rw [List.getElem?_zipIdx, Nat.zero_add, Option.map_eq_some_iff] at hy
    obtain ⟨x, hk, rfl⟩ := hy
    apply (h k x).congr
    intro rest v
    rw [hd]
    constructor
    · intro hown
      exact ⟨k, x, rest, rfl, hk, hown⟩
    · rintro ⟨k', x', rest', hplace, hk', hown⟩
      cases hplace
      rw [hk, Option.some.injEq] at hk'
      exact hk' ▸ hown

private theorem findSome?_cons_check (c : Prop) [Decidable c] (v : Violation)
    (checks : List (Bool × Violation)) :
    ((decide c, v) :: checks).findSome? (fun check => if check.1 then some check.2 else none) =
      if c then some v
      else checks.findSome? fun check => if check.1 then some check.2 else none := by
  rw [List.findSome?_cons]
  by_cases hc : c
  · simp [hc]
  · simp [hc]

private theorem or_eq_findSome? (found : Option Violation) (others : List (Option Violation)) :
    found.or (others.findSome? id) = (found :: others).findSome? id := by
  cases found <;> rfl

private theorem map_find?_eq_findSome? (l : List α) (p : α → Bool) (g : α → Violation) :
    (l.find? p).map g = l.findSome? fun x => if p x then some (g x) else none := by
  induction l with
  | nil => rfl
  | cons a l ih =>
    rw [List.find?_cons, List.findSome?_cons, ← ih]
    cases p a <;> rfl

end Violation

open Violation

namespace Instr

variable {i : Instr} {block ip : Nat}

private theorem hintViolation?_eq_findSome? : i.hintViolation? block ip =
    (i.hintChecks block ip).findSome? fun check => if check.1 then some check.2 else none := by
  have hcode (n : Nat) (a b : Option Violation) :
      (if (Wait.ofCode? n).isNone then a else b) = if 11 < n then a else b :=
    ite_congr (propext isNone_ofCode?) (fun _ => rfl) fun _ => rfl
  unfold hintViolation? hintChecks
  rw [findSome?_cons_check, findSome?_cons_check, findSome?_cons_check, findSome?_cons_check,
    findSome?_cons_check, findSome?_cons_check, hcode, hcode]
  rfl

theorem isFirst_hintViolation? (hi : i.isHint) :
    IsFirst (fun place => i.Defect block ip (0 :: place)) (i.hintViolation? block ip) := by
  rw [hintViolation?_eq_findSome?]
  apply IsFirst.of_members
  intro place v
  simp only [Option.ite_none_right_eq_some, Option.some.injEq]
  constructor
  · intro h
    cases h with
    | @hint k _ _ h => exact ⟨k, _, rfl, h, rfl, rfl⟩
  · rintro ⟨k, check, rfl, hk, hc, rfl⟩
    exact .hint hi (hk.trans (congrArg some (Prod.ext hc rfl)))

theorem isFirst_spanViolation? :
    IsFirst (fun place => i.Defect block ip (1 :: place)) (i.spanViolation? block ip) := by
  unfold spanViolation? spans
  rw [map_find?_eq_findSome?]
  apply IsFirst.of_members
  intro place v
  simp only [Option.ite_none_right_eq_some, Option.some.injEq, decide_eq_true_eq, Span.Fits,
    Span.stop, Reg.count, Nat.not_le]
  constructor
  · intro h
    cases h with
    | @span k s hs h => exact ⟨k, s, rfl, hs, h, rfl⟩
  · rintro ⟨k, s, rfl, hs, h, rfl⟩
    exact .span hs h

private theorem violation?_eq_findSome? : i.violation? block ip =
    [if i.isHint then i.hintViolation? block ip else none,
      i.spanViolation? block ip].findSome? id := by
  rw [← or_eq_findSome?, ← or_eq_findSome?, List.findSome?_nil, Option.or_none, violation?]

theorem isFirst_violation? : IsFirst (i.Defect block ip) (i.violation? block ip) := by
  rw [violation?_eq_findSome?]
  apply IsFirst.findSome?
  · intro v h
    cases h
  · intro k rest v h
    cases h <;> simp
  · intro k found hk
    match k with
    | 0 =>
      obtain rfl := Option.some.inj hk
      split
      · exact isFirst_hintViolation? ‹_›
      · rename_i hplain
        apply IsFirst.of_found
        intro place v
        constructor
        · intro h
          cases h with
          | hint hi _ => exact absurd hi hplain
        · rintro ⟨-, h⟩
          cases h
    | 1 =>
      obtain rfl := Option.some.inj hk
      exact isFirst_spanViolation?

end Instr

namespace Block

variable {b : Block} {count pos : Nat}

theorem isFirst_indexViolation? :
    IsFirst (fun place => b.Defect count pos (0 :: place)) (b.indexViolation? pos) := by
  apply IsFirst.of_found
  intro place v
  unfold indexViolation?
  rw [Option.ite_none_left_eq_some, Option.some.injEq]
  constructor
  · intro h
    cases h with
    | index h => exact ⟨rfl, h, rfl⟩
  · rintro ⟨rfl, h, rfl⟩
    exact .index h

theorem isFirst_edgeViolation? :
    IsFirst (fun place => b.Defect count pos (1 :: place)) (b.edgeViolation? count pos) := by
  unfold edgeViolation?
  rw [map_find?_eq_findSome?]
  apply IsFirst.of_members
  intro place v
  simp only [Option.ite_none_right_eq_some, Option.some.injEq, decide_eq_true_eq]
  constructor
  · intro h
    cases h with
    | @edge k target ht h => exact ⟨k, target, rfl, ht, h, rfl⟩
  · rintro ⟨k, target, rfl, ht, h, rfl⟩
    exact .edge ht h

theorem isFirst_instrViolation? :
    IsFirst (fun place => b.Defect count pos (2 :: place)) (b.instrViolation? pos) := by
  apply IsFirst.findSome?_zipIdx fun _ _ => Instr.isFirst_violation?
  intro place v
  constructor
  · intro h
    cases h with
    | instr hi h => exact ⟨_, _, _, rfl, hi, h⟩
  · rintro ⟨ip, i, rest, rfl, hi, h⟩
    exact .instr hi h

private theorem violation?_eq_findSome? : b.violation? count pos =
    [b.indexViolation? pos, b.edgeViolation? count pos, b.instrViolation? pos].findSome? id := by
  rw [← or_eq_findSome?, ← or_eq_findSome?, ← or_eq_findSome?, List.findSome?_nil, Option.or_none,
    violation?, Option.or_assoc]

theorem isFirst_violation? : IsFirst (b.Defect count pos) (b.violation? count pos) := by
  rw [violation?_eq_findSome?]
  apply IsFirst.findSome?
  · intro v h
    cases h
  · intro k rest v h
    cases h <;> simp
  · intro k found hk
    match k with
    | 0 =>
      obtain rfl := Option.some.inj hk
      exact isFirst_indexViolation?
    | 1 =>
      obtain rfl := Option.some.inj hk
      exact isFirst_edgeViolation?
    | 2 =>
      obtain rfl := Option.some.inj hk
      exact isFirst_instrViolation?

end Block

namespace Program

theorem isFirst_violation? (p : Program) : IsFirst p.Defect p.violation? := by
  apply IsFirst.findSome?_zipIdx fun _ _ => Block.isFirst_violation?
  intro place v
  constructor
  · intro h
    cases h with
    | block hb h => exact ⟨_, _, _, rfl, hb, h⟩
  · rintro ⟨pos, b, rest, rfl, hb, h⟩
    exact .block hb h

/-- The check accepts exactly the valid programs, and otherwise it answers with the defect at the
first place. -/
theorem violation?_exact (p : Program) :
    (p.violation? = none ↔
      ∀ (pos : Nat) (b : Block), p.blocks[pos]? = some b → b.Valid p.blocks.length pos) ∧
    ∀ v, p.violation? = some v ↔ ∃ place, p.Defect place v ∧
      ∀ other w, p.Defect other w → ¬ List.Lex (· < ·) other place :=
  ⟨violation?_eq_none_iff, p.isFirst_violation?.eq_some_iff⟩

end Program

end DelayHint

/-! Sums of natural numbers over a list. The core library, on which everything that runs builds,
does not compare two of them member by member. -/
namespace DelayHint

/-- The sum of `f x` over the members `x` of a list. -/
def total {α : Type} (f : α → Nat) (l : List α) : Nat := @List.sum Nat _ ⟨0⟩ (l.map f)

variable {α : Type} {f g : α → Nat} {l : List α}

theorem total_cons (f : α → Nat) (x : α) (l : List α) : total f (x :: l) = f x + total f l := rfl

theorem total_eq_mul {n : Nat} (h : ∀ x ∈ l, f x = n) : total f l = l.length * n := by
  rw [total, List.map_eq_replicate_iff.mpr h]
  exact List.sum_replicate_nat

theorem total_le (h : ∀ x ∈ l, f x ≤ g x) : total f l ≤ total g l := by
  induction l with
  | nil => exact Nat.le_refl _
  | cons x rest ih =>
    exact Nat.add_le_add (h x List.mem_cons_self) (ih fun y hy => h y (List.mem_cons_of_mem _ hy))

theorem total_lt (h : ∀ x ∈ l, f x ≤ g x) {a : α} (ha : a ∈ l) (hlt : f a < g a) :
    total f l < total g l := by
  induction l with
  | nil => cases ha
  | cons x rest ih =>
    have hx := h x List.mem_cons_self
    have hrest : ∀ y ∈ rest, f y ≤ g y := fun y hy => h y (List.mem_cons_of_mem _ hy)
    rcases List.mem_cons.mp ha with rfl | ha
    · exact Nat.add_lt_add_of_lt_of_le hlt (total_le hrest)
    · exact Nat.add_lt_add_of_le_of_lt hx (ih hrest ha)

theorem total_set_lt {n : Nat} {a b : α} (ha : l[n]? = some a) (hlt : f b < f a) :
    total f (l.set n b) < total f l := by
  induction l generalizing n with
  | nil => simp at ha
  | cons x rest ih =>
    cases n with
    | zero =>
      simp only [List.getElem?_cons_zero, Option.some.injEq] at ha
      subst ha
      exact Nat.add_lt_add_right hlt _
    | succ n => exact Nat.add_lt_add_left (ih ha) _

end DelayHint

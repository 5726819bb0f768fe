import DelayHint.Pending

/-! The join of contexts as a semilattice. Entry by entry, in any order, it comes to the same
context and reports a change exactly if there is one. So a context that has once been joined in,
alone or among others, never again reports a change. -/
namespace DelayHint

namespace RegMap

variable {α : Type} (f : α → α → α) (g : α → α → Bool)

/-- Merge one entry into a map, and note whether that or a merge before it was a change. -/
def absorb (s : RegMap α × Bool) (p : Reg × α) : RegMap α × Bool :=
  (s.1.update p.1 fun u => (u.map (f · p.2)).getD p.2,
    s.2 || ((s.1.get? p.1).map (g · p.2)).getD true)

/-- Entries of different registers do not see each other. -/
private theorem foldl_absorb {l : List (Reg × α)} (hl : l.Pairwise fun p q => p.1 ≠ q.1)
    (m : RegMap α)
    (changed : Bool) : l.foldl (absorb f g) (m, changed) =
      (l.foldl (fun m p => m.update p.1 fun u => (u.map (f · p.2)).getD p.2) m,
        changed || l.any fun p => ((m.get? p.1).map (g · p.2)).getD true) := by
  induction l generalizing m changed with
  | nil => rw [List.foldl_nil, List.foldl_nil, List.any_nil, Bool.or_false]
  | cons p rest ih =>
    obtain ⟨hp, hrest⟩ := List.pairwise_cons.mp hl
    have hany (v : Option α → α) :
        (rest.any fun q => (((m.update p.1 v).get? q.1).map (g · q.2)).getD true) =
          rest.any fun q => ((m.get? q.1).map (g · q.2)).getD true := by
      rw [Bool.eq_iff_iff, List.any_eq_true, List.any_eq_true]
      refine exists_congr fun q => and_congr_right fun hq => ?_
      rw [get?_update, if_neg (hp q hq).symm]
    rw [List.foldl_cons, List.foldl_cons, List.any_cons, absorb, ih hrest, hany, Bool.or_assoc]

theorem update_comm {r s : Reg} (h : r ≠ s) (u v : Option α → α) (m : RegMap α) :
    (m.update r u).update s v = (m.update s v).update r u := by
  apply ext_get?
  intro k
  simp only [get?_update, if_neg h, if_neg h.symm]
  by_cases hr : k = r
  · rw [if_pos hr, if_neg (hr ▸ h), if_pos hr]
  · rw [if_neg hr, if_neg hr]

/-- Merging does not depend on the order in which the entries of `b` are taken. Two entries of one
register are the same entry, so the swap law is needed of others only. -/
theorem foldl_absorb_of_perm {a b : RegMap α} {order : List (Reg × α)}
    (h : order.Perm b.entries) :
    order.foldl (absorb f g) (a, false) = (merge f a b, changes g a b) := by
  have hkeys : order.Pairwise fun p q => p.1 ≠ q.1 :=
    (b.ascending.imp Fin.ne_of_lt).perm h.symm Ne.symm
  rw [foldl_absorb f g hkeys, Bool.false_or, h.any_eq, changes, merge]
  congr 1
  apply h.foldl_eq'
  intro p hp q hq m
  by_cases hk : p.1 = q.1
  · have hgetp : b.get? p.1 = some p.2 := mem_entries.mp (h.mem_iff.mp hp)
    have hgetq : b.get? q.1 = some q.2 := mem_entries.mp (h.mem_iff.mp hq)
    rw [hk, hgetq, Option.some.injEq] at hgetp
    rw [Prod.ext hk hgetp.symm]
  · exact update_comm hk _ _ m

end RegMap

namespace Pending

/-- Joining `b` adds nothing to `a`. -/
def Covers (a b : Pending) : Prop := a.join b = a

theorem join_self (a : Pending) : a.join a = a := by
  apply RegMap.ext_get?
  intro r
  rw [get?_join]
  cases a.get? r <;> simp

theorem covers_self (a : Pending) : a.Covers a := join_self a

theorem covers_iff_not_tightenedBy {a b : Pending} : a.Covers b ↔ a.tightenedBy b = false := by
  rw [← Bool.not_eq_true, tightenedBy_iff, ne_eq, Decidable.not_not, Covers]

theorem Covers.of_join {a b c : Pending} (h : a.Covers (b.join c)) : a.Covers b ∧ a.Covers c := by
  have absorb (d : Pending) (hd : (b.join c).join d = b.join c) : a.Covers d := by
    calc a.join d = (a.join (b.join c)).join d := by rw [h]
      _ = a.join (b.join c) := by rw [join_assoc, hd]
      _ = a := h
  refine ⟨absorb b ?_, absorb c ?_⟩
  · rw [join_comm, ← join_assoc, join_self]
  · rw [join_assoc, join_self]

/-- Joining contexts one after the other covers the first and all of them. -/
theorem covers_foldl_join (a : Pending) (others : List Pending) :
    (others.foldl join a).Covers a ∧ ∀ d ∈ others, (others.foldl join a).Covers d := by
  induction others generalizing a with
  | nil => exact ⟨covers_self a, fun d hd => absurd hd List.not_mem_nil⟩
  | cons e rest ih =>
    obtain ⟨hstart, hrest⟩ := ih (a.join e)
    obtain ⟨ha, he⟩ := hstart.of_join
    refine ⟨ha, fun d hd => ?_⟩
    rcases List.mem_cons.mp hd with rfl | hd
    · exact he
    · exact hrest d hd

/-- The join is that of a semilattice, comes out the same in every order of the entries, and reports
a change exactly if there is one. -/
theorem join_semilattice (a b c : Pending) :
    (∀ order : List (Reg × Requirement), order.Perm b.entries →
      order.foldl (RegMap.absorb Requirement.join Requirement.tightenedBy) (a, false) =
        (a.join b, a.tightenedBy b)) ∧
    (∀ r, (a.join b).get? r =
      match a.get? r, b.get? r with
      | some u, some v => some {
          valuInstrs := min u.valuInstrs v.valuInstrs
          valuCycles := max u.valuCycles v.valuCycles
          transInstrs := min u.transInstrs v.transInstrs
          transCycles := max u.transCycles v.transCycles
          saluCycles := max u.saluCycles v.saluCycles }
      | some u, none => some u
      | none, v => v) ∧
    a.join b = b.join a ∧ (a.join b).join c = a.join (b.join c) ∧ a.join a = a ∧
    (a.tightenedBy b ↔ a.join b ≠ a) ∧ (a.join b).tightenedBy b = false ∧
    ∀ others : List Pending, ∀ d ∈ a :: others, (others.foldl join a).tightenedBy d = false := by
  refine ⟨fun order h => RegMap.foldl_absorb_of_perm _ _ h, ?_, join_comm a b, join_assoc a b c,
    join_self a, tightenedBy_iff, ?_, ?_⟩
  · intro r
    rw [get?_join]
    cases a.get? r <;> cases b.get? r <;> rfl
  · apply covers_iff_not_tightenedBy.mp
    exact (covers_foldl_join a [b]).2 b List.mem_cons_self
  · intro others d hd
    apply covers_iff_not_tightenedBy.mp
    obtain ⟨ha, hothers⟩ := covers_foldl_join a others
    rcases List.mem_cons.mp hd with rfl | hd
    · exact ha
    · exact hothers d hd

end Pending

end DelayHint

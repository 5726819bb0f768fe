import DelayHint.Register

/-! Finite maps from registers, kept in ascending order of the registers.
A map is determined by its look-ups: `RegMap.ext_get?`. -/
namespace DelayHint

/-- Only tracked registers have an entry. -/
structure RegMap (α : Type) where
  entries : List (Reg × α)
  ascending : entries.Pairwise fun p q => p.1 < q.1
  deriving DecidableEq

namespace RegMap

variable {α β : Type}

def empty : RegMap α := ⟨[], .nil⟩

instance : EmptyCollection (RegMap α) := ⟨empty⟩

instance : Inhabited (RegMap α) := ⟨empty⟩

def get? (m : RegMap α) (r : Reg) : Option α := m.entries.lookup r

def size (m : RegMap α) : Nat := m.entries.length

def isEmpty (m : RegMap α) : Bool := m.entries.isEmpty

/-- The values of those registers of a list that are tracked, in the order of the list. -/
def valuesAt (m : RegMap α) (rs : List Reg) : List α := rs.filterMap m.get?

def updateEntries (r : Reg) (f : Option α → α) : List (Reg × α) → List (Reg × α)
  | [] => [(r, f none)]
  | (k, v) :: rest =>
    if r < k then (r, f none) :: (k, v) :: rest
    else if r = k then (k, f (some v)) :: rest
    else (k, v) :: updateEntries r f rest

private theorem fst_mem_updateEntries {r : Reg} {f : Option α → α} {l : List (Reg × α)}
    {p : Reg × α}
    (h : p ∈ updateEntries r f l) : p.1 = r ∨ ∃ q ∈ l, q.1 = p.1 := by
  induction l with
  | nil => simp_all [updateEntries]
  | cons e rest ih =>
    obtain ⟨k, v⟩ := e
    simp only [updateEntries] at h
    split at h
    · rcases List.mem_cons.mp h with rfl | h
      · exact .inl rfl
      · exact .inr ⟨p, h, rfl⟩
    · split at h
      · rcases List.mem_cons.mp h with rfl | h
        · exact .inr ⟨(k, v), List.mem_cons_self, rfl⟩
        · exact .inr ⟨p, List.mem_cons_of_mem _ h, rfl⟩
      · rcases List.mem_cons.mp h with rfl | h
        · exact .inr ⟨(k, v), List.mem_cons_self, rfl⟩
        · rcases ih h with h | ⟨q, hq, he⟩
          · exact .inl h
          · exact .inr ⟨q, List.mem_cons_of_mem _ hq, he⟩

theorem ascending_updateEntries (r : Reg) (f : Option α → α) {l : List (Reg × α)}
    (h : l.Pairwise fun p q => p.1 < q.1) :
    (updateEntries r f l).Pairwise fun p q => p.1 < q.1 := by
  induction l with
  | nil => simp [updateEntries]
  | cons e rest ih =>
    obtain ⟨k, v⟩ := e
    obtain ⟨hk, hrest⟩ := List.pairwise_cons.mp h
    simp only [updateEntries]
    split
    · rename_i hr
      refine List.pairwise_cons.mpr ⟨fun q hq => ?_, h⟩
      rcases List.mem_cons.mp hq with rfl | hq
      · exact hr
      · exact Fin.lt_trans hr (hk q hq)
    · rename_i hnlt
      split
      · exact List.pairwise_cons.mpr ⟨hk, hrest⟩
      · rename_i hne
        refine List.pairwise_cons.mpr ⟨fun q hq => ?_, ih hrest⟩
        rcases fst_mem_updateEntries hq with hq | ⟨p, hp, he⟩
        · have hkr : k < r := by
            rw [Fin.lt_def] at hnlt ⊢
            have := Fin.val_ne_of_ne hne
            omega
          exact hq ▸ hkr
        · exact he ▸ hk p hp

/-- Set the value of one register, given its value so far. -/
def update (m : RegMap α) (r : Reg) (f : Option α → α) : RegMap α :=
  ⟨updateEntries r f m.entries, ascending_updateEntries r f m.ascending⟩

def updateAll (m : RegMap α) (rs : List Reg) (f : Option α → α) : RegMap α :=
  rs.foldl (fun m r => m.update r f) m

/-- Replace every value, and drop the registers for which there is none. -/
def filterMap (f : α → Option β) (m : RegMap α) : RegMap β where
  entries := m.entries.filterMap fun p => (f p.2).map (Prod.mk p.1)
  ascending := by
    refine List.pairwise_filterMap.mpr (m.ascending.imp ?_)
    intro p q hpq a ha b hb
    obtain ⟨x, -, rfl⟩ := Option.map_eq_some_iff.mp ha
    obtain ⟨y, -, rfl⟩ := Option.map_eq_some_iff.mp hb
    exact hpq

/-- Take over the registers that only `b` tracks, and combine the values of the others. -/
def merge (f : α → α → α) (a b : RegMap α) : RegMap α :=
  b.entries.foldl (fun m p => m.update p.1 fun u => (u.map (f · p.2)).getD p.2) a

/-- Whether merging `b` into `a` counts as a change: a register is new, or `f` says so. -/
def changes (f : α → α → Bool) (a b : RegMap α) : Bool :=
  b.entries.any fun p => ((a.get? p.1).map (f · p.2)).getD true

theorem lookup_eq_none {r : Reg} {l : List (Reg × α)} (h : ∀ p ∈ l, r < p.1) :
    l.lookup r = none := by
  induction l with
  | nil => rfl
  | cons e rest ih =>
    obtain ⟨k, v⟩ := e
    have hk : r < k := h (k, v) List.mem_cons_self
    have hne : (r == k) = false := beq_false_of_ne (Fin.ne_of_lt hk)
    rw [List.lookup_cons, hne]
    exact ih fun p hp => h p (List.mem_cons_of_mem _ hp)

private theorem lookup_cons_ite (r k : Reg) (v : α) (l : List (Reg × α)) :
    ((k, v) :: l).lookup r = if r = k then some v else l.lookup r := by
  rw [List.lookup_cons]
  by_cases h : r = k
  · simp [h]
  · simp [h, beq_false_of_ne h]

theorem mem_iff_lookup {r : Reg} {v : α} {l : List (Reg × α)}
    (h : l.Pairwise fun p q => p.1 < q.1) : (r, v) ∈ l ↔ l.lookup r = some v := by
  induction l with
  | nil => simp
  | cons e rest ih =>
    obtain ⟨k, w⟩ := e
    obtain ⟨hk, hrest⟩ := List.pairwise_cons.mp h
    rw [lookup_cons_ite, List.mem_cons]
    split
    · rename_i heq
      subst heq
      constructor
      · rintro (h | h)
        · cases h; rfl
        · exact absurd (hk _ h) (by simp)
      · intro h; cases h; exact .inl rfl
    · rename_i hne
      rw [← ih hrest]
      constructor
      · rintro (h | h)
        · cases h; exact absurd rfl hne
        · exact h
      · exact .inr

theorem mem_entries {m : RegMap α} {r : Reg} {v : α} :
    (r, v) ∈ m.entries ↔ m.get? r = some v := mem_iff_lookup m.ascending

private theorem entries_eq_of_lookup {l l' : List (Reg × α)} (hl : l.Pairwise fun p q => p.1 < q.1)
    (hl' : l'.Pairwise fun p q => p.1 < q.1) (h : ∀ r, l.lookup r = l'.lookup r) : l = l' := by
  induction l generalizing l' with
  | nil =>
    cases l' with
    | nil => rfl
    | cons e rest =>
      obtain ⟨k, v⟩ := e
      have := h k
      simp at this
  | cons e rest ih =>
    obtain ⟨k, v⟩ := e
    obtain ⟨hk, hrest⟩ := List.pairwise_cons.mp hl
    cases l' with
    | nil =>
      have := h k
      simp at this
    | cons e' rest' =>
      obtain ⟨k', v'⟩ := e'
      obtain ⟨hk', hrest'⟩ := List.pairwise_cons.mp hl'
      have hkk : k = k' := by
        apply Decidable.byContradiction
        intro hne
        rcases Nat.lt_or_gt_of_ne (Fin.val_ne_of_ne hne) with hlt | hlt
        · have hn := h k
          rw [lookup_eq_none (l := (k', v') :: rest')] at hn
          · simp at hn
          · intro p hp
            rcases List.mem_cons.mp hp with rfl | hp
            · exact hlt
            · exact Fin.lt_trans hlt (hk' p hp)
        · have hn := h k'
          rw [lookup_eq_none (l := (k, v) :: rest)] at hn
          · simp at hn
          · intro p hp
            rcases List.mem_cons.mp hp with rfl | hp
            · exact hlt
            · exact Fin.lt_trans hlt (hk p hp)
      subst hkk
      have hv : v = v' := by simpa using h k
      subst hv
      rw [ih hrest hrest' fun r => ?_]
      by_cases hr : r = k
      · subst hr
        rw [lookup_eq_none hk, lookup_eq_none hk']
      · simpa [lookup_cons_ite, hr] using h r

theorem ext_get? {a b : RegMap α} (h : ∀ r, a.get? r = b.get? r) : a = b := by
  have := entries_eq_of_lookup a.ascending b.ascending h
  cases a
  cases b
  simp_all

@[simp] theorem get?_empty (r : Reg) : (empty : RegMap α).get? r = none := rfl

theorem lookup_updateEntries (r s : Reg) (f : Option α → α) {l : List (Reg × α)}
    (hl : l.Pairwise fun p q => p.1 < q.1) :
    (updateEntries r f l).lookup s = if s = r then some (f (l.lookup r)) else l.lookup s := by
  induction l with
  | nil => simp [updateEntries, lookup_cons_ite]
  | cons e rest ih =>
    obtain ⟨k, v⟩ := e
    obtain ⟨hk, hrest⟩ := List.pairwise_cons.mp hl
    simp only [updateEntries]
    split
    · rename_i hr
      have hn : ((k, v) :: rest).lookup r = none := lookup_eq_none fun p hp => by
        rcases List.mem_cons.mp hp with rfl | hp
        · exact hr
        · exact Fin.lt_trans hr (hk p hp)
      rw [lookup_cons_ite, hn]
    · split
      · rename_i heq
        subst heq
        by_cases hs : s = r <;> simp [lookup_cons_ite, hs]
      · rename_i hne
        have ih := ih hrest
        by_cases hs : s = r
        · subst hs
          simp [lookup_cons_ite, hne, ih]
        · simp [lookup_cons_ite, hs, ih]

@[simp] theorem get?_update (m : RegMap α) (r s : Reg) (f : Option α → α) :
    (m.update r f).get? s = if s = r then some (f (m.get? r)) else m.get? s :=
  lookup_updateEntries r s f m.ascending

theorem lookup_filterMap (f : α → Option β) (r : Reg) {l : List (Reg × α)}
    (hl : l.Pairwise fun p q => p.1 < q.1) :
    (l.filterMap fun p => (f p.2).map (Prod.mk p.1)).lookup r = (l.lookup r).bind f := by
  induction l with
  | nil => rfl
  | cons e rest ih =>
    obtain ⟨k, v⟩ := e
    obtain ⟨hk, hrest⟩ := List.pairwise_cons.mp hl
    have ih := ih hrest
    by_cases hr : r = k
    · subst hr
      rw [lookup_eq_none hk] at ih
      cases hf : f v with
      | none => simp [hf, ih]
      | some w => simp [hf]
    · cases hf : f v with
      | none => simp [hf, ih, lookup_cons_ite, hr]
      | some w => simp [hf, ih, lookup_cons_ite, hr]

@[simp] theorem get?_filterMap (f : α → Option β) (m : RegMap α) (r : Reg) :
    (m.filterMap f).get? r = (m.get? r).bind f := lookup_filterMap f r m.ascending

theorem get?_foldl_update (f : α → α → α) (r : Reg) {l : List (Reg × α)}
    (hl : l.Pairwise fun p q => p.1 < q.1) (m : RegMap α) :
    (l.foldl (fun m p => m.update p.1 fun u => (u.map (f · p.2)).getD p.2) m).get? r =
      Option.merge f (m.get? r) (l.lookup r) := by
  induction l generalizing m with
  | nil => simp
  | cons e rest ih =>
    obtain ⟨k, v⟩ := e
    obtain ⟨hk, hrest⟩ := List.pairwise_cons.mp hl
    rw [List.foldl_cons, ih hrest, get?_update, lookup_cons_ite]
    split
    · rename_i heq
      subst heq
      rw [lookup_eq_none hk]
      cases m.get? r <;> rfl
    · rfl

@[simp] theorem get?_merge (f : α → α → α) (a b : RegMap α) (r : Reg) :
    (merge f a b).get? r = Option.merge f (a.get? r) (b.get? r) :=
  get?_foldl_update f r b.ascending a

theorem changes_iff {f : α → α → Bool} {a b : RegMap α} :
    changes f a b ↔ ∃ r v, b.get? r = some v ∧ ∀ u, a.get? r = some u → f u v := by
  simp only [changes, List.any_eq_true, Prod.exists, mem_entries]
  refine exists_congr fun r => exists_congr fun v => and_congr_right fun _ => ?_
  cases a.get? r <;> simp

end RegMap

end DelayHint

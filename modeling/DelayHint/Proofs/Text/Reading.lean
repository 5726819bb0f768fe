import DelayHint.Text

/-! Texts that can be read in one way only. A numeral gives its number back, a piece of text ends at
the first delimiter behind it, and so the pieces of a list and the lines of a text are found again.
-/
namespace DelayHint.Text

/-- To check the characters of a list, only these are looked at. -/
theorem forall_mem_of_all {P : Char → Prop} [DecidablePred P] {cs : List Char}
    (h : (cs.all fun c => decide (P c)) = true) : ∀ c ∈ cs, P c := by
  simpa using h

private theorem digitChar_inj {m n : Nat} (hm : m < 16) (hn : n < 16)
    (h : m.digitChar = n.digitChar) :
    m = n := by
  have hall : ∀ m n : Fin 16, m.val.digitChar = n.val.digitChar → m = n := by decide
  exact congrArg Fin.val (hall ⟨m, hm⟩ ⟨n, hn⟩ h)

/-- The numerals of a base up to sixteen are different for different numbers. -/
theorem toDigits_inj {b : Nat} (hb : 1 < b) (hb' : b ≤ 16) {m n : Nat}
    (h : b.toDigits m = b.toDigits n) : m = n := by
  induction m using Nat.strongRecOn generalizing n with
  | ind m ih =>
    have hsingle (k d : Nat) : [d.digitChar] ≠ b.toDigits (k / b) ++ [(k % b).digitChar] := by
      intro h
      have hlen := congrArg List.length h
      have hpos := Nat.length_toDigits_pos (b := b) (n := k / b)
      simp only [List.length_append, List.length_singleton] at hlen
      omega
    rw [Nat.toDigits_eq_if hb, Nat.toDigits_eq_if hb (n := n)] at h
    split at h
    · rename_i hm
      split at h
      · rename_i hn
        exact digitChar_inj (by omega) (by omega) (List.singleton_inj.mp h)
      · exact absurd h (hsingle n m)
    · rename_i hm
      split at h
      · exact absurd h.symm (hsingle m n)
      · have hmb := Nat.mod_lt m (Nat.zero_lt_of_lt hb)
        have hnb := Nat.mod_lt n (Nat.zero_lt_of_lt hb)
        obtain ⟨hdiv, hmod⟩ := List.append_inj' h rfl
        have hq : m / b = n / b := ih (m / b) (Nat.div_lt_self (by omega) hb) hdiv
        have hr : m % b = n % b :=
          digitChar_inj (by omega) (by omega) (List.singleton_inj.mp hmod)
        rw [← Nat.div_add_mod m b, hq, hr, Nat.div_add_mod]

private theorem exists_digit_of_mem_toDigits {b n : Nat} (hb : 1 < b) {c : Char}
    (h : c ∈ b.toDigits n) : ∃ d < b, c = d.digitChar := by
  induction n using Nat.strongRecOn with
  | ind n ih =>
    rw [Nat.toDigits_eq_if hb] at h
    split at h
    · rename_i hn
      exact ⟨n, hn, List.mem_singleton.mp h⟩
    · rename_i hn
      rcases List.mem_append.mp h with h | h
      · exact ih (n / b) (Nat.div_lt_self (by omega) hb) h
      · exact ⟨n % b, Nat.mod_lt n (Nat.zero_lt_of_lt hb), List.mem_singleton.mp h⟩

theorem decimal_inj {m n : Nat} (h : decimal m = decimal n) : m = n :=
  toDigits_inj (b := 10) (by decide) (by decide) (String.ofList_injective h)

theorem not_mem_decimal {c : Char} (hc : c.isDigit = false) (n : Nat) :
    c ∉ (decimal n).toList := by
  intro h
  rw [decimal, String.toList_ofList] at h
  rw [Nat.isDigit_of_mem_toDigits (by decide) (by decide) h] at hc
  cases hc

theorem decimal_ne_empty (n : Nat) : decimal n ≠ "" := by
  intro h
  apply Nat.toDigits_ne_nil (n := n) (b := 10)
  simpa [decimal] using congrArg String.toList h

theorem hex_inj {m n : Nat} (h : hex m = hex n) : m = n := by
  rw [hex, hex, String.append_right_inj] at h
  exact toDigits_inj (b := 16) (by decide) (by decide) (String.ofList_injective h)

theorem not_mem_hex {c : Char} (hx : c ≠ 'x') (hc : ∀ d : Fin 16, c ≠ d.val.digitChar) (n : Nat) :
    c ∉ (hex n).toList := by
  intro h
  simp only [hex, String.toList_append, String.toList_ofList, List.mem_append] at h
  rcases h with h | h
  · rcases List.mem_cons.mp h with h | h
    · exact hc 0 h
    · exact hx (List.mem_singleton.mp h)
  · obtain ⟨d, hd, he⟩ := exists_digit_of_mem_toDigits (by decide) h
    exact hc ⟨d, hd⟩ he

theorem not_mem_signed {c : Char} (hc : c.isDigit = false) (hminus : c ≠ '-') (x : Int) :
    c ∉ (signed x).toList := by
  cases x with
  | ofNat n => exact not_mem_decimal hc n
  | negSucc n =>
    intro h
    rw [signed, String.toList_append, List.mem_append] at h
    rcases h with h | h
    · exact hminus (List.mem_singleton.mp h)
    · exact not_mem_decimal hc _ h

theorem signed_inj {x y : Int} (h : signed x = signed y) : x = y := by
  have hminus (m n : Nat) : decimal m ≠ "-" ++ decimal n := by
    intro h
    apply not_mem_decimal (c := '-') rfl m
    rw [h, String.toList_append]
    exact List.mem_cons_self
  cases x with
  | ofNat m =>
    cases y with
    | ofNat n => rw [decimal_inj h]
    | negSucc n => exact absurd h (hminus m (n + 1))
  | negSucc m =>
    cases y with
    | ofNat n => exact absurd h.symm (hminus n (m + 1))
    | negSucc n =>
      rw [signed, signed, String.append_right_inj] at h
      rw [Nat.succ_inj.mp (decimal_inj h)]

/-- A text that is over or goes on with a delimiter. -/
def Opens (c : Char) (s : String) : Prop := ∀ d ∈ s.toList.head?, d = c

private theorem takeWhile_append_of_opens {c : Char} {u r : String} (hu : c ∉ u.toList)
    (hr : Opens c r) :
    (u ++ r).toList.takeWhile (· != c) = u.toList := by
  have hall : ∀ d ∈ u.toList, (d != c) = true := by
    intro d hd
    rw [bne_iff_ne]
    intro he
    exact hu (he ▸ hd)
  have hstop : r.toList.takeWhile (· != c) = [] := by
    cases hcs : r.toList with
    | nil => rfl
    | cons d ds =>
      have hd : d = c := hr d (by rw [hcs]; rfl)
      simp [hd]
  rw [String.toList_append, List.takeWhile_append_of_pos hall, hstop, List.append_nil]

/-- A piece of text ends at the first delimiter. -/
theorem append_inj_of_opens {c : Char} {u v r s : String} (hu : c ∉ u.toList)
    (hv : c ∉ v.toList) (hr : Opens c r) (hs : Opens c s) (h : u ++ r = v ++ s) :
    u = v ∧ r = s := by
  have huv : u = v := by
    rw [← String.toList_inj, ← takeWhile_append_of_opens hu hr, h, takeWhile_append_of_opens hv hs]
  subst huv
  exact ⟨rfl, String.append_right_inj u |>.mp h⟩

private theorem opens_append {c : Char} {sep : String} (h : sep.toList.head? = some c)
    (x : String) :
    Opens c (sep ++ x) := by
  intro d hd
  rw [String.toList_append, List.head?_append, h] at hd
  exact (Option.some.inj hd).symm

/-- Two pieces with the same delimiter between them are found again. -/
theorem append_delimiter_inj {c : Char} {sep u v x y : String} (hsep : sep.toList.head? = some c)
    (hu : c ∉ u.toList) (hv : c ∉ v.toList) (h : u ++ (sep ++ x) = v ++ (sep ++ y)) :
    u = v ∧ x = y := by
  obtain ⟨huv, hrest⟩ := append_inj_of_opens hu hv (opens_append hsep x) (opens_append hsep y) h
  exact ⟨huv, String.append_right_inj sep |>.mp hrest⟩

theorem intercalate_cons (x : String) (xs : List String) : ", ".intercalate (x :: xs) =
    x ++ if xs = [] then "" else ", " ++ ", ".intercalate xs := by
  cases xs with
  | nil => simp
  | cons y ys => simp [String.append_assoc]

theorem not_mem_intercalate {c : Char} (hcomma : c ≠ ',') (hblank : c ≠ ' ') {xs : List String}
    (h : ∀ x ∈ xs, c ∉ x.toList) : c ∉ (", ".intercalate xs).toList := by
  induction xs with
  | nil => simp
  | cons x xs ih =>
    have hx := h x List.mem_cons_self
    have hxs := ih fun y hy => h y (List.mem_cons_of_mem _ hy)
    rw [intercalate_cons, String.toList_append, List.mem_append, not_or]
    refine ⟨hx, ?_⟩
    split
    · simp
    · rw [String.toList_append, List.mem_append, not_or]
      exact ⟨by simp [hcomma, hblank], hxs⟩

/-- The pieces of a list are found again, if no piece is empty or has a comma. -/
theorem intercalate_inj {xs ys : List String} (hx : ∀ x ∈ xs, x ≠ "" ∧ ',' ∉ x.toList)
    (hy : ∀ y ∈ ys, y ≠ "" ∧ ',' ∉ y.toList) (h : ", ".intercalate xs = ", ".intercalate ys) :
    xs = ys := by
  have hopens (zs : List String) :
      Opens ',' (if zs = [] then "" else ", " ++ ", ".intercalate zs) := by
    split <;> simp [Opens]
  induction xs generalizing ys with
  | nil =>
    cases ys with
    | nil => rfl
    | cons y ys =>
      rw [intercalate_cons, String.intercalate_nil, eq_comm, String.append_eq_empty_iff] at h
      exact absurd h.1 (hy y List.mem_cons_self).1
  | cons x xs ih =>
    cases ys with
    | nil =>
      rw [intercalate_cons, String.intercalate_nil, String.append_eq_empty_iff] at h
      exact absurd h.1 (hx x List.mem_cons_self).1
    | cons y ys =>
      rw [intercalate_cons, intercalate_cons] at h
      obtain ⟨rfl, htail⟩ := append_inj_of_opens (hx x List.mem_cons_self).2
        (hy y List.mem_cons_self).2 (hopens xs) (hopens ys) h
      have hxs : ∀ z ∈ xs, z ≠ "" ∧ ',' ∉ z.toList := fun z hz => hx z (List.mem_cons_of_mem _ hz)
      have hys : ∀ z ∈ ys, z ≠ "" ∧ ',' ∉ z.toList := fun z hz => hy z (List.mem_cons_of_mem _ hz)
      split at htail
      · rename_i hnil
        split at htail
        · rename_i hnil'
          rw [hnil, hnil']
        · simp at htail
      · split at htail
        · simp at htail
        · rw [ih hxs hys (String.append_right_inj _ |>.mp htail)]

/-- The lines of a text are found again. -/
theorem join_lines_inj {xs ys : List String} (hx : ∀ x ∈ xs, '\n' ∉ x.toList)
    (hy : ∀ y ∈ ys, '\n' ∉ y.toList)
    (h : String.join (xs.map (· ++ "\n")) = String.join (ys.map (· ++ "\n"))) : xs = ys := by
  induction xs generalizing ys with
  | nil =>
    cases ys with
    | nil => rfl
    | cons y ys => simp at h
  | cons x xs ih =>
    cases ys with
    | nil => simp at h
    | cons y ys =>
      simp only [List.map_cons, String.join_cons, String.append_assoc] at h
      obtain ⟨rfl, htail⟩ := append_delimiter_inj (c := '\n') (by decide) (hx x List.mem_cons_self)
        (hy y List.mem_cons_self) h
      rw [ih (fun z hz => hx z (List.mem_cons_of_mem _ hz))
        (fun z hz => hy z (List.mem_cons_of_mem _ hz)) htail]

end DelayHint.Text

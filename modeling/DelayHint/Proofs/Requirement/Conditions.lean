import DelayHint.Proofs.Requirement.Encoding

/-! The single waits of hints, compared with the requirement that a hint was written for. Of several
waits for one kind of instruction, the one that is read last counts. -/
namespace DelayHint

namespace Wait

/-- The kind of instruction that is waited for. -/
def source? : Wait → Option Source
  | valuDep _ => some .valu
  | transDep _ => some .trans
  | saluCycle _ => some .salu
  | noDep | fmaAccum => none

/-- How strict a wait is, on the scale of the levels of requirements. -/
def level : Wait → Int
  | valuDep back => back.val + 1
  | transDep back => back.val + 1
  | saluCycle more => -(more.val + 1)
  | noDep | fmaAccum => 0

@[simp] theorem level_valuDep (back : Fin 4) : (valuDep back).level = back.val + 1 := rfl

@[simp] theorem level_transDep (back : Fin 3) : (transDep back).level = back.val + 1 := rfl

@[simp] theorem level_saluCycle (more : Fin 3) : (saluCycle more).level = -(more.val + 1) := rfl

theorem source?_eq_some_iff {w : Wait} {s : Source} : w.source? = some s ↔ match s with
    | .valu => ∃ back, w = valuDep back
    | .trans => ∃ back, w = transDep back
    | .salu => ∃ more, w = saluCycle more := by
  cases w <;> cases s <;> simp [source?]

theorem level_lt_idle {w : Wait} {s : Source} (h : w.source? = some s) : w.level < s.idle := by
  cases w with
  | valuDep back =>
    cases h
    show (back.val : Int) + 1 < 5
    omega
  | transDep back =>
    cases h
    show (back.val : Int) + 1 < 4
    omega
  | saluCycle more =>
    cases h
    show -((more.val : Int) + 1) < 0
    omega
  | noDep => cases h
  | fmaAccum => cases h

private theorem level_pos {w : Wait} {s : Source} (h : w.source? = some s) (hs : s ≠ .salu) :
    0 < w.level := by
  cases w with
  | valuDep back =>
    rw [level_valuDep]
    omega
  | transDep back =>
    rw [level_transDep]
    omega
  | saluCycle more =>
    cases h
    exact absurd rfl hs
  | noDep => cases h
  | fmaAccum => cases h

theorem ofCode?_eq_some_iff {n : Nat} {w : Wait} : ofCode? n = some w ↔ n = w.code := by
  constructor
  · intro h
    have hle : n ≤ 11 := isSome_ofCode?.mp (by rw [h]; rfl)
    have hall : ∀ m : Fin 12, (ofCode? m.val).map code = some m.val := by decide
    have hcode := hall ⟨n, by omega⟩
    rw [h, Option.map_some, Option.some.injEq] at hcode
    exact hcode.symm
  · rintro rfl
    exact ofCode?_code w

end Wait

/-- The last wait for a kind of instruction. -/
def lastWait (s : Source) (ws : List Wait) : Option Wait :=
  (ws.filter fun w => w.source? = some s).getLast?

private theorem lastWait_append (s : Source) (ws ws' : List Wait) :
    lastWait s (ws ++ ws') = (lastWait s ws').or (lastWait s ws) := by
  rw [lastWait, List.filter_append, List.getLast?_append]
  rfl

private theorem lastWait_singleton (s : Source) (w : Wait) :
    lastWait s [w] = if w.source? = some s then some w else none := by
  unfold lastWait
  split <;> rename_i h <;> simp [h]

theorem mem_of_lastWait {s : Source} {ws : List Wait} {w : Wait} (h : lastWait s ws = some w) :
    w ∈ ws :=
  (List.mem_filter.mp (List.mem_of_getLast? h)).1

theorem source?_of_lastWait {s : Source} {ws : List Wait} {w : Wait} (h : lastWait s ws = some w) :
    w.source? = some s := by
  simpa using (List.mem_filter.mp (List.mem_of_getLast? h)).2

/-- How strict the last wait for a kind of instruction is. -/
def lastLevel (s : Source) (ws : List Wait) : Int := ((lastWait s ws).map Wait.level).getD s.idle

theorem lastLevel_of_lastWait {s : Source} {ws : List Wait} {w : Wait}
    (h : lastWait s ws = some w) : lastLevel s ws = w.level := by
  rw [lastLevel, h]
  rfl

theorem lastLevel_le_idle (s : Source) (ws : List Wait) : lastLevel s ws ≤ s.idle := by
  cases h : lastWait s ws with
  | none =>
    rw [lastLevel, h]
    exact Int.le_refl _
  | some w =>
    rw [lastLevel_of_lastWait h]
    exact Int.le_of_lt (Wait.level_lt_idle (source?_of_lastWait h))

theorem lastLevel_pos {s : Source} (hs : s ≠ .salu) (ws : List Wait) : 0 < lastLevel s ws := by
  cases h : lastWait s ws with
  | none =>
    rw [lastLevel, h]
    cases s <;> first | decide | exact absurd rfl hs
  | some w =>
    rw [lastLevel_of_lastWait h]
    exact Wait.level_pos (source?_of_lastWait h) hs

theorem exists_lastWait {s : Source} {ws : List Wait} {w : Wait} (hw : w ∈ ws)
    (hs : w.source? = some s) : ∃ v, lastWait s ws = some v := by
  have hmem : w ∈ ws.filter fun w => w.source? = some s :=
    List.mem_filter.mpr ⟨hw, by simpa using hs⟩
  exact ⟨_, List.getLast?_eq_some_getLast (List.ne_nil_of_mem hmem)⟩

namespace Instr

/-- The waits in the two fields of a hint. -/
def conditions (h : Instr) : List Wait :=
  [Immediate.first h.imm, Immediate.second h.imm].filterMap Wait.ofCode?

/-- A hint holds a vector and a transcendental wait, so there is no room for a scalar one. -/
def WaitsForBoth (h : Instr) : Prop :=
  (∃ back, h.WaitsFor (.valuDep back)) ∧ ∃ back, h.WaitsFor (.transDep back)

/-- A hint holds a wait that is as strict as `w` and of its kind. A scalar wait may be left out if
there is no room for it. -/
def Keeps (h : Instr) (w : Wait) : Prop :=
  (∃ v, h.WaitsFor v ∧ v.source? = w.source? ∧ v.level ≤ w.level) ∨
    w.source? = some .salu ∧ h.WaitsForBoth

theorem mem_conditions {h : Instr} {w : Wait} : w ∈ h.conditions ↔ h.WaitsFor w := by
  simp only [conditions, List.mem_filterMap, Wait.ofCode?_eq_some_iff, WaitsFor, List.mem_cons,
    List.not_mem_nil, or_false, or_and_right, exists_or, exists_eq_left]

instance (h : Instr) : Decidable h.WaitsForBoth := inferInstanceAs (Decidable (_ ∧ _))

instance (h : Instr) (w : Wait) : Decidable (h.Keeps w) :=
  decidable_of_iff ((∃ v ∈ h.conditions, v.source? = w.source? ∧ v.level ≤ w.level) ∨
      w.source? = some .salu ∧ h.WaitsForBoth)
    (by simp only [Keeps, mem_conditions])

end Instr

namespace Requirement

variable {p q : Requirement} {h : Instr} {s : Source} {w : Wait}

/-- To take over a wait is to take over its level. -/
theorem level_withWait_code (q : Requirement) (w : Wait) (s : Source) :
    (q.withWait w.code).level s = if w.source? = some s then w.level else q.level s := by
  have hrange : w.code ≤ 11 := Wait.isSome_ofCode?.mp (by rw [Wait.ofCode?_code w]; rfl)
  obtain ⟨hv, ht⟩ := level_withWait q w.code
  have hs := salu_withWait q (show w.code < 16 by omega)
  have hsource : (w.source? = some .valu ↔ 1 ≤ w.code ∧ w.code ≤ 4) ∧
      (w.source? = some .trans ↔ 5 ≤ w.code ∧ w.code ≤ 7) ∧
      (w.source? = some .salu ↔ 9 ≤ w.code) := by
    cases w <;> simp [Wait.source?, Wait.code] <;> omega
  have hlevel : (w.source? = some .valu → w.level = w.code) ∧
      (w.source? = some .trans → w.level = w.code - 4) ∧
      (w.source? = some .salu → w.level = 8 - w.code) := by
    cases w <;> simp [Wait.source?, Wait.level, Wait.code] <;> omega
  obtain ⟨hsv, hst, hss⟩ := hsource
  obtain ⟨hlv, hlt, hls⟩ := hlevel
  cases s with
  | valu =>
    rw [hv]
    by_cases h : w.source? = some .valu
    · rw [if_pos h, if_pos (hsv.mp h), hlv h]
    · rw [if_neg h, if_neg (mt hsv.mpr h)]
  | trans =>
    rw [ht]
    by_cases h : w.source? = some .trans
    · rw [if_pos h, if_pos (hst.mp h), hlt h]
    · rw [if_neg h, if_neg (mt hst.mpr h)]
  | salu =>
    simp only [level, hs]
    by_cases h : w.source? = some .salu
    · rw [if_pos h, if_pos (hss.mp h), hls h]
      omega
    · rw [if_neg h, if_neg (mt hss.mpr h)]

/-- Of the two fields of a hint, and of several hints in a row, the last one of a kind counts. -/
theorem level_foldl_withHint {hs : List Instr} (q : Requirement)
    (hcodes : ∀ h ∈ hs, Immediate.first h.imm ≤ 11 ∧ Immediate.second h.imm ≤ 11) (s : Source) :
    (hs.foldl withHint q).level s =
      ((lastWait s (hs.flatMap Instr.conditions)).map Wait.level).getD (q.level s) := by
  have htwo (a b : Wait) : lastWait s [a, b] =
      if b.source? = some s then some b else if a.source? = some s then some a else none := by
    rw [show [a, b] = [a] ++ [b] from rfl, lastWait_append, lastWait_singleton, lastWait_singleton]
    split <;> rfl
  induction hs generalizing q with
  | nil => rfl
  | cons h rest ih =>
    obtain ⟨hfirst, hsecond⟩ := hcodes h List.mem_cons_self
    obtain ⟨a, ha⟩ := Option.isSome_iff_exists.mp (Wait.isSome_ofCode?.mpr hfirst)
    obtain ⟨b, hb⟩ := Option.isSome_iff_exists.mp (Wait.isSome_ofCode?.mpr hsecond)
    have hconditions : h.conditions = [a, b] := by simp [Instr.conditions, ha, hb]
    have hlevel : (q.withHint h).level s =
        ((lastWait s h.conditions).map Wait.level).getD (q.level s) := by
      have hword : (q.withHint h).level s =
          ((q.withWait (Immediate.first h.imm)).withWait (Immediate.second h.imm)).level s := by
        cases s <;> rfl
      rw [hword, Wait.ofCode?_eq_some_iff.mp ha, Wait.ofCode?_eq_some_iff.mp hb,
        level_withWait_code, level_withWait_code, hconditions, htwo]
      split
      · rfl
      · split <;> rfl
    rw [List.foldl_cons, ih _ fun g hg => hcodes g (List.mem_cons_of_mem _ hg), List.flatMap_cons,
      lastWait_append, hlevel]
    cases lastWait s (rest.flatMap Instr.conditions) <;> rfl

/-- Which waits a hint holds, by the counts of the requirement that it was written for. -/
theorem waitsFor_iff (hq : q.Ranged) (hs : 0 ≤ q.saluCycles.toInt) (hh : q.hint = .ok h) :
    (∀ back, h.WaitsFor (.valuDep back) ↔ q.level .valu = back.val + 1) ∧
    (∀ back, h.WaitsFor (.transDep back) ↔ q.level .trans = back.val + 1) ∧
    ∀ more, h.WaitsFor (.saluCycle more) ↔ min 3 q.saluCycles.toInt = more.val + 1 ∧
      (q.level .valu = 0 ∨ q.level .valu = 5 ∨ q.level .trans = 4) := by
  obtain ⟨a, b, ha, hb, hcases⟩ := codes_cases q
  have hle := codes_le hq
  have htrans := level_transCode hq
  have hvalu := level_valuCode hq
  have hsalu := toInt_saluCode hs
  obtain ⟨hvr, htr⟩ := hq
  obtain ⟨-, -, rfl⟩ := hint_eq_ok hh
  rw [ha, hb] at hle
  simp only [Instr.WaitsFor, Wait.code, ha, hb]
  rw [first_ofWaits (by omega) (by omega), second_ofWaits (by omega) (by omega)]
  clear ha hb hh hle
  refine ⟨fun back => ?_, fun back => ?_, fun more => ?_⟩
  · have := back.isLt
    rcases hcases with ⟨_, _, rfl, rfl⟩ | ⟨_, _, rfl, rfl⟩ | ⟨_, _, rfl, rfl⟩ | ⟨_, _, rfl, rfl⟩ <;>
      omega
  · have := back.isLt
    rcases hcases with ⟨_, _, rfl, rfl⟩ | ⟨_, _, rfl, rfl⟩ | ⟨_, _, rfl, rfl⟩ | ⟨_, _, rfl, rfl⟩ <;>
      omega
  · have := more.isLt
    rcases hcases with ⟨_, _, rfl, rfl⟩ | ⟨_, _, rfl, rfl⟩ | ⟨_, _, rfl, rfl⟩ | ⟨_, _, rfl, rfl⟩ <;>
      omega

private theorem exists_back {n : Nat} {x : Int} (hlo : 1 ≤ x) (hhi : x ≤ n) :
    ∃ back : Fin n, x = back.val + 1 :=
  ⟨⟨(x - 1).toNat, by omega⟩, by simp only; omega⟩

/-- A written hint has no two waits of one kind that differ. -/
theorem level_eq_of_waitsFor {v : Wait} (hq : q.Ranged) (hs : 0 ≤ q.saluCycles.toInt)
    (hh : q.hint = .ok h) (hv : h.WaitsFor v) (hw : h.WaitsFor w) (hvs : v.source? = some s)
    (hws : w.source? = some s) : v.level = w.level := by
  obtain ⟨hvalu, htrans, hsalu⟩ := waitsFor_iff hq hs hh
  rw [Wait.source?_eq_some_iff] at hvs hws
  cases s with
  | valu =>
    obtain ⟨a, rfl⟩ := hvs
    obtain ⟨b, rfl⟩ := hws
    exact ((hvalu a).mp hv).symm.trans ((hvalu b).mp hw)
  | trans =>
    obtain ⟨a, rfl⟩ := hvs
    obtain ⟨b, rfl⟩ := hws
    exact ((htrans a).mp hv).symm.trans ((htrans b).mp hw)
  | salu =>
    obtain ⟨a, rfl⟩ := hvs
    obtain ⟨b, rfl⟩ := hws
    have ha := ((hsalu a).mp hv).1
    have hb := ((hsalu b).mp hw).1
    rw [Wait.level_saluCycle, Wait.level_saluCycle]
    omega

theorem Expressible.exists_wait {most : Int} (hq : q.Expressible most) (he : q.isEmpty = false)
    (hh : q.hint = .ok h) : ∃ w s, h.WaitsFor w ∧ w.source? = some s := by
  obtain ⟨hvalu, htrans, hsalu⟩ := waitsFor_iff hq.writable.ranged hq.salu_range.1 hh
  rw [← Bool.not_eq_true, isEmpty_iff_toInt] at he
  obtain ⟨hv, ht, hs, -, -, -⟩ := hq
  simp only [level] at hvalu htrans hsalu
  by_cases hvlt : q.valuInstrs.toInt = 5
  · by_cases htlt : q.transInstrs.toInt = 4
    · obtain ⟨more, hmore⟩ :=
        exists_back (n := 3) (x := min 3 q.saluCycles.toInt) (by omega) (by omega)
      exact ⟨_, .salu, (hsalu more).mpr ⟨hmore, .inr (.inl hvlt)⟩, rfl⟩
    · obtain ⟨back, hback⟩ := exists_back (n := 3) ht.1 (by omega)
      exact ⟨_, .trans, (htrans back).mpr hback, rfl⟩
  · obtain ⟨back, hback⟩ := exists_back (n := 4) hv.1 (by omega)
    exact ⟨_, .valu, (hvalu back).mpr hback, rfl⟩

theorem waitsForBoth_iff (hq : q.Ranged) (hs : 0 ≤ q.saluCycles.toInt) (hh : q.hint = .ok h) :
    h.WaitsForBoth ↔
      (q.level .valu ≠ 0 ∧ q.level .valu < 5) ∧ q.level .trans < 4 := by
  obtain ⟨hvalu, htrans, -⟩ := waitsFor_iff hq hs hh
  obtain ⟨hvr, htr⟩ := hq
  simp only [Instr.WaitsForBoth, hvalu, htrans]
  constructor
  · rintro ⟨⟨v, hv⟩, ⟨t, ht⟩⟩
    have := v.isLt
    have := t.isLt
    omega
  · rintro ⟨⟨hne, hlt⟩, hlt'⟩
    exact ⟨exists_back (by omega) (by omega), exists_back htr.1 (by omega)⟩

/-- A hint keeps a wait exactly if its requirement is as strict, but a vector count of zero has no
code. -/
theorem keeps_iff (hq : q.Ranged) (hs : 0 ≤ q.saluCycles.toInt) (hh : q.hint = .ok h)
    (hw : w.source? = some s) :
    h.Keeps w ↔ q.level s ≤ w.level ∧ (s = .valu → q.level .valu ≠ 0) ∨
      s = .salu ∧ h.WaitsForBoth := by
  have hboth := waitsForBoth_iff hq hs hh
  obtain ⟨hvalu, htrans, hsalu⟩ := waitsFor_iff hq hs hh
  obtain ⟨hvr, htr⟩ := hq
  have hkind := Wait.source?_eq_some_iff.mp hw
  unfold Instr.Keeps
  simp only [hw, Option.some.injEq, Wait.source?_eq_some_iff]
  clear hw
  cases s with
  | valu =>
    obtain ⟨back, rfl⟩ := hkind
    simp only [Wait.level_valuDep, reduceCtorEq, false_and, or_false, true_implies]
    constructor
    · rintro ⟨_, hv, ⟨v, rfl⟩, hle⟩
      rw [(hvalu v).mp hv]
      exact ⟨hle, by omega⟩
    · rintro ⟨hle, hne⟩
      obtain ⟨v, hv⟩ := exists_back (n := 4) (x := q.level .valu) (by omega) (by omega)
      refine ⟨_, (hvalu v).mpr hv, ⟨v, rfl⟩, ?_⟩
      rwa [Wait.level_valuDep, ← hv]
  | trans =>
    obtain ⟨back, rfl⟩ := hkind
    simp only [Wait.level_transDep, reduceCtorEq, false_and, or_false, false_implies, and_true]
    constructor
    · rintro ⟨_, hv, ⟨v, rfl⟩, hle⟩
      rw [(htrans v).mp hv]
      exact hle
    · intro hle
      obtain ⟨v, hv⟩ := exists_back (n := 3) (x := q.level .trans) htr.1 (by omega)
      refine ⟨_, (htrans v).mpr hv, ⟨v, rfl⟩, ?_⟩
      rwa [Wait.level_transDep, ← hv]
  | salu =>
    obtain ⟨more, rfl⟩ := hkind
    simp only [Wait.level_saluCycle, reduceCtorEq, true_and, false_implies, and_true, level]
    by_cases hroom : h.WaitsForBoth
    · simp only [hroom, or_true]
    simp only [hroom, or_false]
    constructor
    · rintro ⟨_, hv, ⟨v, rfl⟩, hle⟩
      have := ((hsalu v).mp hv).1
      rw [Wait.level_saluCycle] at hle
      omega
    · intro hle
      obtain ⟨v, hv⟩ := exists_back (n := 3) (x := min 3 q.saluCycles.toInt) (by omega) (by omega)
      refine ⟨_, (hsalu v).mpr ⟨hv, ?_⟩, ⟨v, rfl⟩, ?_⟩
      · rw [hboth] at hroom
        omega
      · rw [Wait.level_saluCycle]
        omega

end Requirement

end DelayHint

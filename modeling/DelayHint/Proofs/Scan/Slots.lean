import DelayHint.Proofs.Scan.Run

/-! Code as its plain instructions with the hint in front of each, and what a scan knows when it
comes to a plain instruction. The hints in the new code are those that the instructions require. -/
namespace DelayHint

/-- The instructions that are not hints. -/
def withoutHints (code : List Instr) : List Instr := code.filter fun i => !i.isHint

/-- The plain instructions, each with the hint right in front of it. `h` stands in front of all. -/
def slots (h : Option Instr) : List Instr → List (Option Instr × Instr)
  | [] => []
  | i :: rest => if i.isHint then slots (some i) rest else (h, i) :: slots none rest

/-- The hint that is written for a requirement, if one is needed. -/
def Requirement.hint? (q : Requirement) : Option Instr :=
  if q.isEmpty then none else q.hint.toOption

theorem withoutHints_cons_of_isHint {i : Instr} (h : i.isHint) (rest : List Instr) :
    withoutHints (i :: rest) = withoutHints rest := by
  simp [withoutHints, h]

theorem withoutHints_cons_of_not_isHint {i : Instr} (h : ¬ i.isHint) (rest : List Instr) :
    withoutHints (i :: rest) = i :: withoutHints rest := by
  simp [withoutHints, h]

theorem withoutHints_eq_self {code : List Instr} (h : ∀ i ∈ code, ¬ i.isHint) :
    withoutHints code = code := by
  rw [withoutHints, List.filter_eq_self]
  intro i hi
  simpa using h i hi

/-- The next instruction can wait for a result and is not a hint. -/
def AluNext (code : List Instr) : Prop := ∃ x, code[0]? = some x ∧ x.isAlu ∧ ¬ x.isHint

/-- No hint has registers or skips an instruction, and right behind each one follows an ALU
instruction that is not a hint. -/
def Placed (code : List Instr) : Prop :=
  ∀ ip i, code[ip]? = some i → i.isHint →
    i.defs = [] ∧ i.operands = [] ∧ Immediate.skip i.imm = 0 ∧
      ∃ x, code[ip + 1]? = some x ∧ x.isAlu ∧ ¬ x.isHint

theorem placed_cons {i : Instr} {rest : List Instr} : Placed (i :: rest) ↔
    (i.isHint → i.defs = [] ∧ i.operands = [] ∧ Immediate.skip i.imm = 0 ∧ AluNext rest) ∧
      Placed rest := by
  constructor
  · intro hp
    exact ⟨fun hi => hp 0 i rfl hi, fun ip x hx => hp (ip + 1) x hx⟩
  · intro ⟨hi, hrest⟩ ip x hx
    cases ip with
    | zero =>
      obtain rfl : i = x := Option.some.inj hx
      exact hi
    | succ ip => exact hrest ip x hx

theorem placed_of_plain {code : List Instr} (h : ∀ i ∈ code, ¬ i.isHint) : Placed code :=
  fun _ i hi hint => absurd hint (h i (List.mem_of_getElem? hi))

theorem Requirement.hint?_eq_some {q : Requirement} {h : Instr} (hq : q.hint? = some h) :
    q.isEmpty = false ∧ q.hint = .ok h := by
  unfold hint? at hq
  split at hq
  · cases hq
  · rename_i he
    cases hh : q.hint with
    | error f =>
      rw [hh] at hq
      cases hq
    | ok h' =>
      rw [hh] at hq
      exact ⟨by simpa using he, by rw [Option.some.inj hq]⟩

namespace Scan

/-- What a scan knows when it comes to a plain instruction, and what it requires there. -/
structure Stop where
  queued : Requirement
  pending : Pending
  required : Requirement
  deriving DecidableEq

/-- What stays queued when a requirement has been written down. -/
def left (q : Requirement) : Requirement := if q.isEmpty then q else Requirement.empty

theorem isEmpty_left (q : Requirement) : (left q).isEmpty = true := by
  unfold left
  split
  · assumption
  · rfl

theorem left_induction {P : Requirement → Prop} {q : Requirement} (hempty : P .empty) (hq : P q) :
    P (left q) := by
  unfold left
  split
  · exact hq
  · exact hempty

/-- The stops of a scan, up to its first fault. -/
def stops (cost : Instr → Cost) (q : Requirement) (ctx : Pending) : List Instr → List Stop
  | [] => []
  | i :: rest =>
    match step cost q ctx i with
    | .error _ => []
    | .ok (q', ctx') =>
      if i.isHint then stops cost q' ctx' rest
      else ⟨q, ctx, q'⟩ :: stops cost (left q') ctx' rest

variable {cost : Instr → Cost} {q q' : Requirement} {ctx ctx' last : Pending} {i : Instr}
  {code rest out : List Instr}

theorem stops_cons_of_isHint (hi : i.isHint) (hs : step cost q ctx i = .ok (q', ctx')) :
    stops cost q ctx (i :: rest) = stops cost q' ctx' rest := by
  simp [stops, hs, hi]

theorem stops_cons_of_not_isHint (hi : ¬ i.isHint) (hs : step cost q ctx i = .ok (q', ctx')) :
    stops cost q ctx (i :: rest) = ⟨q, ctx, q'⟩ :: stops cost (left q') ctx' rest := by
  simp [stops, hs, hi]

theorem flush_eq_ok {hints : List Instr} {q'' : Requirement} (h : flush q = .ok (hints, q'')) :
    hints = q.hint?.toList ∧ q'' = left q ∧ ∀ h ∈ hints, h.isHint := by
  rcases flush_cases h with ⟨he, rfl, rfl⟩ | ⟨hint, he, hh, rfl, rfl⟩
  · simp [Requirement.hint?, left, he]
  · refine ⟨?_, by simp [left, he], ?_⟩
    · simp [Requirement.hint?, he, hh, Except.toOption]
    · simpa using Requirement.isHint_of_hint hh

private theorem withoutHints_append_cons {hints : List Instr} (h : ∀ h ∈ hints, h.isHint)
    (hi : ¬ i.isHint) : withoutHints (hints ++ i :: out) = i :: withoutHints out := by
  have hnone : withoutHints hints = [] := by
    rw [withoutHints, List.filter_eq_nil_iff]
    intro x hx
    simpa using h x hx
  rw [withoutHints, List.filter_append, ← withoutHints, ← withoutHints, hnone, List.nil_append,
    withoutHints_cons_of_not_isHint hi]

private theorem slots_flush {hints : List Instr} {q'' : Requirement}
    (h : flush q = .ok (hints, q''))
    (hi : ¬ i.isHint) : slots none (hints ++ i :: out) = (q.hint?, i) :: slots none out := by
  obtain ⟨rfl, -, hh⟩ := flush_eq_ok h
  cases hq : q.hint? with
  | none => simp [slots, hi]
  | some hint =>
    have : hint.isHint := hh hint (by simp [hq])
    simp [slots, hi, this]

/-- A scan keeps the plain instructions. -/
theorem Run.withoutHints_eq (h : Run cost q ctx code out last) :
    withoutHints out = withoutHints code := by
  induction h with
  | done hf =>
    obtain ⟨-, -, hh⟩ := flush_eq_ok hf
    simpa [withoutHints] using hh
  | hint hi _ _ ih => rw [ih, withoutHints_cons_of_isHint hi]
  | plain hi _ hf _ ih =>
    obtain ⟨-, -, hh⟩ := flush_eq_ok hf
    rw [withoutHints_append_cons hh hi, ih, withoutHints_cons_of_not_isHint hi]

/-- In the new code stands in front of each plain instruction what it requires. -/
theorem Run.slots_eq (h : Run cost q ctx code out last) : slots none out =
    (stops cost q ctx code).zipWith (fun s i => (s.required.hint?, i)) (withoutHints code) := by
  induction h with
  | done hf =>
    obtain ⟨rfl, -, hh⟩ := flush_eq_ok hf
    rename_i q _ _
    cases hq : q.hint? with
    | none => rfl
    | some hint =>
      have : hint.isHint := hh hint (by simp [hq])
      simp [slots, this, stops]
  | hint hi hs _ ih => rw [ih, stops_cons_of_isHint hi hs, withoutHints_cons_of_isHint hi]
  | plain hi hs hf _ ih =>
    obtain ⟨-, rfl, -⟩ := flush_eq_ok hf
    rw [slots_flush hf hi, ih, stops_cons_of_not_isHint hi hs, withoutHints_cons_of_not_isHint hi,
      List.zipWith_cons_cons]

theorem Run.slot_iff (h : Run cost q ctx code out last) {k : Nat} {g : Option Instr} :
    (slots none out)[k]? = some (g, i) ↔ ∃ s, (stops cost q ctx code)[k]? = some s ∧
      (withoutHints code)[k]? = some i ∧ s.required.hint? = g := by
  rw [h.slots_eq, List.getElem?_zipWith_eq_some]
  constructor
  · rintro ⟨s, x, hs, hx, he⟩
    obtain ⟨hg, rfl⟩ := Prod.mk.inj he
    exact ⟨s, hs, hx, hg⟩
  · rintro ⟨s, hs, hx, rfl⟩
    exact ⟨s, i, hs, hx, rfl⟩

/-- A scan that returns stops at every plain instruction. -/
theorem Run.length_stops (h : Run cost q ctx code out last) :
    (stops cost q ctx code).length = (withoutHints code).length := by
  induction h with
  | done => rfl
  | hint hi hs _ ih => rw [stops_cons_of_isHint hi hs, withoutHints_cons_of_isHint hi, ih]
  | plain hi hs hf _ ih =>
    obtain ⟨-, rfl, -⟩ := flush_eq_ok hf
    rw [stops_cons_of_not_isHint hi hs, withoutHints_cons_of_not_isHint hi, List.length_cons, ih,
      List.length_cons]

theorem Run.hint_of_stop (h : Run cost q ctx code out last) {s : Stop}
    (hs : s ∈ stops cost q ctx code) (he : s.required.isEmpty = false) :
    ∃ h, s.required.hint = .ok h := by
  induction h with
  | done => cases hs
  | hint hi hstep _ ih =>
    rw [stops_cons_of_isHint hi hstep] at hs
    exact ih hs
  | plain hi hstep hf _ ih =>
    rw [stops_cons_of_not_isHint hi hstep] at hs
    rcases List.mem_cons.mp hs with rfl | hs
    · rcases flush_cases hf with ⟨he', -, -⟩ | ⟨h, -, hh, -, -⟩
      · rw [he'] at he
        cases he
      · exact ⟨h, hh⟩
    · obtain ⟨-, rfl, -⟩ := flush_eq_ok hf
      exact ih hs

theorem demand_of_stop {k : Nat} {s : Stop} (hs : (stops cost q ctx code)[k]? = some s)
    (hi : (withoutHints code)[k]? = some i) : s.pending.demand s.queued i = .ok s.required := by
  induction code generalizing q ctx k with
  | nil => cases hs
  | cons j rest ih =>
    cases hj : step cost q ctx j with
    | error f => simp [stops, hj] at hs
    | ok out =>
      by_cases hh : j.isHint
      · rw [stops_cons_of_isHint hh hj] at hs
        rw [withoutHints_cons_of_isHint hh] at hi
        exact ih hs hi
      · rw [stops_cons_of_not_isHint hh hj] at hs
        rw [withoutHints_cons_of_not_isHint hh] at hi
        cases k with
        | zero =>
          obtain rfl : _ = s := Option.some.inj hs
          obtain rfl : j = i := Option.some.inj hi
          obtain ⟨waited, hd, -, -⟩ := step_eq_ok hj
          rw [if_neg hh] at hd
          exact hd
        | succ k => exact ih hs hi

/-- What every instruction keeps of the queue and the pending results holds at each stop. -/
theorem stops_induction {motive : Requirement → Pending → Prop} {s : Stop}
    (hhint : ∀ {q q' ctx ctx' i}, i ∈ code → i.isHint → motive q ctx →
      step cost q ctx i = .ok (q', ctx') → motive q' ctx')
    (hplain : ∀ {q q' ctx ctx' i}, i ∈ code → ¬ i.isHint → motive q ctx →
      step cost q ctx i = .ok (q', ctx') → motive (left q') ctx')
    (h0 : motive q ctx) (hs : s ∈ stops cost q ctx code) : motive s.queued s.pending := by
  induction code generalizing q ctx with
  | nil => cases hs
  | cons j rest ih =>
    have hrest {q : Requirement} {ctx : Pending} :=
      @ih q ctx (fun hi => hhint (List.mem_cons_of_mem _ hi))
        (fun hi => hplain (List.mem_cons_of_mem _ hi))
    cases hj : step cost q ctx j with
    | error f => simp [stops, hj] at hs
    | ok out =>
      by_cases hh : j.isHint
      · rw [stops_cons_of_isHint hh hj] at hs
        exact hrest (hhint List.mem_cons_self hh h0 hj) hs
      · rw [stops_cons_of_not_isHint hh hj] at hs
        rcases List.mem_cons.mp hs with rfl | hs
        · exact h0
        · exact hrest (hplain List.mem_cons_self hh h0 hj) hs

end Scan

end DelayHint

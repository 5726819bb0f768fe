import DelayHint.Compact
import DelayHint.Proofs.Compact.Agenda
import DelayHint.Proofs.Layout

/-! Compaction keeps the waits. Where two hints become one, the second wait moves back over the
instructions between them, and as many of them are skipped. -/
namespace DelayHint

/-- Every hint waits for the next instruction only, and that is not a hint. -/
def Guarded (code : List Instr) : Prop :=
  ∀ ip i, code[ip]? = some i → i.isHint →
    Immediate.skip i.imm = 0 ∧ ∃ x, code[ip + 1]? = some x ∧ ¬ x.isHint

/-- The waits of every hint apply to instructions of the code that are not hints. -/
def Landing (code : List Instr) : Prop :=
  ∀ ip i, code[ip]? = some i → i.isHint →
    (∃ x, code[ip + 1]? = some x ∧ ¬ x.isHint) ∧
      (Immediate.second i.imm ≠ 0 →
        ∃ x, code[ip + 1 + Immediate.skip i.imm]? = some x ∧ ¬ x.isHint)

variable {i h : Instr} {rest code xs out : List Instr}

theorem guarded_cons : Guarded (i :: rest) ↔
    (i.isHint → Immediate.skip i.imm = 0 ∧ ∃ x, rest[0]? = some x ∧ ¬ x.isHint) ∧
      Guarded rest := by
  constructor
  · intro hg
    exact ⟨fun hi => hg 0 i rfl hi, fun ip x hx => hg (ip + 1) x hx⟩
  · rintro ⟨hi, hrest⟩ ip x hx
    cases ip with
    | zero =>
      obtain rfl : i = x := Option.some.inj hx
      exact hi
    | succ ip => exact hrest ip x hx

private theorem landing_cons : Landing (i :: rest) ↔
    (i.isHint → (∃ x, rest[0]? = some x ∧ ¬ x.isHint) ∧ (Immediate.second i.imm ≠ 0 →
      ∃ x, rest[Immediate.skip i.imm]? = some x ∧ ¬ x.isHint)) ∧ Landing rest := by
  have hzero (n : ℕ) : (i :: rest)[0 + 1 + n]? = rest[n]? := by
    rw [Nat.zero_add, Nat.add_comm, List.getElem?_cons_succ]
  have hsucc (ip n : ℕ) : (i :: rest)[ip + 1 + 1 + n]? = rest[ip + 1 + n]? := by
    rw [Nat.add_right_comm (ip + 1), List.getElem?_cons_succ]
  constructor
  · intro hl
    refine ⟨fun hi => ?_, fun ip x hx hxi => ?_⟩
    · obtain ⟨hnext, hlater⟩ := hl 0 i rfl hi
      exact ⟨hnext, fun hs => hzero _ ▸ hlater hs⟩
    · obtain ⟨hnext, hlater⟩ := hl (ip + 1) x hx hxi
      exact ⟨hnext, fun hs => hsucc ip _ ▸ hlater hs⟩
  · rintro ⟨hi, hrest⟩ ip x hx hxi
    cases ip with
    | zero =>
      obtain rfl : i = x := Option.some.inj hx
      obtain ⟨hnext, hlater⟩ := hi hxi
      exact ⟨hnext, fun hs => (hzero _).symm ▸ hlater hs⟩
    | succ ip =>
      obtain ⟨hnext, hlater⟩ := hrest ip x hx hxi
      exact ⟨hnext, fun hs => (hsucc ip _).symm ▸ hlater hs⟩

theorem Guarded.of_append (h : Guarded (xs ++ rest)) : Guarded rest := by
  induction xs with
  | nil => exact h
  | cons x xs ih => exact ih (guarded_cons.mp h).2

theorem Guarded.landing (h : Guarded code) : Landing code := by
  intro ip i hi hint
  obtain ⟨hskip, hx⟩ := h ip i hi hint
  refine ⟨hx, fun _ => ?_⟩
  rw [hskip]
  exact hx

/-- The instruction in front of a hint is plain, so nothing is due behind it. -/
private theorem Guarded.after_eq (hg : Guarded (xs ++ i :: rest)) (hi : i.isHint) (hne : xs ≠ [])
    (m : Multiset ℕ) : (Agenda.only 0 m).after xs = 0 := by
  induction xs generalizing m with
  | nil => exact absurd rfl hne
  | cons x xs ih =>
    obtain ⟨hx, hrest⟩ := guarded_cons.mp hg
    rw [Agenda.after, List.foldl_cons, Agenda.next_only, ← Agenda.after]
    cases xs with
    | nil =>
      have hplain : ¬ x.isHint := by
        intro hxi
        obtain ⟨-, y, hy, hyi⟩ := hx hxi
        obtain rfl : i = y := Option.some.inj hy
        exact hyi hi
      exact Instr.waits_of_not_isHint hplain
    | cons y ys =>
      rw [Instr.waits_of_skip_eq_zero fun h => (hx h).1]
      exact ih hrest (List.cons_ne_nil y ys) _

/-- Code in front of a hint keeps its targets when something else follows. -/
private theorem Guarded.landing_append (hg : Guarded (xs ++ i :: rest)) (hi : i.isHint)
    (hout : Landing out) : Landing (xs ++ out) := by
  induction xs with
  | nil => exact hout
  | cons x xs ih =>
    obtain ⟨hx, hrest⟩ := guarded_cons.mp hg
    refine landing_cons.mpr ⟨fun hxi => ?_, ih hrest⟩
    obtain ⟨hskip, y, hy, hyi⟩ := hx hxi
    have hnext : ∃ y, (xs ++ out)[0]? = some y ∧ ¬ y.isHint := by
      cases xs with
      | nil =>
        obtain rfl : i = y := Option.some.inj hy
        exact absurd hi hyi
      | cons z zs => exact ⟨y, hy, hyi⟩
    exact ⟨hnext, fun _ => by rw [hskip]; exact hnext⟩

theorem Immediate.toNat_merge {imm next : UInt32} {d : ℕ} (hi : imm.toNat < 16) (hd : d < 8)
    (hn : next.toNat < 16) : (merge imm d next).toNat = imm.toNat + 16 * d + 128 * next.toNat := by
  have hfour : (UInt32.ofNat d <<< 4).toNat = d <<< 4 := by
    rw [UInt32.toNat_shiftLeft, UInt32.toNat_ofNat_of_lt' (by simp only [UInt32.size]; omega)]
    simp only [Nat.shiftLeft_eq]
    exact Nat.mod_eq_of_lt (by show d * 2 ^ 4 < 2 ^ 32; omega)
  have hseven : (next <<< 7).toNat = next.toNat <<< 7 := by
    rw [UInt32.toNat_shiftLeft]
    simp only [Nat.shiftLeft_eq]
    exact Nat.mod_eq_of_lt (by show next.toNat * 2 ^ 7 < 2 ^ 32; omega)
  have hlow : imm.toNat ||| d <<< 4 = d <<< 4 + imm.toNat := by
    rw [Nat.or_comm]
    exact (Nat.shiftLeft_add_eq_or_of_lt (by omega) d).symm
  have hhigh : (d <<< 4 + imm.toNat) ||| next.toNat <<< 7 =
      next.toNat <<< 7 + (d <<< 4 + imm.toNat) := by
    rw [Nat.or_comm]
    exact (Nat.shiftLeft_add_eq_or_of_lt (by rw [Nat.shiftLeft_eq]; omega) next.toNat).symm
  rw [merge, UInt32.toNat_or, UInt32.toNat_or, hfour, hseven, hlow, hhigh, Nat.shiftLeft_eq,
    Nat.shiftLeft_eq]
  omega

/-- A single hint for the next instruction has its wait code and nothing else. -/
theorem Instr.isSingleHint_iff {i : Instr} (hskip : i.isHint → Immediate.skip i.imm = 0) :
    i.isSingleHint ↔ i.isHint ∧ i.imm.toNat < 16 := by
  rw [isSingleHint, Bool.and_eq_true, and_congr_right_iff, Immediate.isSingle, beq_iff_eq]
  intro hi
  have := hskip hi
  unfold Immediate.skip at this
  omega

private theorem Instr.waits_of_single {i : Instr} (hi : i.isHint) (hlt : i.imm.toNat < 16) :
    i.waits = .only 0 (waitOf (Immediate.first i.imm)) := by
  have hsecond : Immediate.second i.imm = 0 := by
    unfold Immediate.second
    omega
  funext d
  simp [waits, hi, hsecond, waitOf, Agenda.only]

theorem Instr.skip_mergeHint {h i : Instr} {d : ℕ} (hlt : h.imm.toNat < 16) (hd : d < 8)
    (hi : i.imm.toNat < 16) : Immediate.skip (h.mergeHint d i).imm = d := by
  simp only [Immediate.skip, mergeHint, Immediate.toNat_merge hlt hd hi]
  omega

theorem Instr.waits_mergeHint {h i : Instr} {d : ℕ} (hh : h.isHint) (hlt : h.imm.toNat < 16)
    (hd : d < 8) (hi : i.imm.toNat < 16) : (h.mergeHint d i).waits =
      .only 0 (waitOf (Immediate.first h.imm)) + .only d (waitOf (Immediate.first i.imm)) := by
  have hmerge := Immediate.toNat_merge hlt hd hi
  have hfirst : Immediate.first (h.mergeHint d i).imm = Immediate.first h.imm := by
    simp only [Immediate.first, mergeHint, hmerge]
    omega
  have hsecond : Immediate.second (h.mergeHint d i).imm = Immediate.first i.imm := by
    simp only [Immediate.second, Immediate.first, mergeHint, hmerge]
    omega
  rw [waits, if_pos (show (h.mergeHint d i).isHint from hh), hfirst, skip_mergeHint hlt hd hi,
    hsecond]

namespace Compact

/-- The open single hint and the instructions since. -/
def held : Option (Instr × List Instr) → List Instr
  | none => []
  | some (h, between) => h :: between

theorem length_run (st : Option (Instr × List Instr)) (rest : List Instr) :
    (run st rest).1.length + (run st rest).2 = (held st ++ rest).length := by
  fun_induction run st rest with
  | case1 => rfl
  | case2 => simp [held]
  | case3 i rest hi ih => exact ih
  | case4 i rest hi out n hrun ih =>
    simp only [hrun, held, List.nil_append, List.length_cons] at ih ⊢
    omega
  | case5 h between i rest hi hlt out n hrun ih =>
    simp only [hrun, held, List.nil_append, List.length_cons, List.length_append] at ih ⊢
    omega
  | case6 h between i rest hi hlt out n hrun ih =>
    simp only [hrun, held, List.length_cons, List.length_nil, List.length_append] at ih ⊢
    omega
  | case7 h between i rest hi ih =>
    rw [ih]
    simp [held]

/-- In front of an open single hint and the instructions since, a further hint is not the next
instruction. -/
theorem between_ne_nil {h : Instr} {between rest : List Instr} {i : Instr}
    (hg : Guarded (h :: (between ++ i :: rest))) (hh : h.isHint) (hi : i.isHint) :
    between ≠ [] := by
  rintro rfl
  obtain ⟨-, x, hx, hxi⟩ := (guarded_cons.mp hg).1 hh
  obtain rfl : i = x := Option.some.inj hx
  exact hxi hi

theorem single_of_guarded {rest : List Instr} {i : Instr} (hg : Guarded (i :: rest))
    (hi : i.isSingleHint) : i.isHint ∧ i.imm.toNat < 16 :=
  (Instr.isSingleHint_iff fun h => ((guarded_cons.mp hg).1 h).1).mp hi

/-- Compacted code enforces the waits that the code has. -/
theorem serve_run (st : Option (Instr × List Instr)) (rest : List Instr)
    (hst : ∀ x ∈ st, x.1.isSingleHint) (hg : Guarded (held st ++ rest)) (m : Multiset ℕ) :
    (Agenda.only 0 m).serve (run st rest).1 = (Agenda.only 0 m).serve (held st ++ rest) := by
  fun_induction run st rest generalizing m with
  | case1 => rfl
  | case2 => simp [held]
  | case3 i rest hi ih => exact ih (by simpa using hi) hg m
  | case4 i rest hi out n hrun ih =>
    rw [hrun] at ih
    obtain ⟨hi, hrest⟩ := guarded_cons.mp hg
    have hwaits := Instr.waits_of_skip_eq_zero fun h => (hi h).1
    have hserve := ih (by simp) hrest (i.waits 0)
    rw [← hwaits] at hserve
    simp only [held, List.nil_append, Agenda.serve, Agenda.next_only] at hserve ⊢
    rw [hserve]
  | case5 h between i rest hi hlt out n hrun ih =>
    rw [hrun] at ih
    have hgi := Guarded.of_append (show Guarded (h :: between ++ i :: rest) from hg)
    obtain ⟨hh, hhlt⟩ := single_of_guarded hg (hst _ rfl)
    obtain ⟨hi, hilt⟩ := single_of_guarded hgi hi
    have hne := between_ne_nil hg hh hi
    have hd : between.length < 8 := Nat.lt_trans hlt (by decide)
    have hbetween := (guarded_cons.mp hg).2
    have hmerged : (h.mergeHint between.length i).isHint := hh
    have hserve := ih (by simp) (guarded_cons.mp hgi).2 (waitOf (Immediate.first i.imm))
    obtain ⟨hfront, hlater⟩ := Agenda.serve_add_only
      (a := .only 0 (waitOf (Immediate.first h.imm))) (m := waitOf (Immediate.first i.imm))
      (Nat.le_refl between.length)
    rw [hbetween.after_eq hi hne, Nat.sub_self, zero_add] at hlater
    calc (Agenda.only 0 m).serve (h.mergeHint between.length i :: (between ++ out))
        = (h.mergeHint between.length i).waits.serve (between ++ out) := by
          rw [Agenda.serve, if_pos hmerged, Agenda.next_only]
      _ = (Agenda.only 0 (waitOf (Immediate.first h.imm))).serve between ++
            (Agenda.only 0 (waitOf (Immediate.first i.imm))).serve out := by
          rw [Instr.waits_mergeHint hh hhlt hd hilt, Agenda.serve_append, hfront, hlater]
      _ = (Agenda.only 0 (waitOf (Immediate.first h.imm))).serve between ++
            (Agenda.only 0 0).serve (i :: rest) := by
          rw [hserve, Agenda.serve, if_pos hi, Agenda.next_only, Instr.waits_of_single hi hilt]
          rfl
      _ = h.waits.serve (between ++ i :: rest) := by
          rw [Instr.waits_of_single hh hhlt, Agenda.serve_append, hbetween.after_eq hi hne,
            Agenda.only_zero]
      _ = (Agenda.only 0 m).serve (h :: (between ++ i :: rest)) := by
          rw [Agenda.serve, if_pos hh, Agenda.next_only]
  | case6 h between i rest hi hlt out n hrun ih =>
    rw [hrun] at ih
    have hall : Guarded (h :: between ++ i :: rest) := hg
    have hgi := hall.of_append
    have hafter := hall.after_eq (single_of_guarded hgi hi).1 (by simp) m
    have hserve := ih (by simpa using hi) hgi 0
    rw [Agenda.only_zero] at hserve
    show (Agenda.only 0 m).serve (h :: between ++ out) =
      (Agenda.only 0 m).serve (h :: between ++ i :: rest)
    rw [Agenda.serve_append, Agenda.serve_append, hafter, hserve]
    rfl
  | case7 h between i rest hi ih =>
    have heq : held (some (h, between ++ [i])) ++ rest = held (some (h, between)) ++ i :: rest := by
      simp [held]
    rw [heq] at ih
    exact ih (by simpa using hst) hg m

private theorem head_run {rest : List Instr} {x : Instr} (hx : rest[0]? = some x)
    (hxi : ¬ x.isHint) :
    (run none rest).1[0]? = some x := by
  cases rest with
  | nil => cases hx
  | cons y ys =>
    obtain rfl : y = x := Option.some.inj hx
    have hsingle : ¬ y.isSingleHint := by simp [Instr.isSingleHint, hxi]
    simp [run, hsingle]

/-- The waits of compacted code all have a target. -/
theorem landing_run (st : Option (Instr × List Instr)) (rest : List Instr)
    (hst : ∀ x ∈ st, x.1.isSingleHint) (hg : Guarded (held st ++ rest)) :
    Landing (run st rest).1 := by
  fun_induction run st rest with
  | case1 => exact hg.landing
  | case2 h between => exact (List.append_nil (h :: between) ▸ hg).landing
  | case3 i rest hi ih => exact ih (by simpa using hi) hg
  | case4 i rest hi out n hrun ih =>
    obtain ⟨hnext, hrest⟩ := guarded_cons.mp hg
    rw [hrun] at ih
    refine landing_cons.mpr ⟨fun hint => ?_, ih (by simp) hrest⟩
    obtain ⟨hskip, x, hx, hxi⟩ := hnext hint
    have hout := head_run hx hxi
    rw [hrun] at hout
    exact ⟨⟨x, hout, hxi⟩, fun _ => ⟨x, by rw [hskip]; exact hout, hxi⟩⟩
  | case5 h between i rest hi hlt out n hrun ih =>
    rw [hrun] at ih
    have hgi := Guarded.of_append (show Guarded (h :: between ++ i :: rest) from hg)
    obtain ⟨hh, hhlt⟩ := single_of_guarded hg (hst _ rfl)
    obtain ⟨hi, hilt⟩ := single_of_guarded hgi hi
    obtain ⟨hguard, hbetween⟩ := guarded_cons.mp hg
    obtain ⟨hnext, hrest⟩ := guarded_cons.mp hgi
    obtain ⟨-, x, hx, hxi⟩ := hnext hi
    have hout := head_run hx hxi
    rw [hrun] at hout
    refine landing_cons.mpr ⟨fun _ => ⟨?_, fun _ => ⟨x, ?_, hxi⟩⟩,
      hbetween.landing_append hi (ih (by simp) hrest)⟩
    · obtain ⟨y, ys, rfl⟩ := List.exists_cons_of_ne_nil (between_ne_nil hg hh hi)
      exact (hguard hh).2
    · have hd : between.length < 8 := Nat.lt_trans hlt (by decide)
      rw [Instr.skip_mergeHint hhlt hd hilt, List.getElem?_append_right (Nat.le_refl _),
        Nat.sub_self]
      exact hout
  | case6 h between i rest hi hlt out n hrun ih =>
    rw [hrun] at ih
    have hall : Guarded (h :: between ++ i :: rest) := hg
    have hgi := hall.of_append
    exact hall.landing_append (single_of_guarded hgi hi).1 (ih (by simpa using hi) hgi)
  | case7 h between i rest hi ih =>
    have heq : held (some (h, between ++ [i])) ++ rest = held (some (h, between)) ++ i :: rest := by
      simp [held]
    rw [heq] at ih
    exact ih (by simpa using hst) hg

/-- Compaction of a block keeps what its hints enforce, and the number says how many are gone. -/
theorem block_enforced {code : List Instr} (hg : Guarded code) :
    enforced (block code).1 = enforced code ∧ Landing (block code).1 ∧
      (block code).1.length + (block code).2 = code.length := by
  have hserve := serve_run none code (by simp) hg 0
  rw [Agenda.only_zero] at hserve
  refine ⟨?_, landing_run none code (by simp) hg, length_run none code⟩
  rw [enforced_eq_serve, enforced_eq_serve]
  exact hserve

end Compact

theorem Program.numInstrs_compact (p : Program) :
    p.compact.numInstrs + p.mergedPairs = p.numInstrs := by
  unfold numInstrs mergedPairs compact
  simp only
  induction p.blocks with
  | nil => rfl
  | cons b rest ih =>
    have hb := Compact.length_run none b.instrs
    simp only [Compact.held, List.nil_append] at hb
    simp only [List.map_cons, total_cons, Compact.block] at ih ⊢
    omega

/-- Compaction keeps the waits. If every hint of a program waits for the next instruction only and
that is not a hint, the same instructions come in the same order in every block, to each apply the
same wait codes as before, and every wait has a target. As many instructions are gone as the number
says. -/
theorem Program.enforced_compact {p : Program} (hg : ∀ b ∈ p.blocks, Guarded b.instrs) :
    p.compact.blocks.length = p.blocks.length ∧
    (∀ (pos : ℕ) (b : Block), p.blocks[pos]? = some b → ∃ b', p.compact.blocks[pos]? = some b' ∧
      enforced b'.instrs = enforced b.instrs ∧ Landing b'.instrs) ∧
    p.compact.numInstrs + p.mergedPairs = p.numInstrs := by
  refine ⟨List.length_map .., fun pos b hb => ?_, p.numInstrs_compact⟩
  obtain ⟨henforced, hlanding, -⟩ := Compact.block_enforced (hg b (List.mem_of_getElem? hb))
  refine ⟨{ b with instrs := (Compact.block b.instrs).1 }, ?_, henforced, hlanding⟩
  simp only [compact, List.getElem?_map, hb, Option.map_some]

/-- Two single hints with one for two waits between them. -/
def threeHints : List Instr :=
  [{ opcode := .sDelayAlu, imm := 1 }, .unary .vMovB32 256 257,
   { opcode := .sDelayAlu, imm := 261 }, .unary .vMovB32 258 256,
   { opcode := .sDelayAlu, imm := 9 }, .unary .vMovB32 259 258]

theorem guarded_threeHints : Guarded threeHints := by
  have hnil : Guarded [] := by simp [Guarded]
  have hpair {i x : Instr} {rest : List Instr} (hskip : Immediate.skip i.imm = 0)
      (hx : ¬ x.isHint) (hrest : Guarded rest) : Guarded (i :: x :: rest) :=
    guarded_cons.mpr ⟨fun _ => ⟨hskip, x, rfl, hx⟩,
      guarded_cons.mpr ⟨fun h => absurd h hx, hrest⟩⟩
  exact hpair rfl (by decide) (hpair rfl (by decide) (hpair rfl (by decide) hnil))

/-- A program of one block. -/
def oneBlock (instrs : List Instr) : Program :=
  ⟨CycleModel.ofClasses .gfx11 CycleModel.gfx11Cost, .w32,
    [{ index := 0, kind := .ofLabel .topLevel, depth := 0, instrs }]⟩

theorem enforced_compact_threeHints : Guarded threeHints ∧
    ∃ b', (oneBlock threeHints).compact.blocks[0]? = some b' ∧
      enforced b'.instrs = enforced threeHints ∧ Landing b'.instrs ∧
      (oneBlock threeHints).mergedPairs = 1 ∧ b'.instrs.length = 5 := by
  have hg : ∀ b ∈ (oneBlock threeHints).blocks, Guarded b.instrs := by
    intro b hb
    obtain rfl := List.mem_singleton.mp hb
    exact guarded_threeHints
  obtain ⟨-, hblocks, -⟩ := Program.enforced_compact hg
  obtain ⟨b', hb', henforced, hlanding⟩ := hblocks 0 _ rfl
  refine ⟨guarded_threeHints, b', hb', henforced, hlanding, by decide, ?_⟩
  obtain rfl := Option.some.inj hb'
  decide

end DelayHint

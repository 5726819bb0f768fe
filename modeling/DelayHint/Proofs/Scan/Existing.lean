import DelayHint.Proofs.Requirement.Conditions
import DelayHint.Proofs.Scan.Moments
import DelayHint.Proofs.Scan.Timeline
import DelayHint.Proofs.Scan.Total
import DelayHint.Proofs.Validity

/-! Hints that are there before a scan. Those in front of an instruction are taken over one after
the other, and each replaces the waits of its kinds. So of several waits for one kind of instruction
the last one counts, and a stricter one is lost unless a result that is read asks for as much. -/
namespace DelayHint

/-- The plain instructions, each with all the hints right in front of it. `hs` stand in front of
all. -/
def groups (hs : List Instr) : List Instr → List (List Instr × Instr)
  | [] => []
  | i :: rest => if i.isHint then groups (hs ++ [i]) rest else (hs, i) :: groups [] rest

theorem groups_cons_of_isHint {i : Instr} (h : i.isHint) (hs rest : List Instr) :
    groups hs (i :: rest) = groups (hs ++ [i]) rest := if_pos h

theorem groups_cons_of_not_isHint {i : Instr} (h : ¬ i.isHint) (hs rest : List Instr) :
    groups hs (i :: rest) = (hs, i) :: groups [] rest := if_neg h

private theorem map_snd_groups (hs code : List Instr) :
    (groups hs code).map Prod.snd = withoutHints code := by
  induction code generalizing hs with
  | nil => rfl
  | cons i rest ih =>
    by_cases hi : i.isHint
    · rw [groups_cons_of_isHint hi, withoutHints_cons_of_isHint hi, ih]
    · rw [groups_cons_of_not_isHint hi, withoutHints_cons_of_not_isHint hi, List.map_cons, ih]

theorem getElem?_of_group {hs code gs : List Instr} {k : Nat} {x : Instr}
    (hg : (groups hs code)[k]? = some (gs, x)) : (withoutHints code)[k]? = some x := by
  rw [← map_snd_groups hs, List.getElem?_map, hg]
  rfl

private theorem forall_hint_of_group {P : Instr → Prop} {hs code gs : List Instr} {k : Nat}
    {x : Instr}
    (hcode : ∀ i ∈ code, i.isHint → P i) (hhs : ∀ h ∈ hs, P h)
    (hg : (groups hs code)[k]? = some (gs, x)) : ∀ h ∈ gs, P h := by
  induction code generalizing hs k with
  | nil => cases hg
  | cons i rest ih =>
    have hrest : ∀ j ∈ rest, j.isHint → P j := fun j hj => hcode j (List.mem_cons_of_mem _ hj)
    by_cases hi : i.isHint
    · rw [groups_cons_of_isHint hi] at hg
      refine ih hrest (fun h hh => ?_) hg
      rcases List.mem_append.mp hh with hh | hh
      · exact hhs h hh
      · rw [List.mem_singleton.mp hh]
        exact hcode i List.mem_cons_self hi
    · rw [groups_cons_of_not_isHint hi] at hg
      cases k with
      | zero =>
        obtain ⟨rfl, -⟩ := Prod.mk.inj (Option.some.inj hg)
        exact hhs
      | succ k => exact ih hrest (by simp) hg

namespace Pending

variable {ctx : Pending} {q q' e : Requirement} {i x : Instr}

/-- What is pending for a register that an ALU instruction reads. -/
def ReadBy (ctx : Pending) (x : Instr) (e : Requirement) : Prop :=
  x.isAlu = true ∧ ∃ r, x.Reads r ∧ ctx.get? r = some e

theorem readBy_iff_mem {units : List Reg} (halu : x.isAlu = true) (hu : x.reads = .ok units) :
    ctx.ReadBy x e ↔ e ∈ ctx.valuesAt units := by
  simp only [ReadBy, halu, true_and, Instr.reads_iff_mem hu]
  exact List.mem_filterMap.symm

/-- What is required is at most `n` exactly if something is that was queued or is read. -/
theorem level_demand_le_iff (h : ctx.demand q x = .ok q') (s : Source) (n : Int) :
    q'.level s ≤ n ↔ q.level s ≤ n ∨ ∃ e, ctx.ReadBy x e ∧ e.level s ≤ n := by
  rcases demand_cases h with ⟨hn, rfl⟩ | ⟨units, halu, hu, rfl⟩
  · constructor
    · exact .inl
    · rintro (hle | ⟨e, ⟨halu, -⟩, -⟩)
      · exact hle
      · rw [hn] at halu
        cases halu
  · obtain ⟨hle, hall, hone⟩ := Requirement.level_foldl_join s q (ctx.valuesAt units)
    simp only [readBy_iff_mem halu hu]
    constructor
    · intro hn
      rcases hone with hone | ⟨e, he, hone⟩
      · exact .inl (hone ▸ hn)
      · exact .inr ⟨e, he, hone ▸ hn⟩
    · rintro (hn | ⟨e, he, hn⟩)
      · exact Int.le_trans hle hn
      · exact Int.le_trans (hall e he) hn

end Pending

namespace Requirement

variable {p q : Requirement}

/-- No count is below zero, so that a hint can be written. -/
structure Nonneg (q : Requirement) : Prop where
  instrs : 0 ≤ q.valuInstrs.toInt ∧ 0 ≤ q.transInstrs.toInt
  cycles : 0 ≤ q.valuCycles.toInt ∧ 0 ≤ q.transCycles.toInt

theorem exists_hint_iff : (∃ h, q.hint = .ok h) ↔ q.Nonneg := by
  have hiff : q.Nonneg ↔ ¬ (q.valuInstrs < 0 ∨ q.transInstrs < 0) ∧
      ¬ (q.valuCycles < 0 ∨ q.transCycles < 0) := by
    simp only [Int8.lt_iff_toInt_lt, Int8.toInt_zero, not_or, Int.not_lt]
    exact ⟨fun h => ⟨h.instrs, h.cycles⟩, fun h => ⟨h.1, h.2⟩⟩
  rw [hiff, hint]
  split
  · rename_i hneg
    simp [hneg]
  · rename_i hcounts
    split
    · rename_i hneg
      simp [hneg]
    · rename_i hcycles
      simp [hcounts, hcycles]

theorem nonneg_empty : empty.Nonneg := by constructor <;> decide

theorem Nonneg.join (hp : p.Nonneg) (hq : q.Nonneg) : (p.join q).Nonneg := by
  obtain ⟨hpi, hpc⟩ := hp
  obtain ⟨hqi, hqc⟩ := hq
  constructor
  · simp only [Requirement.join, toInt_min]
    omega
  · simp only [Requirement.join, toInt_max]
    omega

theorem Settled.nonneg (h : q.Settled) : q.Nonneg :=
  ⟨⟨h.valu_nonneg, h.trans_nonneg⟩, cyclesOf_nonneg h.toNormalized .valu,
    cyclesOf_nonneg h.toNormalized .trans⟩

end Requirement

/-- A valid hint whose cycle counts are not below zero. -/
structure Instr.SoundHint (i : Instr) : Prop extends i.ValidHint where
  valuCycles_nonneg : 0 ≤ i.passFlags.toUInt8.toInt8.toInt
  transCycles_nonneg : 0 ≤ (i.passFlags >>> 16).toUInt8.toInt8.toInt

instance (i : Instr) : Decidable i.SoundHint :=
  decidable_of_iff (i.hintViolation? 0 0 = none ∧ 0 ≤ i.passFlags.toUInt8.toInt8.toInt ∧
      0 ≤ (i.passFlags >>> 16).toUInt8.toInt8.toInt)
    ⟨fun h => ⟨Instr.hintViolation?_eq_none_iff.mp h.1, h.2.1, h.2.2⟩,
      fun h => ⟨Instr.hintViolation?_eq_none_iff.mpr h.toValidHint, h.2, h.3⟩⟩

theorem Requirement.Nonneg.withHint {q : Requirement} {i : Instr} (hq : q.Nonneg)
    (hi : i.SoundHint) : (q.withHint i).Nonneg := by
  have hvalu := level_withHint_cases q i (s := .valu) (by decide)
  have htrans := level_withHint_cases q i (s := .trans) (by decide)
  obtain ⟨hv, ht⟩ := hq.instrs
  simp only [level] at hvalu htrans
  exact ⟨⟨by omega, by omega⟩, hi.valuCycles_nonneg, hi.transCycles_nonneg⟩

namespace Scan

variable {cost : Instr → Cost} {q q' : Requirement} {ctx ctx' last : Pending}
  {code hs gs out : List Instr} {h x : Instr} {w : Wait} {src : Source} {k : Nat} {s : Stop}

private theorem exists_flush (hq : q.Nonneg) : ∃ hints, flush q = .ok (hints, left q) := by
  unfold flush left
  split
  · exact ⟨[], rfl⟩
  · obtain ⟨h, hh⟩ := Requirement.exists_hint_iff.mpr hq
    exact ⟨[h], bind_eq_ok.mpr ⟨h, hh, rfl⟩⟩

/-- Whatever sound hints there are, and however many in a row, the scan returns. -/
theorem exists_run (hhints : ∀ i ∈ code, i.isHint → i.SoundHint)
    (hfits : ∀ i ∈ code, ∀ s ∈ i.spans, s.Fits) (hctx : ctx.Settled) (hq : q.Nonneg) :
    ∃ out last, run cost q ctx code = .ok (out, last) := by
  induction code generalizing q ctx with
  | nil =>
    obtain ⟨hints, hf⟩ := exists_flush hq
    exact ⟨hints, ctx, bind_eq_ok.mpr ⟨_, hf, rfl⟩⟩
  | cons i rest ih =>
    obtain ⟨q', ctx', hs, hd, -⟩ := exists_step cost q ctx (hfits i List.mem_cons_self)
    have hrest {q : Requirement} {ctx : Pending} :=
      @ih q ctx (fun j hj => hhints j (List.mem_cons_of_mem _ hj))
        (fun j hj => hfits j (List.mem_cons_of_mem _ hj))
    have hctx' : ctx'.Settled := settled_step hctx hs
    have hentries {r : Reg} {e : Requirement} (he : ctx.get? r = some e) : e.Nonneg :=
      (hctx r e he).nonneg
    by_cases hi : i.isHint
    · rw [if_pos hi] at hd
      have hq' : q'.Nonneg := Pending.demand_induction Requirement.Nonneg.join hentries
        (hq.withHint (hhints i List.mem_cons_self hi)) hd
      rw [run_cons_of_isHint hi hs]
      exact hrest hctx' hq'
    · rw [if_neg hi] at hd
      have hq' : q'.Nonneg := Pending.demand_induction Requirement.Nonneg.join hentries hq hd
      obtain ⟨hints, hf⟩ := exists_flush hq'
      obtain ⟨out, last, hr⟩ := hrest hctx' (left_induction Requirement.nonneg_empty hq')
      exact ⟨_, last, run_cons_of_not_isHint hi hs hf hr⟩

/-- When a scan comes to an instruction, the hints in front of it have been taken over in order. -/
theorem queued_of_group (hcode : ∀ i ∈ code, i.isHint → i.operands = []) (he : q.isEmpty = true)
    (hg : (groups hs code)[k]? = some (gs, x))
    (hs' : (stops cost (hs.foldl Requirement.withHint q) ctx code)[k]? = some s) :
    ∃ q₁, q₁.isEmpty = true ∧ s.queued = gs.foldl Requirement.withHint q₁ := by
  induction code generalizing hs q ctx k with
  | nil => cases hg
  | cons i rest ih =>
    have hrest : ∀ j ∈ rest, j.isHint → j.operands = [] :=
      fun j hj => hcode j (List.mem_cons_of_mem _ hj)
    cases hi : step cost (hs.foldl Requirement.withHint q) ctx i with
    | error f => simp [stops, hi] at hs'
    | ok next =>
      obtain ⟨q', ctx'⟩ := next
      by_cases hh : i.isHint
      · rw [groups_cons_of_isHint hh] at hg
        rw [stops_cons_of_isHint hh hi] at hs'
        obtain ⟨waited, hd, -, -⟩ := step_eq_ok hi
        rw [if_pos hh, Pending.demand_of_operands_eq_nil (hcode i List.mem_cons_self hh)] at hd
        obtain rfl := Except.ok.inj hd
        have hnext : (stops cost ((hs ++ [i]).foldl Requirement.withHint q) ctx' rest)[k]? =
            some s := by
          rw [List.foldl_append]
          exact hs'
        exact ih hrest he hg hnext
      · rw [groups_cons_of_not_isHint hh] at hg
        rw [stops_cons_of_not_isHint hh hi] at hs'
        cases k with
        | zero =>
          obtain ⟨rfl, -⟩ := Prod.mk.inj (Option.some.inj hg)
          obtain rfl := Option.some.inj hs'
          exact ⟨q, he, rfl⟩
        | succ k => exact ih hrest (isEmpty_left q') hg hs'

/-- What is required at an instruction, by the waits in front of it and the results it reads. -/
theorem required_of_group (hhints : ∀ i ∈ code, i.isHint → i.SoundHint)
    (hg : (groups [] code)[k]? = some (gs, x))
    (hs : (stops cost .empty ctx code)[k]? = some s) (src : Source) (n : Int) :
    s.required.level src ≤ n ↔ lastLevel src (gs.flatMap Instr.conditions) ≤ n ∨
      ∃ e, s.pending.ReadBy x e ∧ e.level src ≤ n := by
  have hoperands : ∀ i ∈ code, i.isHint → i.operands = [] :=
    fun i hi hh => (hhints i hi hh).operands_eq
  obtain ⟨q₁, he, hqueued⟩ := queued_of_group hoperands (q := .empty) rfl hg hs
  have hcodes : ∀ h ∈ gs, Immediate.first h.imm ≤ 11 ∧ Immediate.second h.imm ≤ 11 :=
    forall_hint_of_group (fun i hi hh => ⟨(hhints i hi hh).first_le, (hhints i hi hh).second_le⟩)
      (by simp) hg
  have hlevel : s.queued.level src = lastLevel src (gs.flatMap Instr.conditions) := by
    rw [hqueued, Requirement.level_foldl_withHint q₁ hcodes,
      Requirement.isEmpty_iff_level.mp he src]
    rfl
  rw [Pending.level_demand_le_iff (demand_of_stop hs (getElem?_of_group hg)), hlevel]

/-- A wait in front of an instruction gives it a hint in the new code. -/
theorem exists_hint_of_group (hhints : ∀ i ∈ code, i.isHint → i.SoundHint)
    (h : Run cost .empty ctx code out last) (hg : (groups [] code)[k]? = some (gs, x))
    (hw : w ∈ gs.flatMap Instr.conditions) (hsrc : w.source? = some src) :
    ∃ s h, (stops cost .empty ctx code)[k]? = some s ∧ s.required.hint = .ok h ∧
      (slots none out)[k]? = some (some h, x) := by
  have hx := getElem?_of_group hg
  have hlt : k < (stops cost .empty ctx code).length := by
    rw [h.length_stops]
    exact (List.getElem?_eq_some_iff.mp hx).1
  have hs := List.getElem?_eq_getElem hlt
  generalize (stops cost .empty ctx code)[k] = s at hs
  obtain ⟨v, hv⟩ := exists_lastWait hw hsrc
  have hle : s.required.level src ≤ v.level := by
    rw [required_of_group hhints hg hs]
    exact .inl (Int.le_of_eq (lastLevel_of_lastWait hv))
  have hlt := Wait.level_lt_idle (source?_of_lastWait hv)
  have hne : s.required.isEmpty = false := by
    rw [← Bool.not_eq_true, Requirement.isEmpty_iff_level]
    intro hall
    rw [hall src] at hle
    omega
  obtain ⟨hint, hh⟩ := h.hint_of_stop (List.mem_of_getElem? hs) hne
  refine ⟨s, hint, hs, hh, h.slot_iff.mpr ⟨s, hs, hx, ?_⟩⟩
  rw [Requirement.hint?, if_neg (by simp [hne]), hh]
  rfl

theorem keeps_iff_of_group (hhints : ∀ i ∈ code, i.isHint → i.SoundHint)
    (hg : (groups [] code)[k]? = some (gs, x))
    (hs : (stops cost .empty ctx code)[k]? = some s) (hh : s.required.hint = .ok h)
    (hread : ∀ e, s.pending.ReadBy x e → 1 ≤ e.transInstrs.toInt) (hsrc : w.source? = some src) :
    h.Keeps w ↔
      (lastLevel src (gs.flatMap Instr.conditions) ≤ w.level ∨
        ∃ e, s.pending.ReadBy x e ∧ e.level src ≤ w.level) ∧
      (src = .valu → ∀ e, s.pending.ReadBy x e → e.valuInstrs ≠ 0) ∨
      src = .salu ∧ h.WaitsForBoth := by
  have hiff := required_of_group hhints hg hs
  have hidle (src : Source) : s.required.level src ≤ src.idle :=
    (hiff src src.idle).mpr (.inl (lastLevel_le_idle _ _))
  have hpos {src : Source} (hsrc : src ≠ .salu) : 0 < s.required.level src ↔
      ∀ e, s.pending.ReadBy x e → 0 < e.level src := by
    rw [← Int.not_le, hiff src 0]
    simp only [not_or, not_exists, not_and, Int.not_le]
    exact and_iff_right (lastLevel_pos hsrc _)
  obtain ⟨hvalu, -⟩ := (Requirement.exists_hint_iff.mp ⟨h, hh⟩).instrs
  have hzero : s.required.level .valu ≠ 0 ↔ ∀ e, s.pending.ReadBy x e → e.valuInstrs ≠ 0 := by
    have hlt : s.required.level .valu ≠ 0 ↔ 0 < s.required.level .valu := by
      have hle : 0 ≤ s.required.level .valu := hvalu
      omega
    rw [hlt, hpos (by decide)]
    refine forall₂_congr fun e he => ?_
    have hge : s.required.level .valu ≤ e.valuInstrs.toInt :=
      (hiff .valu _).mpr (.inr ⟨e, he, Int.le_refl _⟩)
    rw [ne_eq, ← Int8.toInt_inj, Int8.toInt_zero]
    simp only [Requirement.level] at hge ⊢
    omega
  have hranged : s.required.Ranged :=
    ⟨⟨hvalu, hidle .valu⟩, (hpos (by decide)).mpr hread, hidle .trans⟩
  have hsalu : 0 ≤ s.required.saluCycles.toInt := by
    have hle : -s.required.saluCycles.toInt ≤ 0 := hidle .salu
    omega
  rw [Requirement.keeps_iff hranged hsalu hh hsrc, hiff src, hzero]

/-- When a scan keeps the waits that it finds in front of an instruction, in one hint or in several.
It returns, and there is a hint in the new code. For each wait it holds one that is as strict
exactly if the last wait of the kind is as strict or a result that is read asks for as much. But a
read result that no vector instruction has followed takes all vector waits away, and a scalar wait
need not be there next to a vector and a transcendental one. The scan starts with a normal context,
as in every run, or it has at least come to no read result with a transcendental count of zero, for
which the code of another kind is written. -/
theorem waits_kept_iff (cost : Instr → Cost) (ctx : Pending)
    (hhints : ∀ i ∈ code, i.isHint → i.SoundHint)
    (hfits : ∀ i ∈ code, ∀ s ∈ i.spans, s.Fits) :
    (ctx.Settled → ∃ out last, block cost ctx code = .ok (out, last)) ∧
    ∀ out last, block cost ctx code = .ok (out, last) →
      ∀ (k : Nat) (gs : List Instr) (x : Instr) (w : Wait) (src : Source),
        (groups [] code)[k]? = some (gs, x) → w ∈ gs.flatMap Instr.conditions →
        w.source? = some src →
        ∃ (s : Stop) (h : Instr), (stops cost .empty ctx code)[k]? = some s ∧
          (slots none out)[k]? = some (some h, x) ∧
          ((ctx.Normal ∨ ∀ e, s.pending.ReadBy x e → 1 ≤ e.transInstrs.toInt) →
            (h.Keeps w ↔
              ((∃ v, lastWait src (gs.flatMap Instr.conditions) = some v ∧ v.level ≤ w.level) ∨
                ∃ e, s.pending.ReadBy x e ∧ e.level src ≤ w.level) ∧
              (src = .valu → ∀ e, s.pending.ReadBy x e → e.valuInstrs ≠ 0) ∨
              src = .salu ∧ h.WaitsForBoth)) := by
  refine ⟨fun hctx => exists_run hhints hfits hctx Requirement.nonneg_empty, ?_⟩
  intro out last hblock k gs x w src hg hw hsrc
  obtain ⟨s, h, hs, hh, hslot⟩ := exists_hint_of_group hhints (run_of_eq_ok hblock) hg hw hsrc
  refine ⟨s, h, hs, hslot, fun hor => ?_⟩
  have hread : ∀ e, s.pending.ReadBy x e → 1 ≤ e.transInstrs.toInt := by
    rcases hor with hn | hread
    · obtain ⟨-, -, hpending⟩ := counted_of_stop hn hs (getElem?_of_group hg)
      rintro e ⟨-, r, -, he⟩
      exact (hpending r e he).trans_range.1
    · exact hread
  obtain ⟨v, hv⟩ := exists_lastWait hw hsrc
  rw [keeps_iff_of_group hhints hg hs hh hread hsrc, lastLevel_of_lastWait hv]
  simp only [hv, Option.some.injEq, exists_eq_left']

/-- Two hints in front of a read. The first one waits for a vector instruction and for the latest
transcendental one, the second one for the transcendental instruction before that. -/
def twoHints : List Instr :=
  [.unary .vMovB32 256 266,
    { opcode := .sDelayAlu, imm := Immediate.ofWaits 4 5, passFlags := 0x80004 },
    { opcode := .sDelayAlu, imm := Immediate.ofWaits 6 0, passFlags := 0x80004 },
    .unary .vMovB32 257 256]

/-- The vector wait is kept, and the first transcendental wait is lost. -/
theorem waits_kept_iff_twoHints : ∃ out last h,
    block classCost RegMap.empty twoHints = .ok (out, last) ∧
    (slots none out)[1]? = some (some h, .unary .vMovB32 257 256) ∧
    h.Keeps (.valuDep 3) ∧ ¬ h.Keeps (.transDep 0) := by
  have hhints : ∀ i ∈ twoHints, i.isHint → i.SoundHint := by decide
  obtain ⟨hreturns, hkept⟩ := waits_kept_iff classCost RegMap.empty hhints (by decide)
  obtain ⟨out, last, hblock⟩ := hreturns Pending.settled_empty
  obtain ⟨s, h, hs, hslot, hvalu⟩ :=
    hkept out last hblock 1 _ _ (.valuDep 3) .valu rfl (by decide) rfl
  obtain ⟨s', h', hs', hslot', htrans⟩ :=
    hkept out last hblock 1 _ _ (.transDep 0) .trans rfl (by decide) rfl
  obtain rfl : s = s' := Option.some.inj (hs.symm.trans hs')
  obtain rfl : h = h' := by simpa using hslot.symm.trans hslot'
  have hstop : ∃ s, (stops classCost .empty RegMap.empty twoHints)[1]? = some s ∧
      ∀ e ∈ s.pending.valuesAt [256], e.transInstrs = 4 ∧ e.valuInstrs ≠ 0 := ⟨_, rfl, by decide⟩
  have hread : ∀ e, s.pending.ReadBy (.unary .vMovB32 257 256) e →
      e.transInstrs = 4 ∧ e.valuInstrs ≠ 0 := by
    obtain ⟨t, ht, hall⟩ := hstop
    obtain rfl : s = t := Option.some.inj (hs.symm.trans ht)
    intro e he
    exact hall e ((Pending.readBy_iff_mem rfl rfl).mp he)
  have hnormal := Pending.normal_empty
  refine ⟨out, last, h, hblock, hslot, (hvalu (.inl hnormal)).mpr ?_, fun hkeeps => ?_⟩
  · exact .inl ⟨.inl ⟨_, rfl, Int.le_refl _⟩, fun _ e he => (hread e he).2⟩
  · rcases (htrans (.inl hnormal)).mp hkeeps with ⟨⟨v, hv, hle⟩ | ⟨e, he, hle⟩, -⟩ | ⟨hsalu, -⟩
    · obtain rfl := Option.some.inj hv
      exact absurd hle (by decide)
    · rw [Requirement.level, (hread e he).1] at hle
      exact absurd hle (by decide)
    · cases hsalu

/-- A hint with two vector waits, the stricter one first. -/
def doubleWait : List Instr :=
  [{ opcode := .sDelayAlu, imm := Immediate.ofWaits 1 3, passFlags := 4 }, .unary .vMovB32 257 256]

/-- Of two waits in one hint the stricter one is lost, for the other one is read later. -/
theorem wait_lost_doubleWait :
    (∀ i ∈ doubleWait, i.isHint → i.SoundHint ∧ Immediate.skip i.imm = 0) ∧
    (∀ i ∈ doubleWait, ∀ s ∈ i.spans, s.Fits) ∧
    ∃ gs x out last h, (groups [] doubleWait)[0]? = some (gs, x) ∧
      Wait.valuDep 0 ∈ gs.flatMap Instr.conditions ∧
      block classCost RegMap.empty doubleWait = .ok (out, last) ∧
      (slots none out)[0]? = some (some h, x) ∧ ¬ h.Keeps (.valuDep 0) :=
  ⟨by decide, by decide, _, _, _, _, _, rfl, by decide, rfl, rfl, by decide⟩

end Scan

end DelayHint

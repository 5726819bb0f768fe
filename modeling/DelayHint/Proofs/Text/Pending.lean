import DelayHint.Proofs.Pending.Join
import DelayHint.Proofs.Text.Register

/-! Contexts from their texts. A field that is left out of a text has its default value, so that a
requirement can be read back, and so can the lines of a context. Two contexts have the same text
exactly if they are the same, however their entries were found or came in. -/
namespace DelayHint

open Text

namespace Requirement

inductive Field where
  | valuInstrs | valuCycles | transInstrs | transCycles | saluCycles
  deriving DecidableEq

namespace Field

def name : Field → String
  | valuInstrs => "valu_instrs"
  | valuCycles => "valu_cycles"
  | transInstrs => "trans_instrs"
  | transCycles => "trans_cycles"
  | saluCycles => "salu_cycles"

/-- All fields in the order in which they are written. -/
def all : List Field := [valuInstrs, valuCycles, transInstrs, transCycles, saluCycles]

theorem mem_all (f : Field) : f ∈ all := by cases f <;> decide

theorem name_inj {f g : Field} (h : f.name = g.name) : f = g := by
  have hall : ∀ f ∈ all, ∀ g ∈ all, f.name = g.name → f = g := by decide
  exact hall f f.mem_all g g.mem_all h

private theorem not_mem_name {c : Char} (h : c ∈ [':', ',', '\n']) (f : Field) :
    c ∉ f.name.toList := by
  have hall : ∀ c ∈ [':', ',', '\n'], ∀ f ∈ all, c ∉ f.name.toList := forall_mem_of_all (by decide)
  exact hall c h f f.mem_all

end Field

def field (q : Requirement) : Field → Int8
  | .valuInstrs => q.valuInstrs
  | .valuCycles => q.valuCycles
  | .transInstrs => q.transInstrs
  | .transCycles => q.transCycles
  | .saluCycles => q.saluCycles

theorem eq_of_field {q q' : Requirement} (h : ∀ f, q.field f = q'.field f) : q = q' := by
  cases q
  cases q'
  simp only [mk.injEq]
  exact ⟨h .valuInstrs, h .valuCycles, h .transInstrs, h .transCycles, h .saluCycles⟩

/-- The fields that are written. -/
def shown (q : Requirement) : List Field := Field.all.filter fun f => q.field f ≠ empty.field f

def valueText (p : Field × Int8) : String := p.1.name ++ ": " ++ signed p.2.toInt

theorem text_eq_shown (q : Requirement) : q.text =
    "\x7b " ++ ", ".intercalate ((q.shown.map fun f => (f, q.field f)).map valueText) ++
      " \x7d" := by
  have hone (f : Field) : fieldText f.name (q.field f) (empty.field f) =
      ((([f].filter fun f => q.field f ≠ empty.field f).map fun f => (f, q.field f)).map
        valueText) := by
    unfold fieldText
    by_cases h : q.field f = empty.field f <;> simp [h, valueText]
  have hall : Field.all = [.valuInstrs] ++ [.valuCycles] ++ [.transInstrs] ++ [.transCycles] ++
      [.saluCycles] := rfl
  rw [shown, hall]
  simp only [List.filter_append, List.map_append, ← hone]
  rfl

theorem valueText_inj {p p' : Field × Int8} (h : valueText p = valueText p') : p = p' := by
  simp only [valueText, String.append_assoc] at h
  obtain ⟨hname, hvalue⟩ := append_delimiter_inj (c := ':') (by decide)
    (p.1.not_mem_name (by decide)) (p'.1.not_mem_name (by decide)) h
  exact Prod.ext (Field.name_inj hname) (Int8.toInt_inj.mp (signed_inj hvalue))

private theorem not_mem_valueText {c : Char} (h : c ∈ [',', '\n']) (p : Field × Int8) :
    c ∉ (valueText p).toList := by
  have hall : ∀ c ∈ [',', '\n'], c ∈ [':', ',', '\n'] ∧ c ∉ ": ".toList ∧ c.isDigit = false ∧
      c ≠ '-' := forall_mem_of_all (by decide)
  obtain ⟨hname, hsep, hdigit, hminus⟩ := hall c h
  simp only [valueText, String.toList_append, List.mem_append, not_or]
  exact ⟨⟨p.1.not_mem_name hname, hsep⟩, not_mem_signed hdigit hminus _⟩

/-- What is not written is as in the empty requirement, so a requirement can be read back. -/
theorem text_inj {q q' : Requirement} (h : q.text = q'.text) : q = q' := by
  have hpiece (ps : List (Field × Int8)) : ∀ x ∈ ps.map valueText, x ≠ "" ∧ ',' ∉ x.toList := by
    intro x hx
    obtain ⟨p, -, rfl⟩ := List.mem_map.mp hx
    exact ⟨by simp [valueText], not_mem_valueText (by decide) p⟩
  rw [text_eq_shown, text_eq_shown, String.append_left_inj, String.append_right_inj] at h
  have hpairs := (List.map_inj_right fun _ _ => valueText_inj).mp
    (intercalate_inj (hpiece _) (hpiece _) h)
  have hshown : q.shown = q'.shown := by
    have hfst := congrArg (List.map Prod.fst) hpairs
    simpa [List.map_map, Function.comp_def] using hfst
  rw [← hshown] at hpairs
  apply eq_of_field
  intro f
  by_cases hf : f ∈ q.shown
  · exact (Prod.mk.inj (List.map_inj_left.mp hpairs f hf)).2
  · have hf' := hshown ▸ hf
    simp only [shown, List.mem_filter, Field.mem_all, true_and, decide_eq_true_eq,
      Decidable.not_not] at hf hf'
    rw [hf, hf']

private theorem not_mem_text (q : Requirement) : '\n' ∉ q.text.toList := by
  have hlist : '\n' ∉
      (", ".intercalate ((q.shown.map fun f => (f, q.field f)).map valueText)).toList := by
    apply not_mem_intercalate (by decide) (by decide)
    intro x hx
    obtain ⟨p, -, rfl⟩ := List.mem_map.mp hx
    exact not_mem_valueText (by decide) p
  simp only [text_eq_shown, String.toList_append, List.mem_append, not_or]
  exact ⟨⟨by decide, hlist⟩, by decide⟩

end Requirement

namespace Pending

def entryText (p : Reg × Requirement) : String := "gpr_map[" ++ p.1.text ++ "] = " ++ p.2.text

theorem text_eq_lines (ctx : Pending) :
    ctx.text = String.join ((ctx.entries.map entryText).map (· ++ "\n")) := by
  rw [text, List.map_map]
  rfl

theorem entryText_inj {p p' : Reg × Requirement} (h : entryText p = entryText p') : p = p' := by
  simp only [entryText, String.append_assoc, String.append_right_inj] at h
  obtain ⟨hreg, hrest⟩ := append_delimiter_inj (c := ']') (by decide)
    (p.1.not_mem_text rfl (by decide) (by decide)) (p'.1.not_mem_text rfl (by decide) (by decide)) h
  exact Prod.ext (Reg.text_inj hreg) (Requirement.text_inj hrest)

private theorem not_mem_entryText (p : Reg × Requirement) : '\n' ∉ (entryText p).toList := by
  simp [entryText, p.1.not_mem_text (c := '\n') rfl (by decide) (by decide), p.2.not_mem_text]

theorem text_inj {a b : Pending} (h : a.text = b.text) : a = b := by
  have hline (ps : List (Reg × Requirement)) : ∀ x ∈ ps.map entryText, '\n' ∉ x.toList := by
    intro x hx
    obtain ⟨p, -, rfl⟩ := List.mem_map.mp hx
    exact not_mem_entryText p
  rw [text_eq_lines, text_eq_lines] at h
  have hentries := (List.map_inj_right fun _ _ => entryText_inj).mp
    (join_lines_inj (hline _) (hline _) h)
  cases a
  cases b
  simp_all

/-- The text of entries that are found in some order: their lines, sorted by register. -/
def sortedText (found : List (Reg × Requirement)) : String :=
  String.join (((found.mergeSort fun p q => p.1 ≤ q.1).map entryText).map (· ++ "\n"))

theorem mergeSort_eq_entries {ctx : Pending} {found : List (Reg × Requirement)}
    (h : found.Perm ctx.entries) : (found.mergeSort fun p q => p.1 ≤ q.1) = ctx.entries := by
  have hperm := (List.mergeSort_perm found fun p q => p.1 ≤ q.1).trans h
  have hsorted : (found.mergeSort fun p q => p.1 ≤ q.1).Pairwise fun p q => p.1 ≤ q.1 := by
    have hle : (found.mergeSort fun p q => p.1 ≤ q.1).Pairwise
        fun p q => decide (p.1 ≤ q.1) = true :=
      List.pairwise_mergeSort
        (fun p q r hpq hqr => by
          simp only [decide_eq_true_eq] at hpq hqr ⊢
          exact Fin.le_trans hpq hqr)
        (fun p q => by
          simp only [Bool.or_eq_true, decide_eq_true_eq]
          exact Fin.le_total p.1 q.1) found
    exact hle.imp fun hpq => decide_eq_true_eq.mp hpq
  refine List.Perm.eq_of_pairwise ?_ hsorted (ctx.ascending.imp Fin.le_of_lt) hperm
  intro p q hp hq hpq hqp
  have hkey : p.1 = q.1 := Fin.le_antisymm hpq hqp
  have hgetp := RegMap.mem_entries.mp (hperm.mem_iff.mp hp)
  have hgetq := RegMap.mem_entries.mp hq
  rw [hkey, hgetq] at hgetp
  exact Prod.ext hkey (Option.some.inj hgetp).symm

/-- Record results one after the other. -/
def recordEach (ctx : Pending) (results : List (Reg × Requirement)) : Pending :=
  results.foldl (fun ctx p => ctx.record p.1 p.2) ctx

theorem record_comm (ctx : Pending) (r s : Reg) (p q : Requirement) :
    (ctx.record r p).record s q = (ctx.record s q).record r p := by
  by_cases hrs : r = s
  · subst hrs
    have hswap (old : Option Requirement) :
        addTo q (some (addTo p old)) = addTo p (some (addTo q old)) := by
      cases old with
      | none => exact Requirement.join_comm p q
      | some e =>
        show (e.join p).join q = (e.join q).join p
        rw [Requirement.join_assoc, Requirement.join_comm p q, Requirement.join_assoc]
    apply RegMap.ext_get?
    intro k
    simp only [get?_record, if_true, hswap]
    split <;> rfl
  · exact RegMap.update_comm hrs _ _ ctx

theorem recordEach_perm {results others : List (Reg × Requirement)} (h : others.Perm results)
    (ctx : Pending) : ctx.recordEach others = ctx.recordEach results :=
  h.foldl_eq' (fun p _ q _ ctx => record_comm ctx p.1 q.1 p.2 q.2) ctx

/-- The text of a context says which registers are tracked and what is pending for each, and nothing
else: neither the order in which the entries are found nor that in which they came in. -/
theorem text_canonical (a b : Pending) :
    (a.text = b.text ↔ ∀ r, a.get? r = b.get? r) ∧
    (∀ found : List (Reg × Requirement), found.Perm a.entries → sortedText found = a.text) ∧
    ∀ results others : List (Reg × Requirement), others.Perm results →
      (a.recordEach others).text = (a.recordEach results).text := by
  refine ⟨⟨?_, ?_⟩, ?_, ?_⟩
  · intro h r
    rw [text_inj h]
  · intro h
    rw [RegMap.ext_get? h]
  · intro found h
    rw [sortedText, mergeSort_eq_entries h, ← text_eq_lines]
  · intro results others h
    rw [recordEach_perm h]

end Pending

end DelayHint

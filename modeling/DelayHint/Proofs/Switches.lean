import Mathlib.Data.List.Forall2
import DelayHint.Switches

/-! What a text of switches turns on. The text is cut at its commas, each piece loses the blanks at
its ends, and the piece is the name of a switch, or empty, or a complaint. So two texts with a comma
between them are read as one after the other, and what switches are written as reads as them. -/
namespace DelayHint

open Text

namespace Text

/-- The text `t` is `p` without the blanks at its ends. -/
structure Trimmed (p t : String) : Prop where
  ends : ∃ l r : List Char, p.toList = l ++ t.toList ++ r ∧ (∀ c ∈ l, isBlank c) ∧
    ∀ c ∈ r, isBlank c
  head : ∀ c ∈ t.toList.head?, ¬ isBlank c
  last : ∀ c ∈ t.toList.getLast?, ¬ isBlank c

/-- The texts `ts` are what stands between the commas of `s`, without the blanks at the ends. -/
def Cut (s : String) (ts : List String) : Prop :=
  ∃ ps : List String, ps ≠ [] ∧ (∀ p ∈ ps, ',' ∉ p.toList) ∧ ",".intercalate ps = s ∧
    List.Forall₂ Trimmed ps ts

private theorem dropWhile_blanks {l t : List Char} (hl : ∀ c ∈ l, isBlank c)
    (ht : ∀ c ∈ t.head?, ¬ isBlank c) : (l ++ t).dropWhile isBlank = t := by
  rw [List.dropWhile_append_of_pos hl]
  cases t with
  | nil => rfl
  | cons c t => exact List.dropWhile_cons_of_neg (ht c rfl)

private theorem not_isBlank_head_dropWhile (cs : List Char) :
    ∀ c ∈ (cs.dropWhile isBlank).head?, ¬ isBlank c := by
  intro c hc
  have hnot := List.head?_dropWhile_not isBlank cs
  rw [hc] at hnot
  simpa using hnot

theorem trim_append {l t r : List Char} (hl : ∀ c ∈ l, isBlank c) (hr : ∀ c ∈ r, isBlank c)
    (hhead : ∀ c ∈ t.head?, ¬ isBlank c) (hlast : ∀ c ∈ t.getLast?, ¬ isBlank c) :
    trim (l ++ t ++ r) = t := by
  cases t with
  | nil =>
    have hall : ∀ c ∈ l ++ r, isBlank c := by
      intro c hc
      exact (List.mem_append.mp hc).elim (hl c) (hr c)
    have hnone := dropWhile_blanks hall (t := []) (by simp)
    rw [List.append_nil] at hnone
    rw [List.append_nil, trim, hnone]
    rfl
  | cons c t =>
    have hfront := dropWhile_blanks hl (t := c :: t ++ r) hhead
    have hback := dropWhile_blanks (l := r.reverse) (t := (c :: t).reverse)
      (fun d hd => hr d (List.mem_reverse.mp hd)) (by rwa [List.head?_reverse])
    rw [trim, List.append_assoc, hfront, List.reverse_append, hback, List.reverse_reverse]

theorem trimmed_trim (p : String) : Trimmed p (String.ofList (trim p.toList)) := by
  let middle := p.toList.dropWhile isBlank
  let back := middle.reverse
  have hmiddle : middle = trim p.toList ++ (back.takeWhile isBlank).reverse := by
    have hback : back.takeWhile isBlank ++ back.dropWhile isBlank = back :=
      List.takeWhile_append_dropWhile
    rw [trim, ← List.reverse_append, hback, List.reverse_reverse]
  constructor
  · refine ⟨p.toList.takeWhile isBlank, (back.takeWhile isBlank).reverse, ?_, ?_, ?_⟩
    · rw [String.toList_ofList, List.append_assoc, ← hmiddle, List.takeWhile_append_dropWhile]
    · intro c hc
      exact List.all_eq_true.mp List.all_takeWhile c hc
    · intro c hc
      exact List.all_eq_true.mp List.all_takeWhile c (List.mem_reverse.mp hc)
  · intro c hc
    apply not_isBlank_head_dropWhile p.toList c
    rw [String.toList_ofList] at hc
    show middle.head? = some c
    rw [hmiddle, List.head?_append, hc]
    rfl
  · intro c hc
    rw [String.toList_ofList, trim, List.getLast?_reverse] at hc
    exact not_isBlank_head_dropWhile _ c hc

/-- A text loses its blanks in one way only. -/
theorem Trimmed.eq_trim {p t : String} (h : Trimmed p t) : t.toList = trim p.toList := by
  obtain ⟨l, r, hp, hl, hr⟩ := h.ends
  rw [hp, trim_append hl hr h.head h.last]

private theorem not_mem_of_mem_splitOn {c : Char} {cs p : List Char} (h : p ∈ cs.splitOn c) :
    c ∉ p := by
  induction hn : cs.length using Nat.strongRecOn generalizing cs with
  | ind n ih =>
    by_cases hc : c ∈ cs
    · obtain ⟨front, rest, rfl, hfront⟩ := List.eq_append_cons_of_mem hc
      rw [List.splitOn_append_cons_self_of_not_mem hfront] at h
      rcases List.mem_cons.mp h with rfl | h
      · exact hfront
      · rw [List.length_append, List.length_cons] at hn
        exact ih rest.length (by omega) h rfl
    · rw [List.splitOn_eq_singleton hc] at h
      rwa [List.mem_singleton.mp h]

theorem exists_cut (s : String) : ∃ ts, Cut s ts := by
  let ps := (s.toList.splitOn ',').map String.ofList
  refine ⟨ps.map fun p => String.ofList (trim p.toList), ps, ?_, ?_, ?_, ?_⟩
  · simp [ps, List.splitOn_ne_nil]
  · intro p hp
    obtain ⟨cs, hcs, rfl⟩ := List.mem_map.mp hp
    rw [String.toList_ofList]
    exact not_mem_of_mem_splitOn hcs
  · rw [← String.toList_inj, String.toList_intercalate]
    have hps : ps.map String.toList = s.toList.splitOn ',' := by
      simp [ps, Function.comp_def]
    rw [hps]
    exact List.intercalate_splitOn ','
  · rw [List.forall₂_map_right_iff, List.forall₂_same]
    exact fun p _ => trimmed_trim p

end Text

namespace Switch

theorem mem_all (w : Switch) : w ∈ all := by cases w <;> decide

theorem ofName?_eq_some_iff {n : String} {w : Switch} : ofName? n = some w ↔ w.name = n := by
  constructor
  · intro h
    simpa using List.find?_some h
  · rintro rfl
    cases w <;> decide

theorem ofName?_eq_none_iff {n : String} : ofName? n = none ↔ n ∉ all.map name := by
  simp [ofName?, List.find?_eq_none]

theorem name_inj {v w : Switch} (h : v.name = w.name) : v = w :=
  Option.some.inj ((ofName?_eq_some_iff.mpr h).symm.trans (ofName?_eq_some_iff.mpr rfl))

/-- A name is not changed by trimming. -/
theorem trimmed_name (w : Switch) : Trimmed w.name w.name := by
  have hall : ∀ w ∈ all, (w.name.toList.head?.all (!isBlank ·)) = true ∧
      (w.name.toList.getLast?.all (!isBlank ·)) = true := by decide
  obtain ⟨hhead, hlast⟩ := hall w w.mem_all
  refine ⟨⟨[], [], by simp, by simp, by simp⟩, fun c hc => ?_, fun c hc => ?_⟩
  · rw [hc] at hhead
    simpa using hhead
  · rw [hc] at hlast
    simpa using hlast

private theorem not_mem_name (w : Switch) : ',' ∉ w.name.toList := by cases w <;> decide

theorem name_ne_empty (w : Switch) : w.name ≠ "" := by cases w <;> decide

end Switch

namespace Switches

/-- The names of a text are its trimmed pieces, the empty ones left out. -/
theorem names_of_cut {s : String} {ts : List String} (h : Cut s ts) :
    names s = ts.filter (· ≠ "") := by
  obtain ⟨ps, hne, hcomma, rfl, htrim⟩ := h
  have hsplit : (",".intercalate ps).toList.splitOn ',' = ps.map String.toList := by
    rw [String.toList_intercalate]
    apply List.splitOn_intercalate
    · intro l hl
      obtain ⟨p, hp, rfl⟩ := List.mem_map.mp hl
      exact hcomma p hp
    · simpa using hne
  have hts : (ps.map String.toList).map trim = ts.map String.toList := by
    clear hne hcomma hsplit
    induction htrim with
    | nil => rfl
    | cons hpt _ ih => rw [List.map_cons, List.map_cons, List.map_cons, ih, hpt.eq_trim]
  rw [names, hsplit, hts, List.filter_map, List.map_map]
  simp [Function.comp_def]

theorem names_append (a b : String) : names (a ++ "," ++ b) = names a ++ names b := by
  have hsplit : (a ++ "," ++ b).toList.splitOn ',' =
      a.toList.splitOn ',' ++ b.toList.splitOn ',' := by
    simp [List.append_assoc, List.splitOn_append_cons_self]
  simp only [names, hsplit, List.map_append, List.filter_append]

theorem contains_insert (on : Switches) (v w : Switch) :
    (on.insert v).contains w = (on.contains w || w == v) := by
  cases v <;> cases w <;> simp [insert, contains]

theorem contains_foldl_insert (on : Switches) (vs : List Switch) (w : Switch) :
    (vs.foldl insert on).contains w ↔ on.contains w ∨ w ∈ vs := by
  induction vs generalizing on with
  | nil => simp
  | cons v vs ih => simp [ih, contains_insert, or_assoc]

/-- The switches that are turned on are those that are named. -/
theorem contains_ofNames {ns : List String} {w : Switch} :
    (ofNames ns).contains w ↔ w.name ∈ ns := by
  have hoff : off.contains w = false := by cases w <;> rfl
  rw [ofNames, contains_foldl_insert, hoff, List.mem_filterMap]
  simp [Switch.ofName?_eq_some_iff]

theorem ext_contains {on on' : Switches} (h : ∀ w, on.contains w = on'.contains w) : on = on' := by
  cases on
  cases on'
  simp only [mk.injEq]
  exact ⟨h .validate, h .noCombine, h .print, h .noDelay⟩

/-- What is written reads as the names that were written. -/
theorem names_text (on : Switches) :
    names on.text = (Switch.all.filter on.contains).map Switch.name := by
  rw [text]
  by_cases hnil : Switch.all.filter on.contains = []
  · rw [hnil]
    rfl
  · have hcut : Cut (",".intercalate ((Switch.all.filter on.contains).map Switch.name))
        ((Switch.all.filter on.contains).map Switch.name) := by
      refine ⟨_, by simpa using hnil, ?_, rfl, ?_⟩
      · intro p hp
        obtain ⟨w, -, rfl⟩ := List.mem_map.mp hp
        exact w.not_mem_name
      · rw [List.forall₂_same]
        intro p hp
        obtain ⟨w, -, rfl⟩ := List.mem_map.mp hp
        exact w.trimmed_name
    rw [names_of_cut hcut, List.filter_eq_self]
    intro p hp
    obtain ⟨w, -, rfl⟩ := List.mem_map.mp hp
    simpa using w.name_ne_empty

theorem read_text (on : Switches) : read on.text = (on, []) := by
  rw [read, names_text]
  refine Prod.ext (ext_contains fun w => ?_) ?_
  · rw [Bool.eq_iff_iff, contains_ofNames, List.mem_map]
    constructor
    · rintro ⟨v, hv, hname⟩
      rw [← Switch.name_inj hname]
      exact (List.mem_filter.mp hv).2
    · intro hw
      exact ⟨w, List.mem_filter.mpr ⟨w.mem_all, hw⟩, rfl⟩
  · rw [complaints, List.map_eq_nil_iff, List.filter_eq_nil_iff]
    intro n hn
    obtain ⟨w, -, rfl⟩ := List.mem_map.mp hn
    simp [Switch.ofName?_eq_some_iff.mpr (rfl : w.name = w.name)]

theorem line_unknownSwitch (n : String) :
    (Message.unknownSwitch n).line = "WARN unknown ACO_DEBUG flag: " ++ n := by
  have hfront : "WARN" ++ " " ++ "unknown ACO_DEBUG flag: " = "WARN unknown ACO_DEBUG flag: " := by
    decide
  show "WARN" ++ " " ++ ("unknown ACO_DEBUG flag: " ++ n) = _
  rw [← String.append_assoc, hfront]

theorem complaints_filter (ts : List String) :
    complaints (ts.filter (· ≠ "")) =
      (ts.filter fun t => t ≠ "" ∧ t ∉ Switch.all.map Switch.name).map .unknownSwitch := by
  rw [complaints, List.filter_filter]
  congr 1
  apply List.filter_congr
  intro t _
  rw [Bool.eq_iff_iff]
  simp only [Bool.and_eq_true, Option.isNone_iff_eq_none, Switch.ofName?_eq_none_iff,
    decide_eq_true_eq, and_comm]

/-- Every text is read piece by piece. -/
theorem read_exact :
    (∀ s, (∃ ts, Cut s ts) ∧ ∀ ts, Cut s ts →
      (∀ w, (read s).1.contains w ↔ w.name ∈ ts) ∧
      (read s).2.map Message.line =
        (ts.filter fun t => t ≠ "" ∧ t ∉ Switch.all.map Switch.name).map
          ("WARN unknown ACO_DEBUG flag: " ++ ·)) ∧
    (∀ a b, (∀ w, (read (a ++ "," ++ b)).1.contains w ↔
        (read a).1.contains w ∨ (read b).1.contains w) ∧
      (read (a ++ "," ++ b)).2 = (read a).2 ++ (read b).2) ∧
    ∀ s, read (read s).1.text = ((read s).1, []) := by
  refine ⟨fun s => ⟨exists_cut s, fun ts hcut => ⟨fun w => ?_, ?_⟩⟩, fun a b => ⟨fun w => ?_, ?_⟩,
    fun s => read_text _⟩
  · rw [read, contains_ofNames, names_of_cut hcut, List.mem_filter]
    simp [w.name_ne_empty]
  · have hline : Message.line ∘ Message.unknownSwitch = ("WARN unknown ACO_DEBUG flag: " ++ ·) :=
      funext line_unknownSwitch
    rw [read, names_of_cut hcut, complaints_filter, List.map_map, hline]
  · simp only [read, contains_ofNames, names_append, List.mem_append]
  · simp only [read, names_append, complaints, List.filter_append, List.map_append]

end Switches

end DelayHint

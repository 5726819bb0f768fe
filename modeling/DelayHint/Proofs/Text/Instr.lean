import Mathlib.Data.List.Nodup
import DelayHint.Instr
import DelayHint.Proofs.Text.Register

/-! Instructions from their texts. No two instructions have the same text unless they agree in all
that a text shows: the opcode, the definitions, and of a hint the fields of its immediate, of any
other instruction its operands and, where the encoding has one, its immediate. -/
namespace DelayHint

open Text

theorem Wait.codeText_inj {m n : Nat} (hm : m < 16) (hn : n < 16)
    (h : codeText m = codeText n) : m = n := by
  have hall : ∀ m n : Fin 16, codeText m.val = codeText n.val → m = n := by decide
  exact congrArg Fin.val (hall ⟨m, hm⟩ ⟨n, hn⟩ h)

private theorem Wait.not_mem_codeText {c : Char} (hc : c ∈ [')', '=']) {n : Nat} (hn : n < 16) :
    c ∉ (codeText n).toList := by
  have hall : ∀ c ∈ [')', '='], ∀ n : Fin 16, c ∉ (codeText n.val).toList :=
    forall_mem_of_all (by decide)
  exact hall c hc ⟨n, hn⟩

namespace Immediate

theorem skipText_inj {m n : Nat} (hm : m < 8) (hn : n < 8) (h : skipText m = skipText n) :
    m = n := by
  have hall : ∀ m n : Fin 8, skipText m.val = skipText n.val → m = n := by decide
  exact congrArg Fin.val (hall ⟨m, hm⟩ ⟨n, hn⟩ h)

private theorem not_mem_skipText {c : Char} (hc : c ∈ ['d', '=']) {n : Nat} (hn : n < 8) :
    c ∉ (skipText n).toList := by
  have hall : ∀ c ∈ ['d', '='], ∀ n : Fin 8, c ∉ (skipText n.val).toList :=
    forall_mem_of_all (by decide)
  exact hall c hc ⟨n, hn⟩

theorem skipText_append_secondText (k : Nat) {a : Nat} (h : a ≠ 0) :
    skipText k ++ secondText a =
      (skipText k ++ " | insti") ++ ("d1(" ++ (Wait.codeText a ++ ")")) := by
  simp [secondText, h, ← String.toList_inj]

/-- A second wait shows a `d`, which no distance has. -/
theorem skipText_append_inj {k l a b : Nat} (hk : k < 8) (hl : l < 8) (ha : a < 16) (hb : b < 16)
    (h : skipText k ++ secondText a = skipText l ++ secondText b) : k = l ∧ a = b := by
  have hskip {n : Nat} (hn : n < 8) : 'd' ∉ (skipText n ++ " | insti").toList := by
    simp [not_mem_skipText (c := 'd') (by decide) hn]
  have hnone {m n c : Nat} (hm : m < 8) (hc : c ≠ 0) : skipText m ≠ skipText n ++ secondText c := by
    intro h
    apply not_mem_skipText (c := 'd') (by decide) hm
    simp [h, skipText_append_secondText n hc]
  have hzero : secondText 0 = "" := rfl
  by_cases ha0 : a = 0
  · by_cases hb0 : b = 0
    · simp only [ha0, hb0, hzero, String.append_empty] at h
      exact ⟨skipText_inj hk hl h, ha0.trans hb0.symm⟩
    · simp only [ha0, hzero, String.append_empty] at h
      exact absurd h (hnone hk hb0)
  · by_cases hb0 : b = 0
    · simp only [hb0, hzero, String.append_empty] at h
      exact absurd h.symm (hnone hl ha0)
    · rw [skipText_append_secondText k ha0, skipText_append_secondText l hb0] at h
      obtain ⟨hfirst, hrest⟩ := append_delimiter_inj (by decide) (hskip hk) (hskip hl) h
      have hcode := String.append_left_inj _ |>.mp hrest
      exact ⟨skipText_inj hk hl (String.append_left_inj _ |>.mp hfirst),
        Wait.codeText_inj ha hb hcode⟩

private theorem not_mem_secondText {a : Nat} (ha : a < 16) : '=' ∉ (secondText a).toList := by
  by_cases h : a = 0
  · simp [h, secondText]
  · simp [secondText, h, Wait.not_mem_codeText (c := '=') (by decide) ha]

/-- The text of an immediate shows its lowest eleven bits. -/
theorem text_eq_iff {m n : UInt32} : text m = text n ↔ m.toNat % 2048 = n.toNat % 2048 := by
  constructor
  · intro h
    simp only [text, String.append_assoc, String.append_right_inj] at h
    obtain ⟨hfirst, hrest⟩ := append_delimiter_inj (c := ')') (by decide)
      (Wait.not_mem_codeText (by decide) (first_lt m))
      (Wait.not_mem_codeText (by decide) (first_lt n)) h
    have h0 := Wait.codeText_inj (first_lt m) (first_lt n) hfirst
    obtain ⟨h1, h2⟩ :=
      skipText_append_inj (skip_lt m) (skip_lt n) (second_lt m) (second_lt n) hrest
    simp only [first, skip, second] at h0 h1 h2
    omega
  · intro h
    have h0 : first m = first n := by simp only [first]; omega
    have h1 : skip m = skip n := by simp only [skip]; omega
    have h2 : second m = second n := by simp only [second]; omega
    simp only [text, h0, h1, h2]

private theorem not_mem_text (imm : UInt32) : '=' ∉ (text imm).toList := by
  simp [text, Wait.not_mem_codeText (c := '=') (by decide) (first_lt imm),
    not_mem_skipText (c := '=') (by decide) (skip_lt imm), not_mem_secondText (second_lt imm)]

end Immediate

namespace Opcode

theorem nodup_names : (all.map name).Nodup := by decide +kernel

theorem name_inj {o p : Opcode} (h : o.name = p.name) : o = p :=
  List.inj_on_of_nodup_map nodup_names (mem_all o) (mem_all p) h

private theorem not_mem_name (o : Opcode) : ' ' ∉ o.name.toList ∧ '=' ∉ o.name.toList := by
  cases o <;> simp [name, spec]

end Opcode

namespace Operand

/-- The characters between operands and around their list. The text of an immediate starts with the
last one. -/
def delimiters : List Char := [' ', ',', '=', 'i']

theorem text_const (v : UInt32) :
    (const v).text = if v.toNat < 64 then decimal v.toNat else hex v.toNat := rfl

private theorem not_mem_text_const {c : Char} (hx : c ≠ 'x') (hd : c.isDigit = false)
    (hc : ∀ d : Fin 16, c ≠ d.val.digitChar) (v : UInt32) : c ∉ (const v).text.toList := by
  rw [text_const]
  split
  · exact not_mem_decimal hd _
  · exact not_mem_hex hx hc _

private theorem not_mem_text_reg {c : Char} (hs : c ≠ 's') (hv : c ≠ 'v') (hd : c.isDigit = false)
    (hc : c ∉ ['[', ':', ']']) (s : Span) : c ∉ (reg s).text.toList := by
  rw [text, Span.text_eq_letter_append, String.toList_append, List.mem_append, not_or]
  exact ⟨Reg.not_mem_letter hs hv _, Span.not_mem_numbersText hd hc s⟩

private theorem not_mem_text {c : Char} (h : c ∈ delimiters) (o : Operand) : c ∉ o.text.toList := by
  have hall : ∀ c ∈ delimiters, c ≠ 's' ∧ c ≠ 'v' ∧ c ≠ 'x' ∧ c.isDigit = false ∧
      c ∉ ['[', ':', ']'] ∧ (∀ d : Fin 16, c ≠ d.val.digitChar) ∧ c ∉ undef.text.toList :=
    forall_mem_of_all (by decide)
  obtain ⟨hs, hv, hx, hd, hb, hc, hu⟩ := hall c h
  cases o with
  | reg s => exact not_mem_text_reg hs hv hd hb s
  | const v => exact not_mem_text_const hx hd hc v
  | undef => exact hu

theorem text_const_inj {v w : UInt32} (h : (const v).text = (const w).text) : v = w := by
  have hx (m n : Nat) : decimal m ≠ hex n := by
    intro h
    apply not_mem_decimal (c := 'x') rfl m
    simp [h, hex]
  rw [← UInt32.toNat_inj]
  rw [text_const, text_const] at h
  split at h
  · split at h
    · exact decimal_inj h
    · exact absurd h (hx _ _)
  · split at h
    · exact absurd h.symm (hx _ _)
    · exact hex_inj h

theorem text_reg_ne_const (s : Span) (v : UInt32) : (reg s).text ≠ (const v).text := by
  intro h
  have hletter : ∀ c ∈ s.base.letter.toList, c ∈ (const v).text.toList := by
    intro c hc
    rw [← h, text, Span.text_eq_letter_append, String.toList_append]
    exact List.mem_append_left _ hc
  unfold Reg.letter at hletter
  split at hletter
  · exact not_mem_text_const (by decide) rfl (by decide) v (hletter 'v' List.mem_cons_self)
  · exact not_mem_text_const (by decide) rfl (by decide) v (hletter 's' List.mem_cons_self)

/-- An operand that has no `u` is not the undefined one. -/
theorem text_ne_undef {o : Operand} (h : 'u' ∉ o.text.toList) : o.text ≠ undef.text := by
  intro he
  rw [he] at h
  exact h List.mem_cons_self

theorem text_inj {o p : Operand} (h : o.text = p.text) : o = p := by
  have hconst (v : UInt32) : (const v).text ≠ undef.text :=
    text_ne_undef (not_mem_text_const (by decide) rfl (by decide) v)
  have hreg (s : Span) : (reg s).text ≠ undef.text :=
    text_ne_undef (not_mem_text_reg (by decide) (by decide) rfl (by decide) s)
  cases o with
  | reg s =>
    cases p with
    | reg t => rw [Span.text_inj h]
    | const w => exact absurd h (text_reg_ne_const s w)
    | undef => exact absurd h (hreg s)
  | const v =>
    cases p with
    | reg t => exact absurd h.symm (text_reg_ne_const t v)
    | const w => rw [text_const_inj h]
    | undef => exact absurd h (hconst v)
  | undef =>
    cases p with
    | reg t => exact absurd h.symm (hreg t)
    | const w => exact absurd h.symm (hconst w)
    | undef => rfl

theorem text_ne_empty (o : Operand) : o.text ≠ "" := by
  cases o with
  | reg s =>
    rw [text, Span.text_eq_letter_append, Reg.letter]
    split <;> simp
  | const v =>
    rw [text_const]
    split
    · exact decimal_ne_empty _
    · simp [hex]
  | undef => decide

end Operand

namespace Instr

theorem texts_inj {os ps : List Operand}
    (h : ", ".intercalate (os.map Operand.text) = ", ".intercalate (ps.map Operand.text)) :
    os = ps := by
  have hpiece (qs : List Operand) : ∀ x ∈ qs.map Operand.text, x ≠ "" ∧ ',' ∉ x.toList := by
    intro x hx
    obtain ⟨o, -, rfl⟩ := List.mem_map.mp hx
    exact ⟨o.text_ne_empty, o.not_mem_text (by decide)⟩
  exact (List.map_inj_right fun _ _ => Operand.text_inj).mp
    (intercalate_inj (hpiece os) (hpiece ps) h)

private theorem not_mem_texts {c : Char} (h : c ∈ ['=', 'i']) (os : List Operand) :
    c ∉ (", ".intercalate (os.map Operand.text)).toList := by
  have hall : ∀ c ∈ ['=', 'i'], c ≠ ',' ∧ c ≠ ' ' ∧ c ∈ Operand.delimiters :=
    forall_mem_of_all (by decide)
  obtain ⟨hcomma, hblank, hdel⟩ := hall c h
  apply not_mem_intercalate hcomma hblank
  intro x hx
  obtain ⟨o, -, rfl⟩ := List.mem_map.mp hx
  exact o.not_mem_text hdel

/-- Definitions are written like operands. -/
theorem map_text_defs (ds : List Span) :
    ds.map Span.text = (ds.map Operand.reg).map Operand.text := by
  rw [List.map_map]
  rfl

/-- The definitions end at the equals sign, and without one there are none. -/
theorem defsText_append_inj {ds es : List Span} {x y : String} (hx : '=' ∉ x.toList)
    (hy : '=' ∉ y.toList) (h : defsText ds ++ x = defsText es ++ y) : ds = es ∧ x = y := by
  have hdefs (d : Span) (ds : List Span) (x : String) : defsText (d :: ds) ++ x =
      (", ".intercalate (((d :: ds).map Operand.reg).map Operand.text) ++ " ") ++ ("= " ++ x) := by
    rw [defsText, map_text_defs]
    · simp [← String.toList_inj]
    · simp
  have hclear (os : List Operand) :
      '=' ∉ (", ".intercalate (os.map Operand.text) ++ " ").toList := by
    rw [String.toList_append, List.mem_append, not_or]
    exact ⟨not_mem_texts (by decide) os, by decide⟩
  have hmem (d : Span) (ds : List Span) (x : String) :
      '=' ∈ (defsText (d :: ds) ++ x).toList := by
    simp [hdefs]
  have hnil (x : String) : defsText [] ++ x = x := String.empty_append
  cases ds with
  | nil =>
    cases es with
    | nil => exact ⟨rfl, String.append_right_inj _ |>.mp h⟩
    | cons e es =>
      have := hmem e es y
      rw [← h, hnil] at this
      exact absurd this hx
  | cons d ds =>
    cases es with
    | nil =>
      have := hmem d ds x
      rw [h, hnil] at this
      exact absurd this hy
    | cons e es =>
      rw [hdefs, hdefs] at h
      obtain ⟨hlist, hrest⟩ := append_delimiter_inj (by decide) (hclear _) (hclear _) h
      have hregs := texts_inj (String.append_left_inj _ |>.mp hlist)
      exact ⟨(List.map_inj_right fun _ _ => Operand.reg.inj).mp hregs, hrest⟩

theorem operandsText_cons (o : Operand) (os : List Operand) : operandsText (o :: os) =
    " " ++ ", ".intercalate ((o :: os).map Operand.text) := rfl

theorem operandsText_inj {os ps : List Operand} (h : operandsText os = operandsText ps) :
    os = ps := by
  have hne (o : Operand) (os : List Operand) : operandsText (o :: os) ≠ operandsText [] := by
    simp [operandsText]
  cases os with
  | nil =>
    cases ps with
    | nil => rfl
    | cons p ps => exact absurd h.symm (hne p ps)
  | cons o os =>
    cases ps with
    | nil => exact absurd h (hne o os)
    | cons p ps =>
      rw [operandsText_cons, operandsText_cons, String.append_right_inj] at h
      exact texts_inj h

private theorem not_mem_operandsText {c : Char} (h : c ∈ ['=', 'i']) (os : List Operand) :
    c ∉ (operandsText os).toList := by
  have hblank : ∀ c ∈ ['=', 'i'], c ∉ " ".toList := forall_mem_of_all (by decide)
  cases os with
  | nil => simp [operandsText]
  | cons o os =>
    rw [operandsText_cons, String.toList_append, List.mem_append, not_or]
    exact ⟨hblank c h, not_mem_texts h _⟩

/-- Only the two encodings with an immediate of their own show it. -/
theorem immText_eq (i : Instr) : i.immText =
    if i.format = .sopp ∨ i.format = .sopk then " imm:" ++ decimal i.imm.toNat else "" := by
  unfold immText
  split <;> simp_all

/-- What stands behind the name of an instruction. -/
def tail (i : Instr) : String :=
  if i.isHint then Immediate.text i.imm else operandsText i.operands ++ i.immText

theorem text_eq_append (i : Instr) : i.text = defsText i.defs ++ (i.opcode.name ++ i.tail) := by
  rw [text, tail, String.append_assoc]

private theorem opens_tail (i : Instr) : Opens ' ' i.tail := by
  unfold tail
  split
  · simp [Immediate.text, Opens]
  · cases i.operands with
    | nil =>
      rw [immText_eq]
      split <;> simp [operandsText, Opens]
    | cons o os => simp [operandsText, Opens]

private theorem not_mem_tail (i : Instr) : '=' ∉ i.tail.toList := by
  unfold tail
  split
  · exact Immediate.not_mem_text _
  · rw [immText_eq, String.toList_append, List.mem_append, not_or]
    refine ⟨not_mem_operandsText (by decide) _, ?_⟩
    split
    · simp [not_mem_decimal (c := '=') rfl]
    · simp

theorem operandsText_append_inj {os ps : List Operand} {m n : Nat}
    (h : operandsText os ++ (" imm:" ++ decimal m) = operandsText ps ++ (" imm:" ++ decimal n)) :
    os = ps ∧ m = n := by
  have hsplit (os : List Operand) (n : Nat) : operandsText os ++ (" imm:" ++ decimal n) =
      (operandsText os ++ " ") ++ ("imm:" ++ decimal n) := by
    simp [← String.toList_inj]
  have hclear (os : List Operand) : 'i' ∉ (operandsText os ++ " ").toList := by
    rw [String.toList_append, List.mem_append, not_or]
    exact ⟨not_mem_operandsText (by decide) os, by decide⟩
  rw [hsplit, hsplit] at h
  obtain ⟨hlist, himm⟩ := append_delimiter_inj (by decide) (hclear os) (hclear ps) h
  exact ⟨operandsText_inj (String.append_left_inj _ |>.mp hlist), decimal_inj himm⟩

/-- Behind the same name stands the same text for the same operands and immediate. -/
theorem tail_eq_iff_of_not_isHint {i j : Instr} (hop : i.opcode = j.opcode) (hi : ¬ i.isHint) :
    i.tail = j.tail ↔ i.operands = j.operands ∧
      (i.format = .sopp ∨ i.format = .sopk → i.imm = j.imm) := by
  have hformat : j.format = i.format := by rw [format, format, hop]
  have hj : ¬ j.isHint := by rwa [isHint, ← hop]
  rw [tail, tail, if_neg hi, if_neg hj, immText_eq, immText_eq, hformat]
  split
  · rename_i hshown
    constructor
    · intro h
      obtain ⟨hos, himm⟩ := operandsText_append_inj h
      exact ⟨hos, fun _ => UInt32.toNat_inj.mp himm⟩
    · rintro ⟨hos, himm⟩
      rw [hos, himm hshown]
  · rename_i hhidden
    simp only [String.append_empty]
    constructor
    · intro h
      exact ⟨operandsText_inj h, fun hshown => absurd hshown hhidden⟩
    · rintro ⟨hos, -⟩
      rw [hos]

theorem tail_eq_iff_of_isHint {i j : Instr} (hop : i.opcode = j.opcode) (hi : i.isHint) :
    i.tail = j.tail ↔ i.imm.toNat % 2048 = j.imm.toNat % 2048 := by
  have hj : j.isHint := by rwa [isHint, ← hop]
  rw [tail, tail, if_pos hi, if_pos hj, Immediate.text_eq_iff]

/-- Two instructions have the same text exactly if they agree in all that it shows. -/
theorem text_eq_text_iff (i j : Instr) : i.text = j.text ↔
    i.opcode = j.opcode ∧ i.defs = j.defs ∧
      (¬ i.isHint → i.operands = j.operands ∧
        (i.format = .sopp ∨ i.format = .sopk → i.imm = j.imm)) ∧
      (i.isHint → i.imm.toNat % 2048 = j.imm.toNat % 2048) := by
  have hclear (k : Instr) : '=' ∉ (k.opcode.name ++ k.tail).toList := by
    rw [String.toList_append, List.mem_append, not_or]
    exact ⟨k.opcode.not_mem_name.2, k.not_mem_tail⟩
  rw [text_eq_append, text_eq_append]
  constructor
  · intro h
    obtain ⟨hdefs, hrest⟩ := defsText_append_inj (hclear i) (hclear j) h
    obtain ⟨hname, htail⟩ := append_inj_of_opens i.opcode.not_mem_name.1 j.opcode.not_mem_name.1
      i.opens_tail j.opens_tail hrest
    have hop := Opcode.name_inj hname
    exact ⟨hop, hdefs, fun hi => (tail_eq_iff_of_not_isHint hop hi).mp htail,
      fun hi => (tail_eq_iff_of_isHint hop hi).mp htail⟩
  · rintro ⟨hop, hdefs, hplain, hhint⟩
    have htail : i.tail = j.tail := by
      by_cases hi : i.isHint
      · exact (tail_eq_iff_of_isHint hop hi).mpr (hhint hi)
      · exact (tail_eq_iff_of_not_isHint hop hi).mpr (hplain hi)
    rw [hop, hdefs, htail]

end Instr

end DelayHint

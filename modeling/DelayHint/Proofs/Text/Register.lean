import DelayHint.Proofs.Text.Reading
import DelayHint.Register

/-! Registers and spans from their texts. -/
namespace DelayHint

open Text

namespace Reg

/-- The letter tells the two register files apart. -/
private theorem letter_append_inj {r r' : Reg} {x y : String} (h : r.letter ++ x = r'.letter ++ y) :
    r.isVector = r'.isVector ∧ x = y := by
  unfold letter at h
  cases hr : r.isVector <;> cases hr' : r'.isVector <;> simp_all [← String.toList_inj]

private theorem eq_of_index {r r' : Reg} (hv : r.isVector = r'.isVector) (hi : r.index = r'.index) :
    r = r' := by
  unfold index at hi
  apply Fin.ext
  split at hi
  · rename_i hr
    have hr' : r'.isVector = true := hv ▸ hr
    rw [if_pos hr'] at hi
    simp only [isVector, decide_eq_true_eq] at hr hr'
    omega
  · rename_i hr
    rwa [if_neg (hv ▸ hr)] at hi

theorem not_mem_letter {c : Char} (hs : c ≠ 's') (hv : c ≠ 'v') (r : Reg) :
    c ∉ r.letter.toList := by
  unfold letter
  split
  · exact List.not_mem_cons_of_ne_of_not_mem hv List.not_mem_nil
  · exact List.not_mem_cons_of_ne_of_not_mem hs List.not_mem_nil

theorem not_mem_text {c : Char} (hd : c.isDigit = false) (hs : c ≠ 's') (hv : c ≠ 'v') (r : Reg) :
    c ∉ r.text.toList := by
  rw [text, String.toList_append, List.mem_append, not_or]
  exact ⟨not_mem_letter hs hv r, not_mem_decimal hd _⟩

theorem text_inj {r r' : Reg} (h : r.text = r'.text) : r = r' := by
  obtain ⟨hv, hi⟩ := letter_append_inj h
  exact eq_of_index hv (decimal_inj hi)

end Reg

namespace Span

/-- The part of a text behind the letter. -/
def numbersText (s : Span) : String :=
  if s.size = 1 then decimal s.base.index
  else "[" ++ decimal s.base.index ++ ":" ++ decimal (s.base.index + s.size - 1) ++ "]"

theorem text_eq_letter_append (s : Span) : s.text = s.base.letter ++ s.numbersText := by
  unfold text numbersText
  split
  · rfl
  · simp only [String.append_assoc]

/-- A single register shows digits only, a longer span starts with a bracket. -/
theorem numbersText_inj {s t : Span} (h : s.numbersText = t.numbersText) :
    s.base.index = t.base.index ∧ s.size = t.size := by
  have hs := s.size_pos
  have ht := t.size_pos
  have hbracket (n : Nat) (x : String) : decimal n ≠ "[" ++ x := by
    intro h
    apply not_mem_decimal (c := '[') rfl n
    rw [h, String.toList_append]
    exact List.mem_cons_self
  unfold numbersText at h
  simp only [String.append_assoc] at h
  split at h
  · rename_i hone
    split at h
    · rename_i hone'
      exact ⟨decimal_inj h, hone.trans hone'.symm⟩
    · exact absurd h (hbracket _ _)
  · split at h
    · exact absurd h.symm (hbracket _ _)
    · rw [String.append_right_inj] at h
      obtain ⟨hfirst, hrest⟩ := append_delimiter_inj (c := ':') (by decide) (not_mem_decimal rfl _)
        (not_mem_decimal rfl _) h
      have hlast := String.append_left_inj _ |>.mp hrest
      have hindex := decimal_inj hfirst
      have hstop := decimal_inj hlast
      omega

theorem text_inj {s t : Span} (h : s.text = t.text) : s = t := by
  rw [text_eq_letter_append, text_eq_letter_append] at h
  obtain ⟨hv, hnumbers⟩ := Reg.letter_append_inj h
  obtain ⟨hindex, hsize⟩ := numbersText_inj hnumbers
  have hbase := Reg.eq_of_index hv hindex
  cases s
  cases t
  simp_all

theorem not_mem_numbersText {c : Char} (hd : c.isDigit = false) (hc : c ∉ ['[', ':', ']'])
    (s : Span) : c ∉ s.numbersText.toList := by
  unfold numbersText
  split
  · exact not_mem_decimal hd _
  · simp only [String.toList_append, List.mem_append, not_or]
    simp only [List.mem_cons, List.not_mem_nil, or_false, not_or] at hc
    have hdec (n : Nat) := not_mem_decimal hd n
    simp [hdec, hc]

end Span

end DelayHint

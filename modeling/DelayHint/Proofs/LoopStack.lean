import DelayHint.LoopStack

/-! Sequences of calls on the stack of open loops. Entering and leaving a loop match like brackets,
and one number answers for every open loop whether a block has been processed inside it: a loop that
is left has to be walked again exactly when there has been such a block. -/
namespace DelayHint.LoopStack

/-- One use of the stack. -/
inductive Call where
  | enter (header : Nat)
  | processed (depth : Nat)
  | leave
  deriving DecidableEq, Repr

def Call.isProcessed : Call → Bool
  | processed _ => true
  | _ => false

/-- The stack behind a call. -/
def call (s : LoopStack) : Call → Except Fault LoopStack
  | .enter header => .ok (s.enter header)
  | .processed depth => .ok (s.processed depth)
  | .leave => s.leave.map Prod.snd

def play (s : LoopStack) (calls : List Call) : Except Fault LoopStack := calls.foldlM call s

/-- A block is processed at the depth of the stack, and a loop is open when one is left. -/
def Admits (s : LoopStack) : Call → Prop
  | .enter _ => True
  | .processed depth => depth = s.depth
  | .leave => s.headers ≠ []

/-- The stack admits each of the calls when its turn comes. -/
def Orderly (s : LoopStack) : List Call → Prop
  | [] => True
  | c :: rest => s.Admits c ∧ ∀ t, s.call c = .ok t → t.Orderly rest

/-- Every loop that is entered is left, and no other one. -/
inductive Matched : List Call → Prop
  | nil : Matched []
  | processed (depth : Nat) : Matched [.processed depth]
  | loop (header : Nat) {inside : List Call} (h : Matched inside) :
      Matched (.enter header :: inside ++ [.leave])
  | append {first second : List Call} (h : Matched first) (h' : Matched second) :
      Matched (first ++ second)

/-- The innermost loop that is open behind `calls` has the header `header`, and `inside` are the
calls since it was entered: every loop entered there has been left again. -/
def Inside (calls : List Call) (header : Nat) (inside : List Call) : Prop :=
  ∃ before, calls = before ++ .enter header :: inside ∧ Matched inside

variable {s t : LoopStack} {calls rest : List Call} {c : Call}

theorem play_cons (h : s.call c = .ok t) (rest : List Call) :
    s.play (c :: rest) = t.play rest := by
  unfold play
  rw [List.foldlM_cons, h]
  rfl

theorem play_append (h : s.play calls = .ok t) (rest : List Call) :
    s.play (calls ++ rest) = t.play rest := by
  unfold play at h ⊢
  rw [List.foldlM_append, h]
  rfl

private theorem leave_of_headers {header : Nat} {outer : List Nat}
    (h : s.headers = header :: outer) :
    s.leave = .ok (if s.progress = s.depth then some header else none,
      ⟨outer, min s.progress outer.length⟩) := by
  unfold leave
  rw [h]

/-- The progress comes up to the open loops if they have been touched. -/
def touch (s : LoopStack) (touched : Bool) : LoopStack :=
  { s with progress := if touched then s.depth else s.progress }

private theorem touch_touch (s : LoopStack) (first second : Bool) :
    (s.touch first).touch second = s.touch (first || second) := by
  cases first <;> cases second <;> rfl

private theorem processed_depth (hp : s.progress ≤ s.depth) :
    s.processed s.depth = s.touch true := by
  unfold processed touch
  rw [Nat.max_eq_right hp, if_pos rfl]

/-- A loop comes back with its header if it has been touched since it was entered, and the loops
around it have then been touched with it. -/
private theorem leave_touch (hp : s.progress ≤ s.depth) (header : Nat) (touched : Bool) :
    ((s.enter header).touch touched).leave =
      .ok (if touched then some header else none, s.touch touched) := by
  have hheaders : ((s.enter header).touch touched).headers = header :: s.headers := rfl
  have hdepth : ((s.enter header).touch touched).depth = s.depth + 1 := rfl
  rw [leave_of_headers hheaders, hdepth]
  cases touched with
  | true =>
    have hprogress : ((s.enter header).touch true).progress = s.depth + 1 := rfl
    have hmin : min (s.depth + 1) s.headers.length = s.depth := Nat.min_eq_right (Nat.le_succ _)
    rw [hprogress, hmin, if_pos rfl]
    rfl
  | false =>
    have hprogress : ((s.enter header).touch false).progress = s.progress := rfl
    have hmin : min s.progress s.headers.length = s.progress := Nat.min_eq_left hp
    rw [hprogress, hmin, if_neg (Nat.ne_of_lt (Nat.lt_succ_of_le hp))]
    rfl

/-- An admitted call succeeds, and the progress stays within the depth. -/
theorem exists_call (hp : s.progress ≤ s.depth) (h : s.Admits c) :
    ∃ t, s.call c = .ok t ∧ t.progress ≤ t.depth := by
  cases c with
  | enter header => exact ⟨s.enter header, rfl, Nat.le_succ_of_le hp⟩
  | processed depth =>
    have hd : depth = s.depth := h
    refine ⟨s.processed depth, rfl, ?_⟩
    exact Nat.max_le.mpr ⟨hp, Nat.le_of_eq hd⟩
  | leave =>
    have hne : s.headers ≠ [] := h
    obtain ⟨header, outer, hs⟩ := List.exists_cons_of_ne_nil hne
    refine ⟨⟨outer, min s.progress outer.length⟩, ?_, Nat.min_le_right ..⟩
    unfold call
    rw [leave_of_headers hs]
    rfl

/-- Orderly calls succeed, and the calls behind them are orderly for the stack they lead to. -/
theorem Orderly.exists_play (hp : s.progress ≤ s.depth) (h : s.Orderly (calls ++ rest)) :
    ∃ t, s.play calls = .ok t ∧ t.progress ≤ t.depth ∧ t.Orderly rest := by
  induction calls generalizing s with
  | nil => exact ⟨s, rfl, hp, h⟩
  | cons c later ih =>
    obtain ⟨hadmits, hnext⟩ := h
    obtain ⟨t, ht, htp⟩ := exists_call hp hadmits
    obtain ⟨u, hu, hup, hrest⟩ := ih htp (hnext t ht)
    exact ⟨u, (play_cons ht later).trans hu, hup, hrest⟩

/-- Matched calls leave the open loops as they were, and touch them if a block has been processed,
at whatever depth. The calls behind stay in the hypothesis, for those of an inner loop go on to its
end. -/
theorem Matched.play (hm : Matched calls) (hp : s.progress ≤ s.depth)
    (h : s.Orderly (calls ++ rest)) :
    s.play calls = .ok (s.touch (calls.any Call.isProcessed)) := by
  induction hm generalizing s rest with
  | nil => rfl
  | processed depth =>
    have hd : depth = s.depth := h.1
    rw [hd]
    show Except.ok (s.processed s.depth) = _
    rw [processed_depth hp]
    rfl
  | @loop header inside _ ih =>
    have hin : (s.enter header).Orderly (inside ++ ([Call.leave] ++ rest)) := by
      rw [← List.append_assoc]
      exact h.2 (s.enter header) rfl
    have hplay := ih (Nat.le_succ_of_le hp) hin
    have hleave : ((s.enter header).touch (inside.any Call.isProcessed)).call .leave =
        .ok (s.touch (inside.any Call.isProcessed)) := by
      unfold call
      rw [leave_touch hp]
      rfl
    have hany : (Call.enter header :: inside ++ [Call.leave]).any Call.isProcessed =
        inside.any Call.isProcessed := by
      simp [Call.isProcessed]
    rw [hany, List.cons_append, play_cons rfl, play_append hplay, play_cons hleave]
    rfl
  | @append first second _ _ ih₁ ih₂ =>
    rw [List.append_assoc] at h
    have hfirst := ih₁ hp h
    obtain ⟨t, ht, htp, hrest⟩ := h.exists_play hp
    obtain rfl := Except.ok.inj (hfirst.symm.trans ht)
    rw [play_append hfirst, ih₂ htp hrest, touch_touch, List.any_append]

/-- The headers of the loops that are open behind some calls, the innermost first. -/
inductive Nesting : List Call → List Nat → Prop
  | outside {calls : List Call} (h : Matched calls) : Nesting calls []
  | inside {before inside : List Call} {outer : List Nat} (header : Nat) (h : Nesting before outer)
      (hm : Matched inside) : Nesting (before ++ .enter header :: inside) (header :: outer)

theorem Nesting.append {headers : List Nat} {more : List Call} (h : Nesting calls headers)
    (hm : Matched more) : Nesting (calls ++ more) headers := by
  cases h with
  | outside hc => exact .outside (hc.append hm)
  | inside header ho hi =>
    rw [List.append_assoc, List.cons_append]
    exact .inside header ho (hi.append hm)

/-- A loop that is left becomes a matched stretch of the one around it. -/
theorem Nesting.call (h : Nesting calls s.headers) (hc : s.call c = .ok t) :
    Nesting (calls ++ [c]) t.headers := by
  cases c with
  | enter header =>
    obtain rfl := Except.ok.inj hc
    exact .inside header h .nil
  | processed depth =>
    obtain rfl := Except.ok.inj hc
    exact h.append (.processed depth)
  | leave =>
    unfold LoopStack.call at hc
    generalize hs : s.headers = headers at h
    cases h with
    | outside =>
      unfold leave at hc
      rw [hs] at hc
      cases hc
    | inside header ho hm =>
      rw [leave_of_headers hs] at hc
      obtain rfl := Except.ok.inj hc
      have happend := ho.append (Matched.loop header hm)
      rwa [← List.append_assoc] at happend

theorem Nesting.play {before : List Call} (h : Nesting before s.headers)
    (hc : s.play calls = .ok t) : Nesting (before ++ calls) t.headers := by
  induction calls generalizing s before with
  | nil =>
    obtain rfl := Except.ok.inj hc
    rwa [List.append_nil]
  | cons c rest ih =>
    cases hs : s.call c with
    | error f =>
      unfold LoopStack.play at hc
      rw [List.foldlM_cons, hs] at hc
      cases hc
    | ok u =>
      rw [play_cons hs] at hc
      have hnext := ih (h.call hs) hc
      rwa [List.append_assoc] at hnext

theorem Nesting.exists_inside (h : Nesting calls s.headers) (hne : s.headers ≠ []) :
    ∃ header inside, Inside calls header inside := by
  generalize hs : s.headers = headers at h
  cases h with
  | outside => exact absurd hs hne
  | inside header _ hm => exact ⟨header, _, _, rfl, hm⟩

/-- The innermost open loop comes back with its header if a block has been processed inside it. -/
theorem Inside.leave {header : Nat} {inside : List Call} (hi : Inside calls header inside)
    (h : Orderly empty (calls ++ rest)) : ∃ s t, empty.play calls = .ok s ∧
      s.leave = .ok (if inside.any Call.isProcessed then some header else none, t) := by
  obtain ⟨before, rfl, hm⟩ := hi
  rw [List.append_assoc] at h
  obtain ⟨outer, houter, hp, hrest⟩ := h.exists_play (Nat.le_refl 0)
  have hin : (outer.enter header).Orderly (inside ++ rest) := hrest.2 (outer.enter header) rfl
  have hplay := hm.play (Nat.le_succ_of_le hp) hin
  have hcalls : empty.play (before ++ .enter header :: inside) =
      .ok ((outer.enter header).touch (inside.any Call.isProcessed)) := by
    rw [play_append houter, play_cons rfl, hplay]
  exact ⟨_, _, hcalls, leave_touch hp header _⟩

/-- Along orderly calls on a new stack the progress stays within the depth, and a loop that is left
comes back with its header exactly if a block has been processed since it was entered. -/
theorem leave_answers {calls : List Call} (h : Orderly empty calls) :
    (∀ before rest, calls = before ++ rest →
      ∃ s, empty.play before = .ok s ∧ s.progress ≤ s.depth) ∧
    ∀ before rest, calls = before ++ .leave :: rest →
      (∃ header inside, Inside before header inside) ∧
      ∀ header inside, Inside before header inside →
        ∃ s t, empty.play before = .ok s ∧
          s.leave = .ok (if inside.any Call.isProcessed then some header else none, t) := by
  refine ⟨?_, ?_⟩
  · intro before rest hsplit
    rw [hsplit] at h
    obtain ⟨s, hs, hp, -⟩ := h.exists_play (Nat.le_refl 0)
    exact ⟨s, hs, hp⟩
  · intro before rest hsplit
    rw [hsplit] at h
    refine ⟨?_, fun header inside hi => hi.leave h⟩
    obtain ⟨s, hs, -, hadmits, -⟩ := h.exists_play (Nat.le_refl 0)
    have hnest : Nesting ([] ++ before) s.headers := (Nesting.outside .nil).play hs
    exact hnest.exists_inside hadmits

/-- A loop around another one that is walked twice and changes only in its first round. -/
def twoRounds : List Call :=
  [.enter 1, .processed 1, .enter 2, .processed 2, .leave, .enter 2, .leave, .leave]

theorem leave_answers_twoRounds : Orderly empty twoRounds ∧
    (∃ s t, empty.play (twoRounds.take 6) = .ok s ∧ s.leave = .ok (none, t)) ∧
    ∃ s t, empty.play (twoRounds.take 7) = .ok s ∧ s.leave = .ok (some 1, t) := by
  have horderly : Orderly empty twoRounds := by
    simp [twoRounds, Orderly, Admits, call, Except.map, leave, enter, processed, depth, empty]
  have hanswers := (leave_answers horderly).2
  have hinner := (hanswers (twoRounds.take 6) [.leave] rfl).2 2 [] ⟨twoRounds.take 5, rfl, .nil⟩
  have houter := (hanswers (twoRounds.take 7) [] rfl).2 1 _ ⟨[], rfl,
    (Matched.processed 1).append ((Matched.loop 2 (.processed 2)).append (.loop 2 .nil))⟩
  exact ⟨horderly, hinner, houter⟩

end DelayHint.LoopStack

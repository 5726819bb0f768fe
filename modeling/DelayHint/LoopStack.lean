import DelayHint.Fault

/-! The loops around the block being visited, and which of them have to be walked again. -/
namespace DelayHint

/-- The headers of the open loops, the innermost first. `progress` is at the depth of a loop or
above while something inside it has changed since its header was entered. -/
structure LoopStack where
  headers : List Nat
  progress : Nat
  deriving DecidableEq, Repr

namespace LoopStack

def empty : LoopStack := ⟨[], 0⟩

def depth (s : LoopStack) : Nat := s.headers.length

def enter (s : LoopStack) (header : Nat) : LoopStack := { s with headers := header :: s.headers }

/-- Note that a block at some nesting depth has changed. -/
def processed (s : LoopStack) (depth : Nat) : LoopStack :=
  { s with progress := max s.progress depth }

/-- Close the innermost loop. The header comes back if the loop has to be walked again. -/
def leave (s : LoopStack) : Except Fault (Option Nat × LoopStack) :=
  match s.headers with
  | [] => .error .unmatchedExit
  | header :: rest =>
    .ok (if s.progress = s.depth then some header else none,
      ⟨rest, min s.progress rest.length⟩)

/-- Another round lowers the progress below the depth of the loop that is walked again. -/
theorem progress_leave_lt {s t : LoopStack} {header : Nat} (h : s.leave = .ok (some header, t)) :
    t.progress < s.progress := by
  unfold leave at h
  split at h
  · cases h
  · rename_i head rest hs
    have hd : s.depth = rest.length + 1 := by rw [depth, hs, List.length_cons]
    split at h
    · cases h
      simp only
      omega
    · cases h

theorem progress_leave_le {s t : LoopStack} {r : Option Nat} (h : s.leave = .ok (r, t)) :
    t.progress ≤ s.progress := by
  unfold leave at h
  split at h
  · cases h
  · cases h
    exact Nat.min_le_left ..

end LoopStack

end DelayHint

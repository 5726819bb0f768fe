import DelayHint.Block

/-! The loops of a program in layout order. A loop reaches from its header to the exit that closes
it. A layout is balanced if every exit closes a loop, and structured if its loops nest and every way
back leads to the header of a loop around its start. -/
namespace DelayHint

/-- The headers of the loops that are open behind a block, the innermost first, if `outer` are open
in front of it. There are none if the block leaves a loop outside of every loop. -/
def Block.nest (outer : List Nat) (b : Block) : Option (List Nat) :=
  if b.isDiscardExit then some outer
  else if b.isLoopHeader then some (b.index :: outer)
  else if b.isLoopExit then outer.tail?
  else some outer

/-- The headers of the loops that are open in front of a position. -/
def openLoops (blocks : List Block) (pos : Nat) : Option (List Nat) :=
  (blocks.take pos).foldlM Block.nest []

/-- By how much a block changes the number of open loops. -/
def Block.loopChange (b : Block) : Int :=
  if b.isDiscardExit then 0
  else if b.isLoopHeader then 1
  else if b.isLoopExit then -1
  else 0

/-- The headers in front of a position less the exits. -/
def loopCount (blocks : List Block) (pos : Nat) : Int :=
  (blocks.take pos).foldl (fun n b => n + b.loopChange) 0

/-- Nowhere have there been more exits than headers. -/
def Balanced (blocks : List Block) : Prop := ∀ pos ≤ blocks.length, 0 ≤ loopCount blocks pos

instance (blocks : List Block) : Decidable (Balanced blocks) :=
  inferInstanceAs (Decidable (∀ pos ≤ blocks.length, 0 ≤ loopCount blocks pos))

/-- Blocks know their position, edges come from blocks, and every exit closes a loop. -/
structure Walkable (blocks : List Block) : Prop where
  index_eq : ∀ pos (h : pos < blocks.length), blocks[pos].index = pos
  preds_lt : ∀ b ∈ blocks, ∀ q ∈ b.preds, q < blocks.length
  nested : ∃ headers, openLoops blocks blocks.length = some headers

/-- The loops of a layout nest, every block knows how deep it lies, and an edge that does not lead
forward comes from a block inside the loop of its target: that loop is still open behind it. -/
structure Structured (blocks : List Block) : Prop where
  index_eq : ∀ pos (h : pos < blocks.length), blocks[pos].index = pos
  preds_lt : ∀ b ∈ blocks, ∀ q ∈ b.preds, q < blocks.length
  closed : openLoops blocks blocks.length = some []
  depth_eq : ∀ pos (h : pos < blocks.length), ¬ blocks[pos].isDiscardExit →
    (openLoops blocks (pos + 1)).map List.length = some blocks[pos].depth
  inside : ∀ pos (h : pos < blocks.length), ∀ q ∈ blocks[pos].preds, pos ≤ q →
    ∃ headers ∈ openLoops blocks (q + 1), pos ∈ headers

/-- A block without its code. -/
def Block.shape (b : Block) : Block := { b with instrs := [] }

theorem Block.shape_eq_iff {a b : Block} : a.shape = b.shape ↔
    a.index = b.index ∧ a.kind = b.kind ∧ a.depth = b.depth ∧ a.preds = b.preds ∧
      a.succs = b.succs := by
  simp [Block.shape]

theorem Block.isDiscardExit_congr {a b : Block} (h : a.shape = b.shape) :
    a.isDiscardExit = b.isDiscardExit := by
  obtain ⟨-, hk, -⟩ := Block.shape_eq_iff.mp h
  rw [isDiscardExit, isDiscardExit, hk]

theorem Block.nest_congr {a b : Block} (h : a.shape = b.shape) (outer : List Nat) :
    a.nest outer = b.nest outer := by
  obtain ⟨hi, hk, -⟩ := Block.shape_eq_iff.mp h
  unfold nest isDiscardExit isLoopHeader isLoopExit
  rw [hi, hk]

@[simp] theorem openLoops_zero (blocks : List Block) : openLoops blocks 0 = some [] := rfl

theorem openLoops_succ {blocks : List Block} {pos : Nat} {b : Block}
    (hb : blocks[pos]? = some b) :
    openLoops blocks (pos + 1) = (openLoops blocks pos).bind b.nest := by
  simp only [openLoops, List.take_add_one, hb, Option.toList_some, List.foldlM_append,
    List.foldlM_cons, List.foldlM_nil, bind_pure, Option.bind_eq_bind]

theorem openLoops_of_length_le {blocks : List Block} {pos : Nat} (h : blocks.length ≤ pos) :
    openLoops blocks pos = openLoops blocks blocks.length := by
  rw [openLoops, openLoops, List.take_of_length_le h, List.take_length]

/-- Loops that are open behind a block nest in front of it. -/
theorem exists_openLoops_of_le {blocks : List Block} {pos last : Nat} (hle : pos ≤ last)
    {headers : List Nat} (h : openLoops blocks last = some headers) :
    ∃ headers', openLoops blocks pos = some headers' := by
  induction last generalizing headers with
  | zero => exact ⟨[], by rw [Nat.le_zero.mp hle, openLoops_zero]⟩
  | succ last ih =>
    rcases Nat.lt_or_eq_of_le hle with hlt | rfl
    · by_cases hlast : last < blocks.length
      · rw [openLoops_succ (List.getElem?_eq_getElem hlast)] at h
        obtain ⟨before, hbefore, -⟩ := Option.bind_eq_some_iff.mp h
        exact ih (Nat.le_of_lt_succ hlt) hbefore
      · have hend : blocks.length ≤ last := Nat.le_of_not_lt hlast
        rw [openLoops_of_length_le (Nat.le_succ_of_le hend), ← openLoops_of_length_le hend] at h
        exact ih (Nat.le_of_lt_succ hlt) h
    · exact ⟨headers, h⟩

private theorem loopCount_succ {blocks : List Block} {pos : Nat} {b : Block}
    (hb : blocks[pos]? = some b) :
    loopCount blocks (pos + 1) = loopCount blocks pos + b.loopChange := by
  simp only [loopCount, List.take_add_one, hb, Option.toList_some, List.foldl_append,
    List.foldl_cons, List.foldl_nil]

/-- A block can be passed if its exit, if it is one, finds an open loop. -/
theorem Block.exists_nest {b : Block} {outer : List Nat}
    (h : 0 ≤ (outer.length : Int) + b.loopChange) :
    ∃ headers, b.nest outer = some headers ∧
      (headers.length : Int) = outer.length + b.loopChange := by
  unfold nest
  unfold loopChange at h ⊢
  split
  · exact ⟨outer, rfl, by omega⟩
  · split
    · exact ⟨b.index :: outer, rfl, by simp⟩
    · split
      · cases outer with
        | nil => simp_all
        | cons header rest => exact ⟨rest, rfl, by simp only [List.length_cons]; omega⟩
      · exact ⟨outer, rfl, by omega⟩

/-- In a balanced layout the loops nest, and the count says how many are open. -/
theorem Balanced.exists_openLoops {blocks : List Block} (h : Balanced blocks) {pos : Nat}
    (hpos : pos ≤ blocks.length) : ∃ headers, openLoops blocks pos = some headers ∧
      (headers.length : Int) = loopCount blocks pos := by
  induction pos with
  | zero => exact ⟨[], rfl, rfl⟩
  | succ pos ih =>
    obtain ⟨outer, houter, hcount⟩ := ih (Nat.le_of_succ_le hpos)
    have hb : blocks[pos]? = some blocks[pos] := List.getElem?_eq_getElem hpos
    have hnext := h (pos + 1) hpos
    rw [loopCount_succ hb, ← hcount] at hnext
    obtain ⟨headers, hnest, hlen⟩ := Block.exists_nest hnext
    refine ⟨headers, ?_, ?_⟩
    · rw [openLoops_succ hb, houter, Option.bind_some, hnest]
    · rw [loopCount_succ hb, ← hcount, hlen]

theorem Structured.walkable {blocks : List Block} (h : Structured blocks) : Walkable blocks :=
  ⟨h.index_eq, h.preds_lt, [], h.closed⟩

/-- The open loops do not depend on code. -/
private theorem openLoops_congr {a b : List Block} (h : a.map Block.shape = b.map Block.shape)
    (pos : Nat) :
    openLoops a pos = openLoops b pos := by
  have hshape (blocks : List Block) :
      openLoops blocks pos = openLoops (blocks.map Block.shape) pos := by
    simp only [openLoops, ← List.map_take, List.foldlM_map]
    rfl
  rw [hshape a, hshape b, h]

theorem Walkable.congr {a b : List Block} (ha : Walkable a)
    (h : a.map Block.shape = b.map Block.shape) : Walkable b := by
  have hlen : a.length = b.length := by simpa using congrArg List.length h
  have hget (pos : Nat) (hpa : pos < a.length) (hpb : pos < b.length) :
      a[pos].index = b[pos].index ∧ a[pos].preds = b[pos].preds := by
    have hpos := congrArg (·[pos]?) h
    simp only [List.getElem?_map, List.getElem?_eq_getElem, hpa, hpb, Option.map_some,
      Option.some.injEq] at hpos
    obtain ⟨hindex, -, -, hpreds, -⟩ := Block.shape_eq_iff.mp hpos
    exact ⟨hindex, hpreds⟩
  refine ⟨fun pos hpos => ?_, fun c hc q hq => ?_, ?_⟩
  · rw [← (hget pos (by omega) hpos).1, ha.index_eq]
  · obtain ⟨pos, hpos, rfl⟩ := List.mem_iff_getElem.mp hc
    rw [← (hget pos (by omega) hpos).2] at hq
    exact hlen ▸ ha.preds_lt _ (List.getElem_mem _) q hq
  · obtain ⟨headers, hheaders⟩ := ha.nested
    exact ⟨headers, by rw [← openLoops_congr h, ← hlen, hheaders]⟩

/-- When a block opens or closes a loop, the loops around it stay as they are. -/
theorem Block.nest_cases {outer headers : List Nat} {b : Block} (h : b.nest outer = some headers) :
    headers = outer ∨ headers = b.index :: outer ∨ ∃ header, outer = header :: headers := by
  unfold nest at h
  split at h
  · exact .inl (Option.some.inj h).symm
  · split at h
    · exact .inr (.inl (Option.some.inj h).symm)
    · split at h
      · cases outer with
        | nil => cases h
        | cons header rest => exact .inr (.inr ⟨header, by rw [← Option.some.inj h]⟩)
      · exact .inl (Option.some.inj h).symm

/-- An open loop was entered at its header, and the loops around it were open there. -/
theorem openLoops_header {blocks : List Block}
    (hi : ∀ pos (h : pos < blocks.length), blocks[pos].index = pos) {pos header : Nat}
    {inner outer : List Nat} (h : openLoops blocks pos = some (inner ++ header :: outer)) :
    header < pos ∧ openLoops blocks header = some outer := by
  induction pos generalizing inner with
  | zero => simp at h
  | succ pos ih =>
    by_cases hlt : pos < blocks.length
    · have hb : blocks[pos]? = some blocks[pos] := List.getElem?_eq_getElem hlt
      rw [openLoops_succ hb] at h
      obtain ⟨before, hbefore, hnest⟩ := Option.bind_eq_some_iff.mp h
      rcases Block.nest_cases hnest with he | he | ⟨top, he⟩
      · obtain ⟨hh, ho⟩ := ih (he ▸ hbefore)
        exact ⟨Nat.lt_succ_of_lt hh, ho⟩
      · cases inner with
        | nil =>
          obtain ⟨rfl, rfl⟩ := List.cons.inj he
          rw [hi pos hlt]
          exact ⟨Nat.lt_succ_self pos, hbefore⟩
        | cons i inner =>
          obtain ⟨-, rfl⟩ := List.cons.inj he
          obtain ⟨hh, ho⟩ := ih hbefore
          exact ⟨Nat.lt_succ_of_lt hh, ho⟩
      · have hinner : openLoops blocks pos = some ((top :: inner) ++ header :: outer) := by
          rw [hbefore, he, List.cons_append]
        obtain ⟨hh, ho⟩ := ih hinner
        exact ⟨Nat.lt_succ_of_lt hh, ho⟩
    · have hle : blocks.length ≤ pos := Nat.le_of_not_lt hlt
      rw [openLoops_of_length_le (Nat.le_succ_of_le hle), ← openLoops_of_length_le hle] at h
      obtain ⟨hh, ho⟩ := ih h
      exact ⟨Nat.lt_succ_of_lt hh, ho⟩

/-- An instruction that reads one register and writes one, by their numbers. -/
def Instr.unary (op : Opcode) (dst src : Nat) : Instr where
  opcode := op
  defs := [⟨Fin.ofNat 512 dst, 1, Nat.one_pos⟩]
  operands := [.reg ⟨Fin.ofNat 512 src, 1, Nat.one_pos⟩]

/-- Two nested loops. The exit of the inner one leads back to the header of the outer one. -/
def nestedBlocks : List Block :=
  [{ index := 0, kind := .ofLabel .topLevel, depth := 0, succs := [1]
     instrs := [.unary .vMovB32 256 266] },
   { index := 1, kind := .ofLabel .loopHeader, depth := 1, preds := [0, 4], succs := [2] },
   { index := 2, kind := .ofLabel .loopHeader, depth := 2, preds := [1, 3], succs := [3]
     instrs := [.unary .vMovB32 258 257] },
   { index := 3, kind := .empty, depth := 2, preds := [2], succs := [2, 4]
     instrs := [.unary .vMovB32 257 256] },
   { index := 4, kind := .ofLabel .loopExit, depth := 1, preds := [3], succs := [1, 5]
     instrs := [.unary .vRcpF32 256 258] },
   { index := 5, kind := .ofLabel .loopExit, depth := 0, preds := [4]
     instrs := [.unary .vMovB32 259 256] }]

theorem structured_nestedBlocks : Structured nestedBlocks := by
  constructor <;> decide

end DelayHint

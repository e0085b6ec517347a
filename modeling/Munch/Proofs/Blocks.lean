import Munch.Proofs.Kernels

set_option autoImplicit false

/-! # Programs made of blocks

A deterministic program is made of blocks, one after the other (`Program.ofBlocks`). Its blocks are
the states of a machine: a block accepts a pattern, and a byte leads along the first of its edges
that has the byte (`Program.blockMachine`).

The deterministic program of a pattern set has a block for each kernel that is found
(`IsCodeOf.toDeterministic_eq`), and its blocks behave as their kernels (`bisim_blockMachine`). -/

namespace Munch

namespace Program

variable {blocks : List Block} {block : Block} {i j : Nat} {b : UInt8} {offset : Nat → Nat}

/-- The code of some edges, which fails after the last one. -/
def edgesCode (offset : Nat → Nat) (edges : Edges) : List Inst :=
  (edges.flatMap fun e => [.branch e.1, .jump (offset e.2)]) ++ [.fail]

@[simp] theorem edgesCode_nil : edgesCode offset [] = [.fail] := rfl

@[simp] theorem edgesCode_cons (r : ByteRange) (x : Nat) (edges : Edges) :
    edgesCode offset ((r, x) :: edges) = .branch r :: .jump (offset x) :: edgesCode offset edges :=
  rfl

theorem holds_edgesCode_nil {p : Program} {pc : Nat} :
    p.Holds pc (edgesCode offset []) ↔ p.insts[pc]? = some .fail := by
  rw [edgesCode_nil, holds_cons, and_iff_left holds_nil]

theorem holds_edgesCode_cons {p : Program} {pc x : Nat} {r : ByteRange} {edges : Edges} :
    p.Holds pc (edgesCode offset ((r, x) :: edges)) ↔ p.insts[pc]? = some (.branch r) ∧
      p.insts[pc + 1]? = some (.jump (offset x)) ∧ p.Holds (pc + 2) (edgesCode offset edges) := by
  rw [edgesCode_cons, holds_cons, holds_cons]

theorem Block.code_eq (offset : Nat → Nat) (block : Block) :
    block.code offset = block.accept?.toList.map .accept ++ edgesCode offset block.edges := by
  rw [Block.code, edgesCode, List.append_assoc]

theorem length_edgesCode (edges : Edges) :
    (edgesCode offset edges).length = 2 * edges.length + 1 := by
  induction edges with
  | nil => rfl
  | cons e edges ih =>
    obtain ⟨r, x⟩ := e
    rw [edgesCode_cons, List.length_cons, List.length_cons, List.length_cons, ih]
    omega

@[simp] theorem Block.length_code (offset : Nat → Nat) (block : Block) :
    (block.code offset).length = block.size := by
  rw [Block.code_eq, List.length_append, List.length_map, length_edgesCode,
    Block.size, Nat.add_assoc]

theorem Block.size_pos (block : Block) : 0 < block.size := Nat.succ_pos _

@[simp] theorem blockOffset_zero (blocks : List Block) : blockOffset blocks 0 = 0 := rfl

@[simp] theorem blockOffset_cons_succ (block : Block) (blocks : List Block) (i : Nat) :
    blockOffset (block :: blocks) (i + 1) = block.size + blockOffset blocks i := rfl

theorem blockOffset_succ (h : blocks[i]? = some block) :
    blockOffset blocks (i + 1) = blockOffset blocks i + block.size := by
  induction blocks generalizing i with
  | nil => simp at h
  | cons first blocks ih =>
    rw [blockOffset_cons_succ]
    cases i with
    | zero =>
      obtain rfl : first = block := by simpa using h
      rw [blockOffset_zero, blockOffset_zero, Nat.zero_add, Nat.add_zero]
    | succ i =>
      rw [blockOffset_cons_succ, ih h, Nat.add_assoc]

/-- Later blocks start further on. -/
theorem blockOffset_lt (hij : i < j) (hj : j ≤ blocks.length) :
    blockOffset blocks i < blockOffset blocks j := by
  induction j with
  | zero => omega
  | succ j ih =>
    have hget := List.getElem?_eq_getElem (l := blocks) (i := j) (by omega)
    have hpos := blocks[j].size_pos
    rw [blockOffset_succ hget]
    rcases Nat.lt_succ_iff_lt_or_eq.mp hij with h | rfl
    · have := ih h (by omega)
      omega
    · omega

theorem blockOffset_injOn (hi : i ≤ blocks.length) (hj : j ≤ blocks.length)
    (h : blockOffset blocks i = blockOffset blocks j) : i = j := by
  rcases Nat.lt_trichotomy i j with hij | hij | hij
  · have := blockOffset_lt hij hj
    omega
  · exact hij
  · have := blockOffset_lt hij hi
    omega

theorem length_flatMap_code (offset : Nat → Nat) (blocks : List Block) (i : Nat) :
    ((blocks.take i).flatMap (Block.code offset)).length = blockOffset blocks i := by
  induction blocks generalizing i with
  | nil => cases i <;> rfl
  | cons block blocks ih =>
    cases i with
    | zero => rfl
    | succ i =>
      rw [List.take_succ_cons, List.flatMap_cons, List.length_append, Block.length_code, ih,
        blockOffset_cons_succ]

theorem size_ofBlocks (blocks : List Block) :
    (ofBlocks blocks).size = blockOffset blocks blocks.length := by
  rw [← length_flatMap_code (blockOffset blocks), List.take_length]
  simp [ofBlocks, size]

/-- The instructions before a block are as many as the offset of the block says. -/
theorem exists_insts_eq (h : blocks[i]? = some block) : ∃ before after,
    (ofBlocks blocks).insts.toList = before ++ (block.code (blockOffset blocks) ++ after) ∧
      before.length = blockOffset blocks i := by
  obtain ⟨hlt, rfl⟩ := List.getElem?_eq_some_iff.mp h
  have hsplit : blocks = blocks.take i ++ blocks[i] :: blocks.drop (i + 1) := by
    rw [← List.drop_eq_getElem_cons hlt, List.take_append_drop]
  refine ⟨_, (blocks.drop (i + 1)).flatMap (Block.code (blockOffset blocks)), ?_,
    length_flatMap_code (blockOffset blocks) blocks i⟩
  rw [← List.flatMap_cons, ← List.flatMap_append, ← hsplit]
  simp [ofBlocks]

/-- The program has the code of each block where the block starts. -/
theorem holds_ofBlocks (h : blocks[i]? = some block) :
    (ofBlocks blocks).Holds (blockOffset blocks i) (block.code (blockOffset blocks)) := by
  obtain ⟨before, after, hinsts, hlen⟩ := exists_insts_eq h
  have hholds := holds_toList (ofBlocks blocks)
  rw [hinsts, holds_append, holds_append, hlen, Nat.zero_add] at hholds
  exact hholds.2.1

/-- The program has the code of the edges of a block after the `accept` of the block. -/
theorem holds_edges (h : blocks[i]? = some block) :
    (ofBlocks blocks).Holds (blockOffset blocks i + block.accept?.toList.length)
      (edgesCode (blockOffset blocks) block.edges) := by
  have hholds := holds_ofBlocks h
  rw [Block.code_eq, holds_append, List.length_map] at hholds
  exact hholds.2

theorem getElem?_accept (h : blocks[i]? = some block) {k : Nat} (hk : block.accept? = some k) :
    (ofBlocks blocks).insts[blockOffset blocks i]? = some (.accept k) := by
  have hholds := holds_ofBlocks h
  rw [Block.code_eq, hk, Option.toList_some, List.map_cons, List.cons_append, holds_cons] at hholds
  exact hholds.1

theorem isThreaded_of_mem_code {inst : Inst} (h : inst ∈ block.code offset) :
    inst.isThreaded = false := by
  rw [Block.code, List.mem_append, List.mem_append, List.mem_map, List.mem_flatMap,
    List.mem_singleton] at h
  rcases h with (⟨k, _, rfl⟩ | ⟨e, _, he⟩) | rfl
  · rfl
  · rcases List.mem_pair.mp he with rfl | rfl
    · rfl
    · rfl
  · rfl

theorem isDeterministic_ofBlocks (blocks : List Block) :
    (ofBlocks blocks).isDeterministic = true := by
  rw [isDeterministic, Bool.not_eq_true', Array.any_eq_false']
  intro inst hinst
  rw [ofBlocks, List.mem_toArray, List.mem_flatMap] at hinst
  obtain ⟨block, _, hmem⟩ := hinst
  simp [isThreaded_of_mem_code hmem]

/-- The machine whose states are the places of some blocks. -/
def blockMachine (blocks : List Block) : Machine Nat where
  next? i b := blocks[i]?.bind fun block => block.edges.target? b
  accept? i := blocks[i]?.bind Block.accept?

theorem next?_blockMachine (h : blocks[i]? = some block) (b : UInt8) :
    (blockMachine blocks).next? i b = block.edges.target? b := by
  show (blocks[i]?.bind fun block => block.edges.target? b) = _
  rw [h, Option.bind_some]

theorem accept?_blockMachine (h : blocks[i]? = some block) :
    (blockMachine blocks).accept? i = block.accept? := by
  show blocks[i]?.bind Block.accept? = _
  rw [h, Option.bind_some]

/-- Every byte that a block goes on with leads to some block. -/
def Linked (blocks : List Block) : Prop :=
  ∀ {i j : Nat} {b : UInt8}, (blockMachine blocks).next? i b = some j → j < blocks.length

/-! ## Blocks of kernels -/

variable {p : Program} {kernel : IndexSet}

theorem getElem?_kernelBlocks_iff : p.kernelBlocks[i]? = some block ↔
    ∃ kernel, p.kernels.found[i]? = some kernel ∧ p.blockOf p.kernels.found kernel = block := by
  rw [kernelBlocks, List.getElem?_map, Option.map_eq_some_iff]

/-- Among the edges of some moves, those of a byte lead to the move with the byte. -/
theorem target?_map (moves : List (ByteRange × IndexSet)) (f : IndexSet → Nat) (b : UInt8) :
    Edges.target? (moves.map fun m => (m.1, f m.2)) b =
      (moves.find? (·.1.contains b)).map fun m => f m.2 := by
  rw [Edges.target?, List.find?_map, Option.map_map]
  rfl

/-- The edges of a block lead to the block of the kernel that comes next. -/
theorem target?_blockOf (p : Program) (found : List IndexSet) (kernel : IndexSet) (b : UInt8) :
    (p.blockOf found kernel).edges.target? b =
      (p.kernelMachine.next? kernel b).map found.idxOf := by
  show Edges.target? (Edges.join _) b = _
  rw [Edges.target?_join, target?_map _ fun kernel => found.idxOf kernel]
  cases hm : (p.kernelMoves kernel).find? (·.1.contains b) with
  | none =>
    rw [List.find?_eq_none] at hm
    rw [next?_of_not_mem_kernelMoves fun m hmem hb => hm m hmem (ByteRange.contains_iff.mpr hb)]
    rfl
  | some m =>
    have hb : b ∈ m.1 := by
      have hcontains := List.find?_some hm
      exact ByteRange.contains_iff.mp hcontains
    rw [next?_of_mem_kernelMoves (List.mem_of_find?_eq_some hm) hb]
    rfl

/-- A kernel that comes after one that is found is found. -/
theorem mem_found_of_next? {next : IndexSet} (h : kernel ∈ p.kernels.found)
    (hnext : p.kernelMachine.next? kernel b = some next) : next ∈ p.kernels.found :=
  mem_kernels_iff.mpr ((mem_kernels_iff.mp h).next hnext)

/-- The blocks of a program behave as the kernels that they were made from. -/
theorem bisim_blockMachine (p : Program) : (blockMachine p.kernelBlocks).Bisim p.kernelMachine
    fun i kernel => p.kernels.found[i]? = some kernel where
  accept := by
    intro i kernel h
    rw [accept?_blockMachine (getElem?_kernelBlocks_iff.mpr ⟨kernel, h, rfl⟩)]
    rfl
  next := by
    intro i kernel h b
    rw [next?_blockMachine (getElem?_kernelBlocks_iff.mpr ⟨kernel, h, rfl⟩), target?_blockOf]
    cases hnext : p.kernelMachine.next? kernel b with
    | none => exact .none
    | some next =>
      exact .some (List.getElem?_idxOf (mem_found_of_next? (List.mem_of_getElem? h) hnext))

theorem linked_kernelBlocks (p : Program) : Linked p.kernelBlocks := by
  intro i j b h
  cases hblock : p.kernelBlocks[i]? with
  | none => simp [blockMachine, hblock] at h
  | some block =>
    obtain ⟨kernel, hkernel, rfl⟩ := getElem?_kernelBlocks_iff.mp hblock
    rw [next?_blockMachine hblock, target?_blockOf, Option.map_eq_some_iff] at h
    obtain ⟨next, hnext, rfl⟩ := h
    rw [kernelBlocks, List.length_map]
    exact List.idxOf_lt_length_of_mem (mem_found_of_next? (List.mem_of_getElem? hkernel) hnext)

/-- The first block is that of the kernel at offset 0. -/
theorem getElem?_found_zero (p : Program) : p.kernels.found[0]? = some (p.kernelOf [0]) := by
  rw [← List.head?_eq_getElem?, kernels, head?_found]

theorem length_kernelBlocks_pos (p : Program) : 0 < p.kernelBlocks.length := by
  rw [kernelBlocks, List.length_map]
  exact (List.getElem?_eq_some_iff.mp p.getElem?_found_zero).1

/-- The deterministic program of another program has a block for each kernel. -/
theorem toDeterministic_eq_ofBlocks (h : p.isDeterministic = false) :
    p.toDeterministic = ofBlocks p.kernelBlocks := by
  rw [toDeterministic, if_neg (by simp [h])]

theorem isDeterministic_toDeterministic (p : Program) :
    p.toDeterministic.isDeterministic = true := by
  cases hdet : p.isDeterministic with
  | true => rwa [toDeterministic, if_pos hdet]
  | false =>
    rw [toDeterministic_eq_ofBlocks hdet]
    exact isDeterministic_ofBlocks p.kernelBlocks

/-! ## The deterministic program of a pattern set -/

/-- The program of a pattern set that needs no code is the block of its only kernel. -/
theorem kernelBlocks_loneAccept : loneAccept.kernelBlocks = [⟨some 0, []⟩] := by
  have hmem : ∀ kernel ∈ loneAccept.kernels.found, kernel = [0] := by
    intro kernel h
    have hreaches := mem_kernels_iff.mp h
    rw [kernelOf_loneAccept] at hreaches
    refine hreaches.induct (P := (· = [0])) rfl fun s t b hs ht => ?_
    subst hs
    have hnone : loneAccept.kernelMachine.next? [0] b = none := rfl
    simp [hnone] at ht
  have hfound : loneAccept.kernels.found = [[0]] := by
    have hzero := loneAccept.getElem?_found_zero
    have hnodup : loneAccept.kernels.found.Nodup := nodup_found _ _ _ _ _
    rw [kernelOf_loneAccept] at hzero
    generalize loneAccept.kernels.found = found at *
    cases found with
    | nil => simp at hzero
    | cons s rest =>
      cases rest with
      | nil => simpa using hzero
      | cons t rest =>
        have hs := hmem s (by simp)
        have ht := hmem t (by simp)
        simp [hs, ht] at hnodup
  rw [kernelBlocks, hfound]
  rfl

/-- The deterministic program of a pattern set has a block for each kernel. -/
theorem IsCodeOf.toDeterministic_eq {re : Regex} {rs : List Regex} (h : p.IsCodeOf re rs) :
    p.toDeterministic = ofBlocks p.kernelBlocks := by
  rcases h with ⟨_, hdet⟩ | ⟨_, rfl⟩
  · exact toDeterministic_eq_ofBlocks hdet
  · have hdet : loneAccept.isDeterministic = true := by
      simp [isDeterministic, loneAccept, Op.isThreaded]
    rw [kernelBlocks_loneAccept, toDeterministic, if_pos hdet]
    decide

end Program

end Munch

import Mathlib.Data.Set.Function
import Munch.Proofs.Blocks

set_option autoImplicit false

/-! # Reading the blocks of a program

The blocks of a deterministic program can be read off its instructions: a block starts at offset 0
and after every `fail` (`Program.blockStarts`), and the edges of a block are gone through one after
the other up to its `fail` (`Program.blockNext`). In a program that is made of blocks, this gives
the blocks back. -/

namespace Munch

namespace Program

variable {blocks : List Block} {block : Block} {i j q pc : Nat} {b : UInt8} {offset : Nat → Nat}

/-- The offsets at which the blocks of a deterministic program start. -/
def blockStarts (d : Program) : Set Nat :=
  {pc | pc < d.size ∧ (pc = 0 ∨ ∃ q, pc = q + 1 ∧ d.insts[q]? = some .fail)}

/-- Where the code of some edges goes on with a byte, which is nowhere if it fails. Nothing can be
    said of instructions that are not the code of edges. -/
def edgesNext (b : UInt8) : List Inst → Option (Option Nat)
  | .branch r :: .jump x :: rest => if r.contains b then some (some x) else edgesNext b rest
  | .fail :: _ => some none
  | _ => none

/-- Where the block that starts at an offset goes on with a byte. -/
def blockNext (d : Program) (pc : Nat) (b : UInt8) : Option (Option Nat) :=
  match d.insts.toList.drop pc with
  | .accept _ :: code => edgesNext b code
  | code => edgesNext b code

/-! ## Fails -/

theorem not_mem_fail_of_edges (edges : Edges) :
    (.fail : Inst) ∉ edges.flatMap fun e => [.branch e.1, .jump (offset e.2)] := by
  intro h
  obtain ⟨e, _, he⟩ := List.mem_flatMap.mp h
  simp at he

/-- The code of a block has one `fail`, which is its last instruction. -/
theorem Block.exists_code_eq (offset : Nat → Nat) (block : Block) :
    ∃ body, block.code offset = body ++ [.fail] ∧ (.fail : Inst) ∉ body := by
  refine ⟨_, rfl, fun h => ?_⟩
  rcases List.mem_append.mp h with haccept | hedges
  · obtain ⟨k, _, hk⟩ := List.mem_map.mp haccept
    simp at hk
  · exact not_mem_fail_of_edges block.edges hedges

theorem Block.getElem?_code_eq_fail_iff :
    (block.code offset)[q]? = some .fail ↔ q + 1 = block.size := by
  obtain ⟨body, hbody, hfail⟩ := block.exists_code_eq offset
  have hsize : body.length + 1 = block.size := by
    rw [← Block.length_code offset, hbody, List.length_append, List.length_singleton]
  rw [hbody]
  constructor
  · intro hq
    have hlt : q < (body ++ [Op.fail]).length := (List.getElem?_eq_some_iff.mp hq).1
    rw [List.length_append, List.length_singleton] at hlt
    by_contra hne
    rw [List.getElem?_append_left (by omega)] at hq
    exact hfail (List.mem_of_getElem? hq)
  · intro hq
    obtain rfl : q = body.length := by omega
    simp

theorem Block.count_code (offset : Nat → Nat) (block : Block) :
    (block.code offset).count .fail = 1 := by
  obtain ⟨body, hbody, hfail⟩ := block.exists_code_eq offset
  rw [hbody, List.count_append, List.count_eq_zero_of_not_mem hfail, List.count_singleton_self]

theorem count_flatMap_code (offset : Nat → Nat) (blocks : List Block) :
    (blocks.flatMap (Block.code offset)).count .fail = blocks.length := by
  induction blocks with
  | nil => rfl
  | cons block blocks ih =>
    rw [List.flatMap_cons, List.count_append, Block.count_code, ih, List.length_cons, Nat.add_comm]

/-- A program made of blocks has a `fail` for each block. -/
theorem count_fail_ofBlocks (blocks : List Block) :
    (ofBlocks blocks).insts.toList.count .fail = blocks.length :=
  count_flatMap_code (blockOffset blocks) blocks

theorem getElem?_flatMap_code_eq_fail_iff (offset : Nat → Nat) (blocks : List Block) : ∀ q,
    (blocks.flatMap (Block.code offset))[q]? = some .fail ↔
      ∃ i < blocks.length, q + 1 = blockOffset blocks (i + 1) := by
  induction blocks with
  | nil => simp
  | cons block blocks ih =>
    intro q
    have hfirst : blockOffset (block :: blocks) (0 + 1) = block.size := by simp
    rw [List.flatMap_cons]
    -- Only the last instruction of a block is a `fail`.
    by_cases hq : q < block.size
    · rw [List.getElem?_append_left (by rwa [Block.length_code]), Block.getElem?_code_eq_fail_iff]
      constructor
      · intro heq
        exact ⟨0, Nat.succ_pos _, heq.trans hfirst.symm⟩
      · intro ⟨i, _, hi⟩
        rw [blockOffset_cons_succ] at hi
        omega
    · rw [List.getElem?_append_right (by rw [Block.length_code]; omega), Block.length_code, ih]
      constructor
      · intro ⟨i, hlt, hi⟩
        refine ⟨i + 1, Nat.succ_lt_succ hlt, ?_⟩
        rw [blockOffset_cons_succ]
        omega
      · intro ⟨i, hlt, hi⟩
        cases i with
        | zero =>
          rw [hfirst] at hi
          omega
        | succ i =>
          rw [blockOffset_cons_succ] at hi
          exact ⟨i, Nat.lt_of_succ_lt_succ hlt, by omega⟩

/-- A program made of blocks fails where a block ends. -/
theorem getElem?_ofBlocks_eq_fail_iff :
    (ofBlocks blocks).insts[q]? = some .fail ↔
      ∃ i < blocks.length, q + 1 = blockOffset blocks (i + 1) := by
  rw [← getElem?_flatMap_code_eq_fail_iff (blockOffset blocks)]
  simp [ofBlocks]

/-- In a program made of blocks, blocks start where they were placed, and nowhere else. -/
theorem bijOn_blockOffset (blocks : List Block) :
    Set.BijOn (blockOffset blocks) {i | i < blocks.length} (ofBlocks blocks).blockStarts := by
  refine ⟨?_, ?_, ?_⟩
  · intro i hi
    refine ⟨?_, ?_⟩
    · rw [size_ofBlocks]
      exact blockOffset_lt hi (Nat.le_refl _)
    · cases i with
      | zero => exact .inl rfl
      | succ i =>
        have hlt : i < blocks.length := Nat.lt_of_succ_lt hi
        have hpos : 0 < blockOffset blocks (i + 1) :=
          blockOffset_lt (Nat.succ_pos i) (Nat.le_of_lt hi)
        refine .inr ⟨blockOffset blocks (i + 1) - 1, by omega, ?_⟩
        exact getElem?_ofBlocks_eq_fail_iff.mpr ⟨i, hlt, by omega⟩
  · intro i hi j hj h
    exact blockOffset_injOn (Nat.le_of_lt hi) (Nat.le_of_lt hj) h
  · intro pc ⟨hlt, hpc⟩
    rw [size_ofBlocks] at hlt
    -- A block starts at offset 0 or after a `fail`, and after the last `fail` the program ends.
    rcases hpc with rfl | ⟨q, rfl, hq⟩
    · refine ⟨0, ?_, rfl⟩
      by_contra hempty
      have hnil : blocks.length = 0 := by simpa using hempty
      rw [hnil] at hlt
      exact Nat.not_lt_zero _ hlt
    · obtain ⟨i, hi, hend⟩ := getElem?_ofBlocks_eq_fail_iff.mp hq
      refine ⟨i + 1, ?_, hend.symm⟩
      by_contra hge
      have heq : i + 1 = blocks.length := by
        have : ¬ i + 1 < blocks.length := hge
        omega
      rw [hend, heq] at hlt
      exact Nat.lt_irrefl _ hlt

/-! ## What blocks accept and where they lead -/

theorem pattern?_of_edges {p : Program} {edges : Edges} (h : p.Holds pc (edgesCode offset edges)) :
    p.pattern? pc = none := by
  cases edges with
  | nil =>
    have hfail := holds_edgesCode_nil.mp h
    rw [pattern?, hfail]
  | cons e edges =>
    have hbranch : p.insts[pc]? = some (.branch e.1) := (holds_cons.mp h).1
    rw [pattern?, hbranch]

/-- Where a block starts, its pattern is accepted. -/
theorem pattern?_blockOffset (h : blocks[i]? = some block) :
    (ofBlocks blocks).pattern? (blockOffset blocks i) = block.accept? := by
  cases haccept : block.accept? with
  | none =>
    have hedges := holds_edges h
    rw [haccept] at hedges
    exact pattern?_of_edges hedges
  | some k => rw [pattern?, getElem?_accept h haccept]

theorem edgesNext_edgesCode (edges : Edges) (b : UInt8) (rest : List Inst) :
    edgesNext b (edgesCode offset edges ++ rest) = some ((edges.target? b).map offset) := by
  induction edges with
  | nil => rfl
  | cons e edges ih =>
    obtain ⟨r, x⟩ := e
    rw [edgesCode_cons, Edges.target?_cons, List.cons_append, List.cons_append, edgesNext, ih]
    by_cases hb : r.contains b = true
    · rw [if_pos hb, if_pos hb, Option.map_some]
    · rw [if_neg hb, if_neg hb]

theorem drop_blockOffset (h : blocks[i]? = some block) : ∃ rest,
    (ofBlocks blocks).insts.toList.drop (blockOffset blocks i) =
      block.code (blockOffset blocks) ++ rest := by
  obtain ⟨before, after, hinsts, hlen⟩ := exists_insts_eq h
  exact ⟨after, by rw [hinsts, ← hlen, List.drop_left]⟩

/-- Where a block starts, its edges can be followed. -/
theorem blockNext_blockOffset (h : blocks[i]? = some block) (b : UInt8) :
    (ofBlocks blocks).blockNext (blockOffset blocks i) b =
      some ((block.edges.target? b).map (blockOffset blocks)) := by
  obtain ⟨rest, hrest⟩ := drop_blockOffset h
  rw [blockNext, hrest, Block.code_eq, List.append_assoc]
  have hedges : edgesNext b (edgesCode (blockOffset blocks) block.edges ++ rest) = _ :=
    edgesNext_edgesCode block.edges b rest
  cases block.accept? with
  | some k => exact hedges
  | none =>
    show (match edgesCode (blockOffset blocks) block.edges ++ rest with
      | .accept _ :: code => edgesNext b code
      | code => edgesNext b code) = _
    rw [← hedges]
    cases block.edges <;> rfl

end Program

end Munch

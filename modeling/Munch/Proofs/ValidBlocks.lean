import Munch.Proofs.Direct
import Munch.Proofs.Validity

set_option autoImplicit false

/-! # Programs made of blocks are valid

In a program that is made of blocks, control goes forward unless it jumps, and no `jump` leads to
another one (`Program.Forward`). So it cannot run for ever without consuming a byte, and the program
is valid (`Program.valid_ofBlocks`). The deterministic program of a valid program is valid
(`Program.Valid.toDeterministic`), and so is that of any program that is not deterministic itself
(`Program.valid_toDeterministic`). -/

namespace Munch

namespace Program

variable {p : Program} {pc a : Nat} {path : List Nat} {offset : Nat → Nat} {edges : Edges}

/-- An offset has an instruction, and not a `jump`. -/
def LandsAt (p : Program) (pc : Nat) : Prop :=
  ∃ inst, p.insts[pc]? = some inst ∧ ∀ x, inst ≠ .jump x

/-- Control that does not consume goes forward unless it jumps, and does not come to a `jump`. -/
def Forward (p : Program) : Prop :=
  ∀ pc next, p.emptyNext pc = some next →
    p.LandsAt next ∧ (pc < next ∨ ∃ x, p.insts[pc]? = some (.jump x))

theorem LandsAt.lt_size (h : p.LandsAt pc) : pc < p.size := by
  obtain ⟨inst, hinst, _⟩ := h
  exact (Array.getElem?_eq_some_iff.mp hinst).1

/-- Where control goes forward, a search for loops finds none. -/
theorem Forward.revisit_eq_none (h : p.Forward) (hpath : Direct.Unmet p path pc)
    (hpc : p.LandsAt pc) : p.revisit path pc = none := by
  fun_induction revisit p path pc with
  | case1 path pc hmem =>
    obtain ⟨inst, hinst, hjump⟩ := hpc
    exact absurd hmem (hpath.not_mem hinst hjump)
  | case2 path pc _ _ hnext => rfl
  | case3 path pc _ _ next hnext ih =>
    obtain ⟨hland, hlt | ⟨x, hx⟩⟩ := h pc next hnext
    · exact ih (hpath.cons hlt) hland
    · obtain ⟨inst, hinst, hjump⟩ := hpc
      exact absurd (Option.some.inj (hinst.symm.trans hx)) (hjump x)
  | case4 path pc => rfl

/-- Where control goes forward, it does not run around without consuming a byte. -/
theorem Forward.emptyLoop_eq_none (h : p.Forward) : p.emptyLoop = none := by
  refine List.findSome?_eq_none_iff.mpr fun pc hpc => ?_
  have hlt : pc < p.size := List.mem_range.mp hpc
  have hinst := Array.getElem?_eq_getElem hlt
  by_cases hjump : ∃ x, p.insts[pc] = .jump x
  -- The first step of the search is the only one that can go back.
  · obtain ⟨x, hx⟩ := hjump
    rw [hx] at hinst
    have hnext : p.emptyNext pc = some x := by rw [emptyNext, hinst]
    rw [revisit, dif_neg List.not_mem_nil, dif_pos hlt]
    simp only [hnext]
    exact h.revisit_eq_none (Direct.unmet_of_jump hinst x) (h pc x hnext).1
  · exact h.revisit_eq_none (Direct.unmet_nil p pc) ⟨_, hinst, fun x hx => hjump ⟨x, hx⟩⟩

/-! ## What stands in a block -/

theorem landsAt_edges (h : p.Holds pc (edgesCode offset edges)) : p.LandsAt pc := by
  cases edges with
  | nil => exact ⟨_, holds_edgesCode_nil.mp h, by simp⟩
  | cons e edges =>
    have hbranch : p.insts[pc]? = some (.branch e.1) := (holds_cons.mp h).1
    exact ⟨_, hbranch, by simp⟩

theorem edges_cases (h : p.Holds pc (edgesCode offset edges)) (hle : pc ≤ a)
    (hlt : a < pc + (2 * edges.length + 1)) :
    (∃ r, p.insts[a]? = some (.branch r) ∧ (∃ x, p.insts[a + 1]? = some (.jump x)) ∧
        p.LandsAt (a + 2)) ∨
      (∃ e ∈ edges, p.insts[a]? = some (.jump (offset e.2))) ∨ p.insts[a]? = some .fail := by
  induction edges generalizing pc with
  | nil =>
    obtain rfl : a = pc := by
      rw [List.length_nil] at hlt
      omega
    exact .inr (.inr (holds_edgesCode_nil.mp h))
  | cons e edges ih =>
    obtain ⟨r, x⟩ := e
    obtain ⟨hbranch, hjump, hrest⟩ := holds_edgesCode_cons.mp h
    rw [List.length_cons] at hlt
    rcases (by omega : a = pc ∨ a = pc + 1 ∨ pc + 2 ≤ a) with rfl | rfl | hge
    · exact .inl ⟨r, hbranch, ⟨_, hjump⟩, landsAt_edges hrest⟩
    · exact .inr (.inl ⟨(r, x), List.mem_cons_self, hjump⟩)
    · rcases ih hrest hge (by omega) with hcase | ⟨e, he, hcase⟩ | hcase
      · exact .inl hcase
      · exact .inr (.inl ⟨e, List.mem_cons_of_mem _ he, hcase⟩)
      · exact .inr (.inr hcase)

variable {blocks : List Block} {block : Block} {i : Nat}

/-- Every offset of a program made of blocks is in one of them. -/
theorem exists_block_of_lt (h : a < blockOffset blocks blocks.length) : ∃ i block,
    blocks[i]? = some block ∧ blockOffset blocks i ≤ a ∧ a < blockOffset blocks i + block.size := by
  induction blocks generalizing a with
  | nil => exact absurd h (Nat.not_lt_zero a)
  | cons first blocks ih =>
    by_cases hlt : a < first.size
    · exact ⟨0, first, rfl, Nat.zero_le a, by rwa [blockOffset_zero, Nat.zero_add]⟩
    · rw [List.length_cons, blockOffset_cons_succ] at h
      obtain ⟨i, block, hblock, hle, hlt'⟩ := ih (a := a - first.size) (by omega)
      refine ⟨i + 1, block, by rwa [List.getElem?_cons_succ], ?_, ?_⟩
      · rw [blockOffset_cons_succ]
        omega
      · rw [blockOffset_cons_succ]
        omega

theorem landsAt_blockOffset (h : blocks[i]? = some block) :
    (ofBlocks blocks).LandsAt (blockOffset blocks i) := by
  cases haccept : block.accept? with
  | none =>
    have hedges := holds_edges h
    rw [haccept] at hedges
    exact landsAt_edges hedges
  | some k => exact ⟨_, getElem?_accept h haccept, by simp⟩

/-- All edges of some blocks lead to blocks. -/
def Joined (blocks : List Block) : Prop :=
  ∀ block ∈ blocks, ∀ e ∈ block.edges, e.2 < blocks.length

/-- What stands at an offset of a program made of blocks, and where control goes on from there. -/
theorem ofBlocks_cases (hjoined : Joined blocks) (ha : a < (ofBlocks blocks).size) :
    (∃ k, (ofBlocks blocks).insts[a]? = some (.accept k) ∧ (ofBlocks blocks).LandsAt (a + 1)) ∨
      (∃ r, (ofBlocks blocks).insts[a]? = some (.branch r) ∧
        (∃ x, (ofBlocks blocks).insts[a + 1]? = some (.jump x)) ∧
        (ofBlocks blocks).LandsAt (a + 2)) ∨
      (∃ x, (ofBlocks blocks).insts[a]? = some (.jump x) ∧ (ofBlocks blocks).LandsAt x) ∨
      (ofBlocks blocks).insts[a]? = some .fail := by
  rw [size_ofBlocks] at ha
  obtain ⟨i, block, hblock, hle, hlt⟩ := exists_block_of_lt ha
  have hedges := holds_edges hblock
  by_cases hstart : a < blockOffset blocks i + block.accept?.toList.length
  · cases haccept : block.accept? with
    | none =>
      rw [haccept, Option.toList_none, List.length_nil] at hstart
      omega
    | some k =>
      rw [haccept, Option.toList_some, List.length_singleton] at hstart hedges
      obtain rfl : a = blockOffset blocks i := by omega
      exact .inl ⟨k, getElem?_accept hblock haccept, landsAt_edges hedges⟩
  · rw [Block.size] at hlt
    rcases edges_cases hedges (Nat.le_of_not_lt hstart) (by omega) with
      hcase | ⟨e, he, hcase⟩ | hcase
    · exact .inr (.inl hcase)
    · have htarget := hjoined block (List.mem_of_getElem? hblock) e he
      exact .inr (.inr (.inl ⟨_, hcase, landsAt_blockOffset (List.getElem?_eq_getElem htarget)⟩))
    · exact .inr (.inr (.inr hcase))

theorem forward_ofBlocks (hjoined : Joined blocks) : (ofBlocks blocks).Forward := by
  intro pc next hnext
  have hlt : pc < (ofBlocks blocks).size := by
    by_contra hge
    have hnone : (ofBlocks blocks).insts[pc]? = none :=
      Array.getElem?_eq_none (Nat.le_of_not_lt hge)
    rw [emptyNext, hnone] at hnext
    cases hnext
  rw [emptyNext] at hnext
  rcases ofBlocks_cases hjoined hlt with ⟨k, hi, hland⟩ | ⟨r, hi, _, hland⟩ | ⟨x, hi, hland⟩ | hi
  all_goals rw [hi] at hnext
  · obtain rfl := Option.some.inj hnext
    exact ⟨hland, .inl (Nat.lt_succ_self pc)⟩
  · obtain rfl := Option.some.inj hnext
    exact ⟨hland, .inl (by omega)⟩
  · obtain rfl := Option.some.inj hnext
    exact ⟨hland, .inr ⟨_, hi⟩⟩
  · cases hnext

/-- A program made of blocks is valid. -/
theorem valid_ofBlocks (hjoined : Joined blocks) (hpos : 0 < blocks.length) :
    (ofBlocks blocks).Valid := by
  have hcases : ∀ {pc : Nat} {i : Inst}, (ofBlocks blocks).insts[pc]? = some i → _ :=
    fun hi => ofBlocks_cases hjoined (Array.getElem?_eq_some_iff.mp hi).1
  have hsize : 0 < (ofBlocks blocks).size := by
    rw [size_ofBlocks]
    exact blockOffset_lt hpos (Nat.le_refl _)
  -- Targets are in the program, the last instruction does not fall through, every `branch` has its
  -- `jump`, and there is no empty loop: without consuming a byte, control only goes forward.
  constructor
  · intro pc i hi x hx
    rcases hcases hi with ⟨k, hi', _⟩ | ⟨r, hi', _⟩ | ⟨y, hi', hland⟩ | hi'
    all_goals obtain rfl := Option.some.inj (hi.symm.trans hi')
    · simp [Op.targets] at hx
    · simp [Op.targets] at hx
    · obtain rfl := List.mem_singleton.mp hx
      exact hland.lt_size
    · simp [Op.targets] at hx
  · rcases ofBlocks_cases hjoined (Nat.sub_lt hsize Nat.one_pos) with
      ⟨k, _, hland⟩ | ⟨r, _, _, hland⟩ | ⟨x, hi, _⟩ | hi
    · have := hland.lt_size
      omega
    · have := hland.lt_size
      omega
    · exact ⟨_, hi, rfl⟩
    · exact ⟨_, hi, rfl⟩
  · intro pc r hi
    rcases hcases hi with ⟨k, hi', _⟩ | ⟨r', hi', hjump, hland⟩ | ⟨y, hi', _⟩ | hi'
    all_goals cases Option.some.inj (hi.symm.trans hi')
    exact ⟨hjump, hland.lt_size⟩
  · exact fun _ => (forward_ofBlocks hjoined).emptyLoop_eq_none

/-! ## Blocks of kernels -/

theorem joined_kernelBlocks (p : Program) : Joined p.kernelBlocks := by
  intro block hblock e he
  obtain ⟨kernel, hkernel, rfl⟩ := List.mem_map.mp hblock
  obtain ⟨e', he', htarget⟩ := Edges.exists_mem_of_mem_join he
  obtain ⟨m, hm, rfl⟩ := List.mem_map.mp he'
  have hfound : m.2 ∈ p.kernels.found :=
    mem_found_of_next? hkernel (next?_of_mem_kernelMoves hm ⟨UInt8.le_refl _, m.1.lo_le_hi⟩)
  rw [← htarget, kernelBlocks, List.length_map]
  exact List.idxOf_lt_length_of_mem hfound

theorem valid_kernelBlocks (p : Program) : (ofBlocks p.kernelBlocks).Valid :=
  valid_ofBlocks p.joined_kernelBlocks p.length_kernelBlocks_pos

/-- The deterministic program of any program is valid, unless it is the program itself. -/
theorem valid_toDeterministic (h : p.isDeterministic = true → p.Valid) :
    p.toDeterministic.Valid := by
  cases hdet : p.isDeterministic with
  | true => rw [Program.toDeterministic, if_pos hdet]; exact h hdet
  | false =>
    rw [toDeterministic_eq_ofBlocks hdet]
    exact p.valid_kernelBlocks

/-- The deterministic program of a valid program is valid. -/
theorem Valid.toDeterministic (h : p.Valid) : p.toDeterministic.Valid :=
  valid_toDeterministic fun _ => h

end Program

end Munch

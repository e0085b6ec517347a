import Munch.Program.Direct
import Munch.Proofs.Blocks

set_option autoImplicit false

/-! # Following the one thread of a program made of blocks

A run with one thread remembers the offsets that it met since the last byte, to stop if it meets one
again. In a program made of blocks it never does: inside a block it goes forward, and before it came
to the block it met a `jump` at most, while it meets no `jump` inside the block before it consumes a
byte (`Direct.Unmet`). So it finds what the machine of the blocks finds (`Direct.run_ofBlocks`). -/

namespace Munch

namespace Direct

open Program

variable {p : Program} {tc i pc : Nat} {rest : Bytes} {path : List Nat} {best : Option (Nat × Nat)}
  {b : UInt8} {offset : Nat → Nat} {edges : Edges}

/-- Only jumps were met, and offsets before one. -/
def Unmet (p : Program) (path : List Nat) (pc : Nat) : Prop :=
  ∀ x ∈ path, x < pc ∨ ∃ y, p.insts[x]? = some (.jump y)

theorem Unmet.not_mem (h : Unmet p path pc) {inst : Inst} (hinst : p.insts[pc]? = some inst)
    (hjump : ∀ y, inst ≠ .jump y) : pc ∉ path := by
  intro hmem
  rcases h pc hmem with hlt | ⟨y, hy⟩
  · exact Nat.lt_irrefl pc hlt
  · rw [hinst] at hy
    exact hjump y (Option.some.inj hy)

theorem Unmet.cons (h : Unmet p path pc) {n : Nat} (hn : pc < n) : Unmet p (pc :: path) n := by
  intro x hx
  rcases List.mem_cons.mp hx with rfl | hx
  · exact .inl hn
  · exact (h x hx).imp_left fun hlt => Nat.lt_trans hlt hn

theorem unmet_nil (p : Program) (pc : Nat) : Unmet p [] pc := by
  intro x hx
  simp at hx

theorem unmet_of_jump {y : Nat} (h : p.insts[pc]? = some (.jump y)) (n : Nat) : Unmet p [pc] n := by
  intro x hx
  obtain rfl := List.mem_singleton.mp hx
  exact .inr ⟨y, h⟩

/-! ## Steps of a run -/

theorem runFrom_accept {id : Nat} (hmem : pc ∉ path) (h : p.insts[pc]? = some (.accept id)) :
    runFrom p tc rest i path pc best =
      runFrom p tc rest i (pc :: path) (pc + 1) (if tc < i then some (id, i) else best) := by
  have hlt : pc < p.size := (Array.getElem?_eq_some_iff.mp h).1
  rw [runFrom, dif_neg hmem, dif_pos hlt]
  simp only [h]

theorem runFrom_jump {x : Nat} (hmem : pc ∉ path) (h : p.insts[pc]? = some (.jump x)) :
    runFrom p tc rest i path pc best = runFrom p tc rest i (pc :: path) x best := by
  have hlt : pc < p.size := (Array.getElem?_eq_some_iff.mp h).1
  rw [runFrom, dif_neg hmem, dif_pos hlt]
  simp only [h]

theorem runFrom_fail (hmem : pc ∉ path) (h : p.insts[pc]? = some .fail) :
    runFrom p tc rest i path pc best = ⟨⟨best, i⟩, .failed⟩ := by
  have hlt : pc < p.size := (Array.getElem?_eq_some_iff.mp h).1
  rw [runFrom, dif_neg hmem, dif_pos hlt]
  simp only [h]

theorem runFrom_branch_nil {r : ByteRange} (hmem : pc ∉ path)
    (h : p.insts[pc]? = some (.branch r)) :
    runFrom p tc [] i path pc best = ⟨⟨best, i⟩, .endOfInput⟩ := by
  have hlt : pc < p.size := (Array.getElem?_eq_some_iff.mp h).1
  rw [runFrom, dif_neg hmem, dif_pos hlt]
  simp only [h]

theorem runFrom_branch_cons {r : ByteRange} (hmem : pc ∉ path)
    (h : p.insts[pc]? = some (.branch r)) :
    runFrom p tc (b :: rest) i path pc best =
      if r.contains b then runFrom p tc rest (i + 1) [] (pc + 1) best
      else runFrom p tc (b :: rest) i (pc :: path) (pc + 2) best := by
  have hlt : pc < p.size := (Array.getElem?_eq_some_iff.mp h).1
  rw [runFrom, dif_neg hmem, dif_pos hlt]
  simp only [h]

/-- At the end of the input, the edges of a block stop the run. -/
theorem runFrom_edges_nil (hcode : p.Holds pc (edgesCode offset edges)) (hpath : Unmet p path pc) :
    (runFrom p tc [] i path pc best).finding = ⟨best, i⟩ := by
  cases edges with
  | nil =>
    have hfail := holds_edgesCode_nil.mp hcode
    rw [runFrom_fail (hpath.not_mem hfail (by simp)) hfail]
  | cons e edges =>
    have hbranch : p.insts[pc]? = some (.branch e.1) := (holds_cons.mp hcode).1
    rw [runFrom_branch_nil (hpath.not_mem hbranch (by simp)) hbranch]

/-- On a byte that no edge of a block has, the run stops. -/
theorem runFrom_edges_none (hcode : p.Holds pc (edgesCode offset edges)) (hpath : Unmet p path pc)
    (hnone : edges.target? b = none) :
    (runFrom p tc (b :: rest) i path pc best).finding = ⟨best, i⟩ := by
  induction edges generalizing pc path with
  | nil =>
    have hfail := holds_edgesCode_nil.mp hcode
    rw [runFrom_fail (hpath.not_mem hfail (by simp)) hfail]
  | cons e edges ih =>
    obtain ⟨r, x⟩ := e
    obtain ⟨hbranch, _, hcode⟩ := holds_edgesCode_cons.mp hcode
    rw [Edges.target?_cons] at hnone
    by_cases hb : r.contains b = true
    · simp [hb] at hnone
    · rw [if_neg hb] at hnone
      rw [runFrom_branch_cons (hpath.not_mem hbranch (by simp)) hbranch, if_neg hb]
      exact ih hcode (hpath.cons (by omega)) hnone

/-- On a byte that an edge of a block has, the run goes on at the block that the edge leads to. -/
theorem runFrom_edges_some (hcode : p.Holds pc (edgesCode offset edges)) (hpath : Unmet p path pc)
    {t : Nat} (hsome : edges.target? b = some t) :
    ∃ path', Unmet p path' (offset t) ∧ runFrom p tc (b :: rest) i path pc best =
      runFrom p tc rest (i + 1) path' (offset t) best := by
  induction edges generalizing pc path with
  | nil => simp at hsome
  | cons e edges ih =>
    obtain ⟨r, x⟩ := e
    obtain ⟨hbranch, hjump, hcode⟩ := holds_edgesCode_cons.mp hcode
    rw [Edges.target?_cons] at hsome
    rw [runFrom_branch_cons (hpath.not_mem hbranch (by simp)) hbranch]
    by_cases hb : r.contains b = true
    · rw [if_pos hb] at hsome
      obtain rfl := Option.some.inj hsome
      refine ⟨[pc + 1], unmet_of_jump hjump _, ?_⟩
      rw [if_pos hb, runFrom_jump List.not_mem_nil hjump]
    · rw [if_neg hb] at hsome
      obtain ⟨path', hpath', heq⟩ := ih hcode (hpath.cons (by omega)) hsome
      refine ⟨path', hpath', ?_⟩
      rw [if_neg hb, heq]

/-! ## Whole runs -/

variable {blocks : List Block} {block : Block} {j : Nat}

/-- A run records what a block accepts, and goes on with its edges. -/
theorem runFrom_block (hblock : blocks[j]? = some block)
    (hpath : Unmet (ofBlocks blocks) path (blockOffset blocks j)) :
    ∃ pc path', (ofBlocks blocks).Holds pc (edgesCode (blockOffset blocks) block.edges) ∧
      Unmet (ofBlocks blocks) path' pc ∧
      runFrom (ofBlocks blocks) tc rest i path (blockOffset blocks j) best =
        runFrom (ofBlocks blocks) tc rest i path' pc
          ((blockMachine blocks).recordState tc i best j) := by
  have hedges := holds_edges hblock
  unfold Machine.recordState
  rw [accept?_blockMachine hblock]
  cases haccept : block.accept? with
  | none =>
    rw [haccept, Option.toList_none, List.length_nil, Nat.add_zero] at hedges
    refine ⟨_, path, hedges, hpath, ?_⟩
    rw [Machine.record, ite_self]
  | some k =>
    rw [haccept, Option.toList_some, List.length_singleton] at hedges
    have hget := getElem?_accept hblock haccept
    refine ⟨_, _ :: path, hedges, hpath.cons (Nat.lt_succ_self _), ?_⟩
    rw [runFrom_accept (hpath.not_mem hget (by simp)) hget, Machine.record]

/-- From the start of a block, a run finds what the machine of the blocks finds. -/
theorem finding_runFrom_block (hlinked : Linked blocks) : ∀ (rest : Bytes) (i j : Nat)
    (path : List Nat) (best : Option (Nat × Nat)), tc ≤ i → j < blocks.length →
    Unmet (ofBlocks blocks) path (blockOffset blocks j) →
    (runFrom (ofBlocks blocks) tc rest i path (blockOffset blocks j) best).finding =
      (blockMachine blocks).find j i ((blockMachine blocks).recordState tc i best j) rest := by
  intro rest
  induction rest with
  | nil =>
    intro i j path best _ hj hpath
    obtain ⟨pc, path', hcode, hpath', heq⟩ := runFrom_block (List.getElem?_eq_getElem hj) hpath
    rw [heq, runFrom_edges_nil hcode hpath']
    rfl
  | cons b rest ih =>
    intro i j path best hi hj hpath
    have hblock := List.getElem?_eq_getElem hj
    have hnext := next?_blockMachine hblock b
    obtain ⟨pc, path', hcode, hpath', heq⟩ := runFrom_block hblock hpath
    rw [heq]
    cases htarget : blocks[j].edges.target? b with
    | none =>
      rw [runFrom_edges_none hcode hpath' htarget,
        Machine.find_of_next?_eq_none (hnext.trans htarget)]
    | some t =>
      obtain ⟨path'', hpath'', heq'⟩ := runFrom_edges_some hcode hpath' htarget
      rw [heq', ih (i + 1) t path'' _ (Nat.le_succ_of_le hi)
        (hlinked (hnext.trans htarget)) hpath'',
        Machine.find_of_next?_eq_some (hnext.trans htarget)]
      congr 1
      exact if_pos (Nat.lt_succ_of_le hi)

/-- Following the one thread of a program made of blocks finds what the machine of the blocks
    finds. -/
theorem run_ofBlocks (hlinked : Linked blocks) (hpos : 0 < blocks.length)
    (text : Bytes) (tc : Nat) : (run (ofBlocks blocks) text tc).finding =
      (blockMachine blocks).find 0 tc none (text.drop tc) := by
  have hrun := finding_runFrom_block hlinked (text.drop tc) tc 0 [] none (Nat.le_refl tc) hpos
    (unmet_nil _ _)
  rw [Machine.recordState, if_neg (Nat.lt_irrefl tc)] at hrun
  exact hrun

end Direct

end Munch

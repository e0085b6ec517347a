import Munch.Edges
import Munch.Exploration
import Munch.Program.Closure

set_option autoImplicit false

/-! # Deterministic programs

The threads of a program at one moment matter only by their kernel: the offsets at which they
consume a byte or accept. A deterministic program has a block for each kernel that can be reached.
A block accepts the least pattern that its kernel accepts, and for each of the ranges of bytes on
which the kernel goes on in the same way, it jumps to the block of the kernel that comes next.

Blocks are numbered in the order in which their kernels are found, starting from the kernel at
offset 0, oldest first. -/

namespace Munch

namespace Program

/-- Whether an instruction belongs to kernels. -/
def isKernelInst (p : Program) (pc : Nat) : Bool :=
  match p.insts[pc]? with
  | some (.consume _) | some (.accept _) => true
  | _ => false

/-- The kernel of the threads that are at some offsets. -/
def kernelOf (p : Program) (pcs : List Nat) : IndexSet :=
  let threads := pcs.foldl (ThreadList.close p) (.empty p.size)
  IndexSet.collect p.size fun pc => threads.contains pc && p.isKernelInst pc

/-- The ranges that the threads of a kernel consume, each with its offset. -/
def consumers (p : Program) (kernel : IndexSet) : List (Nat × ByteRange) :=
  kernel.filterMap fun (pc : Nat) =>
    match p.insts[pc]? with
    | some (.consume r) => some (pc, r)
    | _ => none

/-- The least pattern that a kernel accepts. -/
def kernelAccept? (p : Program) (kernel : IndexSet) : Option Nat :=
  (kernel.filterMap p.pattern?).min?

/-- The numbers at which some of the ranges start or have just ended, in ascending order. -/
def cuts (rs : List ByteRange) : List Nat :=
  IndexSet.ofList 257 (rs.flatMap fun r => [r.lo.toNat, r.hi.toNat + 1])

/-- The ranges between neighbouring cuts. No range of the list ends or starts inside one. -/
def windows (rs : List ByteRange) : List ByteRange :=
  ((cuts rs).zip (cuts rs).tail).filterMap fun w => ByteRange.upTo w.1 w.2

/-- Where the threads of a kernel are after a byte of a window. -/
def movers (p : Program) (kernel : IndexSet) (w : ByteRange) : List Nat :=
  (p.consumers kernel).filterMap fun c =>
    if c.2.lo ≤ w.lo ∧ w.hi ≤ c.2.hi then some (c.1 + 1) else none

/-- The kernel that comes after a kernel on the bytes of a window, with the window, if a thread
consumes them. -/
def kernelMove (p : Program) (kernel : IndexSet) (w : ByteRange) : Option (ByteRange × IndexSet) :=
  match p.movers kernel w with
  | [] => none
  | pcs => some (w, p.kernelOf pcs)

theorem kernelMove_eq_some_iff {p : Program} {kernel : IndexSet} {w : ByteRange}
    {m : ByteRange × IndexSet} : p.kernelMove kernel w = some m ↔
      p.movers kernel w ≠ [] ∧ m = (w, p.kernelOf (p.movers kernel w)) := by
  unfold kernelMove
  cases p.movers kernel w with
  | nil => simp
  | cons => simp [eq_comm]

/-- The kernels that come after a kernel, each with the window of bytes that leads to it. -/
def kernelMoves (p : Program) (kernel : IndexSet) : List (ByteRange × IndexSet) :=
  (windows ((p.consumers kernel).map (·.2))).filterMap (p.kernelMove kernel)

/-- The kernels that come after a kernel. -/
def nextKernels (p : Program) (kernel : IndexSet) : List IndexSet :=
  (p.kernelMoves kernel).map (·.2)

theorem kernelOf_mem_subsets (p : Program) (pcs : List Nat) :
    p.kernelOf pcs ∈ IndexSet.subsets p.size :=
  IndexSet.mem_subsets _ _

theorem nextKernels_bounded (p : Program) :
    ∀ k, ∀ t ∈ p.nextKernels k, t ∈ IndexSet.subsets p.size := by
  intro k t ht
  simp only [nextKernels, kernelMoves, List.mem_map, List.mem_filterMap] at ht
  obtain ⟨m, ⟨w, _, hw⟩, rfl⟩ := ht
  rw [(kernelMove_eq_some_iff.mp hw).2]
  exact p.kernelOf_mem_subsets _

/-- The kernels that can be reached. -/
def kernels (p : Program) : Exploration :=
  explore p.size .oldestFirst p.nextKernels p.nextKernels_bounded (p.kernelOf [0])

/-- The pattern that a block accepts, and the ranges on which it jumps, with the blocks that they
lead to. -/
structure Block where
  accept? : Option Nat
  edges : Edges

/-- The block of a kernel, among the kernels that were found. -/
def blockOf (p : Program) (found : List IndexSet) (kernel : IndexSet) : Block where
  accept? := p.kernelAccept? kernel
  edges := Edges.join ((p.kernelMoves kernel).map fun m => (m.1, found.idxOf m.2))

/-- The number of instructions of a block. -/
def Block.size (b : Block) : Nat := b.accept?.toList.length + 2 * b.edges.length + 1

/-- The code of a block, given where each block starts. -/
def Block.code (offset : Nat → Nat) (b : Block) : List Inst :=
  b.accept?.toList.map .accept ++
    (b.edges.flatMap fun e => [.branch e.1, .jump (offset e.2)]) ++ [.fail]

/-- Where a block of a list starts, if they are placed one after the other. -/
def blockOffset (blocks : List Block) (i : Nat) : Nat :=
  ((blocks.take i).map Block.size).foldr (· + ·) 0

/-- The program that is made of some blocks. -/
def ofBlocks (blocks : List Block) : Program :=
  ⟨(blocks.flatMap (Block.code (blockOffset blocks))).toArray⟩

/-- The blocks of the kernels of a program. -/
def kernelBlocks (p : Program) : List Block := p.kernels.found.map (p.blockOf p.kernels.found)

/-- A deterministic program that finds the same matches; a deterministic program is left as it
is. -/
def toDeterministic (p : Program) : Program :=
  if p.isDeterministic then p else ofBlocks p.kernelBlocks

end Program

end Munch

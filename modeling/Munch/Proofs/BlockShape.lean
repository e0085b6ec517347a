import Munch.Proofs.Determinization
import Munch.Proofs.EmptyLoops
import Munch.Proofs.ValidBlocks

set_option autoImplicit false

/-! # The shape of deterministic programs

The deterministic program of a program that needs threads is described here without saying how it
was laid out: its instructions are divided into segments, each of which is a block by its form
(`IsBlock`). In every segment the ranges ascend, and ranges that touch lead to different places
(`Edges.Apart`), since the windows of a kernel ascend and neighbours with one target were joined.
Every `jump` leads to where a segment starts, and every segment is reached from the first one, which
is that of the kernel at offset 0 (`Program.isLaidOut_toDeterministic`). -/

namespace Munch

/-! ## Ranges that ascend -/

theorem ByteRange.hull_hi_toNat (r s : ByteRange) :
    (r.hull s).hi.toNat = max r.hi.toNat s.hi.toNat := by
  simp only [hull, UInt8.le_iff_toNat_le]
  split <;> omega

namespace Edges

/-- An edge comes before another one, and leads to another target if their ranges touch. -/
def Apart (e f : ByteRange × Nat) : Prop :=
  e.1.hi.toNat < f.1.lo.toNat ∧ (e.1.hi.toNat + 1 = f.1.lo.toNat → e.2 ≠ f.2)

variable {edges : Edges} {e : ByteRange × Nat} {r : ByteRange} {x : Nat}

/-- Joined edges start where some of the edges start. -/
theorem exists_lo_of_mem_cons (h : e ∈ cons r x edges) :
    e.1.lo.toNat = r.lo.toNat ∨ ∃ f ∈ edges, f.1.lo.toNat = e.1.lo.toNat := by
  cases edges with
  | nil =>
    obtain rfl := List.mem_singleton.mp h
    exact .inl rfl
  | cons first rest =>
    obtain ⟨s, y⟩ := first
    rw [cons] at h
    split at h
    · rcases List.mem_cons.mp h with rfl | h
      · have hlo := r.hull_lo_toNat s
        rcases Nat.le_total r.lo.toNat s.lo.toNat with hle | hle
        · exact .inl (hlo.trans (Nat.min_eq_left hle))
        · exact .inr ⟨_, List.mem_cons_self, (hlo.trans (Nat.min_eq_right hle)).symm⟩
      · exact .inr ⟨e, List.mem_cons_of_mem _ h, rfl⟩
    · rcases List.mem_cons.mp h with rfl | h
      · exact .inl rfl
      · exact .inr ⟨e, h, rfl⟩

theorem exists_lo_of_mem_join (h : e ∈ join edges) : ∃ f ∈ edges, f.1.lo.toNat = e.1.lo.toNat := by
  induction edges generalizing e with
  | nil => cases h
  | cons first edges ih =>
    rcases exists_lo_of_mem_cons h with heq | ⟨f, hf, heq⟩
    · exact ⟨first, List.mem_cons_self, heq.symm⟩
    · obtain ⟨g, hg, heq'⟩ := ih hf
      exact ⟨g, List.mem_cons_of_mem _ hg, heq'.trans heq⟩

theorem pairwise_apart_cons (h : edges.Pairwise Apart)
    (hr : ∀ e ∈ edges, r.hi.toNat < e.1.lo.toNat) : (cons r x edges).Pairwise Apart := by
  cases edges with
  | nil => exact List.pairwise_singleton _ _
  | cons first rest =>
    obtain ⟨s, y⟩ := first
    obtain ⟨hs, hrest⟩ := List.pairwise_cons.mp h
    have hrs : r.hi.toNat < s.lo.toNat := hr _ List.mem_cons_self
    have hle := s.toNat_lo_le_hi
    rw [cons]
    split
    · next hjoin =>
      obtain ⟨rfl, -⟩ := hjoin
      have hhi : (r.hull s).hi.toNat = s.hi.toNat := by
        rw [r.hull_hi_toNat s]
        omega
      refine List.pairwise_cons.mpr ⟨fun f hf => ?_, hrest⟩
      rw [Apart, hhi]
      exact hs f hf
    · next hapart =>
      refine List.pairwise_cons.mpr ⟨fun f hf => ?_, h⟩
      rcases List.mem_cons.mp hf with rfl | hf
      · exact ⟨hrs, fun htouch heq => hapart ⟨heq, htouch⟩⟩
      -- The first range lies between, so ranges further on do not touch.
      · have hlt : s.hi.toNat < f.1.lo.toNat := (hs f hf).1
        have hgap : r.hi.toNat + 1 < f.1.lo.toNat := by omega
        exact ⟨Nat.lt_of_succ_lt hgap, fun htouch => absurd htouch (Nat.ne_of_lt hgap)⟩

/-- Joining ascending edges sets them apart. -/
theorem pairwise_apart_join (h : edges.Pairwise fun e f => e.1.hi.toNat < f.1.lo.toNat) :
    (join edges).Pairwise Apart := by
  induction edges with
  | nil => exact .nil
  | cons first edges ih =>
    obtain ⟨hfirst, hedges⟩ := List.pairwise_cons.mp h
    refine pairwise_apart_cons (ih hedges) fun e he => ?_
    obtain ⟨f, hf, heq⟩ := exists_lo_of_mem_join he
    exact heq ▸ hfirst f hf

end Edges

/-- Neighbours in an ascending list come one after the other. -/
theorem pairwise_zip_tail {l : List Nat} (h : l.Pairwise (· < ·)) :
    (l.zip l.tail).Pairwise fun v w => v.2 ≤ w.1 := by
  induction l with
  | nil => exact .nil
  | cons a l ih =>
    cases l with
    | nil => exact .nil
    | cons b l =>
      have hl := h.of_cons
      refine List.pairwise_cons.mpr ⟨fun w hw => ?_, ih hl⟩
      rcases List.mem_cons.mp (List.of_mem_zip hw).1 with heq | hmem
      · exact Nat.le_of_eq heq.symm
      · exact Nat.le_of_lt (List.rel_of_pairwise_cons hl hmem)

namespace Program

variable {p : Program} {kernel : IndexSet}

theorem pairwise_windows (rs : List ByteRange) :
    (windows rs).Pairwise fun v w => v.hi.toNat < w.lo.toNat := by
  refine List.Pairwise.filterMap _ (fun v w hvw a ha b hb => ?_)
    (pairwise_zip_tail (ascending_cuts rs))
  obtain ⟨hv, -, hhi⟩ := ByteRange.mem_upTo ha
  obtain ⟨-, hlo, -⟩ := ByteRange.mem_upTo hb
  omega

theorem pairwise_kernelMoves (p : Program) (kernel : IndexSet) :
    (p.kernelMoves kernel).Pairwise fun m n => m.1.hi.toNat < n.1.lo.toNat := by
  refine List.Pairwise.filterMap _ (fun v w hvw a ha b hb => ?_) (pairwise_windows _)
  obtain ⟨-, rfl⟩ := kernelMove_eq_some_iff.mp ha
  obtain ⟨-, rfl⟩ := kernelMove_eq_some_iff.mp hb
  exact hvw

theorem pairwise_apart_blockOf (p : Program) (found : List IndexSet) (kernel : IndexSet) :
    (p.blockOf found kernel).edges.Pairwise Edges.Apart :=
  Edges.pairwise_apart_join (List.pairwise_map.mpr (p.pairwise_kernelMoves kernel))

end Program

/-! ## Segments -/

/-- A block by its form: an `accept` or none, a `branch` and the `jump` that it can skip for each of
    some ranges, and a `fail`. -/
inductive IsBlock : List Inst → Option Nat → Edges → Prop where
  | fail : IsBlock [.fail] none []
  | arm {code : List Inst} {r : ByteRange} {x : Nat} {arms : Edges} (h : IsBlock code none arms) :
      IsBlock (.branch r :: .jump x :: code) none ((r, x) :: arms)
  | accept {code : List Inst} {id : Nat} {arms : Edges} (h : IsBlock code none arms) :
      IsBlock (.accept id :: code) (some id) arms

/-- A part of a program that is a block: its code, the pattern that it accepts, and its ranges, each
    with the offset that it leads to. -/
structure Segment where
  code : List Inst
  accept? : Option Nat
  arms : Edges
  isBlock : IsBlock code accept? arms

namespace Segment

/-- The offset at which a segment starts, if segments are placed one after the other. -/
def start (segments : List Segment) (i : Nat) : Nat := ((segments.take i).flatMap code).length

/-- A segment leads to another one: it has a range that leads to where the other one starts. -/
def Leads (segments : List Segment) (i j : Nat) : Prop :=
  ∃ s, segments[i]? = some s ∧ ∃ a ∈ s.arms, a.2 = start segments j

theorem isBlock_edgesCode (offset : Nat → Nat) (edges : Edges) :
    IsBlock (Program.edgesCode offset edges) none (edges.map fun e => (e.1, offset e.2)) := by
  induction edges with
  | nil => exact .fail
  | cons e edges ih => exact .arm ih

theorem isBlock_code (offset : Nat → Nat) (block : Program.Block) :
    IsBlock (block.code offset) block.accept? (block.edges.map fun e => (e.1, offset e.2)) := by
  rw [Program.Block.code_eq]
  cases block.accept? with
  | none => exact isBlock_edgesCode offset block.edges
  | some id => exact .accept (isBlock_edgesCode offset block.edges)

/-- The segment of a block, given where each block starts. -/
def ofBlock (offset : Nat → Nat) (block : Program.Block) : Segment where
  code := block.code offset
  accept? := block.accept?
  arms := block.edges.map fun e => (e.1, offset e.2)
  isBlock := isBlock_code offset block

end Segment

namespace Program

open Segment

/-- A program is divided into segments whose ranges are apart, whose jumps lead to where segments
    start, and all of which are reached from the first one. -/
structure IsLaidOut (d : Program) (segments : List Segment) : Prop where
  insts_eq : d.insts.toList = segments.flatMap code
  apart : ∀ s ∈ segments, s.arms.Pairwise Edges.Apart
  lands : ∀ s ∈ segments, ∀ a ∈ s.arms, ∃ i < segments.length, a.2 = start segments i
  reached : ∀ i < segments.length, Relation.ReflTransGen (Segment.Leads segments) 0 i

variable {p : Program} {blocks : List Block} {i j : Nat}

theorem start_map_ofBlock (blocks : List Block) (i : Nat) :
    start (blocks.map (ofBlock (blockOffset blocks))) i = blockOffset blocks i := by
  rw [start, ← List.map_take, List.flatMap_map]
  exact length_flatMap_code (blockOffset blocks) blocks i

theorem leads_map_ofBlock {block : Block} {e : ByteRange × Nat} (h : blocks[i]? = some block)
    (he : e ∈ block.edges) :
    Segment.Leads (blocks.map (ofBlock (blockOffset blocks))) i e.2 := by
  refine ⟨_, by rw [List.getElem?_map, h, Option.map_some], (e.1, blockOffset blocks e.2), ?_, ?_⟩
  · exact List.mem_map_of_mem he
  · exact (start_map_ofBlock blocks e.2).symm

/-- Blocks that a machine of blocks goes to are reached. -/
theorem reflTransGen_of_reaches (h : (blockMachine blocks).Reaches 0 i) :
    Relation.ReflTransGen (Segment.Leads (blocks.map (ofBlock (blockOffset blocks)))) 0 i := by
  refine h.induct .refl fun j k b hj hnext => ?_
  cases hblock : blocks[j]? with
  | none => simp [blockMachine, hblock] at hnext
  | some block =>
    rw [next?_blockMachine hblock, Edges.target?, Option.map_eq_some_iff] at hnext
    obtain ⟨e, he, rfl⟩ := hnext
    exact hj.tail (leads_map_ofBlock hblock (List.mem_of_find?_eq_some he))

/-- Placing ascending edges leaves them apart if it places different targets at different
    offsets. -/
theorem pairwise_apart_map {edges : Edges} {offset : Nat → Nat} (h : edges.Pairwise Edges.Apart)
    (hoffset : ∀ e ∈ edges, ∀ f ∈ edges, offset e.2 = offset f.2 → e.2 = f.2) :
    (edges.map fun e => (e.1, offset e.2)).Pairwise Edges.Apart := by
  refine List.pairwise_map.mpr (h.imp_of_mem fun he hf hef => ⟨hef.1, fun htouch heq => ?_⟩)
  exact hef.2 htouch (hoffset _ he _ hf heq)

theorem isLaidOut_kernelBlocks (p : Program) : (ofBlocks p.kernelBlocks).IsLaidOut
    (p.kernelBlocks.map (ofBlock (blockOffset p.kernelBlocks))) where
  insts_eq := by
    rw [ofBlocks, List.flatMap_map]
    rfl
  apart := by
    intro s hs
    obtain ⟨block, hblock, rfl⟩ := List.mem_map.mp hs
    have hle : ∀ e ∈ block.edges, e.2 ≤ p.kernelBlocks.length :=
      fun e he => Nat.le_of_lt (p.joined_kernelBlocks block hblock e he)
    obtain ⟨kernel, -, rfl⟩ := List.mem_map.mp hblock
    exact pairwise_apart_map (p.pairwise_apart_blockOf _ kernel) fun e he f hf =>
      blockOffset_injOn (hle e he) (hle f hf)
  lands := by
    intro s hs a ha
    obtain ⟨block, hblock, rfl⟩ := List.mem_map.mp hs
    obtain ⟨e, he, rfl⟩ := List.mem_map.mp ha
    exact ⟨e.2, by simpa using p.joined_kernelBlocks block hblock e he, (start_map_ofBlock
      _ _).symm⟩
  reached := by
    intro i hi
    rw [List.length_map] at hi
    exact reflTransGen_of_reaches (reaches_kernelBlocks_iff.mpr hi)

/-! ## Segments and kernels -/

/-- There is a segment for each kernel that can be reached, the first of which is that at offset 0.
    A segment accepts what its kernel accepts, and leads on a byte to the segment of the kernel that
    comes next. -/
structure StandFor (p : Program) (segments : List Segment) (kernels : List IndexSet) : Prop where
  length_eq : segments.length = kernels.length
  nodup : kernels.Nodup
  first : kernels[0]? = some (p.kernelOf [0])
  mem_iff : ∀ kernel, kernel ∈ kernels ↔ p.kernelMachine.Reaches (p.kernelOf [0]) kernel
  accept?_eq : ∀ (i : Nat) (s : Segment) kernel, segments[i]? = some s → kernels[i]? = some kernel →
    s.accept? = p.kernelMachine.accept? kernel
  target?_eq : ∀ (i : Nat) (s : Segment) kernel, segments[i]? = some s →
    kernels[i]? = some kernel → ∀ b,
    Edges.target? s.arms b = (p.kernelMachine.next? kernel b).map fun next =>
    start segments (kernels.idxOf next)

theorem target?_map_offset (edges : Edges) (offset : Nat → Nat) (b : UInt8) :
    Edges.target? (edges.map fun e => (e.1, offset e.2)) b = (edges.target? b).map offset := by
  rw [Edges.target?, Edges.target?, List.find?_map, Option.map_map, Option.map_map]
  rfl

theorem standFor_kernelBlocks (p : Program) :
    p.StandFor (p.kernelBlocks.map (ofBlock (blockOffset p.kernelBlocks))) p.kernels.found where
  length_eq := by rw [List.length_map, kernelBlocks, List.length_map]
  nodup := p.nodup_kernels
  first := p.getElem?_found_zero
  mem_iff _ := mem_kernels_iff
  accept?_eq := by
    intro i s kernel hs hkernel
    have hblock := getElem?_kernelBlocks_iff.mpr ⟨kernel, hkernel, rfl⟩
    rw [List.getElem?_map, hblock, Option.map_some] at hs
    obtain rfl := Option.some.inj hs
    rfl
  target?_eq := by
    intro i s kernel hs hkernel b
    have hblock := getElem?_kernelBlocks_iff.mpr ⟨kernel, hkernel, rfl⟩
    rw [List.getElem?_map, hblock, Option.map_some] at hs
    obtain rfl := Option.some.inj hs
    show Edges.target? ((p.blockOf p.kernels.found kernel).edges.map _) b = _
    rw [target?_map_offset, target?_blockOf, Option.map_map]
    simp only [start_map_ofBlock, Function.comp_def]

/-! ## The deterministic program -/

/-- The deterministic program of a program that needs threads is a sequence of blocks, one for each
    kernel that can be reached, that of offset 0 first; its ranges are apart, its jumps lead to
    where blocks start, and all blocks are reached. It needs no threads, it cannot go around without
    consuming a byte, and it is its own deterministic program. -/
theorem isLaidOut_toDeterministic (h : p.isDeterministic = false) : ∃ segments kernels,
    p.toDeterministic.IsLaidOut segments ∧ p.StandFor segments kernels ∧
      p.toDeterministic.isDeterministic = true ∧ (∀ pc, ¬ p.toDeterministic.Circles pc) ∧
      p.toDeterministic.toDeterministic = p.toDeterministic := by
  have hdet := p.isDeterministic_toDeterministic
  have hvalid : p.toDeterministic.Valid := valid_toDeterministic fun h' => by simp [h] at h'
  refine ⟨_, _, ?_, p.standFor_kernelBlocks, hdet, hvalid.not_circles hdet, ?_⟩
  · rw [toDeterministic_eq_ofBlocks h]
    exact p.isLaidOut_kernelBlocks
  · exact if_pos hdet

/-- Two patterns that go on with some of the same bytes need threads. -/
theorem isLaidOut_toDeterministic_split :
    let p : Program := ⟨#[.split 1 3, .consume ⟨97, 109, by decide⟩, .accept 0,
      .consume ⟨104, 122, by decide⟩, .accept 1]⟩
    p.isDeterministic = false ∧ ∃ segments kernels, p.toDeterministic.IsLaidOut segments ∧
      p.StandFor segments kernels ∧ p.toDeterministic.isDeterministic = true ∧
      (∀ pc, ¬ p.toDeterministic.Circles pc) ∧
      p.toDeterministic.toDeterministic = p.toDeterministic := by
  intro p
  have h : p.isDeterministic = false := by simp [p, isDeterministic, Op.isThreaded]
  exact ⟨h, isLaidOut_toDeterministic h⟩

end Program

end Munch

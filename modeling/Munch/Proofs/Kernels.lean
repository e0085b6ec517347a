import Munch.Proofs.Exploration
import Munch.Proofs.Positions
import Munch.Proofs.Subsets
import Munch.Proofs.Windows

set_option autoImplicit false

/-! # Kernels as machine states

The kernels of a program are the states of a machine: a byte leads from a kernel to what its threads
reach after they consumed the byte (`Program.kernelMachine`). Its states after a text are what the
runs of the program on the text come to (`mem_run_kernelMachine`). The windows of a kernel say the
same as the bytes, so the kernels that are found are the states that the machine goes to
(`mem_kernels_iff`).

For a pattern set, the kernels are the sets of positions of the labelled expression under other
names (`bisim_kernelMachine`). -/

namespace Munch

namespace Program

variable {p : Program} {kernel next : IndexSet} {b : UInt8} {a x : Nat}

/-- Where the threads of a kernel are after a byte. -/
def movedBy (p : Program) (kernel : IndexSet) (b : UInt8) : List Nat :=
  (p.consumers kernel).filterMap fun c => if c.2.contains b then some (c.1 + 1) else none

/-- The machine of the kernels of a program. -/
def kernelMachine (p : Program) : Machine IndexSet where
  next? kernel b :=
    match p.movedBy kernel b with
    | [] => none
    | pcs => some (p.kernelOf pcs)
  accept? := p.kernelAccept?

theorem mem_consumers {c : Nat × ByteRange} :
    c ∈ p.consumers kernel ↔ c.1 ∈ kernel ∧ p.insts[c.1]? = some (.consume c.2) := by
  obtain ⟨a, r⟩ := c
  simp only [consumers, List.mem_filterMap]
  constructor
  · intro ⟨pc, hpc, h⟩
    split at h
    · next r' hi =>
      obtain ⟨rfl, rfl⟩ := Prod.mk.inj (Option.some.inj h)
      exact ⟨hpc, hi⟩
    · simp at h
  · intro ⟨ha, hi⟩
    exact ⟨a, ha, by simp [hi]⟩

theorem mem_movedBy :
    x ∈ p.movedBy kernel b ↔ ∃ a ∈ kernel, ∃ r, p.insts[a]? = some (.consume r) ∧
    b ∈ r ∧ x = a + 1 := by
  simp only [movedBy, List.mem_filterMap]
  constructor
  · intro ⟨⟨a, r⟩, hc, h⟩
    obtain ⟨ha, hi⟩ := mem_consumers.mp hc
    by_cases hb : r.contains b = true
    · rw [if_pos hb] at h
      exact ⟨a, ha, r, hi, ByteRange.contains_iff.mp hb, (Option.some.inj h).symm⟩
    · simp [hb] at h
  · rintro ⟨a, ha, r, hi, hb, rfl⟩
    exact ⟨(a, r), mem_consumers.mpr ⟨ha, hi⟩, if_pos (ByteRange.contains_iff.mpr hb)⟩

theorem next?_kernelMachine (p : Program) (kernel : IndexSet) (b : UInt8) :
    p.kernelMachine.next? kernel b =
      if p.movedBy kernel b = [] then none else some (p.kernelOf (p.movedBy kernel b)) := by
  show (match p.movedBy kernel b with | [] => none | pcs => some (p.kernelOf pcs)) = _
  cases p.movedBy kernel b <;> simp

theorem ascending_kernelOf (p : Program) (pcs : List Nat) : (p.kernelOf pcs).Ascending :=
  IndexSet.ascending_collect _ _

/-! ## Windows of a kernel -/

/-- On every byte of a window, the threads that move are those that consume the window. -/
theorem movers_eq_movedBy {w : ByteRange} (hw : w ∈ windows ((p.consumers kernel).map (·.2)))
    (hb : b ∈ w) : p.movers kernel w = p.movedBy kernel b := by
  refine List.filterMap_congr fun c hc => ?_
  have hmem := mem_iff_of_mem_windows hw (List.mem_map_of_mem hc) hb
  by_cases h : b ∈ c.2
  · rw [if_pos (hmem.mp h), if_pos (ByteRange.contains_iff.mpr h)]
  · rw [if_neg (fun hle => h (hmem.mpr hle)), if_neg (fun hc => h (ByteRange.contains_iff.mp hc))]

theorem mem_kernelMoves {m : ByteRange × IndexSet} : m ∈ p.kernelMoves kernel ↔
    m.1 ∈ windows ((p.consumers kernel).map (·.2)) ∧ p.movers kernel m.1 ≠ [] ∧
      m.2 = p.kernelOf (p.movers kernel m.1) := by
  rw [kernelMoves, List.mem_filterMap]
  constructor
  · rintro ⟨w, hw, h⟩
    obtain ⟨hne, rfl⟩ := kernelMove_eq_some_iff.mp h
    exact ⟨hw, hne, rfl⟩
  · rintro ⟨hw, hne, hk⟩
    exact ⟨m.1, hw, kernelMove_eq_some_iff.mpr ⟨hne, Prod.ext rfl hk⟩⟩

/-- On a byte of a window, the machine goes on as the window says. -/
theorem next?_of_mem_kernelMoves {m : ByteRange × IndexSet} (hm : m ∈ p.kernelMoves kernel)
    (hb : b ∈ m.1) : p.kernelMachine.next? kernel b = some m.2 := by
  obtain ⟨hw, hne, hk⟩ := mem_kernelMoves.mp hm
  have hmoved := movers_eq_movedBy hw hb
  rw [next?_kernelMachine, ← hmoved, if_neg hne, hk]

/-- On a byte of no window, the machine does not go on. -/
theorem next?_of_not_mem_kernelMoves (h : ∀ m ∈ p.kernelMoves kernel, b ∉ m.1) :
    p.kernelMachine.next? kernel b = none := by
  rw [next?_kernelMachine, if_pos]
  refine List.eq_nil_iff_forall_not_mem.mpr fun x hx => ?_
  obtain ⟨a, ha, r, hi, hb, _⟩ := mem_movedBy.mp hx
  have hr : r ∈ (p.consumers kernel).map (·.2) :=
    List.mem_map.mpr ⟨(a, r), mem_consumers.mpr ⟨ha, hi⟩, rfl⟩
  obtain ⟨w, hw, hbw⟩ := exists_mem_windows hr hb
  have hne : p.movers kernel w ≠ [] := by
    rw [movers_eq_movedBy hw hbw]
    exact List.ne_nil_of_mem hx
  exact h (w, p.kernelOf (p.movers kernel w)) (mem_kernelMoves.mpr ⟨hw, hne, rfl⟩) hbw

/-- The kernels that come after a kernel are those that its machine goes on to. -/
theorem mem_nextKernels :
    next ∈ p.nextKernels kernel ↔ ∃ b, p.kernelMachine.next? kernel b = some next := by
  rw [nextKernels, List.mem_map]
  constructor
  · rintro ⟨m, hm, rfl⟩
    exact ⟨m.1.lo, next?_of_mem_kernelMoves hm ⟨UInt8.le_refl _, m.1.lo_le_hi⟩⟩
  · rintro ⟨b, hb⟩
    by_cases h : ∃ m ∈ p.kernelMoves kernel, b ∈ m.1
    · obtain ⟨m, hm, hbm⟩ := h
      rw [next?_of_mem_kernelMoves hm hbm] at hb
      exact ⟨m, hm, Option.some.inj hb⟩
    · rw [next?_of_not_mem_kernelMoves fun m hm hbm => h ⟨m, hm, hbm⟩] at hb
      simp at hb

/-- The kernels that are found are those that the machine goes to. -/
theorem mem_kernels_iff :
    kernel ∈ p.kernels.found ↔ p.kernelMachine.Reaches (p.kernelOf [0]) kernel :=
  mem_found_iff _ _ _ _ _ (fun _ _ => mem_nextKernels) kernel

/-! ## Kernels and runs -/

/-- A run that consumes a byte passes to an instruction that consumes the byte. -/
theorem run_cons_iff {c : UInt8} {w : Bytes} : (∃ n, p.Run n a (c :: w) x) ↔
    ∃ d r, p.Passes a d ∧ p.insts[d]? = some (.consume r) ∧ c ∈ r ∧ ∃ n, p.Run n (d + 1) w x := by
  constructor
  · intro ⟨n, hrun⟩
    generalize hv : c :: w = v at hrun
    induction hrun with
    | refl => cases hv
    | left h _ ih =>
      obtain ⟨d, r, ⟨m, hm⟩, hd⟩ := ih hv
      exact ⟨d, r, ⟨m + 1, .left h hm⟩, hd⟩
    | right h _ ih =>
      obtain ⟨d, r, ⟨m, hm⟩, hd⟩ := ih hv
      exact ⟨d, r, ⟨m + 1, .right h hm⟩, hd⟩
    | jump h _ ih =>
      obtain ⟨d, r, ⟨m, hm⟩, hd⟩ := ih hv
      exact ⟨d, r, ⟨m + 1, .jump h hm⟩, hd⟩
    | @consume n a b r c' w' h hc hrun =>
      obtain ⟨rfl, rfl⟩ := List.cons.inj hv
      exact ⟨a, r, .refl p a, h, hc, n, hrun⟩
  · intro ⟨d, r, ⟨m, hm⟩, hd, hc, n, hrun⟩
    have := hm.trans (.consume hd hc hrun)
    exact ⟨_, this⟩

/-- After a text, the machine is at what the runs on the text come to. -/
theorem mem_run_kernelMachine (hdet : p.isDeterministic = false) (w : Bytes) : ∀ pcs,
    (∃ kernel, p.kernelMachine.run (p.kernelOf pcs) w = some kernel ∧ x ∈ kernel) ↔
      p.isKernelInst x = true ∧ ∃ s ∈ pcs, ∃ n, p.Run n s w x := by
  induction w with
  | nil =>
    intro pcs
    simp only [Machine.run_nil, Option.some.injEq, exists_eq_left', mem_kernelOf,
      reach_iff_passes hdet]
    exact and_comm
  | cons b w ih =>
    intro pcs
    have hmoved : (∃ s ∈ pcs, ∃ n, p.Run n s (b :: w) x) ↔
        ∃ s ∈ p.movedBy (p.kernelOf pcs) b, ∃ n, p.Run n s w x := by
      constructor
      · intro ⟨s, hs, hrun⟩
        obtain ⟨d, r, hpass, hd, hb, hrun⟩ := run_cons_iff.mp hrun
        have hkernel : d ∈ p.kernelOf pcs :=
          mem_kernelOf.mpr ⟨⟨s, hs, (reach_iff_passes hdet).mpr hpass⟩, isKernelInst_consume hd⟩
        exact ⟨d + 1, mem_movedBy.mpr ⟨d, hkernel, r, hd, hb, rfl⟩, hrun⟩
      · intro ⟨s', hs', hrun⟩
        obtain ⟨d, hd, r, hi, hb, rfl⟩ := mem_movedBy.mp hs'
        obtain ⟨⟨s, hs, hreach⟩, _⟩ := mem_kernelOf.mp hd
        exact ⟨s, hs, run_cons_iff.mpr ⟨d, r, (reach_iff_passes hdet).mp hreach, hi, hb, hrun⟩⟩
    rw [hmoved, Machine.run_cons, next?_kernelMachine]
    by_cases h : p.movedBy (p.kernelOf pcs) b = []
    · simp [h]
    · rw [if_neg h, Option.bind_some, ih]

theorem isKernelInst_accept_fail {n a : Nat} :
    isKernelInst ⟨#[.accept n, .fail]⟩ a = true ↔ a = 0 := by
  constructor
  · intro h
    have hlt : a < 2 := lt_size_of_isKernelInst h
    have hne : a ≠ 1 := by
      rintro rfl
      cases h
    omega
  · rintro rfl
    rfl

theorem kernelOf_accept_fail (n : Nat) : kernelOf ⟨#[.accept n, .fail]⟩ [0] = [0] := by
  refine IndexSet.ext (ascending_kernelOf _ _) (List.pairwise_singleton _ _) fun x => ?_
  rw [mem_kernelOf, List.mem_singleton, isKernelInst_accept_fail]
  constructor
  · exact And.right
  · rintro rfl
    exact ⟨⟨0, by simp, .refl _ 0⟩, rfl⟩

theorem kernelOf_loneAccept : loneAccept.kernelOf [0] = [0] := kernelOf_accept_fail 0

/-- After a text, the machine is at what the runs on the text come to, also if the program is a
    single `accept`. -/
theorem mem_run_kernelMachine_zero (h : p.isDeterministic = false ∨ ∃ n, p = ⟨#[.accept n, .fail]⟩)
    (w : Bytes) : (∃ kernel, p.kernelMachine.run (p.kernelOf [0]) w = some kernel ∧ x ∈ kernel) ↔
      p.isKernelInst x = true ∧ ∃ n, p.Run n 0 w x := by
  rcases h with hdet | ⟨n, rfl⟩
  · rw [mem_run_kernelMachine hdet]
    simp
  -- This program has no threads: a step leads past its `accept`, and a run does not.
  · have hzero : (⟨#[.accept n, .fail]⟩ : Program).insts[0]? = some (.accept n) := rfl
    rw [kernelOf_accept_fail]
    cases w with
    | nil =>
      constructor
      · intro ⟨kernel, hrun, hx⟩
        obtain rfl := Option.some.inj hrun
        obtain rfl := List.mem_singleton.mp hx
        exact ⟨rfl, 0, .refl 0⟩
      · intro ⟨hx, _⟩
        exact ⟨[0], rfl, List.mem_singleton.mpr (isKernelInst_accept_fail.mp hx)⟩
    | cons b w =>
      constructor
      · intro ⟨kernel, hrun, _⟩
        have hnone : (kernelMachine ⟨#[.accept n, .fail]⟩).next? [0] b = none := rfl
        simp [Machine.run_cons, hnone] at hrun
      · intro ⟨_, m, hrun⟩
        have := (hrun.of_accept hzero).1
        simp at this

/-- After a text, the machine is at the `accept`s that the runs on the text come to. -/
theorem run_accept_iff (h : p.isDeterministic = false ∨ ∃ n, p = ⟨#[.accept n, .fail]⟩)
    {k : Nat} {w : Bytes} : (∃ n t, p.Run n 0 w t ∧ p.pattern? t = some k) ↔
      ∃ kernel, p.kernelMachine.run (p.kernelOf [0]) w = some kernel ∧
      k ∈ kernel.filterMap p.pattern? := by
  constructor
  · intro ⟨n, t, hrun, ht⟩
    obtain ⟨kernel, hkernel, hmem⟩ :=
      (mem_run_kernelMachine_zero h w).mpr ⟨isKernelInst_of_pattern? ht, n, hrun⟩
    exact ⟨kernel, hkernel, List.mem_filterMap.mpr ⟨t, hmem, ht⟩⟩
  · intro ⟨kernel, hkernel, hk⟩
    obtain ⟨t, hmem, ht⟩ := List.mem_filterMap.mp hk
    obtain ⟨_, n, hrun⟩ := (mem_run_kernelMachine_zero h w).mp ⟨kernel, hkernel, hmem⟩
    exact ⟨n, t, hrun, ht⟩

theorem IsCodeOf.threaded {re : Regex} {rs : List Regex} (h : p.IsCodeOf re rs) :
    p.isDeterministic = false ∨ ∃ n, p = ⟨#[.accept n, .fail]⟩ :=
  Or.imp And.right (fun h => ⟨0, h.2⟩) h

/-- After a text, the machine of the code of a pattern set is at what the runs on the text come
    to. -/
theorem IsCodeOf.mem_run {re : Regex} {rs : List Regex} (h : p.IsCodeOf re rs) (w : Bytes) :
    (∃ kernel, p.kernelMachine.run (p.kernelOf [0]) w = some kernel ∧ x ∈ kernel) ↔
      p.isKernelInst x = true ∧ ∃ n, p.Run n 0 w x :=
  mem_run_kernelMachine_zero h.threaded w

/-- A thread that comes to a site passes a first one. -/
theorem exists_passes_of_run {n : Nat} {w : Bytes} (hrun : p.Run n a w x)
    (hx : p.isKernelInst x = true) : ∃ y, p.isKernelInst y = true ∧ p.Passes a y := by
  induction hrun with
  | refl => exact ⟨_, hx, .refl p _⟩
  | left h _ ih =>
    obtain ⟨y, hy, m, hm⟩ := ih hx
    exact ⟨y, hy, m + 1, .left h hm⟩
  | right h _ ih =>
    obtain ⟨y, hy, m, hm⟩ := ih hx
    exact ⟨y, hy, m + 1, .right h hm⟩
  | jump h _ ih =>
    obtain ⟨y, hy, m, hm⟩ := ih hx
    exact ⟨y, hy, m + 1, .jump h hm⟩
  | consume h => exact ⟨_, isKernelInst_consume h, .refl p _⟩

/-- After every byte that the code of a pattern set consumes, it comes to a site. -/
theorem IsCodeOf.exists_reach_succ {re : Regex} {rs : List Regex} (h : p.IsCodeOf re rs)
    {r : ByteRange} (ha : p.insts[a]? = some (.consume r)) :
    ∃ y, p.isKernelInst y = true ∧ p.Reach (a + 1) y := by
  obtain ⟨n, w, t, k, hrun, ht⟩ := h.exists_run_accept (isKernelInst_consume ha)
  obtain ⟨m, rfl, c, hc, v, rfl, hrest⟩ := hrun.of_consume_of_accept ha ht
  obtain ⟨y, hy, hpass⟩ := exists_passes_of_run hrest (isKernelInst_of_pattern? ht)
  exact ⟨y, hy, hpass.reach⟩

/-- At first, the code of a pattern set comes to a site. -/
theorem IsCodeOf.exists_reach_zero {re : Regex} {rs : List Regex} (h : p.IsCodeOf re rs) :
    ∃ y, p.isKernelInst y = true ∧ p.Reach 0 y := by
  obtain ⟨stop, hcode, _⟩ := h.exists_patternsCode
  obtain ⟨n, w, t, k, hrun, ht⟩ := hcode.exists_run_accept (Nat.le_refl 0) hcode.base_lt_stop
  obtain ⟨y, hy, hpass⟩ := exists_passes_of_run hrun (isKernelInst_of_pattern? ht)
  exact ⟨y, hy, hpass.reach⟩

/-! ## Kernels and sets of positions -/

/-- A set of positions and a kernel are the same, position by position. -/
structure Matches (p : Program) (set kernel : IndexSet) : Prop where
  ascending_set : set.Ascending
  ascending_kernel : kernel.Ascending
  lt_of_mem_set : ∀ q ∈ set, q < p.sites.length
  site_of_mem_kernel : ∀ a ∈ kernel, p.isKernelInst a = true
  rank_mem_iff : ∀ a, p.isKernelInst a = true → (p.rank a ∈ set ↔ a ∈ kernel)

theorem exists_rank_eq {q : Nat} (h : q < p.sites.length) :
    ∃ a, p.isKernelInst a = true ∧ p.rank a = q :=
  ⟨p.sites[q], getElem?_sites_iff.mp (List.getElem?_eq_getElem h)⟩

theorem span?_eq_some_iff {r : ByteRange} :
    p.span? a = some r ↔ p.insts[a]? = some (.consume r) := by
  unfold span?
  split
  · next h => simp [h]
  · next h =>
    constructor
    · simp
    · exact fun heq => absurd heq (h r)

variable {l : Labelled} {set : IndexSet}

theorem Matches.mem_patterns_iff (hpairs : Pairs l p) (h : p.Matches set kernel) {k : Nat} :
    k ∈ set.filterMap l.pattern? ↔ k ∈ kernel.filterMap p.pattern? := by
  rw [List.mem_filterMap, List.mem_filterMap]
  constructor
  · intro ⟨q, hq, hk⟩
    obtain ⟨a, ha, rfl⟩ := exists_rank_eq (h.lt_of_mem_set q hq)
    refine ⟨a, (h.rank_mem_iff a ha).mp hq, ?_⟩
    rw [← hpairs.pattern?_eq _ a (getElem?_sites_iff.mpr ⟨ha, rfl⟩), hk]
  · intro ⟨a, ha, hk⟩
    have hsite := h.site_of_mem_kernel a ha
    refine ⟨p.rank a, (h.rank_mem_iff a hsite).mpr ha, ?_⟩
    rw [hpairs.pattern?_eq _ a (getElem?_sites_iff.mpr ⟨hsite, rfl⟩), hk]

theorem Matches.accept?_eq (hpairs : Pairs l p) (h : p.Matches set kernel) :
    Table.setAccept? l set = p.kernelAccept? kernel := min?_congr fun _ => h.mem_patterns_iff hpairs

/-- After a byte, a set of positions goes on to what its kernel goes on to. -/
theorem Matches.rank_mem_followAll_iff (hpairs : Pairs l p) (h : p.Matches set kernel)
    (hx : p.isKernelInst x = true) : p.rank x ∈ Table.followAll l l.follow (Table.movers l set b) ↔
      x ∈ p.kernelOf (p.movedBy kernel b) := by
  have hsite : p.sites[p.rank x]? = some x := getElem?_sites_iff.mpr ⟨hx, rfl⟩
  have hlt : p.rank x < l.positionCount := by
    rw [← hpairs.length_sites]
    exact (List.getElem?_eq_some_iff.mp hsite).1
  rw [Table.mem_followAll, mem_kernelOf, and_iff_right hlt, and_iff_left hx]
  constructor
  · intro ⟨q, hq, hfollow⟩
    obtain ⟨hset, r, hr, hb⟩ := Table.mem_movers.mp hq
    obtain ⟨a, ha, rfl⟩ := exists_rank_eq (h.lt_of_mem_set q hset)
    have ha' : p.sites[p.rank a]? = some a := getElem?_sites_iff.mpr ⟨ha, rfl⟩
    have hreach := (hpairs.mem_follow _ _ a x ha' (by simp [hr]) hsite).mp hfollow
    rw [hpairs.span?_eq _ a ha', span?_eq_some_iff] at hr
    exact ⟨a + 1, mem_movedBy.mpr ⟨a, (h.rank_mem_iff a ha).mp hset, r, hr, hb, rfl⟩, hreach⟩
  · intro ⟨s, hs, hreach⟩
    obtain ⟨a, hkernel, r, hr, hb, rfl⟩ := mem_movedBy.mp hs
    have ha := h.site_of_mem_kernel a hkernel
    have ha' : p.sites[p.rank a]? = some a := getElem?_sites_iff.mpr ⟨ha, rfl⟩
    have hspan : l.span? (p.rank a) = some r := by
      rw [hpairs.span?_eq _ a ha', span?_eq_some_iff]
      exact hr
    refine ⟨p.rank a, Table.mem_movers.mpr ⟨(h.rank_mem_iff a ha).mpr hkernel, r, hspan, hb⟩, ?_⟩
    exact (hpairs.mem_follow _ _ a x ha' (by simp [hspan]) hsite).mpr hreach

/-- A set of positions and a kernel determine each other. -/
theorem Matches.kernel_unique {kernel' : IndexSet} (h : p.Matches set kernel)
    (h' : p.Matches set kernel') : kernel = kernel' := by
  refine IndexSet.ext h.ascending_kernel h'.ascending_kernel fun a => ?_
  constructor
  · intro ha
    have hsite := h.site_of_mem_kernel a ha
    exact (h'.rank_mem_iff a hsite).mp ((h.rank_mem_iff a hsite).mpr ha)
  · intro ha
    have hsite := h'.site_of_mem_kernel a ha
    exact (h.rank_mem_iff a hsite).mp ((h'.rank_mem_iff a hsite).mpr ha)

theorem Matches.set_unique {set' : IndexSet} (h : p.Matches set kernel)
    (h' : p.Matches set' kernel) : set = set' := by
  refine IndexSet.ext h.ascending_set h'.ascending_set fun q => ?_
  constructor
  · intro hq
    obtain ⟨a, ha, rfl⟩ := exists_rank_eq (h.lt_of_mem_set q hq)
    exact (h'.rank_mem_iff a ha).mpr ((h.rank_mem_iff a ha).mp hq)
  · intro hq
    obtain ⟨a, ha, rfl⟩ := exists_rank_eq (h'.lt_of_mem_set q hq)
    exact (h.rank_mem_iff a ha).mpr ((h'.rank_mem_iff a ha).mp hq)

theorem Matches.step (hpairs : Pairs l p) (h : p.Matches set kernel) (b : UInt8) :
    p.Matches (Table.followAll l l.follow (Table.movers l set b))
      (p.kernelOf (p.movedBy kernel b)) where
  ascending_set := IndexSet.ascending_collect _ _
  ascending_kernel := ascending_kernelOf _ _
  lt_of_mem_set := fun _ hq => hpairs.length_sites ▸ (Table.mem_followAll.mp hq).1
  site_of_mem_kernel := fun _ ha => (mem_kernelOf.mp ha).2
  rank_mem_iff := fun _ ha => h.rank_mem_followAll_iff hpairs ha

/-- At first, the set of positions and the kernel are the same. -/
theorem matches_start (hpairs : Pairs l p) : p.Matches l.start (p.kernelOf [0]) where
  ascending_set := hpairs.ascending_start
  ascending_kernel := ascending_kernelOf _ _
  lt_of_mem_set := fun q hq => hpairs.length_sites ▸ hpairs.start_lt q hq
  site_of_mem_kernel := fun _ ha => (mem_kernelOf.mp ha).2
  rank_mem_iff := by
    intro a ha
    rw [hpairs.mem_start _ a (getElem?_sites_iff.mpr ⟨ha, rfl⟩), mem_kernelOf]
    simp [ha]

/-- The sets of positions of a pattern set are the kernels of its program. -/
theorem bisim_kernelMachine {re : Regex} {rs : List Regex} (hpairs : Pairs l p)
    (hcode : p.IsCodeOf re rs) : l.machine.Bisim p.kernelMachine p.Matches where
  accept := fun h => h.accept?_eq hpairs
  next := by
    intro set kernel h b
    have hnext := h.step hpairs b
    rw [next?_kernelMachine]
    by_cases hmoved : p.movedBy kernel b = []
    · have hset : Table.followAll l l.follow (Table.movers l set b) = [] := by
        refine List.eq_nil_iff_forall_not_mem.mpr fun q hq => ?_
        obtain ⟨x, hx, rfl⟩ := exists_rank_eq (hnext.lt_of_mem_set q hq)
        have hmem := (hnext.rank_mem_iff x hx).mp hq
        rw [hmoved, mem_kernelOf] at hmem
        simp at hmem
      rw [if_pos hmoved, Table.next?_setMachine_eq_none hset]
      exact .none
    · -- Some thread moves, and then comes to a site, so the set of positions is not empty either.
      obtain ⟨s, hs⟩ := List.exists_mem_of_ne_nil _ hmoved
      obtain ⟨a, _, r, hr, _, rfl⟩ := mem_movedBy.mp hs
      obtain ⟨y, hy, hreach⟩ := hcode.exists_reach_succ hr
      have hmem := (hnext.rank_mem_iff y hy).mpr (mem_kernelOf.mpr ⟨⟨_, hs, hreach⟩, hy⟩)
      have hne : Table.followAll l l.follow (Table.movers l set b) ≠ [] := List.ne_nil_of_mem hmem
      rw [if_neg hmoved, Table.next?_setMachine_eq_some hne]
      exact .some hnext

end Program

end Munch

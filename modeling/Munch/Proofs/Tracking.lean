import Munch.Proofs.Kernels
import Munch.Proofs.Rounds

set_option autoImplicit false

/-! # Machines that keep track of threads

What a run with threads finds is known from where the threads are before every byte. If the states
of a machine keep track of that, the run finds what the machine finds (`Simulation.run_eq`).

The kernels of a program keep track of its threads, if it has no `branch` and a thread that consumes
a byte stays in the program (`Branchless.tracks`). So such a program finds, when it is run with
threads, what the machine of its kernels finds (`Branchless.run_eq`), and the program of a pattern
set is one. -/

namespace Munch

namespace Program

/-- The threads at some offsets come to an offset with a byte. -/
def After (p : Program) (C : Nat → Prop) (b : UInt8) (x : Nat) : Prop :=
  x < p.size ∧ ∃ a, C a ∧ ∃ d, p.Pass (some b) a d ∧ p.Takes b d ∧ p.Reach (d + 1) x

/-- The states of a machine keep track of where the threads of a program are. -/
structure Tracks {σ : Type} (p : Program) (M : Machine σ) (R : (Nat → Prop) → σ → Prop) : Prop where
  accept : ∀ {C s}, R C s → ∀ (byte : Option UInt8) (ids : List Nat),
    (∀ k, k ∈ ids ↔ ∃ a, C a ∧ ∃ x, p.Pass byte a x ∧ p.pattern? x = some k) →
      ids.min? = M.accept? s
  next_none : ∀ {C s}, R C s → ∀ {b}, M.next? s b = none → ∀ x, ¬ p.After C b x
  next_some : ∀ {C s}, R C s → ∀ {b t}, M.next? s b = some t →
    (∃ x, p.After C b x) ∧ R (p.After C b) t

end Program

namespace Simulation

open Program ThreadList

variable {σ : Type} {M : Machine σ} {R : (Nat → Prop) → σ → Prop} {p : Program} {tc : Nat}

/-- A round records what the state accepts that tracks its threads. -/
theorem Round.best_eq_recordState {byte : Option UInt8} {threads : Threads}
    {best : Option (Nat × Nat)} {i : Nat} {out : Threads × Option (Nat × Nat)} {s : σ}
    (h : Round p tc i byte threads best 0 out) (htracks : Tracks p M R)
    (hs : R (fun x => threads.current.contains x = true) s) (hbest : ∀ m ∈ best, m.2 < i) :
    out.2 = M.recordState tc i best s := by
  rw [h.best_eq_recordPast hbest, Machine.recordState_eq_recordPast]
  congr 1
  refine htracks.accept hs byte _ fun k => ?_
  rw [List.mem_filterMap]
  constructor
  · intro ⟨x, hx, hk⟩
    obtain ⟨_, a, ha, hax⟩ := (h.mem_current x).mp (h.current.mem_iff.mp hx)
    exact ⟨a, ha, x, hax, hk⟩
  · intro ⟨a, ha, x, hax, hk⟩
    have hlt : x < p.size := by
      by_contra hge
      rw [pattern?, getElem?_eq_none_of_size_le (Nat.le_of_not_lt hge)] at hk
      simp at hk
    exact ⟨x, h.current.mem_iff.mpr ((h.mem_current x).mpr ⟨hlt, a, ha, hax⟩), hk⟩

/-- A round collects what its threads come to with the byte. -/
theorem Round.mem_next_iff_after {b : UInt8} {current next : ThreadList}
    {best : Option (Nat × Nat)} {i : Nat} {out : Threads × Option (Nat × Nat)}
    (h : Round p tc i (some b) ⟨current, next.clear⟩ best 0 out) (x : Nat) :
    out.1.next.contains x = true ↔ p.After (fun x => current.contains x = true) b x := by
  rw [h.mem_next, List.drop_zero, contains_clear]
  constructor
  · rintro (hx | ⟨d, hd, b', hb', htakes, hlt, hreach⟩)
    · simp at hx
    · obtain rfl := Option.some.inj hb'
      obtain ⟨_, a, ha, had⟩ := (h.mem_current d).mp (h.current.mem_iff.mp hd)
      exact ⟨hlt, a, ha, d, had, htakes, hreach⟩
  · intro ⟨hlt, a, ha, d, had, htakes, hreach⟩
    refine .inr ⟨d, h.current.mem_iff.mpr ?_, b, rfl, htakes, hlt, hreach⟩
    exact (h.mem_current d).mpr ⟨htakes.lt_size, a, ha, had⟩

/-- While a machine keeps track of the threads, a run finds what the machine finds. -/
theorem runBytes_eq (htracks : Tracks p M R) (rest : Bytes) :
    ∀ (threads : Threads) (best : Option (Nat × Nat)) (i : Nat) (s : σ), threads.current.Sound p →
      threads.next.capacity = p.size → R (fun x => threads.current.contains x = true) s →
      tc ≤ i → (∀ m ∈ best, m.2 < i) →
      (runBytes p tc threads best i rest).2 = M.find s i (M.recordState tc i best s) rest := by
  -- The run records what it is at when it goes through the threads, the machine when it comes
  -- there.
  induction rest with
  | nil =>
    intro threads best i s hcur hnext hs hi hbest
    have hround : Round p tc i none _ best 0 _ :=
      runThreads_round ⟨threads.current, threads.next.clear⟩ best 0 hcur (sound_clear hnext)
        (by simp [PassedUpTo])
    show Finding.mk _ i = Finding.mk _ i
    rw [hround.best_eq_recordState htracks hs hbest]
  | cons b rest ih =>
    intro threads best i s hcur hnext hs hi hbest
    have hround : Round p tc i (some b) _ best 0 _ :=
      runThreads_round ⟨threads.current, threads.next.clear⟩ best 0 hcur (sound_clear hnext)
        (by simp [PassedUpTo])
    have hbest' := hround.best_eq_recordState htracks hs hbest
    have hafter : (fun x => (runThreads p tc i (some b) ⟨threads.current, threads.next.clear⟩ best
        0).1.next.contains x = true) = p.After (fun x => threads.current.contains x = true) b :=
      funext fun x => propext (hround.mem_next_iff_after x)
    rw [runBytes]
    cases ht : M.next? s b with
    | none =>
      have hempty := (isEmpty_iff hround.next.wellFormed).mpr fun x => by
        have := htracks.next_none hs ht x
        rw [← hround.mem_next_iff_after x] at this
        simpa using this
      simp only [hempty, if_true]
      rw [Machine.find_of_next?_eq_none ht, hbest']
    | some t =>
      obtain ⟨⟨x, hx⟩, hR⟩ := htracks.next_some hs ht
      have hnonempty : (runThreads p tc i (some b) ⟨threads.current, threads.next.clear⟩ best
          0).1.next.isEmpty = false := by
        by_contra hne
        rw [Bool.not_eq_false, isEmpty_iff hround.next.wellFormed] at hne
        rw [← hround.mem_next_iff_after, hne x] at hx
        simp at hx
      simp only [hnonempty, Bool.false_eq_true, if_false]
      rw [ih _ _ _ t hround.next hround.current.capacity_eq (hafter ▸ hR) (Nat.le_succ_of_le hi)
        (hbest' ▸ Machine.lt_of_mem_recordState hbest s), Machine.find_of_next?_eq_some ht, hbest']
      rw [Machine.recordState, if_pos (Nat.lt_succ_of_le hi)]

/-- If the states of a machine keep track of the threads of a program, from a state that tracks
    those at offset 0, the program finds what the machine finds. -/
theorem run_eq (htracks : Tracks p M R) {s : σ} (hs : R (fun x => x < p.size ∧ p.Reach 0 x) s)
    {threads : Threads} (hcurrent : threads.current.capacity = p.size)
    (hnext : threads.next.capacity = p.size) (text : Bytes) (tc : Nat) :
    (run p threads text tc).2 = M.find s tc none (text.drop tc) := by
  have hsound := (sound_clear hcurrent).close 0
  have hstart : (fun x => (threads.current.clear.close p 0).contains x = true) =
      fun x => x < p.size ∧ p.Reach 0 x := by
    funext x
    rw [(sound_clear hcurrent).contains_close, contains_clear]
    simp
  rw [← hstart] at hs
  have hrun : (runBytes p tc _ none tc (text.drop tc)).2 = _ :=
    runBytes_eq htracks (text.drop tc) ⟨threads.current.clear.close p 0,
      threads.next⟩ none tc s hsound hnext hs (Nat.le_refl tc) (by simp)
  rw [run, hrun, Machine.recordState, if_neg (Nat.lt_irrefl tc)]

end Simulation

/-! ## Programs without `branch` -/

namespace Program

/-- A program that has no `branch`, and in which a thread that consumes a byte stays. -/
structure Branchless (p : Program) : Prop where
  ne_branch : ∀ {a : Nat} {r : ByteRange}, p.insts[a]? ≠ some (.branch r)
  succ_lt : ∀ {a : Nat} {r : ByteRange}, p.insts[a]? = some (.consume r) → a + 1 < p.size

variable {p : Program} {byte : Option UInt8} {b : UInt8} {a x : Nat}

theorem Branchless.passStep_iff (h : p.Branchless) : p.PassStep byte a x ↔ x ∈ p.emptySteps a := by
  constructor
  · intro hstep
    rcases hstep with hstep | ⟨r, _, hr, _⟩
    · exact hstep
    · exact absurd hr h.ne_branch
  · exact .inl

theorem Branchless.pass_iff (h : p.Branchless) : p.Pass byte a x ↔ p.Reach a x := by
  have heq : p.PassStep byte = fun a x => x ∈ p.emptySteps a := by
    funext a x
    exact propext h.passStep_iff
  rw [Pass, heq, Reach]

theorem Branchless.takes_iff (h : p.Branchless) :
    p.Takes b a ↔ ∃ r, p.insts[a]? = some (.consume r) ∧ b ∈ r := by
  constructor
  · intro htakes
    obtain ⟨r, hr | hr, hb⟩ := htakes
    · exact ⟨r, hr, hb⟩
    · exact absurd hr h.ne_branch
  · intro ⟨r, hr, hb⟩
    exact ⟨r, .inl hr, hb⟩

/-- Some offsets are those that a kernel was made from, with what they reach. -/
def IsKernelOf (p : Program) (C : Nat → Prop) (kernel : IndexSet) : Prop :=
  ∃ pcs, kernel = p.kernelOf pcs ∧ ∀ x, C x ↔ x < p.size ∧ ∃ s ∈ pcs, p.Reach s x

theorem IsKernelOf.mem_iff {C : Nat → Prop} {kernel : IndexSet} (h : p.IsKernelOf C kernel) :
    x ∈ kernel ↔ p.isKernelInst x = true ∧ ∃ a, C a ∧ p.Reach a x := by
  obtain ⟨pcs, rfl, hC⟩ := h
  rw [mem_kernelOf]
  constructor
  · intro ⟨hreach, hx⟩
    exact ⟨hx, x, (hC x).mpr ⟨lt_size_of_isKernelInst hx, hreach⟩, .refl p x⟩
  · intro ⟨hx, a, ha, hax⟩
    obtain ⟨_, s, hs, hsa⟩ := (hC a).mp ha
    exact ⟨⟨s, hs, hsa.trans hax⟩, hx⟩

/-- What the threads come to with a byte is what the kernel moves to, with what that reaches. -/
theorem IsKernelOf.after_iff {C : Nat → Prop} {kernel : IndexSet} (hp : p.Branchless)
    (h : p.IsKernelOf C kernel) :
    p.After C b x ↔ x < p.size ∧ ∃ s ∈ p.movedBy kernel b, p.Reach s x := by
  refine and_congr_right fun _ => ?_
  constructor
  · intro ⟨a, ha, d, had, htakes, hreach⟩
    obtain ⟨r, hr, hb⟩ := hp.takes_iff.mp htakes
    have hd : d ∈ kernel := h.mem_iff.mpr ⟨isKernelInst_consume hr, a, ha, hp.pass_iff.mp had⟩
    exact ⟨d + 1, mem_movedBy.mpr ⟨d, hd, r, hr, hb, rfl⟩, hreach⟩
  · intro ⟨s, hs, hreach⟩
    obtain ⟨d, hd, r, hr, hb, rfl⟩ := mem_movedBy.mp hs
    obtain ⟨_, a, ha, had⟩ := h.mem_iff.mp hd
    exact ⟨a, ha, d, hp.pass_iff.mpr had, hp.takes_iff.mpr ⟨r, hr, hb⟩, hreach⟩

/-- The kernels of a program without `branch` keep track of its threads. -/
theorem Branchless.tracks (h : p.Branchless) : p.Tracks p.kernelMachine p.IsKernelOf where
  accept := by
    intro C kernel hC byte ids hids
    refine min?_congr fun k => ?_
    rw [hids, List.mem_filterMap]
    constructor
    · intro ⟨a, ha, x, hax, hk⟩
      exact ⟨x, hC.mem_iff.mpr ⟨isKernelInst_of_pattern? hk, a, ha, h.pass_iff.mp hax⟩, hk⟩
    · intro ⟨x, hx, hk⟩
      obtain ⟨_, a, ha, hax⟩ := hC.mem_iff.mp hx
      exact ⟨a, ha, x, h.pass_iff.mpr hax, hk⟩
  next_none := by
    intro C kernel hC b hb x hx
    obtain ⟨_, s, hs, _⟩ := (hC.after_iff h).mp hx
    rw [next?_kernelMachine, if_neg (List.ne_nil_of_mem hs)] at hb
    simp at hb
  next_some := by
    intro C kernel hC b next hb
    rw [next?_kernelMachine] at hb
    by_cases hmoved : p.movedBy kernel b = []
    · simp [hmoved] at hb
    · rw [if_neg hmoved] at hb
      obtain rfl := Option.some.inj hb
      obtain ⟨s, hs⟩ := List.exists_mem_of_ne_nil _ hmoved
      obtain ⟨d, _, r, hr, _, rfl⟩ := mem_movedBy.mp hs
      refine ⟨⟨d + 1, ?_⟩, p.movedBy kernel b, rfl, fun x => hC.after_iff h⟩
      exact (hC.after_iff h).mpr ⟨h.succ_lt hr, d + 1, hs, .refl p _⟩

/-- A program without `branch` finds, run with threads, what the machine of its kernels finds. -/
theorem Branchless.run_eq (h : p.Branchless) (text : Bytes) (tc : Nat) :
    (Simulation.run p (.forProgram p) text tc).2 =
      p.kernelMachine.find (p.kernelOf [0]) tc none (text.drop tc) := by
  refine Simulation.run_eq h.tracks ⟨[0], rfl, fun x => ?_⟩
    (ThreadList.capacity_empty _) (ThreadList.capacity_empty _) text tc
  simp

/-- The code of a pattern set has no `branch`. -/
theorem IsCodeOf.branchless {re : Regex} {rs : List Regex} (h : p.IsCodeOf re rs) :
    p.Branchless := by
  rcases h with ⟨hcode, _⟩ | ⟨_, rfl⟩
  · have hcases := fun {a} {i : Inst} (hi : p.insts[a]? = some i) =>
      hcode.inst_cases (Nat.zero_le a) (Array.getElem?_eq_some_iff.mp hi).1
    constructor
    · intro a r hr
      have := hcases hr
      simp [hr] at this
    · intro a r hr
      have := hcases hr
      simpa [hr] using this
  · have hget : ∀ {a : Nat} {i : Inst}, loneAccept.insts[a]? = some i →
        i = .accept 0 ∨ i = .fail := by
      intro a i hi
      have := Array.mem_of_getElem? hi
      simpa [loneAccept] using this
    constructor
    · intro a r hr
      simpa using hget hr
    · intro a r hr
      simpa using hget hr

/-- The program of a pattern set finds, run with threads, what the machine of its kernels finds. -/
theorem IsCodeOf.run_eq {re : Regex} {rs : List Regex} (h : p.IsCodeOf re rs)
    (text : Bytes) (tc : Nat) : (Simulation.run p (.forProgram p) text tc).2 =
      p.kernelMachine.find (p.kernelOf [0]) tc none (text.drop tc) :=
  h.branchless.run_eq text tc

end Program

end Munch

import Munch.Proofs.BranchFree
import Munch.Proofs.OneThread

set_option autoImplicit false

/-! # Determinizing programs with `branch`

A program that is read may have a `branch` among instructions that need threads. A run with threads
follows it. But it belongs to no kernel, so the deterministic program is made as if every `branch`
were a `fail` (`Program.kernelMachine_withoutBranches`), and finds what the program without them
finds.

So a scan returns the same with a program and with its deterministic program for as long as no
thread comes to a `branch` (`Scanner.step_toDeterministic_of_read`). Where one does, the
deterministic program may miss a match (`Scanner.step_toDeterministic_ne_step`). -/

namespace Munch

variable {τ : Type} {p : Program}

/-- An instruction that fails, in place of a `branch`. -/
def Op.withoutBranch : Op τ → Op τ
  | .branch _ => .fail
  | i => i

/-- A program in which every `branch` fails. -/
def Program.withoutBranches (p : Program) : Program := ⟨p.insts.map Op.withoutBranch⟩

namespace Program

variable {pc : Nat} {byte : Option UInt8}

/-! ## What becomes of a program -/

@[simp] theorem getElem?_withoutBranches (p : Program) (pc : Nat) :
    p.withoutBranches.insts[pc]? = (p.insts[pc]?).map Op.withoutBranch := by
  rw [withoutBranches, Array.getElem?_map]

@[simp] theorem size_withoutBranches (p : Program) : p.withoutBranches.size = p.size := by
  rw [size, withoutBranches, Array.size_map, size]

theorem isThreaded_withoutBranch (i : Op τ) : i.withoutBranch.isThreaded = i.isThreaded := by
  cases i <;> rfl

@[simp] theorem isDeterministic_withoutBranches (p : Program) :
    p.withoutBranches.isDeterministic = p.isDeterministic := by
  have hthreaded : Op.isThreaded ∘ Op.withoutBranch = (Op.isThreaded : Inst → Bool) :=
    funext isThreaded_withoutBranch
  rw [isDeterministic, withoutBranches, Array.any_map, hthreaded, isDeterministic]

@[simp] theorem emptySteps_withoutBranches (p : Program) :
    p.withoutBranches.emptySteps = p.emptySteps := by
  funext pc
  unfold emptySteps
  rw [getElem?_withoutBranches, isDeterministic_withoutBranches]
  rcases p.insts[pc]? with _ | (_ | _ | _ | _ | _ | _) <;> rfl

@[simp] theorem pattern?_withoutBranches (p : Program) :
    p.withoutBranches.pattern? = p.pattern? := by
  funext pc
  unfold pattern?
  rw [getElem?_withoutBranches]
  rcases p.insts[pc]? with _ | (_ | _ | _ | _ | _ | _) <;> rfl

theorem isKernelInst_withoutBranches (p : Program) :
    p.withoutBranches.isKernelInst = p.isKernelInst := by
  funext pc
  unfold isKernelInst
  rw [getElem?_withoutBranches]
  rcases p.insts[pc]? with _ | (_ | _ | _ | _ | _ | _) <;> rfl

theorem consumers_withoutBranches (p : Program) : p.withoutBranches.consumers = p.consumers := by
  funext kernel
  unfold consumers
  congr 1
  funext pc
  rw [getElem?_withoutBranches]
  rcases p.insts[pc]? with _ | (_ | _ | _ | _ | _ | _) <;> rfl

/-- In a valid program, what is left without its `branch`es keeps its threads. -/
theorem Valid.branchless_withoutBranches (hp : p.Valid) : p.withoutBranches.Branchless where
  ne_branch {a r} h := by
    rw [getElem?_withoutBranches] at h
    rcases hi : p.insts[a]? with _ | (_ | _ | _ | _ | _ | _) <;> simp [hi, Op.withoutBranch] at h
  succ_lt {a r} h := by
    rw [getElem?_withoutBranches] at h
    have hi : p.insts[a]? = some (.consume r) := by
      rcases hi : p.insts[a]? with _ | (_ | _ | _ | _ | _ | _) <;> simp_all [Op.withoutBranch]
    rw [size_withoutBranches]
    exact hp.succ_lt hi rfl

end Program

namespace ThreadList

@[simp] theorem closeAll_withoutBranches (p : Program) (l : ThreadList) (stack : List Nat) :
    closeAll p.withoutBranches l stack = closeAll p l stack := by
  fun_induction closeAll p l stack with
  | case1 l => rw [closeAll]
  | case2 l pc rest hacc ih => rw [closeAll, if_pos hacc, Program.emptySteps_withoutBranches, ih]
  | case3 l pc rest hacc ih => rw [closeAll, if_neg hacc, ih]

@[simp] theorem close_withoutBranches (p : Program) : close p.withoutBranches = close p := by
  funext l pc
  exact closeAll_withoutBranches p l [pc]

end ThreadList

namespace Program

/-! ## Kernels -/

@[simp] theorem kernelOf_withoutBranches (p : Program) :
    p.withoutBranches.kernelOf = p.kernelOf := by
  funext pcs
  rw [kernelOf, ThreadList.close_withoutBranches, size_withoutBranches,
    isKernelInst_withoutBranches, kernelOf]

/-- A `branch` makes no difference to the kernels. -/
theorem kernelMachine_withoutBranches (p : Program) :
    p.withoutBranches.kernelMachine = p.kernelMachine := by
  have haccept : p.withoutBranches.kernelAccept? = p.kernelAccept? := by
    funext kernel
    rw [kernelAccept?, pattern?_withoutBranches, kernelAccept?]
  have hmoved : p.withoutBranches.movedBy = p.movedBy := by
    funext kernel b
    rw [movedBy, consumers_withoutBranches, movedBy]
  rw [kernelMachine, haccept, hmoved, kernelOf_withoutBranches, kernelMachine]

/-- The machine of the kernels finds what the program finds in which every `branch` fails. -/
theorem Valid.run_withoutBranches (hp : p.Valid) (text : Bytes) (tc : Nat) :
    (Simulation.run p.withoutBranches (.forProgram p.withoutBranches) text tc).2 =
      p.kernelMachine.find (p.kernelOf [0]) tc none (text.drop tc) := by
  rw [hp.branchless_withoutBranches.run_eq, kernelMachine_withoutBranches, kernelOf_withoutBranches]

end Program

/-! ## Runs that come to no `branch` -/

/-- The instruction at an offset is no `branch`. -/
def Program.NoBranchAt (p : Program) (pc : Nat) : Prop := ∀ r, p.insts[pc]? ≠ some (.branch r)

namespace Simulation

open Program ThreadList

variable {text : Bytes} {tc i : Nat} {byte : Option UInt8} {threads : Threads}

theorem moveThread_withoutBranches {pc : Nat} (h : p.NoBranchAt pc) (byte : Option UInt8)
    (threads : Threads) :
    moveThread p.withoutBranches byte threads pc = moveThread p byte threads pc := by
  unfold moveThread
  rw [getElem?_withoutBranches, close_withoutBranches]
  rcases hi : p.insts[pc]? with _ | (_ | _ | _ | _ | r | _)
  case some.branch => exact absurd hi (h r)
  all_goals rfl

theorem current_moveThread_of_noBranchAt {pc : Nat} (h : p.NoBranchAt pc) (byte : Option UInt8)
    (threads : Threads) : (moveThread p byte threads pc).current = threads.current := by
  unfold moveThread
  split
  · split <;> rfl
  · next r b hi => exact absurd hi (h r)
  · rfl

/-- Threads of which none is at a `branch` are run alike. -/
theorem runThreads_withoutBranches (tc i : Nat) (byte : Option UInt8)
    (best : Option (Nat × Nat)) (k : Nat) (h : ∀ pc ∈ threads.current.toList, p.NoBranchAt pc) :
    runThreads p.withoutBranches tc i byte threads best k =
      runThreads p tc i byte threads best k := by
  induction threads, best, k using runThreads_induct p tc i byte with
  | ended threads best k hget =>
    rw [runThreads_of_get?_eq_none hget, runThreads_of_get?_eq_none hget]
  | step threads best k pc hget ih =>
    have hpc : p.NoBranchAt pc := h pc (List.mem_of_getElem? (get?_eq_some_iff.mp hget))
    rw [runThreads_of_get?_eq_some hget, runThreads_of_get?_eq_some hget,
      moveThread_withoutBranches hpc, recordAt, pattern?_withoutBranches, ← recordAt]
    refine ih ?_
    rwa [current_moveThread_of_noBranchAt hpc]

/-- From where all threads are as the text has it, a run that comes to no `branch` goes on alike. -/
theorem runBytes_withoutBranches (rest : Bytes) {best : Option (Nat × Nat)}
    (hbranch : ∀ i a, p.ComesTo text tc i a → p.NoBranchAt a) (hrest : text.drop i = rest)
    (hcur : threads.current.Sound p) (hnext : threads.next.capacity = p.size)
    (hcomes : ∀ x, threads.current.contains x = true → p.ComesTo text tc i x) :
    runBytes p.withoutBranches tc threads best i rest = runBytes p tc threads best i rest := by
  have hthreads : ∀ {i : Nat} {threads : Threads}, threads.current.Sound p →
      (∀ x, threads.current.contains x = true → p.ComesTo text tc i x) →
      ∀ pc ∈ threads.clearNext.current.toList, p.NoBranchAt pc :=
    fun hcur hcomes pc hpc => hbranch _ pc (hcomes pc (hcur.mem_iff.mp hpc))
  induction rest generalizing i threads best with
  | nil =>
    rw [runBytes_nil, runBytes_nil, runThreads_withoutBranches tc i none best 0
      (hthreads hcur hcomes)]
  | cons b rest ih =>
    have hround : Round p tc i (some b) threads.clearNext best 0 _ :=
      runThreads_round _ best 0 hcur (sound_clear hnext) (by simp [PassedUpTo])
    have hbyte : text[i]? = some b := by rw [← List.head?_drop, hrest, List.head?_cons]
    have hrest' : text.drop (i + 1) = rest := by rw [← List.tail_drop, hrest, List.tail_cons]
    rw [runBytes_cons, runBytes_cons, runThreads_withoutBranches tc i (some b) best 0
      (hthreads hcur hcomes)]
    simp only
    split
    · rfl
    -- What the round collects is where the threads are before the next byte.
    · refine ih hrest' hround.next hround.current.capacity_eq fun x hx => ?_
      obtain ⟨_, a, ha, d, had, htakes, hreach⟩ := (hround.mem_next_iff_after x).mp hx
      have hd : p.ComesTo text tc i d := (hcomes a ha).of_pass (hbyte ▸ had)
      exact (hd.take hbyte htakes).of_pass hreach.pass

/-- A run that comes to no `branch` is the same if every `branch` fails. -/
theorem run_withoutBranches (hbranch : ∀ i a, p.ComesTo text tc i a → p.NoBranchAt a) :
    run p.withoutBranches (.forProgram p.withoutBranches) text tc =
      run p (.forProgram p) text tc := by
  have hcur : (Threads.forProgram p).current.capacity = p.size := capacity_empty _
  have hclosure := closureOf_close hcur 0
  rw [Threads.forProgram, size_withoutBranches, ← Threads.forProgram, run, run,
    close_withoutBranches]
  refine runBytes_withoutBranches (text.drop tc) hbranch rfl hclosure.sound
    (capacity_empty _) fun x hx => ?_
  exact ComesTo.start.of_pass ((hclosure.contains_iff x).mp hx).2.pass

end Simulation

/-! ## Scans -/

namespace Scanner

/-- The first step of a scan with the deterministic program of a program that was read and needs
    threads returns what it returns with the program in which every `branch` fails, run with
    threads. So it returns what it returns with the program itself, if no thread comes to a
    `branch`. -/
theorem step_toDeterministic_of_read {source : String} (hread : Program.read source = .ok p)
    (hdet : p.isDeterministic = false) :
    ∃ runner, Runner.ofProgram? p.toDeterministic = some runner ∧ ∀ (text : Bytes) (tc : Nat),
      let result := ((start runner text).step tc).1
      (Direct.run runner.program text tc).Returns ∧
        ((start (Simulator.ofProgram p.toDeterministic) text).step tc).1 = result ∧
        ((start (Simulator.ofProgram p.withoutBranches) text).step tc).1 = result ∧
        ((∀ i a, p.ComesTo text tc i a → p.NoBranchAt a) →
          ((start (Simulator.ofProgram p) text).step tc).1 = result) := by
  have hvalid := Program.valid_of_read hread
  refine ⟨⟨p.toDeterministic, p.isDeterministic_toDeterministic⟩,
    dif_pos p.isDeterministic_toDeterministic, fun text tc => ?_⟩
  intro result
  have hone :
      (Engine.find (Runner.mk p.toDeterministic p.isDeterministic_toDeterministic) text tc).1 = _ :=
    Program.direct_run_toDeterministic hdet text tc
  have hthreads : (Engine.find (Simulator.ofProgram p.toDeterministic) text tc).1 = _ :=
    Program.run_toDeterministic hdet text tc
  have hwithout : (Engine.find (Simulator.ofProgram p.withoutBranches) text tc).1 = _ :=
    hvalid.run_withoutBranches text tc
  refine ⟨hvalid.toDeterministic.returns_run p.isDeterministic_toDeterministic text tc,
    step_congr (hthreads.trans hone.symm), step_congr (hwithout.trans hone.symm), fun hbranch => ?_⟩
  have hprogram : (Engine.find (Simulator.ofProgram p) text tc).1 =
      (Engine.find (Simulator.ofProgram p.withoutBranches) text tc).1 :=
    congrArg Prod.snd (Simulation.run_withoutBranches hbranch).symm
  exact step_congr (hprogram.trans (hwithout.trans hone.symm))

/-- A `branch` that stands behind an `a` does not matter to a text without one. -/
theorem step_toDeterministic_of_read_unmet : ∃ p runner,
    Program.read "SPLIT 1 3\nCHAR 98 98\nMATCH 0\nCHAR 97 97\nCHJMP 99 99\nJMP 2\nFAIL\n" = .ok p ∧
    p.isDeterministic = false ∧ Runner.ofProgram? p.toDeterministic = some runner ∧
    (∀ i a, p.ComesTo [98] 0 i a → p.NoBranchAt a) ∧
    ((start (Simulator.ofProgram p) [98]).step 0).1 = ((start runner [98]).step 0).1 := by
  have hread :
      Program.read "SPLIT 1 3\nCHAR 98 98\nMATCH 0\nCHAR 97 97\nCHJMP 99 99\nJMP 2\nFAIL\n" =
      .ok ⟨#[.split 1 3, .consume (.single 98), .accept 0, .consume (.single 97),
        .branch (.single 99), .jump 2, .fail]⟩ := by
    decide +kernel
  have hdet : Program.isDeterministic ⟨#[.split 1 3, .consume (.single 98), .accept 0,
      .consume (.single 97), .branch (.single 99), .jump 2, .fail]⟩ = false := by
    decide +kernel
  obtain ⟨runner, hrunner, hsteps⟩ := step_toDeterministic_of_read hread hdet
  -- The threads are at the start or after the `b`, and none of their offsets has the `branch`.
  have hplaces : ∀ i a, Program.ComesTo ⟨#[.split 1 3, .consume (.single 98), .accept 0,
      .consume (.single 97), .branch (.single 99), .jump 2, .fail]⟩ [98] 0 i a →
      (i = 0 ∧ (a = 0 ∨ a = 1 ∨ a = 3)) ∨ i = 1 ∧ a = 2 := by
    intro i a h
    induction h with
    | start => simp
    | pass _ hstep ih =>
      rcases ih with ⟨rfl, rfl | rfl | rfl⟩ | ⟨rfl, rfl⟩
      · simp [Program.PassStep, Program.emptySteps] at hstep
        omega
      all_goals simp [Program.PassStep, Program.emptySteps, hdet] at hstep
    | take _ hb htakes ih =>
      rcases ih with ⟨rfl, rfl | rfl | rfl⟩ | ⟨rfl, rfl⟩
      · simp [Program.Takes] at htakes
      · exact .inr ⟨rfl, rfl⟩
      · obtain rfl : _ = 98 := (Option.some.inj hb).symm
        simp [Program.Takes] at htakes
      · simp at hb
  refine ⟨_, runner, hread, hdet, hrunner, ?hbranch, (hsteps [98] 0).2.2.2 ?hbranch⟩
  intro i a h r
  rcases hplaces i a h with ⟨_, rfl | rfl | rfl⟩ | ⟨_, rfl⟩ <;> simp

/-- A program goes on at an `a` by a `branch`, and then accepts. Its deterministic program fails at
    once. -/
theorem step_toDeterministic_ne_step : ∃ p runner,
    Program.read "CHJMP 97 97\nJMP 3\nCHAR 98 98\nMATCH 0\n" = .ok p ∧ p.isDeterministic = false ∧
    Runner.ofProgram? p.toDeterministic = some runner ∧
    ((start (Simulator.ofProgram p) [97]).step 0).1 = some (.ok ⟨0, 0, ⟨1, 1⟩, ⟨1, 1⟩, [97]⟩) ∧
    ((start runner [97]).step 0).1 = some (.error ⟨0, 0, ⟨1, 1⟩, ⟨1, 1⟩, [97]⟩) := by
  have hread : Program.read "CHJMP 97 97\nJMP 3\nCHAR 98 98\nMATCH 0\n" =
      .ok ⟨#[.branch (.single 97), .jump 3, .consume (.single 98), .accept 0]⟩ := by
    decide +kernel
  have hdet : Program.isDeterministic
      ⟨#[.branch (.single 97), .jump 3, .consume (.single 98), .accept 0]⟩ = false := by
    decide +kernel
  refine ⟨_, ⟨_, Program.isDeterministic_toDeterministic _⟩, hread, hdet,
    dif_pos (Program.isDeterministic_toDeterministic _), ?_, ?_⟩
  · cbv
  · have hfind := Program.direct_run_toDeterministic hdet [97] 0
    rw [step_start, if_neg (by decide)]
    show some (report [97] 0 (Direct.run _ [97] 0).finding) = _
    rw [hfind]
    cbv

end Scanner

end Munch

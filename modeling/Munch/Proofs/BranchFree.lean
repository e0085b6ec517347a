import Munch.Proofs.Built
import Munch.Proofs.Engines
import Munch.Proofs.OneThread

set_option autoImplicit false

/-! # Determinizing programs without `branch`

A program that has no `branch` is scanned for with itself or with its deterministic program, and a
step of the scan returns the same (`Scanner.step_toDeterministic`). Nothing is asked of the shape of
the program: it was generated from some expression, or it was read, with any loops and with
instructions that are never reached. The scan is trapped only if control falls off the end of the
program, and then it is trapped either way.

If such a program is deterministic, it stays as it is; but then it has no instruction that consumes
a byte, and finds nothing. -/

namespace Munch

variable {p : Program}

namespace Program

/-! ## Where the programs come from -/

/-- Programs that were generated or read are left by no thread that consumes a byte. -/
theorem branchless (hp : (∃ re, Program.ofRegex re = .ok p) ∨ ∃ source, Program.read source = .ok p)
    (hbranch : ∀ r, .branch r ∉ p.insts) : p.Branchless := by
  have hlast : ∃ deterministic last, p.insts.back? = some last ∧
      last.fallsThrough deterministic = false := by
    rcases hp with ⟨re, hre⟩ | ⟨source, hsource⟩
    · exact ⟨false, exists_last_of_ofRegex hre⟩
    · exact ⟨p.isDeterministic, (valid_of_read hsource).last⟩
  obtain ⟨deterministic, last, hlast, hfalls⟩ := hlast
  constructor
  · intro a r hr
    exact hbranch r (Array.mem_of_getElem? hr)
  · intro a r hr
    exact succ_lt_of_fallsThrough hlast hfalls hr rfl

/-! ## Deterministic programs without `branch` -/

/-- The kernels of a deterministic program have nothing to go on with. -/
theorem find_kernelMachine_of_isDeterministic (hdet : p.isDeterministic = true) (kernel : IndexSet)
    (i : Nat) (best : Option (Nat × Nat)) (rest : Bytes) :
    p.kernelMachine.find kernel i best rest = ⟨best, i⟩ := by
  cases rest with
  | nil => rfl
  | cons b rest =>
    refine Machine.find_of_next?_eq_none ?_ i best rest
    rw [next?_kernelMachine, if_pos]
    refine List.eq_nil_iff_forall_not_mem.mpr fun x hx => ?_
    obtain ⟨a, _, r, hinst, _⟩ := mem_movedBy.mp hx
    rw [isDeterministic_eq_false hinst rfl] at hdet
    cases hdet

end Program

/-- A run with one thread that meets no `branch` consumes nothing, and finds no match. -/
theorem Direct.finding_runFrom_of_branchless (hp : p.Branchless) {tc i : Nat} (hi : i ≤ tc)
    (rest : Bytes) (path : List Nat) (pc : Nat) (best : Option (Nat × Nat)) :
    (runFrom p tc rest i path pc best).finding = ⟨best, i⟩ := by
  fun_induction runFrom p tc rest i path pc best with
  | case1 => rfl
  | case2 rest i path pc best _ _ id _ ih =>
    rw [dif_neg (Nat.not_lt_of_le hi)] at ih
    rw [if_neg (Nat.not_lt_of_le hi)]
    exact ih hi
  | case3 i path pc best _ _ r hinst => rfl
  | case4 i path pc best _ _ r hinst => exact absurd hinst hp.ne_branch
  | case5 i path pc best _ _ r hinst => exact absurd hinst hp.ne_branch
  | case6 rest i path pc best _ _ x _ ih => exact ih hi
  | case7 => rfl
  | case8 => rfl
  | case9 => rfl

/-! ## What deterministic programs find -/

namespace Program

/-- The deterministic program of a program that needs threads finds, run with threads, what the
    machine of the kernels of that program finds. -/
theorem run_toDeterministic (hdet : p.isDeterministic = false) (text : Bytes) (tc : Nat) :
    (Simulation.run p.toDeterministic (.forProgram p.toDeterministic) text tc).2 =
      p.kernelMachine.find (p.kernelOf [0]) tc none (text.drop tc) := by
  rw [toDeterministic_eq_ofBlocks hdet]
  exact (Simulation.run_ofBlocks p.linked_kernelBlocks p.length_kernelBlocks_pos text tc).trans
    (p.find_blockMachine tc (text.drop tc))

/-- The deterministic program of a program that needs threads finds the same by following its one
    thread. -/
theorem direct_run_toDeterministic (hdet : p.isDeterministic = false) (text : Bytes) (tc : Nat) :
    (Direct.run p.toDeterministic text tc).finding =
      p.kernelMachine.find (p.kernelOf [0]) tc none (text.drop tc) := by
  rw [toDeterministic_eq_ofBlocks hdet]
  exact (Direct.run_ofBlocks p.linked_kernelBlocks p.length_kernelBlocks_pos text tc).trans
    (p.find_blockMachine tc (text.drop tc))

/-- The deterministic program of a program without `branch` finds, run with threads, what the
    machine of the kernels of that program finds. -/
theorem Branchless.run_toDeterministic (hp : p.Branchless) (text : Bytes) (tc : Nat) :
    (Simulation.run p.toDeterministic (.forProgram p.toDeterministic) text tc).2 =
      p.kernelMachine.find (p.kernelOf [0]) tc none (text.drop tc) := by
  cases hdet : p.isDeterministic with
  | true =>
    rw [toDeterministic, if_pos hdet]
    exact hp.run_eq text tc
  | false => exact Program.run_toDeterministic hdet text tc

/-- The deterministic program of a program without `branch` finds the same by following its one
    thread. -/
theorem Branchless.direct_run_toDeterministic (hp : p.Branchless) (text : Bytes) (tc : Nat) :
    (Direct.run p.toDeterministic text tc).finding =
      p.kernelMachine.find (p.kernelOf [0]) tc none (text.drop tc) := by
  cases hdet : p.isDeterministic with
  | true =>
    rw [toDeterministic, if_pos hdet, find_kernelMachine_of_isDeterministic hdet]
    exact Direct.finding_runFrom_of_branchless hp (Nat.le_refl tc) _ _ _ _
  | false => exact Program.direct_run_toDeterministic hdet text tc

end Program

namespace Scanner

/-- Every step of a scan, whatever steps came before, returns the same with a program that has no
    `branch` and with its deterministic program, run with threads or by following its one thread,
    and nothing traps, unless control falls off the end of the program. If it does, the program is
    made of `accept`s alone and is its own deterministic program, and the scan is trapped in each of
    the three ways. -/
theorem step_toDeterministic
    (hp : (∃ re, Program.ofRegex re = .ok p) ∨ ∃ source, Program.read source = .ok p)
    (hbranch : ∀ r, .branch r ∉ p.insts) :
    ∃ runner : Runner, Checked.toDeterministic p = .ok runner.program ∧
      (¬ p.FallsOff → ∀ (text : Bytes) (before : List Nat) (tc : Nat), ∃ result,
        (start (Simulator.ofProgram p) text).checkedAnswer before tc = .ok result ∧
        (start (Simulator.ofProgram runner.program) text).checkedAnswer before tc = .ok result ∧
        (start runner text).checkedAnswer before tc = .ok result) ∧
      (p.FallsOff → (∀ i ∈ p.insts, ∃ n, i = .accept n) ∧ runner.program = p ∧
        ∀ (text : Bytes) (tc : Nat), tc < text.length →
          (start (Simulator.ofProgram p) text).checkedAnswer [] tc = .error (.noPlace p.size) ∧
          (start runner text).checkedAnswer [] tc = .error (.outside p.size)) := by
  have hbuilt : p.Built := by
    rcases hp with ⟨re, hre⟩ | ⟨source, hsource⟩
    · exact .generated hre
    · exact .read hsource
  have hdet := p.isDeterministic_toDeterministic
  refine ⟨⟨p.toDeterministic, hdet⟩, ?_, fun hfalls text before tc => ?_, fun hfalls => ?_⟩
  · rcases hbuilt.valid_or_accepts with hvalid | haccepts
    · exact Checked.toDeterministic_eq_ok hvalid
    -- A program of `accept`s is taken for a deterministic one, and left as it is.
    · have hself := Program.isDeterministic_of_accepts haccepts
      have hsame : p.toDeterministic = p := if_pos hself
      exact (if_pos hself).trans (congrArg Except.ok hsame.symm)
  · have hvalid := hbuilt.valid hfalls
    -- Nothing traps a valid program, and all three find what the machine of the program finds.
    have hbranchless := Program.branchless hp hbranch
    have hprogram : (Engine.find (Simulator.ofProgram p) text tc).1 = _ :=
      hbranchless.run_eq text tc
    have hthreads : (Engine.find (Simulator.ofProgram p.toDeterministic) text tc).1 = _ :=
      hbranchless.run_toDeterministic text tc
    have hone : (Engine.find (Runner.mk p.toDeterministic hdet) text tc).1 = _ :=
      hbranchless.direct_run_toDeterministic text tc
    refine ⟨_, checkedAnswer_eq_ok (Simulator.untrapped hvalid) text before tc, ?_, ?_⟩
    · rw [checkedAnswer_eq_ok (Simulator.untrapped hvalid.toDeterministic),
        step_steps (Simulator.steady _), step_steps (Simulator.steady _), hthreads, hprogram]
    · rw [checkedAnswer_eq_ok (Runner.untrapped hvalid.toDeterministic),
        step_steps (Runner.steady _), step_steps (Simulator.steady _), hone, hprogram]
  · have haccepts := hbuilt.accepts hfalls
    have hself : p.toDeterministic = p := if_pos (Program.isDeterministic_of_accepts haccepts)
    refine ⟨haccepts, hself, fun text tc htc => ?_⟩
    have haccepts' : ∀ i ∈ p.toDeterministic.insts, ∃ n, i = .accept n := by rwa [hself]
    have hrunner : (start (Runner.mk p.toDeterministic hdet) text).checkedAnswer [] tc = _ :=
      checkedAnswer_runner_eq_error haccepts' (List.forall_mem_nil _) htc
    have hsize : p.toDeterministic.size = p.size := congrArg Program.size hself
    exact ⟨checkedAnswer_simulator_eq_error haccepts (List.forall_mem_nil _) htc, hsize ▸ hrunner⟩

/-- A program with threads that go round and round, with one that dies after a byte, and with an
    instruction that is never reached. -/
theorem step_toDeterministic_loops : ∃ (p : Program) (runner : Runner),
    Program.read ("SPLIT 0 1\nSPLIT 2 4\nCHAR 97 97\nSPLIT 0 6\n" ++
      "CHAR 98 98\nFAIL\nMATCH 3\nJMP 7") = .ok p ∧
    (∀ r, .branch r ∉ p.insts) ∧ Checked.toDeterministic p = .ok runner.program ∧
    ∀ tc, ∃ result,
      (start (Simulator.ofProgram p) [97, 97, 98]).checkedAnswer [] tc = .ok result ∧
      (start runner [97, 97, 98]).checkedAnswer [] tc = .ok result := by
  have hread : Program.read ("SPLIT 0 1\nSPLIT 2 4\nCHAR 97 97\nSPLIT 0 6\n" ++
      "CHAR 98 98\nFAIL\nMATCH 3\nJMP 7") =
    .ok ⟨#[.split 0 1, .split 2 4, .consume (.single 97), .split 0 6, .consume (.single 98), .fail,
      .accept 3, .jump 7]⟩ := by
    decide +kernel
  have hbranch : ∀ r, .branch r ∉ (#[.split 0 1, .split 2 4, .consume (.single 97), .split 0 6,
      .consume (.single 98), .fail, .accept 3, .jump 7] : Array Inst) := by
    simp
  obtain ⟨runner, hrunner, hsteps, -⟩ := step_toDeterministic (.inr ⟨_, hread⟩) hbranch
  refine ⟨_, runner, hread, hbranch, hrunner, fun tc => ?_⟩
  obtain ⟨result, hprogram, -, hone⟩ :=
    hsteps (Program.valid_of_read hread).not_fallsOff [97, 97, 98] [] tc
  exact ⟨result, hprogram, hone⟩

/-- Not every scan with a program that has no `branch` returns: one that was generated for a pattern
    inside of a pattern traps it, with threads and without. -/
theorem not_step_toDeterministic_returns :
    ¬ ∀ (p : Program) (runner : Runner) (text : Bytes) (tc : Nat),
    ((∃ re, Program.ofRegex re = .ok p) ∨ ∃ source, Program.read source = .ok p) →
    (∀ r, .branch r ∉ p.insts) → Checked.toDeterministic p = .ok runner.program → ∃ result,
      (start (Simulator.ofProgram p) text).checkedAnswer [] tc = .ok result ∧
      (start (Simulator.ofProgram runner.program) text).checkedAnswer [] tc = .ok result ∧
      (start runner text).checkedAnswer [] tc = .ok result := by
  intro h
  have hdet : Program.isDeterministic ⟨#[.accept 0, .accept 1]⟩ = true := by decide +kernel
  have hself : Checked.toDeterministic ⟨#[.accept 0, .accept 1]⟩ = .ok ⟨#[.accept 0, .accept 1]⟩ :=
    if_pos hdet
  obtain ⟨result, hprogram, -⟩ :=
    h _ ⟨_, hdet⟩ [97] 0 (.inl ⟨_, Program.ofRegex_pattern_pattern_finish⟩) (by simp) hself
  have htrap :
      (start (Simulator.ofProgram ⟨#[.accept 0, .accept 1]⟩) [97]).checkedAnswer [] 0 = _ :=
    checkedAnswer_simulator_eq_error (by simp) (List.forall_mem_nil _) (by decide)
  rw [htrap] at hprogram
  cases hprogram

end Scanner

end Munch

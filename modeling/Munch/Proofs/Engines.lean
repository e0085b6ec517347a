import Munch.Proofs.BlockThreads
import Munch.Proofs.Direct
import Munch.Proofs.LongestMatch
import Munch.Proofs.Minimize
import Munch.Proofs.ValidBlocks

set_option autoImplicit false

/-! # All engines agree

A pattern set can be scanned for with its program, run with threads; with its deterministic program,
run with threads or by following its one thread; and with its table, minimized or not. All of them
find what the machine of the kernels finds, so a scan with any of them returns the same. -/

namespace Munch

variable {re : Regex} {p : Program} {rs : List Regex}

/-- Deterministic programs can be run by following their one thread. -/
theorem Runner.ofProgram?_ofBlocks (blocks : List Program.Block) :
    ofProgram? (.ofBlocks blocks) =
      some ⟨.ofBlocks blocks, Program.isDeterministic_ofBlocks blocks⟩ :=
  dif_pos (Program.isDeterministic_ofBlocks blocks)

theorem Runner.program_of_ofProgram? {runner : Runner} (h : ofProgram? p = some runner) :
    runner.program = p := by
  unfold ofProgram? at h
  split at h
  · exact congrArg program (Option.some.inj h).symm
  · cases h

/-- The blocks of a program find what the kernels find that they were made from. -/
theorem Program.find_blockMachine (p : Program) (i : Nat) (rest : Bytes) :
    (blockMachine p.kernelBlocks).find 0 i none rest =
      p.kernelMachine.find (p.kernelOf [0]) i none rest :=
  (bisim_blockMachine p).find_eq p.getElem?_found_zero rest i none

/-- Every engine of a pattern set finds what the table of the set finds. -/
theorem exists_find_eq (h : re.IsPatternSet) : ∃ p runner, Program.ofRegex re = .ok p ∧
    Runner.ofProgram? p.toDeterministic = some runner ∧ ∀ (text : Bytes) (tc : Nat),
      let found := (Table.ofRegex re).find text tc
      (Engine.find (Simulator.ofProgram p) text tc).1 = found ∧
        (Engine.find (Simulator.ofProgram p.toDeterministic) text tc).1 = found ∧
        (Engine.find runner text tc).1 = found ∧
        (Engine.find (Table.ofRegex re).minimize text tc).1 = found := by
  obtain ⟨p, hp, hcode⟩ := Program.exists_ofRegex_eq_ok h
  have hdet := Program.isDeterministic_ofBlocks p.kernelBlocks
  refine ⟨p, ⟨.ofBlocks p.kernelBlocks, hdet⟩, hp, ?_, fun text tc => ?_⟩
  · rw [hcode.toDeterministic_eq]
    exact Runner.ofProgram?_ofBlocks _
  · intro found
    have hlinked : Program.Linked p.kernelBlocks := p.linked_kernelBlocks
    have hpos := p.length_kernelBlocks_pos
    have hblocks := p.find_blockMachine tc (text.drop tc)
    have hprogram : (Engine.find (Simulator.ofProgram p) text tc).1 = _ := hcode.run_eq text tc
    have htable : found = _ := Table.find_ofRegex hcode text tc
    have hminimal : (Engine.find (Table.ofRegex re).minimize text tc).1 = found :=
      Table.find_minimize (Table.wellFormed_ofLabelled _) text tc
    have hthreads : (Engine.find (Simulator.ofProgram (.ofBlocks p.kernelBlocks)) text tc).1 = _ :=
      (Simulation.run_ofBlocks hlinked hpos text tc).trans hblocks
    have hrunner : (Engine.find (Runner.mk (.ofBlocks p.kernelBlocks) hdet) text tc).1 = _ :=
      (Direct.run_ofBlocks hlinked hpos text tc).trans hblocks
    rw [hcode.toDeterministic_eq]
    exact ⟨hprogram.trans htable.symm, hthreads.trans htable.symm,
      hrunner.trans htable.symm, hminimal⟩

namespace Scanner

/-- The first step of a scan returns the same with every engine of a pattern set, whatever the text
    and the cursor. The run with one thread comes to where control ends. -/
theorem step_engines_eq (h : re.IsPatternSet) : ∃ p runner, Program.ofRegex re = .ok p ∧
    Runner.ofProgram? p.toDeterministic = some runner ∧ ∀ (text : Bytes) (tc : Nat),
      let result := ((start (Simulator.ofProgram p) text).step tc).1
      ((start (Simulator.ofProgram p.toDeterministic) text).step tc).1 = result ∧
        ((start runner text).step tc).1 = result ∧
        ((start (Table.ofRegex re) text).step tc).1 = result ∧
        ((start (Table.ofRegex re).minimize text).step tc).1 = result ∧
        (Direct.run runner.program text tc).Returns := by
  obtain ⟨p, runner, hp, hrunner, hfind⟩ := exists_find_eq h
  refine ⟨p, runner, hp, hrunner, fun text tc => ?_⟩
  obtain ⟨hprogram, hthreads, hdirect, hminimal⟩ := hfind text tc
  have hvalid : runner.program.Valid := by
    rw [Runner.program_of_ofProgram? hrunner]
    exact (Program.valid_of_isPatternSet h hp).toDeterministic
  exact ⟨step_congr (hthreads.trans hprogram.symm), step_congr (hdirect.trans hprogram.symm),
    step_congr hprogram.symm, step_congr (hminimal.trans hprogram.symm),
    hvalid.returns_run runner.deterministic text tc⟩

/-- Words of `a`s or single bytes, among them a dead end. -/
theorem step_engines_eq_plus_or_any :
    (Regex.either (.plus (.byte 97)) (.range (ByteRange.single 98))).IsPatternSet ∧
      ∃ p runner, Program.ofRegex (.either (.plus (.byte 97)) (.range (ByteRange.single 98))) =
        .ok p ∧ Runner.ofProgram? p.toDeterministic = some runner ∧
        ((start runner [97, 97, 99]).step 0).1 =
          ((start (Simulator.ofProgram p) [97, 97, 99]).step 0).1 ∧
        ((start runner [97, 97, 99]).step 2).1 =
          ((start (Simulator.ofProgram p) [97, 97, 99]).step 2).1 ∧
        (Direct.run runner.program [97, 97, 99] 2).Returns := by
  have h : (Regex.either (.plus (.byte 97)) (.range (ByteRange.single 98))).IsPatternSet := by
    decide
  obtain ⟨p, runner, hp, hrunner, hsteps⟩ := step_engines_eq h
  exact ⟨h, p, runner, hp, hrunner, (hsteps [97, 97, 99] 0).2.1, (hsteps [97, 97, 99] 2).2.1,
    (hsteps [97, 97, 99] 2).2.2.2.2⟩

end Scanner

end Munch

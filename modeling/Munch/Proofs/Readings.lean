import Munch.Proofs.BranchFree
import Munch.Proofs.Compilation
import Munch.Proofs.Emitted
import Munch.Proofs.Marked
import Munch.Proofs.OneThread

set_option autoImplicit false

/-! # Two readings of an expression

A program and a table are made from any expression, also from one with end marks in the middle of a
body or with patterns inside of patterns. These they read in different ways. A program goes on over
an end mark, and a thread that comes to the end of an inner pattern stops there; a table ends the
pattern of an end mark wherever the mark stands, and goes on behind an inner pattern. A program
numbers patterns where they end, and a table where they begin. So the texts of a pattern are those
of its code for the one (`Regex.CodeAccepts`) and those that lead to its end marks for the other
(`Regex.MarksAccept`).

Both find the longest texts in their own reading, and they find the same at every cursor exactly if
each text that is not empty has the same least pattern in both (`Scanner.step_readings`). In a
pattern set the texts are the words of the pattern in both readings (`Regex.codeAccepts_iff`,
`Regex.marksAccept_iff`). -/

namespace Munch

namespace Regex

/-- The code of an expression accepts the pattern with a number on a text. -/
def CodeAccepts (re : Regex) (k : Nat) (w : Bytes) : Prop := w ∈ re.desugar.anchor.accepted k 0

/-- A text leads to an end mark of the pattern with a number. -/
def MarksAccept (re : Regex) (k : Nat) (w : Bytes) : Prop := w ∈ re.desugar.anchor.marked k none 0

end Regex

/-! ## What the automata of an expression accept -/

namespace Program

variable {p : Program} {re : Regex}

/-- The kernels of a program accept the least pattern whose code accepts the text. -/
theorem acceptsLeast_of_ofRegex (h : Program.ofRegex re = .ok p) (hvalid : p.Valid) :
    p.kernelMachine.AcceptsLeast (p.kernelOf [0]) re.CodeAccepts := by
  refine Machine.acceptsLeast_of_run (fun _ => rfl) fun w k => ?_
  rw [Regex.CodeAccepts, ← run_iff_accepted h]
  exact run_accept_iff (hvalid.threaded_of_ofRegex h)

/-- A run with threads finds the longest text that the code of a pattern accepts. -/
theorem findsLongest_of_ofRegex (h : Program.ofRegex re = .ok p) (hvalid : p.Valid)
    (text : Bytes) (tc : Nat) : FindsLongest re.CodeAccepts text tc
      (Engine.find (Simulator.ofProgram p) text tc).1.longest? := by
  have hbranchless := branchless (.inl ⟨re, h⟩) (branch_not_mem_of_ofRegex h)
  have hfind : (Engine.find (Simulator.ofProgram p) text tc).1 = _ := hbranchless.run_eq text tc
  rw [hfind]
  exact (acceptsLeast_of_ofRegex h hvalid).findsLongest text tc

theorem matchesEmpty_iff_codeAccepts (h : Program.ofRegex re = .ok p) (hvalid : p.Valid) :
    p.matchesEmpty = true ↔ ∃ k, re.CodeAccepts k [] := by
  rw [p.matchesEmpty_iff_kernelOf]
  refine exists_congr fun k => ?_
  rw [Regex.CodeAccepts, ← run_iff_accepted h, run_accept_iff (hvalid.threaded_of_ofRegex h)]
  simp

end Program

namespace Table

variable (re : Regex)

/-- The states of a table accept the least pattern that the text leads to an end mark of. -/
theorem acceptsLeast_ofRegex :
    (ofRegex re).machine.AcceptsLeast (ofRegex re).start re.MarksAccept := by
  intro w k
  have haccepted : (ofRegex re).machine.accepted? (ofRegex re).start w = _ :=
    (bisim_ofLabelled (Labelled.ofRegex re)).accepted?_eq ⟨start_mem_sets _, rfl⟩ w
  rw [haccepted]
  exact Machine.acceptsLeast_of_run (fun _ => rfl)
    (fun _ _ => Labelled.mem_run_machine_iff_marked.symm) w k

/-- A table finds the longest text that leads to an end mark. -/
theorem findsLongest_marksAccept (text : Bytes) (tc : Nat) : FindsLongest re.MarksAccept
    text tc (Engine.find (ofRegex re) text tc).1.longest? := by
  have hfind : (Engine.find (ofRegex re) text tc).1 = _ := find_eq (ofRegex re) text tc
  rw [hfind]
  exact (acceptsLeast_ofRegex re).findsLongest text tc

theorem matchesEmpty_iff_marksAccept :
    (ofRegex re).matchesEmpty = true ↔ ∃ k, re.MarksAccept k [] := by
  rw [matchesEmpty, Option.isSome_iff_exists]
  exact (exists_congr (acceptsLeast_ofRegex re [])).trans exists_isLeast_iff

end Table

/-! ## Pattern sets -/

namespace Regex

variable {re : Regex} {k : Nat} {w : Bytes}

/-- In a pattern set, the code of a pattern accepts its words. -/
theorem codeAccepts_iff (h : re.IsPatternSet) : re.CodeAccepts k w ↔ re.Accepts k w := by
  obtain ⟨p, hp, hcode⟩ := Program.exists_ofRegex_eq_ok h
  rw [CodeAccepts, ← Program.run_iff_accepted hp, hcode.run_iff_bodies, Accepts]

/-- In a pattern set, the words of a pattern lead to its end mark. -/
theorem marksAccept_iff (h : re.IsPatternSet) : re.MarksAccept k w ↔ re.Accepts k w := by
  obtain ⟨p, hp, hcode⟩ := Program.exists_ofRegex_eq_ok h
  have hpairs := Pairs.of_isCodeOf hcode
  have hrun := (Program.bisim_kernelMachine hpairs hcode).run (Program.matches_start hpairs) w
  rw [MarksAccept, ← Labelled.mem_run_machine_iff_marked, hcode.accepts_iff]
  generalize (Labelled.ofRegex re).machine.run (Labelled.ofRegex re).start w = set at hrun
  generalize p.kernelMachine.run (p.kernelOf [0]) w = kernel at hrun
  cases hrun with
  | none => simp
  | some hmatches =>
    simpa only [Option.some.injEq, exists_eq_left'] using hmatches.mem_patterns_iff hpairs

end Regex

/-! ## Scans -/

namespace Scanner

/-- The pattern and the end of a match that a step returned. -/
def found? : Option (Except Unconsumed Match) → Option (Nat × Nat)
  | some (.ok m) => some (m.id, m.stop)
  | some (.error _) | none => none

variable {A : Nat → Bytes → Prop} {text : Bytes} {tc : Nat}

/-- A step of a scan with a steady engine returns the match that the engine finds. -/
theorem findsLongest_step {ε : Type} [Engine ε] {engine : ε} (hsteady : Engine.Steady engine)
    (h : FindsLongest A text tc (Engine.find engine text tc).1.longest?) {before : List Nat}
    (hbefore : ∀ c ∈ before, c < text.length) :
    FindsLongest A text tc (found? (((start engine text).steps before).step tc).1) := by
  suffices hsame : found? (((start engine text).steps before).step tc).1 =
      (Engine.find engine text tc).1.longest? by
    rw [hsame]
    exact h
  rw [step_steps hsteady]
  cases hfound : (Engine.find engine text tc).1.longest? with
  | none =>
    split
    · rfl
    · rw [report, hfound]
      rfl
  | some m =>
    obtain ⟨id, stop⟩ := m
    obtain ⟨hlt, hle, _⟩ := (h.of_some id stop hfound).1.1
    rw [if_neg, report, hfound]
    · show some (id, (matchAt text .start id tc stop).1.stop) = some (id, stop)
      rw [stop_matchAt hlt.le hle]
    · simpa using ⟨Nat.lt_of_lt_of_le hlt hle, hbefore⟩

/-- A step with the program of an expression, whatever steps came before, finds the longest text
    that the code of a pattern accepts, and a step with its table the longest one that leads to an
    end mark, each for the least pattern that has it. The program matches the empty text if the code
    of a pattern accepts it, the table if it leads to an end mark, and the expression is nullable if
    the empty text is in its language. -/
theorem step_readings {re : Regex} {p : Program} (h : Program.ofRegex re = .ok p)
    (hvalid : p.Valid) :
    let byProgram := fun text before tc =>
      found? (((start (Simulator.ofProgram p) text).steps before).step tc).1
    let byTable := fun text before tc =>
      found? (((start (Table.ofRegex re) text).steps before).step tc).1
    (∀ text before tc, (∀ c ∈ before, c < text.length) →
      FindsLongest re.CodeAccepts text tc (byProgram text before tc) ∧
        FindsLongest re.MarksAccept text tc (byTable text before tc)) ∧
      ((∀ text tc, byProgram text [] tc = byTable text [] tc) ↔
        ∀ w ≠ [], ∀ k, IsLeast {k | re.CodeAccepts k w} k ↔ IsLeast {k | re.MarksAccept k w} k) ∧
      (p.matchesEmpty = true ↔ ∃ k, re.CodeAccepts k []) ∧
      ((Table.ofRegex re).matchesEmpty = true ↔ ∃ k, re.MarksAccept k []) ∧
      (re.nullable = true ↔ [] ∈ re.language) := by
  intro byProgram byTable
  have hprogram : ∀ text before tc, (∀ c ∈ before, c < text.length) →
      FindsLongest re.CodeAccepts text tc (byProgram text before tc) :=
    fun text before tc hbefore => findsLongest_step (Simulator.steady p)
      (Program.findsLongest_of_ofRegex h hvalid text tc) hbefore
  have htable : ∀ text before tc, (∀ c ∈ before, c < text.length) →
      FindsLongest re.MarksAccept text tc (byTable text before tc) :=
    fun text before tc hbefore => findsLongest_step (Table.steady _)
      (Table.findsLongest_marksAccept re text tc) hbefore
  refine ⟨fun text before tc hbefore => ⟨hprogram text before tc hbefore,
    htable text before tc hbefore⟩, ?_,
    Program.matchesEmpty_iff_codeAccepts h hvalid,
    Table.matchesEmpty_iff_marksAccept re, re.nullable_iff⟩
  exact FindsLongest.forall_eq_iff
    (fun text tc => hprogram text [] tc (List.forall_mem_nil _))
    fun text tc => htable text [] tc (List.forall_mem_nil _)

/-- An end mark in the middle of a body ends a match of the table, also an empty one, and the
    program reads on over it. -/
theorem step_readings_inner_mark :
    let re : Regex := .cat [.maybe (.byte 97), .finish, .byte 98]
    ∃ p, Program.ofRegex re = .ok p ∧ p.Valid ∧
      found? (((start (Simulator.ofProgram p) [97, 98]).steps [1]).step 0).1 = some (0, 2) ∧
      found? (((start (Table.ofRegex re) [97]).steps []).step 0).1 = some (0, 1) ∧
      (Table.ofRegex re).matchesEmpty = true := by
  intro re
  have h : Program.ofRegex re =
      .ok ⟨#[.split 1 2, .consume (.single 97), .consume (.single 98), .accept 0]⟩ := by
    decide +kernel
  have hvalid := Program.valid_of_ofRegex (i := .split 1 2) h (by simp) (by simp)
  obtain ⟨hfinds, -, -, hempty, -⟩ := step_readings h hvalid
  have hleaves : [97] ++ ([] ++ [98]) ∈ re.leaves :=
    .inl (Language.append_mem_mul (.inl rfl) (Language.append_mem_mul (.inl rfl) rfl))
  have hcode : re.CodeAccepts 0 ([97] ++ ([] ++ [98]) ++ []) :=
    .inr (.inl (Language.append_mem_mul hleaves Language.nil_mem_one))
  have hmarks : re.MarksAccept 0 ([97] ++ []) :=
    .inl (.inr (Language.append_mem_mul (.inr rfl) (.inl rfl)))
  have hnil : re.MarksAccept 0 ([] ++ []) :=
    .inl (.inr (Language.append_mem_mul (.inl rfl) (.inl rfl)))
  refine ⟨_, h, hvalid, ?_, ?_, hempty.mpr ⟨0, hnil⟩⟩
  · exact ((hfinds _ [1] 0 (by decide)).1.eq_some_length_iff (by simp)).mpr ⟨hcode,
      fun _ _ => Nat.zero_le _⟩
  · exact ((hfinds _ [] 0 (List.forall_mem_nil _)).2.eq_some_length_iff (by simp)).mpr ⟨hmarks,
      fun _ _ => Nat.zero_le _⟩

/-- On an end mark in the middle of a body, and on patterns inside of a pattern, a scan with the
    program and one with the table find different things. -/
theorem step_program_ne_step_table :
    let marked : Regex := .cat [.maybe (.byte 97), .finish, .byte 98]
    let nested : Regex := .complete (.either (.complete (.byte 97)) (.complete (.byte 98)))
    (∃ p, Program.ofRegex marked = .ok p ∧ p.Valid ∧
      ((start (Simulator.ofProgram p) [97]).step 0).1 = some (.error ⟨0, 1, ⟨1, 1⟩, ⟨1, 2⟩, [97]⟩) ∧
      ((start (Table.ofRegex marked) [97]).step 0).1 = some (.ok ⟨0, 0, ⟨1, 1⟩, ⟨1, 1⟩, [97]⟩) ∧
      marked.nullable = false ∧ p.matchesEmpty = false ∧
      (Table.ofRegex marked).matchesEmpty = true) ∧
    ∃ p, Program.ofRegex nested = .ok p ∧ p.Valid ∧
      ((start (Simulator.ofProgram p) [98]).step 0).1 = some (.ok ⟨1, 0, ⟨1, 1⟩, ⟨1, 1⟩, [98]⟩) ∧
      ((start (Table.ofRegex nested) [98]).step 0).1 = some (.ok ⟨0, 0, ⟨1, 1⟩, ⟨1, 1⟩, [98]⟩) := by
  intro marked nested
  have hmarked : Program.ofRegex marked =
      .ok ⟨#[.split 1 2, .consume (.single 97), .consume (.single 98), .accept 0]⟩ := by
    decide +kernel
  have hnested : Program.ofRegex nested =
      .ok ⟨#[.split 1 3, .consume (.single 97), .accept 0, .consume (.single 98),
        .accept 1, .accept 2]⟩ := by
    decide +kernel
  have hfind : (Engine.find (Table.ofRegex marked) [97] 0).1 = ⟨some (0, 1), 1⟩ :=
    (Table.find_ofLabelled _ _ _).trans (by decide +kernel)
  have hfind' : (Engine.find (Table.ofRegex nested) [98] 0).1 = ⟨some (0, 1), 1⟩ :=
    (Table.find_ofLabelled _ _ _).trans (by decide +kernel)
  have hstart : (Table.ofRegex marked).accept? (Table.ofRegex marked).start = some 0 :=
    (Table.accept?_stateOf (Table.start_mem_sets _)).trans (by decide +kernel)
  have hvalid := Program.valid_of_ofRegex (i := .split 1 2) hmarked (by simp) (by simp)
  have hvalid' := Program.valid_of_ofRegex (i := .split 1 3) hnested (by simp) (by simp)
  refine ⟨⟨_, hmarked, hvalid, ?_, ?_, rfl, ?_, congrArg Option.isSome hstart⟩,
    ⟨_, hnested, hvalid', ?_, ?_⟩⟩
  · cbv
  · rw [step_start, hfind]
    decide +kernel
  · cbv
  · cbv
  · rw [step_start, hfind']
    decide +kernel

end Scanner

end Munch

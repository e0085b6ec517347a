import Munch.Proofs.Generated
import Munch.Proofs.Traps

set_option autoImplicit false

/-! # Programs that fall off their end

A scan can run the programs that are read from a text, generated for an expression, or made
deterministic (`Program.Built`). They are valid, except for those where control falls off the end
(`Program.FallsOff`). Such a program is generated for an expression that has nothing but end marks
in its patterns, and is made of `accept`s alone. It is taken for a deterministic program, in which
every `accept` passes control on, the last one too.

So a list of threads that is closed runs to the end of such a program, and is asked for a place that
it does not have (`Program.closeAll_eq_error`); and one thread that is followed comes to an offset
without an instruction (`Direct.halt_runFrom_of_accepts`). Every step of a scan is trapped. -/

namespace Munch

namespace Program

variable {p : Program} {l : ThreadList} {pc : Nat}

/-- Control falls off the end of the program: its last instruction passes control on. -/
def FallsOff (p : Program) : Prop :=
  ∃ i, p.insts.back? = some i ∧ i.fallsThrough p.isDeterministic = true

theorem Valid.not_fallsOff (hp : p.Valid) : ¬ p.FallsOff := by
  rintro ⟨i, hi, hfalls⟩
  obtain ⟨j, hj, hnot⟩ := hp.last
  obtain rfl := Option.some.inj (hi.symm.trans hj)
  rw [hnot] at hfalls
  cases hfalls

theorem fallsOff_of_accepts (haccepts : ∀ i ∈ p.insts, ∃ n, i = .accept n) (hpc : pc < p.size) :
    p.FallsOff := by
  have hlast : p.size - 1 < p.insts.size := Nat.sub_lt_self Nat.one_pos (Nat.zero_lt_of_lt hpc)
  obtain ⟨n, hn⟩ := haccepts p.insts[p.size - 1] (Array.getElem_mem hlast)
  refine ⟨.accept n, ?_, isDeterministic_of_accepts haccepts⟩
  rw [Array.back?_eq_getElem?, ← hn]
  exact Array.getElem?_eq_getElem hlast

/-- The programs that a scan can run: one is read from a text, generated for an expression, or made
    deterministic. A program that is deterministic already is not changed by making it so. -/
inductive Built : Program → Prop
  | read {source : String} {p : Program} (h : Program.read source = .ok p) : Built p
  | generated {re : Regex} {p : Program} (h : Program.ofRegex re = .ok p) : Built p
  | determinized {p : Program} (h : p.isDeterministic = true → Built p) : Built p.toDeterministic

/-- Such a program is valid, unless it is made of `accept`s alone. -/
theorem Built.valid_or_accepts (hp : p.Built) : p.Valid ∨ ∀ i ∈ p.insts, ∃ n, i = .accept n := by
  induction hp with
  | read hread => exact .inl (valid_of_read hread)
  | generated hre => exact valid_or_accepts_of_ofRegex hre
  | @determinized q hq ih =>
    cases hdet : q.isDeterministic with
    | true =>
      rw [Program.toDeterministic, if_pos hdet]
      exact ih hdet
    | false => exact .inl (valid_toDeterministic fun hd => absurd hd (by simp [hdet]))

theorem Built.size_pos (hp : p.Built) : 0 < p.size := by
  induction hp with
  | read hread => exact (valid_of_read hread).size_pos
  | generated hre =>
    obtain ⟨last, hlast, -⟩ := exists_last_of_ofRegex hre
    exact Array.size_pos_of_mem (Array.mem_of_back? hlast)
  | @determinized q hq ih =>
    cases hdet : q.isDeterministic with
    | true =>
      rw [Program.toDeterministic, if_pos hdet]
      exact ih hdet
    | false => exact (valid_toDeterministic fun hd => absurd hd (by simp [hdet])).size_pos

/-- If control does not fall off its end, such a program is valid. -/
theorem Built.valid (hp : p.Built) (h : ¬ p.FallsOff) : p.Valid :=
  hp.valid_or_accepts.resolve_right fun haccepts => h (fallsOff_of_accepts haccepts hp.size_pos)

/-- If control falls off its end, such a program is made of `accept`s alone. -/
theorem Built.accepts (hp : p.Built) (h : p.FallsOff) : ∀ i ∈ p.insts, ∃ n, i = .accept n :=
  hp.valid_or_accepts.resolve_left fun hvalid => hvalid.not_fallsOff h

/-- The program of a pattern that is nothing but another pattern, of the empty text. Control falls
    off its end. -/
theorem ofRegex_pattern_pattern_finish :
    Program.ofRegex (.pattern (.pattern .finish)) = .ok ⟨#[.accept 0, .accept 1]⟩ := by
  decide +kernel

/-! ## Traps -/

theorem exists_accept (haccepts : ∀ i ∈ p.insts, ∃ n, i = .accept n) (hpc : pc < p.size) :
    ∃ n, p.insts[pc]? = some (.accept n) := by
  obtain ⟨n, hn⟩ := haccepts p.insts[pc] (Array.getElem_mem hpc)
  exact ⟨n, hn ▸ Array.getElem?_eq_getElem hpc⟩

/-- A closure goes through the `accept`s up to the end of the program, where it is trapped. -/
theorem closeAll_eq_error (haccepts : ∀ i ∈ p.insts, ∃ n, i = .accept n) (rest : List Nat) {k : Nat}
    (hpc : pc + k = p.size) (hcap : l.capacity = p.size)
    (hnone : ∀ q, pc ≤ q → l.contains q = false) :
    Checked.closeAll p l (pc :: rest) = .error (.noPlace p.size) := by
  have hc := hnone pc (Nat.le_refl pc)
  induction k generalizing l pc with
  | zero =>
    obtain rfl : pc = p.size := hpc
    rw [Checked.closeAll, dif_neg (by simp [hc]), dif_pos (Nat.le_of_eq hcap)]
  | succ k ih =>
    have hlt : pc < p.size := by omega
    obtain ⟨n, hi⟩ := exists_accept haccepts hlt
    have hfetch : Checked.fetch p pc = .ok (.accept n) := by rw [Checked.fetch, hi]
    have hsteps : p.emptySteps pc = [pc + 1] := by
      simp [emptySteps, hi, isDeterministic_of_accepts haccepts]
    have hacc : l.accepts pc = true := ThreadList.accepts_iff.mpr ⟨hc, hcap.symm ▸ hlt⟩
    have hnone' : ∀ q, pc + 1 ≤ q → (l.insert pc).contains q = false := by
      intro q hq
      rw [ThreadList.contains_insert hacc, hnone q (by omega), Bool.or_false, beq_eq_false_iff_ne]
      omega
    rw [Checked.closeAll, dif_neg (by simp [hc]), dif_neg (by omega), hfetch]
    show Checked.closeAll p (l.insert pc) (p.emptySteps pc ++ rest) = _
    rw [hsteps]
    exact ih (by omega) ((ThreadList.capacity_insert l pc).trans hcap) hnone'
      (hnone' _ (Nat.le_refl _))

end Program

open Program

variable {p : Program}

/-- A run with threads is trapped before it comes to a byte. -/
theorem Checked.run_eq_error (haccepts : ∀ i ∈ p.insts, ∃ n, i = .accept n) {threads : Threads}
    (hsized : threads.Sized p.size) (text : Bytes) (tc : Nat) :
    run p threads text tc = .error (.noPlace p.size) := by
  have hclose : close p threads.current.clear 0 = .error (.noPlace p.size) :=
    closeAll_eq_error haccepts [] (Nat.zero_add _) hsized.1 fun q _ =>
      ThreadList.contains_clear threads.current q
  rw [run, hclose]

/-- A run with one thread goes through the `accept`s as well, and leaves the program. -/
theorem Direct.halt_runFrom_of_accepts (haccepts : ∀ i ∈ p.insts, ∃ n, i = .accept n) (tc : Nat)
    (rest : Bytes) (i : Nat) (path : List Nat) (pc : Nat) (best : Option (Nat × Nat))
    (hpc : pc ≤ p.size) (hpath : ∀ a ∈ path, a < pc) :
    (runFrom p tc rest i path pc best).halt = .outside p.size := by
  fun_induction runFrom p tc rest i path pc best with
  | case1 rest i path pc best hmem => exact absurd (hpath pc hmem) (Nat.lt_irrefl pc)
  | case2 rest i path pc best _ hlt id _ ih =>
    refine ih hlt fun a ha => ?_
    rcases List.mem_cons.mp ha with rfl | ha
    · exact Nat.lt_succ_self a
    · exact Nat.lt_succ_of_lt (hpath a ha)
  | case9 rest i path pc best _ hge => rw [Nat.le_antisymm hpc (Nat.le_of_not_lt hge)]
  | case8 rest i path pc best _ hlt haccept =>
    obtain ⟨n, hn⟩ := exists_accept haccepts hlt
    exact absurd hn (haccept n)
  | case3 | case4 | case5 | case6 | case7 =>
    -- The instruction is no `accept`.
    obtain ⟨n, hn⟩ := haccepts _ (Array.mem_of_getElem? ‹_›)
    cases hn

theorem Checked.follow_eq_error (haccepts : ∀ i ∈ p.insts, ∃ n, i = .accept n) (text : Bytes)
    (tc : Nat) : follow p text tc = .error (.outside p.size) := by
  have hhalt : (Direct.run p text tc).halt = .outside p.size :=
    Direct.halt_runFrom_of_accepts haccepts tc _ tc [] 0 none (Nat.zero_le _)
      (List.forall_mem_nil _)
  rw [follow, hhalt]
  rfl

namespace Scanner

variable {text : Bytes} {before : List Nat} {tc : Nat}

/-- A scan with threads is trapped at every cursor, if it has not come to the end before. -/
theorem checkedAnswer_simulator_eq_error (haccepts : ∀ i ∈ p.insts, ∃ n, i = .accept n)
    (hbefore : ∀ c ∈ before, c < text.length) (htc : tc < text.length) :
    (start (Simulator.ofProgram p) text).checkedAnswer before tc = .error (.noPlace p.size) := by
  refine checkedAnswer_eq_error (fun c => ?_) hbefore htc
  show (Checked.run p (Threads.forProgram p) text c).map _ = _
  rw [Checked.run_eq_error haccepts (Threads.sized_forProgram p)]
  rfl

theorem checkedAnswer_runner_eq_error {runner : Runner}
    (haccepts : ∀ i ∈ runner.program.insts, ∃ n, i = .accept n)
    (hbefore : ∀ c ∈ before, c < text.length) (htc : tc < text.length) :
    (start runner text).checkedAnswer before tc = .error (.outside runner.program.size) := by
  refine checkedAnswer_eq_error (fun c => ?_) hbefore htc
  show (Checked.follow runner.program text c).map _ = _
  rw [Checked.follow_eq_error haccepts]
  rfl

end Scanner

end Munch

import Munch.Proofs.Built
import Munch.Proofs.OneThread

set_option autoImplicit false

/-! # All that the threads come to

A program that is run with threads finds exactly what its threads come to in the text, whatever its
instructions are and however its jumps lead back. Before a byte, the list of threads may still lack
what a `branch` passes on to, but it has everything from which that is passed to
(`ThreadList.Before`); the round at the byte goes through all that the threads come to there
(`Simulation.Round.mem_iff_comesTo`), and collects such a list for the next byte
(`Simulation.Round.before_next`). By then the longest match of the places passed so far is recorded
(`Program.Recorded`). So a step of a scan tells all that the threads come to
(`Scanner.step_simulator_of_built`).

All that is needed of a program is that the threads that consume a byte do not leave it. -/

namespace Munch

namespace Program

variable {p : Program} {text : Bytes} {tc i a x : Nat} {b : UInt8}
    {best : Option (Nat × Nat)} {ids : List Nat}

/-! ## What is recorded -/

/-- The longest match that ends before a place is recorded, with the least of the patterns accepted
    at its end. -/
structure Recorded (p : Program) (text : Bytes) (tc i : Nat) (best : Option (Nat × Nat)) :
    Prop where
  start_lt : ∀ m ∈ best, tc < m.2
  lt : ∀ m ∈ best, m.2 < i
  least : ∀ m ∈ best, IsLeast {id | p.AcceptsAt text tc m.2 id} m.1
  longest : p.LongestBefore text tc i best

theorem recorded_none (p : Program) (text : Bytes) (tc : Nat) : p.Recorded text tc tc none where
  start_lt := nofun
  lt := nofun
  least := nofun
  longest _ _ htc hj := absurd htc (Nat.lt_asymm hj)

/-- At the start, and where nothing is accepted, the record is the one for the next place. -/
theorem Recorded.succ (h : p.Recorded text tc i best)
    (hno : tc < i → ∀ id, ¬ p.AcceptsAt text tc i id) : p.Recorded text tc (i + 1) best where
  start_lt := h.start_lt
  lt m hm := Nat.lt_succ_of_lt (h.lt m hm)
  least := h.least
  longest j id htc hj haccepts := by
    rcases Nat.lt_or_eq_of_le (Nat.le_of_lt_succ hj) with hlt | rfl
    · exact h.longest j id htc hlt haccepts
    · exact absurd haccepts (hno htc id)

/-- The least of the patterns accepted at a place is recorded there. -/
theorem Recorded.recordPast (h : p.Recorded text tc i best)
    (hids : ∀ id, id ∈ ids ↔ p.AcceptsAt text tc i id) :
    p.Recorded text tc (i + 1) (Machine.recordPast tc i best ids.min?) := by
  unfold Machine.recordPast
  split
  · next htc =>
    cases hmin : ids.min? with
    | none =>
      refine h.succ fun _ id hid => ?_
      have hmem : id ∈ ids := (hids id).mpr hid
      rw [List.min?_eq_none_iff.mp hmin] at hmem
      cases hmem
    | some least =>
      obtain ⟨hmem, hle⟩ := List.min?_eq_some_iff.mp hmin
      constructor
      · rintro _ ⟨⟩
        exact htc
      · rintro _ ⟨⟩
        exact Nat.lt_succ_self i
      · rintro _ ⟨⟩
        exact ⟨(hids least).mp hmem, fun id hid => hle id ((hids id).mpr hid)⟩
      · exact fun j id _ hj _ => ⟨(least, i), rfl, Nat.le_of_lt_succ hj⟩
  · next htc => exact h.succ fun hlt => absurd hlt htc

/-- What a run finds is what its threads come to: the last place at which a pattern is accepted,
    with the least of the patterns accepted there, and the last place of all. -/
structure FindsAll (p : Program) (text : Bytes) (tc : Nat) (found : Finding) : Prop where
  start_lt : ∀ m ∈ found.longest?, tc < m.2
  least : ∀ m ∈ found.longest?, IsLeast {id | p.AcceptsAt text tc m.2 id} m.1
  exists_le : ∀ i id, tc < i → p.AcceptsAt text tc i id → ∃ m ∈ found.longest?, i ≤ m.2
  fail_greatest : IsGreatest {i | ∃ a, p.ComesTo text tc i a} found.fail

/-- Where no thread consumes the byte, all was found that there is to find. -/
theorem Recorded.findsAll (h : p.Recorded text tc (i + 1) best)
    (hcomes : ∃ a, p.ComesTo text tc i a)
    (hno : ∀ a b, p.ComesTo text tc i a → text[i]? = some b → ¬ p.Takes b a) :
    p.FindsAll text tc ⟨best, i⟩ := by
  obtain ⟨a, ha⟩ := hcomes
  have hle : ∀ {j c}, p.ComesTo text tc j c → j ≤ i := ComesTo.le_of_not_takes ha.le hno
  refine ⟨h.start_lt, h.least, fun j id htc ⟨c, hc, hid⟩ => ?_, ⟨a, ha⟩, fun j ⟨c, hc⟩ => hle hc⟩
  exact h.longest j id htc (Nat.lt_succ_of_le (hle hc)) ⟨c, hc, hid⟩

/-- The longest match found is the longest that there is. -/
theorem FindsAll.isGreatest {found : Finding} (h : p.FindsAll text tc found) {m : Nat × Nat}
    (hm : m ∈ found.longest?) : IsGreatest {i | tc < i ∧ ∃ id, p.AcceptsAt text tc i id} m.2 := by
  refine ⟨⟨h.start_lt m hm, m.1, (h.least m hm).1⟩, fun i ⟨hi, id, hid⟩ => ?_⟩
  obtain ⟨m', hm', hle⟩ := h.exists_le i id hi hid
  rwa [Option.mem_unique hm' hm] at hle

end Program

/-! ## Lists of threads -/

/-- A list of threads before the byte at a place: the program comes to everything in the list, and
    what it comes to at the place is passed to from the list before the byte is consumed. -/
structure ThreadList.Before (p : Program) (text : Bytes) (tc i : Nat) (l : ThreadList) : Prop where
  sound : l.Sound p
  comesTo : ∀ x, l.contains x = true → p.ComesTo text tc i x
  exists_pass : ∀ x, x < p.size → p.ComesTo text tc i x → ∃ a,
    l.contains a = true ∧ p.Pass text[i]? a x

namespace Simulation

open Program ThreadList

variable {p : Program} {text : Bytes} {tc i x : Nat} {byte : Option UInt8}
  {b : UInt8} {threads : Threads} {current next : ThreadList} {best : Option (Nat × Nat)}
    {out : Threads × Option (Nat × Nat)}

/-- At the start, the list has what is reached from the first offset. -/
theorem before_start (text : Bytes) (tc : Nat) {l : ThreadList} (h : l.capacity = p.size) :
    (l.clear.close p 0).Before p text tc tc where
  sound := (closureOf_close h 0).sound
  comesTo x hx := comesTo_start_iff.mpr (((closureOf_close h 0).contains_iff x).mp hx).2.pass
  exists_pass x hx hcomes := by
    have hpass : p.Pass text[tc]? 0 x := comesTo_start_iff.mp hcomes
    -- From past its end a program passes to nothing, so the first offset is in it.
    have hzero : 0 < p.size := by
      by_contra hempty
      have := hpass.eq_of_size_le (Nat.le_of_not_lt hempty)
      omega
    exact ⟨0, ((closureOf_close h 0).contains_iff 0).mpr ⟨hzero, .refl p 0⟩, hpass⟩

/-- A round goes through all that the threads come to. -/
theorem Round.mem_iff_comesTo (h : Round p tc i text[i]? threads best 0 out)
    (hcur : threads.current.Before p text tc i) (x : Nat) :
    x ∈ out.1.current.toList ↔ x < p.size ∧ p.ComesTo text tc i x := by
  rw [h.current.mem_iff, h.mem_current]
  refine and_congr_right fun hx => ⟨fun ⟨a, ha, hax⟩ => ?_, hcur.exists_pass x hx⟩
  exact (hcur.comesTo a ha).of_pass hax

/-- A round records the least of the patterns that the threads accept. -/
theorem Round.recorded (h : Round p tc i text[i]? threads best 0 out)
    (hcur : threads.current.Before p text tc i) (hbest : p.Recorded text tc i best) :
    p.Recorded text tc (i + 1) out.2 := by
  rw [h.best_eq_recordPast hbest.lt]
  refine hbest.recordPast fun id => ?_
  rw [List.mem_filterMap]
  refine ⟨fun ⟨x, hx, hid⟩ => ⟨x, ((h.mem_iff_comesTo hcur x).mp hx).2, hid⟩,
    fun ⟨x, hx, hid⟩ => ?_⟩
  have hlt : x < p.size := (Array.getElem?_eq_some_iff.mp (pattern?_eq_some_iff.mp hid)).1
  exact ⟨x, (h.mem_iff_comesTo hcur x).mpr ⟨hlt, hx⟩, hid⟩

/-- A round collects a list of threads for the next byte. -/
theorem Round.before_next (hp : p.Valid)
    (h : Round p tc i text[i]? ⟨current, next.clear⟩ best 0 out) (hcur : current.Before p text tc i)
    (htc : tc ≤ i) : out.1.next.Before p text tc (i + 1) where
  sound := h.next
  comesTo x hx := by
    rw [h.mem_next, contains_clear, List.drop_zero] at hx
    rcases hx with hx | ⟨a, ha, b', hb', htakes, _, hreach⟩
    · cases hx
    · exact ((((h.mem_iff_comesTo hcur a).mp ha).2.take hb' htakes)).of_pass hreach.pass
  exists_pass x hx hcomes := by
    rcases hcomes.pass_of_start_or_take with ⟨heq, _⟩ | ⟨j, b', a, heq, ha, hb', htakes, hpass⟩
    · omega
    · obtain rfl := Nat.succ.inj heq
      have hmem : a ∈ out.1.current.toList := (h.mem_iff_comesTo hcur a).mpr ⟨htakes.lt_size, ha⟩
      refine ⟨a + 1, ?_, hpass⟩
      rw [h.mem_next, List.drop_zero]
      exact .inr ⟨a, hmem, b', hb', htakes, hp.succ_lt_of_takes htakes, .refl p (a + 1)⟩

/-- If a round collects no threads, none consumes the byte. -/
theorem Round.not_takes (hp : p.Valid) (h : Round p tc i text[i]? ⟨current, next.clear⟩ best 0 out)
    (hcur : current.Before p text tc i) (hempty : out.1.next.isEmpty = true) {a : Nat}
    (ha : p.ComesTo text tc i a) (hb : text[i]? = some b) : ¬ p.Takes b a := by
  intro htakes
  have hmem : a ∈ out.1.current.toList := (h.mem_iff_comesTo hcur a).mpr ⟨htakes.lt_size, ha⟩
  have hnext : out.1.next.contains (a + 1) = true := by
    rw [h.mem_next, List.drop_zero]
    exact .inr ⟨a, hmem, b, hb, htakes, hp.succ_lt_of_takes htakes, .refl p (a + 1)⟩
  rw [(isEmpty_iff h.next.wellFormed).mp hempty] at hnext
  cases hnext

/-- From a list of all threads before a byte, a run finds all that they come to. -/
theorem findsAll_runBytes (hp : p.Valid) (rest : Bytes) (hrest : text.drop i = rest) (htc : tc ≤ i)
    (hcomes : ∃ a, p.ComesTo text tc i a) (hcur : threads.current.Before p text tc i)
    (hnext : threads.next.capacity = p.size) (hbest : p.Recorded text tc i best) :
    p.FindsAll text tc (runBytes p tc threads best i rest).2 := by
  induction rest generalizing i threads best with
  | nil =>
    have hbyte : text[i]? = none := by rw [← List.head?_drop, hrest, List.head?_nil]
    have hround : Round p tc i none threads.clearNext best 0 _ :=
      runThreads_round _ best 0 hcur.sound (sound_clear hnext) (by simp [PassedUpTo])
    rw [runBytes_nil]
    rw [← hbyte] at hround ⊢
    exact (hround.recorded hcur hbest).findsAll hcomes fun a b _ hb => by simp [hbyte] at hb
  | cons b rest ih =>
    have hbyte : text[i]? = some b := by rw [← List.head?_drop, hrest, List.head?_cons]
    have hround : Round p tc i (some b) threads.clearNext best 0 _ :=
      runThreads_round _ best 0 hcur.sound (sound_clear hnext) (by simp [PassedUpTo])
    rw [runBytes_cons]
    rw [← hbyte] at hround ⊢
    simp only
    split
    · next hempty =>
      exact (hround.recorded hcur hbest).findsAll hcomes fun a b ha hb =>
        hround.not_takes hp hcur hempty ha hb
    · next hempty =>
      have hrest' : text.drop (i + 1) = rest := by rw [← List.tail_drop, hrest, List.tail_cons]
      have hbefore := hround.before_next hp hcur htc
      have hcomes' : ∃ a, p.ComesTo text tc (i + 1) a := by
        -- If nothing came to the next offset, the list for it would be empty.
        by_contra hnone
        refine hempty ((isEmpty_iff hround.next.wellFormed).mpr fun x => ?_)
        rw [Bool.eq_false_iff]
        exact fun hx => hnone ⟨x, hbefore.comesTo x hx⟩
      exact ih hrest' (Nat.le_succ_of_le htc) hcomes' hbefore hround.current.capacity_eq
        (hround.recorded hcur hbest)

/-- A run finds all that its threads come to. -/
theorem findsAll_run (hp : p.Valid) (text : Bytes) (tc : Nat) :
    p.FindsAll text tc (run p (.forProgram p) text tc).2 :=
  findsAll_runBytes hp (text.drop tc) rfl (Nat.le_refl tc) ⟨0, .start⟩
    (before_start text tc (capacity_empty _)) (capacity_empty _) (recorded_none p text tc)

end Simulation

/-! ## Scans -/

namespace Scanner

open Program

variable {p : Program} {text : Bytes} {tc : Nat}

/-- What is returned tells all that the threads of a program come to: a match that ends at the last
    place past the cursor at which a pattern is accepted, with the least of the patterns accepted
    there, or else a failure at the last place that a thread comes to. -/
structure TellsAll (p : Program) (text : Bytes) (tc : Nat) (r : Except Unconsumed Match) :
    Prop where
  ok_iff : (∃ m, r = .ok m) ↔ ∃ i id, tc < i ∧ p.AcceptsAt text tc i id
  of_ok : ∀ m, r = .ok m → m.tc = tc ∧
    IsGreatest {i | tc < i ∧ ∃ id, p.AcceptsAt text tc i id} m.stop ∧
    IsLeast {id | p.AcceptsAt text tc m.stop id} m.id
  of_error : ∀ u, r = .error u → u.start = tc ∧ IsGreatest {i | ∃ a, p.ComesTo text tc i a} u.fail

/-- Where all was found, all is told. -/
theorem tellsAll_report {found : Finding} (hall : p.FindsAll text tc found)
    (htc : tc < text.length) : TellsAll p text tc (report text tc found) := by
  rw [report]
  cases hlongest : found.longest? with
  | none =>
    have hnone : ¬ ∃ i id, tc < i ∧ p.AcceptsAt text tc i id := by
      rintro ⟨i, id, hi, haccepts⟩
      obtain ⟨m, hm, _⟩ := hall.exists_le i id hi haccepts
      rw [hlongest] at hm
      cases hm
    refine ⟨iff_of_false (by simp) hnone, by simp, fun u hu => ?_⟩
    obtain rfl := Except.error.inj hu
    exact ⟨rfl, hall.fail_greatest⟩
  | some m =>
    obtain ⟨id, stop⟩ := m
    have hgreatest := hall.isGreatest hlongest
    have hleast := hall.least _ hlongest
    obtain ⟨a, ha, _⟩ := hleast.1
    have hstop : (matchAt text .start id tc stop).1.stop = stop :=
      stop_matchAt ha.le (ha.le_length (Nat.le_of_lt htc))
    refine ⟨iff_of_true ⟨_, rfl⟩ ⟨stop, id, hgreatest.1.1, hleast.1⟩, fun m hm => ?_, by simp⟩
    obtain rfl := Except.ok.inj hm
    rw [hstop]
    exact ⟨rfl, hgreatest, hleast⟩

/-- A step of a scan with threads, whatever steps came before, tells all that the threads of a
    program come to, and nothing traps, unless control falls off the end of the program. If it
    does, the program is made of `accept`s alone, and the scan is trapped. -/
theorem step_simulator_of_built (hp : p.Built) {before : List Nat}
    (hbefore : ∀ c ∈ before, c < text.length) (htc : tc < text.length) :
    let answer := (start (Simulator.ofProgram p) text).checkedAnswer before tc
    (¬ p.FallsOff → ∃ r, answer = .ok (some r) ∧ TellsAll p text tc r) ∧
      (p.FallsOff → (∀ i ∈ p.insts, ∃ n, i = .accept n) ∧ answer = .error (.noPlace p.size)) := by
  intro answer
  refine ⟨fun hfalls => ?_, fun hfalls => ?_⟩
  · have hvalid := hp.valid hfalls
    have hall : p.FindsAll text tc (Engine.find (Simulator.ofProgram p) text tc).1 :=
      Simulation.findsAll_run hvalid text tc
    have hnever : ¬ ∃ c ∈ tc :: before, text.length ≤ c := by
      simpa using ⟨htc, hbefore⟩
    have hanswer : answer = _ := checkedAnswer_eq_ok (Simulator.untrapped hvalid) text before tc
    rw [step_steps (Simulator.steady p) text before tc, if_neg hnever] at hanswer
    exact ⟨_, hanswer, tellsAll_report hall htc⟩
  · have haccepts := hp.accepts hfalls
    exact ⟨haccepts, checkedAnswer_simulator_eq_error haccepts hbefore htc⟩

/-- A program with a `branch` among instructions for several threads, and threads that go round and
    round. -/
theorem step_simulator_of_built_mixed : ∃ p,
    Program.read "SPLIT 1 4\nCHJMP 97 99\nJMP 0\nJMP 1\nCHAR 98 98\nMATCH 2" = .ok p ∧
      p.isDeterministic = false ∧ ∃ m, m.id = 2 ∧
      (start (Simulator.ofProgram p) [97, 98, 100]).checkedAnswer [2] 0 = .ok (some (.ok m)) := by
  have hread : Program.read "SPLIT 1 4\nCHJMP 97 99\nJMP 0\nJMP 1\nCHAR 98 98\nMATCH 2" =
      .ok ⟨#[.split 1 4, .branch ⟨97, 99, by decide⟩, .jump 0, .jump 1, .consume (.single 98),
        .accept 2]⟩ := by
    decide +kernel
  have hdet : Program.isDeterministic ⟨#[.split 1 4, .branch ⟨97, 99, by decide⟩, .jump 0, .jump 1,
      .consume (.single 98), .accept 2]⟩ = false := by
    decide +kernel
  have hbefore : ∀ c ∈ [2], c < [(97 : UInt8), 98, 100].length := by decide
  have htc : 0 < [(97 : UInt8), 98, 100].length := by decide
  obtain ⟨r, hanswer, htells⟩ := (step_simulator_of_built (.read hread) hbefore htc).1
    (valid_of_read hread).not_fallsOff
  -- The thread consumes the `a` at the `branch`, and after the jumps back the `b` at the other side
  -- of the `split`.
  have haccepts : Program.AcceptsAt ⟨#[.split 1 4, .branch ⟨97, 99, by decide⟩, .jump 0, .jump 1,
      .consume (.single 98), .accept 2]⟩ [97, 98, 100] 0 2 2 := by
    refine ⟨5, .take (a := 4) ?_ rfl ⟨_, .inl rfl, by decide⟩, rfl⟩
    refine .pass (a := 0) (.pass (a := 2) ?_ (.inl ?_)) (.inl ?_)
    · exact .take (a := 1) (.pass .start (.inl List.mem_cons_self)) rfl ⟨_, .inr rfl, by decide⟩
    · exact List.mem_cons_self
    · exact List.mem_cons_of_mem _ List.mem_cons_self
  obtain ⟨m, rfl⟩ := htells.ok_iff.mpr ⟨2, 2, by decide, haccepts⟩
  obtain ⟨a, _, hid⟩ := (htells.of_ok m rfl).2.2.1
  have hmem := Array.mem_of_getElem? (pattern?_eq_some_iff.mp hid)
  exact ⟨_, hread, hdet, m, by simpa using hmem, hanswer⟩

/-- Not every scan with threads returns what its threads come to: a program that was generated for a
    pattern inside of a pattern traps it. -/
theorem not_step_simulator_returns : ¬ ∀ (p : Program) (text : Bytes) (tc : Nat), p.Built →
    tc < text.length →
      ∃ r, (start (Simulator.ofProgram p) text).checkedAnswer [] tc = .ok (some r) ∧
      TellsAll p text tc r := by
  intro h
  obtain ⟨r, hr, -⟩ := h _ [97] 0 (.generated ofRegex_pattern_pattern_finish) (by decide)
  have htrap :
      (start (Simulator.ofProgram ⟨#[.accept 0, .accept 1]⟩) [97]).checkedAnswer [] 0 = _ :=
    checkedAnswer_simulator_eq_error (by simp) (List.forall_mem_nil _) (by decide)
  rw [htrap] at hr
  cases hr

end Scanner

end Munch

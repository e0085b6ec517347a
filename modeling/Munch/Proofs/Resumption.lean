import Munch.Proofs.Scanner
import Munch.Proofs.Stale
import Munch.Proofs.Tracker
import Munch.Proofs.Validity

set_option autoImplicit false

/-! # Scans with a past

The steps of a scan are independent of each other: a step returns what it would return if it were
the first one, whatever cursors the scan was asked for before, as long as none of them was at or
past the end of the text (`Scanner.HistoryIndependent`). What a scan keeps from step to step is the
state of its engine and its tracker. An engine is steady if its state does not change what it finds
(`Engine.Steady`), and it does not matter where the tracker was.

So a step can be repeated, and a scan can go back and skip ahead (`Scanner.historyIndependent`). -/

namespace Munch

/-! ## Engines that find the same again -/

/-- An engine finds the same whatever it was asked for before: with some property, which it has and
    keeps, go the same findings. -/
def Engine.Steady {ε : Type} [Engine ε] (engine : ε) : Prop :=
  ∃ P : ε → Prop, P engine ∧ ∀ e, P e → ∀ (text : Bytes) (tc : Nat),
    (find e text tc).1 = (find engine text tc).1 ∧ P (find e text tc).2

theorem Table.steady (t : Table) : Engine.Steady t := by
  refine ⟨(· = t), rfl, ?_⟩
  rintro _ rfl text tc
  exact ⟨rfl, rfl⟩

theorem Runner.steady (r : Runner) : Engine.Steady r := by
  refine ⟨(· = r), rfl, ?_⟩
  rintro _ rfl text tc
  exact ⟨rfl, rfl⟩

/-- A program finds the same whatever its lists of threads were used for. -/
theorem Simulator.steady (p : Program) : Engine.Steady (ofProgram p) := by
  have hsized := Threads.sized_forProgram p
  refine ⟨fun e => e.program = p ∧ e.threads.Sized p.size, ⟨rfl, hsized⟩, ?_⟩
  rintro ⟨_, threads⟩ ⟨rfl, h⟩ text tc
  exact ⟨Simulation.run_snd_eq h hsized text tc, rfl, Simulation.sized_run h text tc⟩

namespace Scanner

variable {ε : Type} {P : ε → Prop} {engine : ε} {s : Scanner ε} {text : Bytes} {tc : Nat}

/-! ## Steps of a scan that goes on -/

theorem matchAt_seek (text : Bytes) (a id tc stop : Nat) :
    matchAt text (Tracker.start.seek text a) id tc stop = matchAt text .start id tc stop := by
  rw [matchAt, Tracker.seek_seek, matchAt]

theorem unconsumedAt_seek (text : Bytes) (a tc fail : Nat) :
    unconsumedAt text (Tracker.start.seek text a) tc fail = unconsumedAt text .start tc fail := by
  rw [unconsumedAt, Tracker.seek_seek, unconsumedAt]

theorem matchAt_snd (text : Bytes) (id tc stop : Nat) :
    (matchAt text .start id tc stop).2 = Tracker.start.seek text (stop - 1) :=
  Tracker.seek_seek text tc (stop - 1)

theorem unconsumedAt_snd (text : Bytes) (tc fail : Nat) :
    (unconsumedAt text .start tc fail).2 = Tracker.start.seek text fail :=
  Tracker.seek_seek text tc fail

/-- A scan of a text goes on: it has not finished, its engine has a property, and its tracker was at
    some offset. -/
inductive GoesOn (P : ε → Prop) (text : Bytes) : Scanner ε → Prop
  | intro {e : ε} {lastStop? : Option Nat} {a : Nat} {journal : List Event} (he : P e) :
    GoesOn P text ⟨e, text, false, lastStop?, Tracker.start.seek text a, journal⟩

theorem goesOn_start (h : P engine) (text : Bytes) : (start engine text).GoesOn P text :=
  @GoesOn.intro ε P text engine none 0 [] h

theorem GoesOn.text_eq (h : s.GoesOn P text) : s.text = text := by
  cases h
  rfl

theorem GoesOn.finished_eq_false (h : s.GoesOn P text) : s.finished = false := by
  cases h
  rfl

theorem GoesOn.holds_engine (h : s.GoesOn P text) : P s.engine := by
  cases h with
  | intro he => exact he

/-- What was found is reported, and the scan goes on with an engine that has the property. -/
theorem GoesOn.conclude {found : Finding × ε} (h : s.GoesOn P text) (hfound : P found.2) :
    (s.conclude tc found).1 = some (report text tc found.1) ∧
    (s.conclude tc found).2.GoesOn P text := by
  obtain @⟨e, lastStop?, a, journal, he⟩ := h
  unfold Scanner.conclude report
  cases found.1.longest? with
  | none =>
    simp only [unconsumedAt_seek, unconsumedAt_snd, true_and]
    exact .intro hfound
  | some m =>
    simp only [matchAt_seek, matchAt_snd, true_and]
    exact .intro hfound

variable [Engine ε]

/-- A step before the end reports what engines with the property find, and the scan goes on. -/
theorem GoesOn.step {found : Nat → Finding} (h : s.GoesOn P text)
    (hfind : ∀ e, P e → ∀ tc, (Engine.find e text tc).1 = found tc ∧ P (Engine.find e text tc).2)
    (htc : tc < text.length) :
    (s.step tc).1 = some (report text tc (found tc)) ∧ (s.step tc).2.GoesOn P text := by
  obtain ⟨heq, hP⟩ := hfind s.engine h.holds_engine tc
  have hend : ¬ text.length ≤ tc := Nat.not_le_of_lt htc
  rw [← heq, Scanner.step, h.finished_eq_false, h.text_eq, if_neg Bool.false_ne_true, if_neg hend]
  exact h.conclude hP

/-- A step at or past the end returns nothing and finishes the scan. -/
theorem step_of_length_le (h : s.finished = false) (htc : s.text.length ≤ tc) :
    (s.step tc).1 = none ∧ (s.step tc).2.finished = true := by
  unfold Scanner.step
  rw [h, if_neg Bool.false_ne_true, if_pos htc]
  exact ⟨rfl, rfl⟩

theorem step_of_finished (h : s.finished = true) (tc : Nat) : s.step tc = (none, s) := by
  unfold Scanner.step
  rw [h, if_pos rfl]

theorem text_step (s : Scanner ε) (tc : Nat) : (s.step tc).2.text = s.text := by
  unfold Scanner.step
  split
  · rfl
  · split
    · rfl
    · unfold Scanner.conclude
      split <;> rfl

/-! ## Scans after some steps -/

/-- A scan after steps at some cursors, one after the other. -/
def steps (s : Scanner ε) (cursors : List Nat) : Scanner ε :=
  cursors.foldl (fun s tc => (s.step tc).2) s

theorem steps_append (s : Scanner ε) (before after : List Nat) :
    s.steps (before ++ after) = (s.steps before).steps after := List.foldl_append

theorem text_steps (s : Scanner ε) (cursors : List Nat) : (s.steps cursors).text = s.text := by
  induction cursors generalizing s with
  | nil => rfl
  | cons tc cursors ih => exact (ih _).trans (text_step s tc)

theorem steps_of_finished (h : s.finished = true) (cursors : List Nat) : s.steps cursors = s := by
  induction cursors with
  | nil => rfl
  | cons tc cursors ih =>
    have hstep : (s.step tc).2 = s := by rw [step_of_finished h]
    exact (congrArg (fun s => steps s cursors) hstep).trans ih

/-- Once a step is at or past the end of the text, a scan has finished. -/
theorem finished_step (s : Scanner ε) (htc : s.text.length ≤ tc) :
    (s.step tc).1 = none ∧ (s.step tc).2.finished = true := by
  cases h : s.finished with
  | true =>
    rw [step_of_finished h]
    exact ⟨rfl, h⟩
  | false => exact step_of_length_le h htc

/-- While all cursors are before the end, the scan goes on. -/
theorem GoesOn.steps {found : Nat → Finding} (h : s.GoesOn P text)
    (hfind : ∀ e, P e → ∀ tc, (Engine.find e text tc).1 = found tc ∧ P (Engine.find e text tc).2)
    {cursors : List Nat} (hcursors : ∀ tc ∈ cursors, tc < text.length) :
    (s.steps cursors).GoesOn P text := by
  induction cursors generalizing s with
  | nil => exact h
  | cons tc cursors ih =>
    refine ih (h.step hfind (hcursors tc List.mem_cons_self)).2 fun tc' htc' => ?_
    exact hcursors tc' (List.mem_cons_of_mem tc htc')

/-! ## Independence of the past -/

/-- What a step of a scan returns does not depend on the steps before it, if they were before the
    end of the text. A step at or past the end returns nothing, and so does every step after it. -/
structure HistoryIndependent (engine : ε) (text : Bytes) : Prop where
  step_eq : ∀ before : List Nat, (∀ tc ∈ before, tc < text.length) → ∀ tc,
    (((start engine text).steps before).step tc).1 = ((start engine text).step tc).1
  step_eq_none : ∀ (before : List Nat) (tc : Nat), text.length ≤ tc →
    (((start engine text).steps before).step tc).1 = none ∧
      ∀ (after : List Nat) (tc' : Nat),
        (((start engine text).steps (before ++ tc :: after)).step tc').1 = none

/-- The steps of a scan with a steady engine are independent of each other. -/
theorem historyIndependent_of_steady (h : Engine.Steady engine) (text : Bytes) :
    HistoryIndependent engine text := by
  obtain ⟨P, hP, hsteady⟩ := h
  have hstart := goesOn_start hP text
  have hfind := fun e he => hsteady e he text
  constructor
  · intro before hbefore tc
    have hgoes := hstart.steps hfind hbefore
    rcases Nat.lt_or_ge tc text.length with htc | htc
    · rw [(hgoes.step hfind htc).1, (hstart.step hfind htc).1]
    · have htext : ((start engine text).steps before).text.length ≤ tc := by
        rwa [text_steps]
      rw [(finished_step _ htext).1, (finished_step (start engine text) htc).1]
  · intro before tc htc
    have htext : ((start engine text).steps before).text.length ≤ tc := by
      rwa [text_steps]
    obtain ⟨hnone, hfinished⟩ := finished_step _ htext
    refine ⟨hnone, fun after tc' => ?_⟩
    rw [steps_append]
    show ((steps (((start engine text).steps before).step tc).2 after).step tc').1 = none
    rw [steps_of_finished hfinished, step_of_finished hfinished]

/-- The steps of a scan are independent of each other with every engine that scans a text: with a
    program that is run with threads or by following its one thread, and with a table. A run with
    one thread returns from every cursor if the program is valid: programs that are read are valid,
    and so are those of pattern sets and the deterministic programs of valid ones. -/
theorem historyIndependent (text : Bytes) :
    (∀ p : Program, HistoryIndependent (Simulator.ofProgram p) text) ∧
      (∀ runner : Runner, HistoryIndependent runner text ∧
        (runner.program.Valid → ∀ tc, (Direct.run runner.program text tc).Returns)) ∧
      ∀ t : Table, HistoryIndependent t text := by
  refine ⟨fun p => historyIndependent_of_steady (Simulator.steady p) text, fun runner => ⟨?_, ?_⟩,
    fun t => historyIndependent_of_steady t.steady text⟩
  · exact historyIndependent_of_steady runner.steady text
  · intro hvalid tc
    exact hvalid.returns_run runner.deterministic text tc

/-- A program that reads `a`s, at the `b` between two of them, at the last one, and at the `b`
    again. -/
theorem historyIndependent_rewinds : ∃ (p : Program) (hdet : p.isDeterministic = true),
    Program.read "CHJMP 97 97\nJMP 3\nFAIL\nMATCH 3\nJMP 0" = .ok p ∧
    (((start (Runner.mk p hdet) [97, 98, 97]).steps [1, 2]).step 1).1 =
      ((start (Runner.mk p hdet) [97, 98, 97]).step 1).1 ∧
    (Direct.run p [97, 98, 97] 1).Returns := by
  have hread : Program.read "CHJMP 97 97\nJMP 3\nFAIL\nMATCH 3\nJMP 0" =
      .ok ⟨#[.branch (.single 97), .jump 3, .fail, .accept 3, .jump 0]⟩ := by
    decide +kernel
  have hdet : Program.isDeterministic
      ⟨#[.branch (.single 97), .jump 3, .fail, .accept 3, .jump 0]⟩ = true := by decide +kernel
  obtain ⟨hindependent, hreturns⟩ := (historyIndependent [97, 98, 97]).2.1 ⟨_, hdet⟩
  exact ⟨_, hdet, hread, hindependent.step_eq [1, 2] (by decide) 1,
    hreturns (Program.valid_of_read hread) 1⟩

end Scanner

end Munch

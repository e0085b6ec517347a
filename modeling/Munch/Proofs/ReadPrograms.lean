import Munch.Proofs.ProgramText

set_option autoImplicit false

/-! # Which texts are programs

A text that spells instructions is read as their program exactly if control stays in the program
(`Program.Contained`) and, where it needs no threads, cannot come back to an instruction without
consuming a byte. If only the last is not so, the error is about an instruction that control can
come back to (`Program.read_spelled`).

An error that names a line names it by its number in the text, where blank lines count. It is the
first line that spells no instruction, or the line of the instruction that is at fault
(`Program.Blames`). -/

namespace Munch

namespace Program

variable {p : Program} {s : String} {lines : List (Nat × Inst)} {e : ReadError}
    {pc base line : Nat} {i : Inst}

/-! ## Errors -/

/-- The line that an error names. -/
def ReadError.line? : ReadError → Option Nat
  | .unknownOpcode line _ | .arity line _ _ _ | .badOperand line _ _ | .reversedRange line _ _
  | .badTarget line _ | .loneBranch line | .missPastEnd line | .emptyLoop line => some line
  | .empty | .fallsOffEnd => none

/-- If a step fails, the error names a line. -/
def FailsOn {α : Type} (line : Nat) (m : Except ReadError α) : Prop :=
  ∀ e, m = .error e → e.line? = some line

/-- What an error says is wrong with the instruction at an offset, so that control can leave the
    program there. -/
def Faulty (p : Program) (pc : Nat) (i : Inst) : ReadError → Prop
  | .badTarget _ target => target ∈ i.targets ∧ p.size ≤ target
  | .loneBranch _ => (∃ r, i = .branch r) ∧ ∀ x, p.insts[pc + 1]? ≠ some (.jump x)
  | .missPastEnd _ => (∃ r, i = .branch r) ∧ p.size ≤ pc + 2
  | _ => False

/-- The program of numbered instructions. -/
def ofLines (lines : List (Nat × Inst)) : Program := ⟨(lines.map (·.2)).toArray⟩

/-- A line of a text is at fault for an error: it is the first one that spells no instruction, or
    the text spells instructions and the one on the line is where control leaves their program, or
    where control comes back to. -/
inductive Blames (s : String) (line : Nat) (e : ReadError) : Prop
  | unread {before rest : List (Nat × List Char)} {text : List Char}
      (h : writtenLines s = before ++ (line, text) :: rest)
      (hbefore : ∀ written ∈ before, ∃ i, Op.SpelledBy i written.2)
      (htext : ∀ i, ¬ Op.SpelledBy i text)
  | faulty {lines : List (Nat × Inst)} {pc : Nat} {i : Inst} (h : Spells s lines)
      (hpc : lines[pc]? = some (line, i)) (hfaulty : (ofLines lines).Faulty pc i e)
  | circles {lines : List (Nat × Inst)} {pc : Nat} {i : Inst} (h : Spells s lines)
      (hpc : lines[pc]? = some (line, i)) (hdet : (ofLines lines).isDeterministic = true)
      (hcircles : (ofLines lines).Circles pc) (he : e = .emptyLoop line)

/-! ## Errors of lines -/

section FailsOn

variable {α β : Type} {op : String} {count limit : Nat} {args : List (List Char)}

theorem failsOn_ok (a : α) : FailsOn line (.ok a) := nofun

theorem failsOn_error (h : e.line? = some line) : FailsOn line (.error e : Except ReadError α) := by
  intro e' he
  rwa [← Except.error.inj he]

theorem FailsOn.bind {m : Except ReadError α} {f : α → Except ReadError β} (hm : FailsOn line m)
    (hf : ∀ a, FailsOn line (f a)) : FailsOn line (m >>= f) := by
  cases m with
  | error e => exact failsOn_error (hm e rfl)
  | ok a => exact hf a

theorem failsOn_mapM {f : α → Except ReadError β} (hf : ∀ a, FailsOn line (f a)) (xs : List α) :
    FailsOn line (xs.mapM f) := by
  induction xs with
  | nil => exact failsOn_ok _
  | cons x xs ih =>
    rw [List.mapM_cons]
    exact (hf x).bind fun y => ih.bind fun ys => failsOn_ok _

theorem failsOn_readOperands : FailsOn line (readOperands line op count limit args) := by
  unfold readOperands
  split
  · exact failsOn_error rfl
  · refine failsOn_mapM (fun arg => ?_) args
    cases Text.readNumeral limit arg with
    | error fault => exact failsOn_error rfl
    | ok n => exact failsOn_ok n

theorem failsOn_readRange : FailsOn line (readRange line op args) := by
  refine failsOn_readOperands.bind fun ns => ?_
  split
  · split
    · exact failsOn_ok _
    · exact failsOn_error rfl
  · exact failsOn_error rfl

/-- An instruction that cannot be read is an error of its line. -/
theorem failsOn_readInst : FailsOn line (readInst line op args) := by
  unfold readInst
  split
  · exact failsOn_readRange.bind fun _ => failsOn_ok _
  split
  · exact failsOn_readRange.bind fun _ => failsOn_ok _
  split
  · refine failsOn_readOperands.bind fun ns => ?_
    split
    · exact failsOn_ok _
    · exact failsOn_error rfl
  split
  · refine failsOn_readOperands.bind fun ns => ?_
    split
    · exact failsOn_ok _
    · exact failsOn_error rfl
  split
  · refine failsOn_readOperands.bind fun ns => ?_
    split
    · exact failsOn_ok _
    · exact failsOn_error rfl
  split
  · exact failsOn_readOperands.bind fun _ => failsOn_ok _
  · exact failsOn_error rfl

end FailsOn

theorem failsOn_readLine (written : Nat × List Char) : FailsOn written.1 (readLine written) :=
  failsOn_readInst.bind fun _ => failsOn_ok _

/-- If a step fails for some member of a list, there is a first one. -/
theorem of_mapM_eq_error {ε α β : Type} {f : α → Except ε β} {e : ε} {xs : List α}
    (h : xs.mapM f = .error e) :
    ∃ before x rest, xs = before ++ x :: rest ∧ (∀ y ∈ before, ∃ z, f y = .ok z) ∧
    f x = .error e := by
  induction xs with
  | nil => cases h
  | cons x xs ih =>
    rw [List.mapM_cons] at h
    cases hx : f x with
    | error e' =>
      rw [hx] at h
      obtain rfl := Except.error.inj h
      exact ⟨[], x, xs, rfl, List.forall_mem_nil _, hx⟩
    | ok y =>
      cases hxs : xs.mapM f with
      | ok ys =>
        rw [hx, hxs] at h
        cases h
      | error e' =>
        rw [hx, hxs] at h
        obtain rfl := Except.error.inj h
        obtain ⟨before, x', rest, rfl, hbefore, hx'⟩ := ih hxs
        exact ⟨x :: before, x', rest, rfl, List.forall_mem_cons.mpr ⟨⟨y, hx⟩, hbefore⟩, hx'⟩

/-- If the instructions of a text cannot be read, the first line that spells none is at fault. -/
theorem blames_of_readInsts_eq_error (h : readInsts s = .error e) (hline : e.line? = some line) :
    Blames s line e := by
  rw [readInsts_eq] at h
  obtain ⟨before, ⟨k, text⟩, rest, hwritten, hbefore, herror⟩ := of_mapM_eq_error h
  obtain rfl : k = line := Option.some.inj ((failsOn_readLine _ e herror).symm.trans hline)
  refine .unread hwritten (fun written hmem => ?_) fun i hi => ?_
  · obtain ⟨read, hread⟩ := hbefore written hmem
    exact ⟨read.2, (readLine_eq_ok_iff.mp hread).2⟩
  · rw [readLine_eq_ok_iff (e := (k, i)) |>.mpr ⟨rfl, hi⟩] at herror
    cases herror

/-! ## Errors of instructions -/

theorem of_checkInst_eq_error (h : p.checkInst pc line i = .error e) :
    e.line? = some line ∧ p.Faulty pc i e := by
  unfold checkInst at h
  split at h
  · next target htarget =>
    obtain rfl := Except.error.inj h
    exact ⟨rfl, List.mem_of_find?_eq_some htarget, by simpa using List.find?_some htarget⟩
  · split at h
    · split at h
      · split at h
        · next hsize =>
          obtain rfl := Except.error.inj h
          exact ⟨rfl, ⟨_, rfl⟩, hsize⟩
        · cases h
      · next hjump =>
        obtain rfl := Except.error.inj h
        exact ⟨rfl, ⟨_, rfl⟩, hjump⟩
    · cases h

theorem of_checkInsts_eq_error (h : p.checkInsts base lines = .error e) : ∃ k line i,
    lines[k]? = some (line, i) ∧ e.line? = some line ∧ p.Faulty (base + k) i e := by
  induction lines generalizing base with
  | nil => cases h
  | cons first lines ih =>
    obtain ⟨line, i⟩ := first
    rw [checkInsts] at h
    cases hcheck : p.checkInst base line i with
    | error e' =>
      rw [hcheck] at h
      obtain rfl := Except.error.inj h
      exact ⟨0, line, i, rfl, of_checkInst_eq_error hcheck⟩
    | ok =>
      rw [hcheck] at h
      obtain ⟨k, line', i', hk, hfaulty⟩ := ih h
      exact ⟨k + 1, line', i', hk, by rwa [← Nat.add_assoc, Nat.add_right_comm]⟩

/-- Nothing is wrong with the instructions of a program that control stays in. -/
theorem Contained.not_faulty (hp : p.Contained) (hi : p.insts[pc]? = some i) :
    ¬ p.Faulty pc i e := by
  cases e with
  | badTarget line target => exact fun h => Nat.not_lt_of_le h.2 (hp.target_lt pc i hi target h.1)
  | loneBranch line =>
    rintro ⟨⟨r, rfl⟩, hjump⟩
    obtain ⟨x, hx⟩ := (hp.branch pc r hi).1
    exact hjump x hx
  | missPastEnd line =>
    rintro ⟨⟨r, rfl⟩, hsize⟩
    exact Nat.not_lt_of_le hsize (hp.branch pc r hi).2
  | _ => exact id

/-! ## Reading -/

theorem getElem?_ofLines : (ofLines lines).insts[pc]? = lines[pc]?.map (·.2) := by
  rw [ofLines, List.getElem?_toArray, List.getElem?_map]

theorem back?_ofLines : (ofLines lines).insts.back? = lines.getLast?.map (·.2) := by
  rw [ofLines, List.back?_toArray, List.getLast?_map]

/-- What is checked of the instructions that a text spells. -/
theorem read_eq (h : Spells s lines) : Program.read s =
    match lines.getLast? with
    | none => .error .empty
    | some (_, last) =>
      if last.fallsThrough (ofLines lines).isDeterministic then .error .fallsOffEnd
      else
        match (ofLines lines).checkInsts 0 lines with
        | .error e => .error e
        | .ok () =>
          if (ofLines lines).isDeterministic then
            match (ofLines lines).findLoop with
            | some pc => .error (.emptyLoop ((lines[pc]?.map (·.1)).getD 0))
            | none => .ok (ofLines lines)
          else .ok (ofLines lines) := by
  rw [Program.read, readInsts_eq_ok_iff.mpr h]
  simp only [bind, Except.bind, ofLines]
  cases lines.getLast? with
  | none => rfl
  | some last =>
    by_cases hfalls : last.2.fallsThrough (isDeterministic ⟨(lines.map (·.2)).toArray⟩) = true
    · simp only [hfalls, if_true]
      rfl
    · simp only [hfalls, Bool.false_eq_true, if_false]
      cases checkInsts ⟨(lines.map (·.2)).toArray⟩ 0 lines with
      | error e => rfl
      | ok =>
        simp only
        by_cases hdet : isDeterministic ⟨(lines.map (·.2)).toArray⟩ = true
        · simp only [hdet, if_true]
          cases findLoop ⟨(lines.map (·.2)).toArray⟩ <;> rfl
        · simp only [hdet, Bool.false_eq_true, if_false]
          rfl

/-- If control stays in the program that a text spells, the text is read unless control can go
    around without consuming a byte. -/
theorem Contained.read_eq (hp : (ofLines lines).Contained) (h : Spells s lines) : Program.read s =
    if (ofLines lines).isDeterministic then
      match (ofLines lines).findLoop with
      | some pc => .error (.emptyLoop ((lines[pc]?.map (·.1)).getD 0))
      | none => .ok (ofLines lines)
    else .ok (ofLines lines) := by
  have hchecks : (ofLines lines).checkInsts 0 lines = .ok () := by
    cases hchecks : (ofLines lines).checkInsts 0 lines with
    | ok => rfl
    | error e =>
      obtain ⟨k, line, i, hk, -, hfaulty⟩ := of_checkInsts_eq_error hchecks
      have hi : (ofLines lines).insts[0 + k]? = some i := by
        rw [getElem?_ofLines, Nat.zero_add, hk, Option.map_some]
      exact absurd hfaulty (hp.not_faulty hi)
  cases hlast : lines.getLast? with
  | none =>
    rw [List.getLast?_eq_none_iff] at hlast
    exact absurd hp.size_pos (by simp [hlast, ofLines, size])
  | some last =>
    have hfalls := hp.last last.2 (by rw [back?_ofLines, hlast, Option.map_some])
    rw [Program.read_eq h, hlast, hchecks]
    simp only [hfalls, Bool.false_eq_true, if_false]

/-- The error about a loop is about an instruction that control can come back to. -/
theorem circles_of_findLoop_ofLines (h : (ofLines lines).findLoop = some pc) : ∃ line i,
    lines[pc]? = some (line, i) ∧ (lines[pc]?.map (·.1)).getD 0 = line ∧
    (ofLines lines).Circles pc := by
  have hcircles := circles_of_findLoop h
  obtain ⟨next, hstep, -⟩ := Relation.TransGen.head'_iff.mp hcircles
  have hlt : pc < lines.length := by simpa [ofLines, size] using hstep.lt_size
  have hget := List.getElem?_eq_getElem hlt
  exact ⟨_, _, hget, by rw [hget]; rfl, hcircles⟩

/-- An error that names a line names the number of a line that is at fault. -/
theorem blames_of_read_eq_error (h : Program.read s = .error e) (hline : e.line? = some line) :
    Blames s line e := by
  cases hread : readInsts s with
  | error e' =>
    rw [Program.read, hread] at h
    obtain rfl := Except.error.inj h
    exact blames_of_readInsts_eq_error hread hline
  | ok lines =>
    have hspells := readInsts_eq_ok_iff.mp hread
    rw [Program.read_eq hspells] at h
    split at h
    · obtain rfl := Except.error.inj h
      cases hline
    split at h
    · obtain rfl := Except.error.inj h
      cases hline
    split at h
    · next hchecks =>
      obtain rfl := Except.error.inj h
      obtain ⟨k, line', i, hk, hline', hfaulty⟩ := of_checkInsts_eq_error hchecks
      obtain rfl := Option.some.inj (hline'.symm.trans hline)
      rw [Nat.zero_add] at hfaulty
      exact .faulty hspells hk hfaulty
    split at h
    · next hdet =>
      split at h
      · next pc hloop =>
        obtain ⟨line', i, hget, hline', hcircles⟩ := circles_of_findLoop_ofLines hloop
        rw [hline'] at h
        obtain rfl := Except.error.inj h
        obtain rfl := Option.some.inj hline
        exact .circles hspells hget hdet hcircles rfl
      · cases h
    · cases h

/-- A text that spells instructions is read as their program exactly if control stays in the program
    and, where it needs no threads, cannot come back to an instruction without consuming a byte. If
    that is all that is wrong with it, the error names the line of an instruction that control can
    come back to. Whatever the text, an error that names a line names the number of a line that is
    at fault. -/
theorem read_spelled (s : String) :
    (∀ lines, Spells s lines →
      (∀ p, Program.read s = .ok p ↔
        p = ofLines lines ∧ p.Contained ∧ (p.isDeterministic = true → ∀ pc, ¬ p.Circles pc)) ∧
      ((ofLines lines).Contained → (ofLines lines).isDeterministic = true →
        (∃ pc, (ofLines lines).Circles pc) →
        ∃ pc line i, lines[pc]? = some (line, i) ∧ (ofLines lines).Circles pc ∧
          Program.read s = .error (.emptyLoop line))) ∧
    ∀ e line, Program.read s = .error e → e.line? = some line → Blames s line e := by
  refine ⟨fun lines h => ⟨fun p => ?_, fun hp hdet hcircles => ?_⟩,
    fun e line => blames_of_read_eq_error⟩
  · rw [read_eq_ok_iff, valid_iff]
    constructor
    · rintro ⟨hp, read, hread, hinsts⟩
      obtain rfl : lines = read := Except.ok.inj ((readInsts_eq_ok_iff.mpr h).symm.trans hread)
      refine ⟨?_, hp⟩
      rw [ofLines, hinsts, Array.toArray_toList]
    · rintro ⟨rfl, hp⟩
      exact ⟨hp, lines, readInsts_eq_ok_iff.mpr h, rfl⟩
  · obtain ⟨pc, hpc⟩ : ∃ pc, (ofLines lines).findLoop = some pc := by
      cases hloop : (ofLines lines).findLoop with
      | some pc => exact ⟨pc, rfl⟩
      | none =>
        obtain ⟨pc, hpc⟩ := hcircles
        exact absurd hpc (emptyLoop_eq_none_iff.mp ((hp.findLoop_eq hdet).symm.trans hloop) pc)
    obtain ⟨line, i, hget, hline, hcircles⟩ := circles_of_findLoop_ofLines hpc
    refine ⟨pc, line, i, hget, hcircles, ?_⟩
    rw [hp.read_eq h, if_pos hdet, hpc]
    simp only [hline]

/-- A jump into a loop is not on it: the error is about the `accept` that is. -/
theorem read_spelled_loop :
    let s := "\n JMP +1\n\nMATCH 0\nJMP 1\n"
    let lines := [(2, .jump 1), (4, .accept 0), (5, .jump 1)]
    Spells s lines ∧ (∀ p, Program.read s ≠ .ok p) ∧ Program.read s = .error (.emptyLoop 4) ∧
      Blames s 4 (.emptyLoop 4) := by
  intro s lines
  have hread : readInsts s = .ok lines := by decide +kernel
  have hspells := readInsts_eq_ok_iff.mp hread
  have herror : Program.read s = .error (.emptyLoop 4) := by decide +kernel
  obtain ⟨hspelled, hblames⟩ := read_spelled s
  refine ⟨hspells, fun p hp => ?_, herror, hblames _ 4 herror rfl⟩
  obtain ⟨rfl, -, hcircles⟩ := ((hspelled lines hspells).1 p).mp hp
  have hstep₁ : (ofLines lines).EmptyStep 1 2 := .accept rfl
  have hstep₂ : (ofLines lines).EmptyStep 2 1 := .jump rfl
  exact hcircles (by decide +kernel) 1 (.tail (.single hstep₁) hstep₂)

end Program

end Munch

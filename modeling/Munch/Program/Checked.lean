import Munch.Program.Deterministic
import Munch.Program.Direct
import Munch.Program.Simulation

set_option autoImplicit false

/-! # Programs with every access checked

`ThreadList.insert` passes over an offset that a list has no place for, and outside a program there
is no instruction. So the engines are total, but a program that breaks what is asserted of every
program does not show. Here everything is as it is built: an offset outside the program whose
instruction is read traps, as does an offset that a list of threads has no place for, and whatever
was ruled out before. Where nothing traps, what comes out is the same. -/

namespace Munch

/-- What stops a checked run. -/
inductive Trap where
  /-- An offset outside the program was read. -/
  | outside (pc : Nat)
  /-- An offset was inserted that the list has no place for. -/
  | noPlace (pc : Nat)
  /-- Something was met that cannot be. -/
  | unreachable
  /-- Control came back to an offset without consuming a byte, so the run does not end. -/
  | endless
deriving DecidableEq, Repr

namespace Checked

/-! ## Lists of threads -/

/-- The instruction at an offset. -/
def fetch (p : Program) (pc : Nat) : Except Trap Inst :=
  match p.insts[pc]? with
  | some i => .ok i
  | none => .error (.outside pc)

/-- Insert an offset: whether it was not in the list before, and the list with it. -/
def insert (l : ThreadList) (pc : Nat) : Except Trap (Bool × ThreadList) :=
  if l.contains pc then .ok (false, l)
  else if l.capacity ≤ pc then .error (.noPlace pc)
  else .ok (true, l.insert pc)

/-- Add the offsets of a stack, and everything reached from them without consuming, to a list. -/
def closeAll (p : Program) (l : ThreadList) (stack : List Nat) : Except Trap ThreadList :=
  match stack with
  | [] => .ok l
  | pc :: rest =>
    if _ : l.contains pc = true then closeAll p l rest
    else if _ : l.capacity ≤ pc then .error (.noPlace pc)
    else
      match fetch p pc with
      | .error e => .error e
      | .ok _ => closeAll p (l.insert pc) (p.emptySteps pc ++ rest)
termination_by (l.room, stack.length)
decreasing_by
  · exact Prod.Lex.right _ (by simp)
  · exact Prod.Lex.left _ _ (ThreadList.room_insert_lt (ThreadList.accepts_iff.mpr (by simp_all)))

/-- Add an offset, and everything reached from it without consuming, to a list. -/
def close (p : Program) (l : ThreadList) (pc : Nat) : Except Trap ThreadList := closeAll p l [pc]

/-- What a list becomes without a trap is what it becomes. -/
theorem closeAll_sound {p : Program} {l l' : ThreadList} {stack : List Nat}
    (h : closeAll p l stack = .ok l') : l' = l.closeAll p stack := by
  fun_induction closeAll p l stack with
  | case1 l =>
    rw [ThreadList.closeAll]
    exact (Except.ok.inj h).symm
  | case2 l pc rest hc ih =>
    rw [ThreadList.closeAll, if_neg (by simp [ThreadList.accepts, hc])]
    exact ih h
  | case3 | case4 => cases h
  | case5 l pc rest hc hcap i hi ih =>
    rw [ThreadList.closeAll, if_pos (ThreadList.accepts_iff.mpr (by simp_all))]
    exact ih h

/-- Whether a program accepts some pattern before it consumes a byte. -/
def matchesEmpty (p : Program) : Except Trap Bool :=
  (close p (.empty p.size) 0).map fun l => l.toList.any fun pc => (p.pattern? pc).isSome

/-- A program that jumps out of itself traps. -/
example : matchesEmpty ⟨#[.jump 7]⟩ = .error (.noPlace 7) := by cbv

/-! ## Running threads -/

/-- The lists after the thread at an offset was run. -/
def moveThread (p : Program) (byte : Option UInt8) (threads : Threads) (pc : Nat) :
    Except Trap Threads :=
  match fetch p pc, byte with
  | .error e, _ => .error e
  | .ok (.consume r), some b =>
    if r.contains b then (close p threads.next (pc + 1)).map fun next => ⟨threads.current, next⟩
    else .ok threads
  | .ok (.branch r), some b =>
    if r.contains b then (close p threads.next (pc + 1)).map fun next => ⟨threads.current, next⟩
    else (close p threads.current (pc + 2)).map fun current => ⟨current, threads.next⟩
  | .ok _, _ => .ok threads

theorem map_close_sound {α : Type} {p : Program} {l : ThreadList} {pc : Nat} {f : ThreadList → α}
    {a : α} (h : (close p l pc).map f = .ok a) : a = f (l.close p pc) := by
  cases hclose : close p l pc with
  | error e =>
    rw [hclose] at h
    cases h
  | ok l' =>
    rw [hclose] at h
    rw [← Except.ok.inj h, closeAll_sound hclose]
    rfl

/-- Running a thread leaves the list that it is in as it is, or closes it. -/
theorem current_of_moveThread {p : Program} {byte : Option UInt8} {threads threads' : Threads}
    {pc : Nat} (h : moveThread p byte threads pc = .ok threads') :
    threads'.current = threads.current ∨
      threads'.current = threads.current.close p (pc + 2) := by
  unfold moveThread at h
  split at h
  · cases h
  · split at h
    · rw [map_close_sound h]
      exact .inl rfl
    · exact Except.ok.inj h ▸ .inl rfl
  · split at h
    · rw [map_close_sound h]
      exact .inl rfl
    · rw [map_close_sound h]
      exact .inr rfl
  · exact Except.ok.inj h ▸ .inl rfl

/-- Run the threads of `current` from place `k` on, at offset `i` before a byte, or before the end
of the input. -/
def runThreads (p : Program) (tc i : Nat) (byte : Option UInt8) (threads : Threads)
    (best : Option (Nat × Nat)) (k : Nat) : Except Trap (Threads × Option (Nat × Nat)) :=
  match _h : threads.current.get? k with
  | none => .ok (threads, best)
  | some pc =>
    match _h : moveThread p byte threads pc with
    | .error e => .error e
    | .ok threads' =>
      runThreads p tc i byte threads' (Simulation.recordAt p tc i best pc) (k + 1)
termination_by (threads.current.room, threads.current.size - k)
decreasing_by
  rcases current_of_moveThread ‹_› with heq | heq
  · rw [heq]
    exact ThreadList.next_place_lt ‹_›
  · rw [heq]
    exact ThreadList.close_next_place_lt ‹_› p (pc + 2)

/-- Run the threads of `current` on the rest of the input, which starts at offset `i`. -/
def runBytes (p : Program) (tc : Nat) (threads : Threads) (best : Option (Nat × Nat)) (i : Nat) :
    Bytes → Except Trap (Threads × Finding)
  | [] => (runThreads p tc i none threads.clearNext best 0).map fun out => (out.1, ⟨out.2, i⟩)
  | b :: rest =>
    match runThreads p tc i (some b) threads.clearNext best 0 with
    | .error e => .error e
    | .ok out =>
      if out.1.next.isEmpty then .ok (out.1, ⟨out.2, i⟩)
      else runBytes p tc ⟨out.1.next, out.1.current⟩ out.2 (i + 1) rest

/-- Run a program with threads from offset 0 on the input from `tc` on. -/
def run (p : Program) (threads : Threads) (text : Bytes) (tc : Nat) :
    Except Trap (Threads × Finding) :=
  match close p threads.current.clear 0 with
  | .error e => .error e
  | .ok current => runBytes p tc ⟨current, threads.next⟩ none tc (text.drop tc)

/-! ## Following one thread -/

/-- What traps a run with one thread that stopped for a reason. -/
def haltTrap? : Direct.Halt → Option Trap
  | .failed | .endOfInput => none
  | .looping => some .endless
  | .outside pc => some (.outside pc)
  | .threaded => some .unreachable

/-- Run a deterministic program from offset 0 on the input from `tc` on. -/
def follow (p : Program) (text : Bytes) (tc : Nat) : Except Trap Finding :=
  let out := Direct.run p text tc
  match haltTrap? out.halt with
  | none => .ok out.finding
  | some trap => .error trap

/-! ## Deterministic programs -/

/-- Close a list with several offsets, one after the other. -/
def closeEach (p : Program) (l : ThreadList) : List Nat → Except Trap ThreadList
  | [] => .ok l
  | pc :: rest => (close p l pc).bind fun l => closeEach p l rest

/-- The kernel of the threads that are at some offsets, for which the instruction of each thread is
read. -/
def kernelOf (p : Program) (pcs : List Nat) : Except Trap IndexSet := do
  let threads ← closeEach p (.empty p.size) pcs
  let _ ← threads.toList.mapM (fetch p)
  return IndexSet.collect p.size fun pc => threads.contains pc && p.isKernelInst pc

/-- Read an instruction of a kernel, which consumes or accepts. -/
def kernelInst (p : Program) (pc : Nat) : Except Trap Inst :=
  match fetch p pc with
  | .ok (.consume r) => .ok (.consume r)
  | .ok (.accept id) => .ok (.accept id)
  | .ok _ => .error .unreachable
  | .error e => .error e

/-- The range between two neighbouring cuts. -/
def window (w : Nat × Nat) : Except Trap ByteRange :=
  match ByteRange.upTo w.1 w.2 with
  | some r => .ok r
  | none => .error .unreachable

/-- The kernel that comes after a kernel on a window of bytes, if some thread moves. -/
def kernelMove (p : Program) (kernel : IndexSet) (w : ByteRange) :
    Except Trap (Option (ByteRange × IndexSet)) :=
  match p.movers kernel w with
  | [] => .ok none
  | pcs => (kernelOf p pcs).map fun next => some (w, next)

/-- The kernels that come after a kernel, each with the window of bytes that leads to it. -/
def kernelMoves (p : Program) (kernel : IndexSet) : Except Trap (List (ByteRange × IndexSet)) := do
  let _ ← kernel.mapM (kernelInst p)
  let bounds := Program.cuts ((p.consumers kernel).map (·.2))
  let windows ← (bounds.zip bounds.tail).mapM window
  let moves ← windows.mapM (kernelMove p kernel)
  return moves.filterMap id

/-- The block of a kernel, among the kernels that were found. -/
def blockOf (p : Program) (found : List IndexSet) (kernel : IndexSet) :
    Except Trap Program.Block := do
  let moves ← kernelMoves p kernel
  return ⟨p.kernelAccept? kernel, Edges.join (moves.map fun m => (m.1, found.idxOf m.2))⟩

/-- The block that an edge leads to. -/
def edgeTarget (blocks : List Program.Block) (e : ByteRange × Nat) : Except Trap Program.Block :=
  match blocks[e.2]? with
  | some block => .ok block
  | none => .error .unreachable

/-- A deterministic program that finds the same matches. Every kernel that is found is visited. -/
def toDeterministic (p : Program) : Except Trap Program :=
  if p.isDeterministic then .ok p
  else do
    let _ ← kernelOf p [0]
    let blocks ← p.kernels.found.mapM (blockOf p p.kernels.found)
    let _ ← (blocks.flatMap Program.Block.edges).mapM (edgeTarget blocks)
    return Program.ofBlocks blocks

end Checked

end Munch

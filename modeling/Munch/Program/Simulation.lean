import Munch.Program.Closure
import Munch.Scan.Match

set_option autoImplicit false

/-! # Running a program with threads

All threads of a program are run in lockstep, a byte at a time: `current` holds the threads at the
byte, and `next` collects those that consumed it. A thread at a `branch` that misses goes on
at the same byte, so `current` can grow while it is gone through. Of the patterns accepted, the one
accepted last wins, and of those accepted at the same offset the one with the least number.

The two lists are kept from one run to the next, and only cleared.

The runs here pass over what would trap them. `Checked.run` is the same with every access checked,
and returns the same unless it traps. -/

namespace Munch

/-- The lists of threads that a simulation works with. -/
structure Threads where
  current : ThreadList
  next : ThreadList
deriving DecidableEq

/-- Lists of threads for a program. -/
def Threads.forProgram (p : Program) : Threads := ⟨.empty p.size, .empty p.size⟩

/-- The lists with which the threads before a byte are run. -/
def Threads.clearNext (t : Threads) : Threads := ⟨t.current, t.next.clear⟩

namespace Simulation

/-- The better of the longest match so far and a pattern accepted at `i`, if that is past the
start `tc`. -/
def better (tc i id : Nat) (best : Option (Nat × Nat)) : Option (Nat × Nat) :=
  if i ≤ tc then best
  else
    match best with
    | none => some (id, i)
    | some (other, stop) => if stop < i ∨ id < other then some (id, i) else best

/-- The longest match after the thread at an offset was gone through. -/
def recordAt (p : Program) (tc i : Nat) (best : Option (Nat × Nat)) (pc : Nat) :
    Option (Nat × Nat) :=
  match p.pattern? pc with
  | some id => better tc i id best
  | none => best

/-- Run the threads of `current` from place `k` on, at offset `i` before a byte, or before the end
of the input. -/
def runThreads (p : Program) (tc i : Nat) (byte : Option UInt8) (threads : Threads)
    (best : Option (Nat × Nat)) (k : Nat) : Threads × Option (Nat × Nat) :=
  match _h : threads.current.get? k with
  | none => (threads, best)
  | some pc =>
    match p.insts[pc]? with
    | some (.accept id) => runThreads p tc i byte threads (better tc i id best) (k + 1)
    | some (.consume r) =>
      if byte.any r.contains then
        runThreads p tc i byte ⟨threads.current, threads.next.close p (pc + 1)⟩ best (k + 1)
      else runThreads p tc i byte threads best (k + 1)
    | some (.branch r) =>
      match byte with
      | none => runThreads p tc i byte threads best (k + 1)
      | some b =>
        if r.contains b then
          runThreads p tc i byte ⟨threads.current, threads.next.close p (pc + 1)⟩ best (k + 1)
        else
          runThreads p tc i byte ⟨threads.current.close p (pc + 2), threads.next⟩ best (k + 1)
    | _ => runThreads p tc i byte threads best (k + 1)
termination_by (threads.current.room, threads.current.size - k)
decreasing_by
  · exact ThreadList.next_place_lt _h
  · exact ThreadList.next_place_lt _h
  · exact ThreadList.next_place_lt _h
  · exact ThreadList.next_place_lt _h
  · exact ThreadList.next_place_lt _h
  · exact ThreadList.close_next_place_lt _h p (pc + 2)
  · exact ThreadList.next_place_lt _h

/-- Run the threads of `current` on the rest of the input, which starts at offset `i`. -/
def runBytes (p : Program) (tc : Nat) (threads : Threads) (best : Option (Nat × Nat)) (i : Nat) :
    Bytes → Threads × Finding
  | [] =>
    let (threads, best) := runThreads p tc i none ⟨threads.current, threads.next.clear⟩ best 0
    (threads, ⟨best, i⟩)
  | b :: rest =>
    let (threads, best) :=
      runThreads p tc i (some b) ⟨threads.current, threads.next.clear⟩ best 0
    if threads.next.isEmpty then (threads, ⟨best, i⟩)
    else runBytes p tc ⟨threads.next, threads.current⟩ best (i + 1) rest

/-- Run a program from offset 0 on the input from `tc` on. -/
def run (p : Program) (threads : Threads) (text : Bytes) (tc : Nat) : Threads × Finding :=
  runBytes p tc ⟨threads.current.clear.close p 0, threads.next⟩ none tc (text.drop tc)

end Simulation

end Munch

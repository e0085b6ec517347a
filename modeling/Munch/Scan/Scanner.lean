import Munch.Event
import Munch.Program.Direct
import Munch.Program.Simulation
import Munch.Table.Basic

set_option autoImplicit false

/-! # Scanning a text

A `Scanner` finds the longest match at any cursor of a text, as often as it is asked and in
whatever order. Once it is asked for a cursor at or past the end of the text, it has finished, and
finds nothing any more. The automaton behind it is an `Engine`. -/

namespace Munch

/-- An automaton that finds the longest match of a text from a cursor on. It may keep a state of
its own, which must not change what it finds. If a program traps it, what it found up to there
counts; a `CheckedEngine` returns the trap. -/
class Engine (ε : Type) where
  find : ε → Bytes → Nat → Finding × ε

/-- A table as an engine. -/
instance : Engine Table := ⟨fun t text tc => (t.find text tc, t)⟩

/-- A program that is run with threads. -/
structure Simulator where
  program : Program
  threads : Threads

/-- A program, ready to be run with threads. -/
def Simulator.ofProgram (p : Program) : Simulator := ⟨p, .forProgram p⟩

instance : Engine Simulator where
  find s text tc :=
    let (threads, finding) := Simulation.run s.program s.threads text tc
    (finding, { s with threads })

/-- A deterministic program that is run by following its one thread. -/
structure Runner where
  program : Program
  deterministic : program.isDeterministic = true

/-- A program, ready to be run by following its one thread, if it is deterministic. -/
def Runner.ofProgram? (p : Program) : Option Runner :=
  if h : p.isDeterministic = true then some ⟨p, h⟩ else none

/-- What is said of a program that has no runner. -/
def Runner.refusal : String := "Program is not deterministic"

instance : Engine Runner := ⟨fun r text tc => ((Direct.run r.program text tc).finding, r)⟩

/-- A text being scanned by an engine. -/
structure Scanner (ε : Type) where
  engine : ε
  text : Bytes
  /-- Whether a step reached the end. -/
  finished : Bool
  /-- The end of the match that the last step found. -/
  lastStop? : Option Nat
  /-- The last position that was worked out. -/
  tracker : Tracker
  /-- What happened so far. -/
  journal : List Event

namespace Scanner

variable {ε : Type}

/-- A text at the start of its scan. -/
def start (engine : ε) (text : Bytes) : Scanner ε := ⟨engine, text, false, none, .start, []⟩

/-- What happens if a step starts at a cursor that is not the end of the last match. -/
def jumpEvent (lastStop? : Option Nat) (tc : Nat) : List Event :=
  match lastStop? with
  | none => []
  | some stop =>
    if tc < stop then [.cursorRewound stop tc]
    else if stop < tc then [.cursorSkippedAhead stop tc]
    else []

/-- The match from a cursor to its end, and the tracker after both its positions were worked
out. -/
def matchAt (text : Bytes) (tracker : Tracker) (id tc stop : Nat) : Match × Tracker :=
  let first := tracker.seek text tc
  let last := first.seek text (stop - 1)
  (⟨id, tc, first.position, last.position, text.slice tc stop⟩, last)

/-- The place from a cursor to a failure, and the tracker after both its positions were worked
out. -/
def unconsumedAt (text : Bytes) (tracker : Tracker) (tc fail : Nat) : Unconsumed × Tracker :=
  let first := tracker.seek text tc
  let last := first.seek text fail
  (⟨tc, fail, first.position, last.position, text.slice tc (fail + 1)⟩, last)

/-- A scan that was asked for a cursor at or past the end of its text. -/
def finish (s : Scanner ε) (tc : Nat) : Scanner ε :=
  { s with finished := true, lastStop? := none, journal := s.journal ++ jumpEvent s.lastStop? tc }

/-- What is made of what the engine found at a cursor, a match or the place at which no pattern
matches, and the scan after it. -/
def conclude (s : Scanner ε) (tc : Nat) (found : Finding × ε) :
    Option (Except Unconsumed Match) × Scanner ε :=
  let engine := found.2
  let journal := s.journal ++ jumpEvent s.lastStop? tc
  match found.1.longest? with
  | some (id, stop) =>
    let (m, tracker) := matchAt s.text s.tracker id tc stop
    (some (.ok m), { s with engine, lastStop? := some stop, tracker, journal })
  | none =>
    let (u, tracker) := unconsumedAt s.text s.tracker tc found.1.fail
    (some (.error u), { s with engine, lastStop? := none, tracker, journal })

/-- Find the longest match at a cursor: nothing if the scan has finished, and otherwise a match or
the place at which no pattern matches. -/
def step [Engine ε] (s : Scanner ε) (tc : Nat) :
    Option (Except Unconsumed Match) × Scanner ε :=
  if s.finished then (none, s)
  else if s.text.length ≤ tc then (none, s.finish tc)
  else s.conclude tc (Engine.find s.engine s.text tc)

end Scanner

end Munch

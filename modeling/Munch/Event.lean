import Munch.IndexSet
import Munch.Pattern.Error

set_option autoImplicit false

/-! # Events

What happens while patterns are compiled and input is scanned can be told as a sequence of events.
An event has a level, a message and named values. -/

namespace Munch

/-- The automata that a set of patterns can be compiled to. -/
inductive Backend where
  /-- A program that is run with threads. -/
  | threads
  /-- A table of transitions. -/
  | table
deriving DecidableEq, Repr

/-- The name of a backend. -/
def Backend.name : Backend → String
  | .threads => "Nfa"
  | .table => "Dfa"

/-- How much an event matters. -/
inductive Level where
  | trace
  | debug
  | info
  | warn
deriving DecidableEq, Repr

/-- The name of a level. -/
def Level.name : Level → String
  | .trace => "TRACE"
  | .debug => "DEBUG"
  | .info => "INFO"
  | .warn => "WARN"

/-- Something that happened. -/
inductive Event where
  /-- A production was entered, with the rest of the pattern before it. -/
  | enteringProduction (production : Pattern.Production) (offset : Nat) (rest : Bytes)
  /-- A scan went on before the end of the last match. -/
  | cursorRewound (start stop : Nat)
  /-- A scan went on after the end of the last match. -/
  | cursorSkippedAhead (start stop : Nat)
  /-- No pattern matched in a stream. -/
  | noPatternMatched (tc fail : Nat)
  /-- An action tried to move the cursor of a stream back. -/
  | cannotRewind (start stop : Nat)
  /-- A reader failed, with so many bytes before the failure. -/
  | readError (text : String) (tc : Nat)
  /-- A state of a table was visited. -/
  | buildingState (state : Nat) (positions : IndexSet) (accept? : Option Nat)
  /-- A table was built, with so many states besides the error state. -/
  | builtTable (states : Nat)
  /-- The states of a table were divided into blocks once more. -/
  | refinedPartition (round blocks : Nat)
  /-- No two states of a table could be merged. -/
  | alreadyMinimal (states : Nat)
  /-- The states of a table were merged. -/
  | minimized (before after : Nat)
  /-- A program was made. -/
  | generatedProgram (insts patterns : Nat)
  /-- The patterns of a lexer are well formed and are now compiled together. -/
  | compilingLexer (patterns : Nat) (backend : Backend)
  /-- A lexer was compiled to a program. -/
  | compiledProgram (insts : Nat)
  /-- A lexer was compiled to a table. -/
  | compiledTable (before after : Nat)
deriving DecidableEq, Repr

namespace Event

/-- A value of an event. -/
inductive Value where
  | number (n : Nat)
  | text (s : String)
deriving DecidableEq, Repr

/-- The level of an event. -/
def level : Event → Level
  | .enteringProduction .. | .cursorRewound .. | .cursorSkippedAhead .. | .noPatternMatched ..
  | .buildingState .. | .refinedPartition .. => .trace
  | .readError .. | .builtTable .. | .alreadyMinimal .. | .minimized .. | .generatedProgram ..
  | .compilingLexer .. | .compiledProgram .. | .compiledTable .. => .debug
  | .cannotRewind .. => .warn

/-- The wording of an event. -/
def message : Event → String
  | .enteringProduction .. => "Entering production"
  | .cursorRewound .. => "Cursor rewound"
  | .cursorSkippedAhead .. => "Cursor skipped ahead"
  | .noPatternMatched .. => "No pattern matched"
  | .cannotRewind .. => "Cannot rewind a stream, ignoring"
  | .readError text _ => "Read error: " ++ text
  | .buildingState .. => "Building DFA state"
  | .builtTable .. => "Built DFA from follow sets"
  | .refinedPartition .. => "Refined DFA partition"
  | .alreadyMinimal .. => "DFA is already minimal"
  | .minimized .. => "Minimized DFA"
  | .generatedProgram .. => "Generated NFA program"
  | .compilingLexer .. => "Compiling lexer"
  | .compiledProgram .. => "Compiled lexer program"
  | .compiledTable .. => "Compiled lexer DFA"

/-- The named values of an event. -/
def fields : Event → List (String × Value)
  | .enteringProduction production offset rest =>
    [("production", .text production.name), ("offset", .number offset),
      ("rest", .text rest.escaped)]
  | .cursorRewound start stop | .cursorSkippedAhead start stop | .cannotRewind start stop =>
    [("from", .number start), ("to", .number stop)]
  | .noPatternMatched tc fail => [("tc", .number tc), ("fail", .number fail)]
  | .readError _ tc => [("tc", .number tc)]
  | .buildingState state positions accept? =>
    [("state", .number state), ("positions", .text positions.describe)] ++
      accept?.toList.map fun id => ("accept", .number id)
  | .builtTable states | .alreadyMinimal states => [("states", .number states)]
  | .refinedPartition round blocks => [("round", .number round), ("blocks", .number blocks)]
  | .minimized before after | .compiledTable before after =>
    [("before", .number before), ("after", .number after)]
  | .generatedProgram insts patterns =>
    [("insts", .number insts), ("patterns", .number patterns)]
  | .compilingLexer patterns backend =>
    [("patterns", .number patterns), ("backend", .text backend.name)]
  | .compiledProgram insts => [("insts", .number insts)]

end Event

end Munch

import Munch.Lexer.Action
import Munch.Pattern.Trace
import Munch.Program.Closure
import Munch.Program.Draft
import Munch.Table.Build
import Munch.Table.Minimize
import Munch.Text.Lossy
import Munch.Text.Quoted

set_option autoImplicit false

/-! # Lexers

A lexer is a list of rules, each a pattern and an action, and once it is compiled an automaton for
all the patterns together. The longest match wins, and of several patterns with a longest match the
one that was added first. Patterns that match the empty text are refused, so that a scan gets on. -/

namespace Munch

/-- A pattern and what is to be done with its matches. -/
structure Rule (σ τ : Type) where
  pattern : Bytes
  action : Action σ τ

/-- How a lexer is compiled: to which automaton, whether a table is minimized, and whether the
productions that the parser enters are told. -/
structure LexerOptions where
  backend : Backend
  minimize : Bool
  traceParse : Bool
deriving DecidableEq, Repr

/-- A minimized table, without telling what the parser does. -/
def LexerOptions.standard : LexerOptions := ⟨.table, true, false⟩

/-- What a lexer is compiled to. -/
inductive Automaton where
  | program (p : Program)
  | table (t : Table)
deriving DecidableEq

/-- Why a lexer cannot be compiled, or not be used. -/
inductive CompileError where
  | noPatterns
  | parse (index : Nat) (cause : Pattern.ParseError)
  | draft (cause : Program.DraftError)
  | emptyPattern (index : Nat) (pattern : String)
  | notCompiled
  | streamUnsupported
deriving DecidableEq, Repr

namespace CompileError

/-- The wording of an error. -/
def message : CompileError → String
  | .noPatterns => "No patterns were added to the lexer"
  | .parse index _ => "Error parsing pattern " ++ toString index
  | .draft cause => cause.message
  | .emptyPattern index pattern =>
    "Pattern " ++ toString index ++ " (" ++ Text.quote pattern ++ ") matches the empty string"
  | .notCompiled => "The lexer must be compiled before scanning"
  | .streamUnsupported => "Only the DFA backend can scan streams"

/-- The wording of what caused an error. -/
def cause? : CompileError → Option String
  | .parse _ cause => some cause.message
  | _ => none

end CompileError

/-- What happened during a computation, and what it came to. -/
structure Told (α : Type) where
  events : List Event
  result : Except CompileError α

namespace Told

variable {α β : Type}

/-- Go on after a success. -/
def andThen (a : Told α) (f : α → Told β) : Told β :=
  match a.result with
  | .error e => ⟨a.events, .error e⟩
  | .ok x => ⟨a.events ++ (f x).events, (f x).result⟩

/-- Something that happens. -/
def tell (e : Event) : Told Unit := ⟨[e], .ok ()⟩

/-- A computation that fails at once. -/
def fail (e : CompileError) : Told α := ⟨[], .error e⟩

/-- A computation that succeeds at once. -/
def done (x : α) : Told α := ⟨[], .ok x⟩

end Told

/-- A list of rules, how they are compiled, and what they were compiled to. -/
structure Lexer (σ τ : Type) where
  rules : List (Rule σ τ)
  options : LexerOptions
  automaton? : Option Automaton

namespace Lexer

variable {σ τ : Type}

/-- A lexer without rules. -/
def withOptions (options : LexerOptions) : Lexer σ τ := ⟨[], options, none⟩

/-- The lexer with a rule added at the end, which is not compiled. -/
def add (l : Lexer σ τ) (pattern : Bytes) (action : Action σ τ) : Lexer σ τ :=
  { l with rules := l.rules ++ [⟨pattern, action⟩], automaton? := none }

/-- Whether the lexer is compiled. -/
def isCompiled (l : Lexer σ τ) : Bool := l.automaton?.isSome

/-- The program that the lexer is compiled to. -/
def program? (l : Lexer σ τ) : Option Program :=
  match l.automaton? with
  | some (.program p) => some p
  | _ => none

/-- The table that the lexer is compiled to. -/
def table? (l : Lexer σ τ) : Option Table :=
  match l.automaton? with
  | some (.table t) => some t
  | _ => none

/-- Parse the pattern of a number. -/
def parsePattern (options : LexerOptions) (index : Nat) (pattern : Bytes) : Told Regex where
  events := if options.traceParse then Pattern.visitEvents pattern else []
  result := (Pattern.parse pattern).mapError (.parse index)

/-- Make the program of patterns. -/
def makeProgram (r : Regex) : Told Program :=
  match Program.ofRegex r with
  | .error e => .fail (.draft e)
  | .ok p => ⟨[.generatedProgram p.size r.anchor.patternCount], .ok p⟩

/-- Make the table of patterns. -/
def makeTable (r : Regex) : Told Table :=
  let l := Labelled.ofRegex r
  ⟨Table.buildEvents l, .ok (Table.ofLabelled l)⟩

/-- Find out, by compiling it alone, whether a pattern matches the empty text. -/
def matchesEmpty (options : LexerOptions) (r : Regex) : Told Bool :=
  match options.backend with
  | .threads => (makeProgram r).andThen fun p => .done p.matchesEmpty
  | .table => (makeTable r).andThen fun t => .done t.matchesEmpty

/-- The expression of the pattern of a number, which must be well formed and not match the empty
text. -/
def checkPattern (options : LexerOptions) (index : Nat) (pattern : Bytes) : Told Regex :=
  (parsePattern options index pattern).andThen fun r =>
    (matchesEmpty options r).andThen fun isEmpty =>
      if isEmpty then .fail (.emptyPattern index (Text.ofBytesLossy pattern))
      else .done r.complete

/-- The expressions of patterns that are numbered from `index` on. -/
def checkPatterns (options : LexerOptions) (index : Nat) : List Bytes → Told (List Regex)
  | [] => .done []
  | p :: rest =>
    (checkPattern options index p).andThen fun r =>
      (checkPatterns options (index + 1) rest).andThen fun rs => .done (r :: rs)

/-- Make the automaton of a set of patterns. -/
def makeAutomaton (options : LexerOptions) (r : Regex) : Told Automaton :=
  match options.backend with
  | .threads =>
    (makeProgram r).andThen fun p =>
      (Told.tell (.compiledProgram p.size)).andThen fun _ => .done (.program p)
  | .table =>
    (makeTable r).andThen fun t =>
      let final := if options.minimize then t.minimize else t
      ⟨(if options.minimize then t.minimizeEvents else []) ++
        [.compiledTable t.size final.size], .ok (.table final)⟩

/-- Compile a list of patterns. -/
def compilePatterns (options : LexerOptions) (patterns : List Bytes) : Told Automaton :=
  (checkPatterns options 0 patterns).andThen fun rs =>
    (Told.tell (.compilingLexer rs.length options.backend)).andThen fun _ =>
      match Regex.joinPatterns rs with
      | none => .fail .noPatterns
      | some r => makeAutomaton options r

/-- Compile the lexer, unless it is compiled already. -/
def compile (l : Lexer σ τ) : Told (Lexer σ τ) :=
  if l.rules.isEmpty then .fail .noPatterns
  else if l.isCompiled then .done l
  else
    (compilePatterns l.options (l.rules.map (·.pattern))).andThen fun a =>
      .done { l with automaton? := some a }

/-- The text of a lexer: its patterns and options, and whether it is compiled. -/
def describe (l : Lexer σ τ) : String :=
  "Lexer \x7b patterns: [" ++
    ", ".intercalate (l.rules.map fun r => Text.quote r.pattern.escaped) ++
    "], options: LexerOptions \x7b backend: " ++ l.options.backend.name ++ ", minimize: " ++
    toString l.options.minimize ++ ", trace_parse: " ++ toString l.options.traceParse ++
    " \x7d, compiled: " ++ toString l.isCompiled ++ ", .. \x7d"

end Lexer

end Munch

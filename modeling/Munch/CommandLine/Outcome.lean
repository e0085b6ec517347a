import Munch.CommandLine.Options
import Munch.Graph.Automata
import Munch.Lexer.Scanner
import Munch.Program.Deterministic
import Munch.Program.Listing
import Munch.Source.Reader
import Munch.Table.Listing
import Munch.Text.Blank
import Munch.Token

set_option autoImplicit false

/-! # What a run of the command line comes to

A run compiles its patterns to a lexer whose tokens are its matches, and prints the automaton or, if
it scans, every match in the input. A scan goes on one byte further wherever no pattern matches. -/

namespace Munch.CommandLine

/-- The exit status of a run, what it prints, and what it complains of. -/
structure Outcome where
  status : Nat
  output : String
  complaints : List String
deriving DecidableEq, Repr

/-- The action that makes a match its own token. -/
def keep : Action Unit Match := fun _ m => .done ⟨(), .ok (some m)⟩

/-- The lexer of a run, not compiled. -/
def Options.lexer (o : Options) : Lexer Unit Match :=
  o.patterns.foldl (fun l p => l.add (Bytes.ofString p) keep)
    (.withOptions ⟨o.format.backend, o.minimize, o.traceParse⟩)

/-- The document that a compiled lexer is printed as, if it was compiled to the automaton that the
format prints. -/
def document? (format : Format) (l : Lexer Unit Match) : Option String :=
  match format with
  | .program => l.program?.map (·.listing)
  | .programText => l.program?.map (·.serialize)
  | .deterministicText => l.program?.map (·.toDeterministic.serialize)
  | .programGraph => l.program?.map (·.graph.text)
  | .table => l.table?.map (·.listing)
  | .tableGraph => l.table?.map (·.graph.text)

/-- The line that a match is printed as. -/
def matchLine (m : Match) : String :=
  toString m.id ++ " " ++ toString m.tc ++ " " ++ m.first.text ++ "-" ++ m.last.text ++ " \"" ++
    m.bytes.escaped ++ "\"\n"

/-- What a scan prints, what it could not match, and the error that ended it. -/
structure Report where
  lines : List String
  gaps : List Unconsumed
  error? : Option ScanError
deriving DecidableEq, Repr

/-- What a scan comes to that is pulled at most `pulls` times, and moved on where nothing
matches. -/
def report {κ : Type} (next : κ → Pull Match × κ) (moveOn : κ → Unconsumed → κ) :
    (pulls : Nat) → κ → Report
  | 0, _ => ⟨[], [], none⟩
  | pulls + 1, s =>
    match next s with
    | (.ended, _) | (.undecided, _) => ⟨[], [], none⟩
    | (.token m, s) =>
      let r := report next moveOn pulls s
      { r with lines := matchLine m :: r.lines }
    | (.error (.unconsumed u), s) =>
      let r := report next moveOn pulls (moveOn s u)
      { r with gaps := u :: r.gaps }
    | (.error e, _) => ⟨[], [], some e⟩

/-- Scan a source with a compiled lexer, moving on by one byte where nothing matches. Each pull but
the last gets at least one byte further, and each runs one action at most. -/
def scanSource (s : Lexer.SourceScanner Unit Match Reader) : Report :=
  report (fun s => ((s.next () 1).1, (s.next () 1).2.1)) (fun s _ => s.skip 1)
    (ByteSource.reach s.stream.source + 1) s

/-- Scan a text with a compiled lexer, moving on to the byte after the start of the scan where
nothing matches. -/
def scanText (s : Lexer.TextScanner Unit Match) : Report :=
  report (fun s => ((s.next () 1).1, (s.next () 1).2.1)) (fun s u => { s with tc := u.start + 1 })
    (s.scanner.text.length + 1) s

/-- Scan an input with a compiled lexer: as a source if it was compiled to a table, and otherwise as
a text, which must then be there as a whole. -/
def scanInput (l : Lexer Unit Match) (input : List Delivery) : Except CompileError Report :=
  if l.table?.isSome then (l.scanSource (Reader.ofDeliveries input)).map scanSource
  else
    match Delivery.contents input with
    | .error text => .ok ⟨[], [], some (.io text)⟩
    | .ok text => (l.scanText text).map scanText

/-- The outcome of a scan: it fails if anything could not be matched. -/
def Report.outcome (r : Report) : Outcome where
  status := if r.gaps.isEmpty && r.error?.isNone then 0 else 1
  output := String.join r.lines
  complaints := r.gaps.map (·.message) ++
    (r.error?.toList.flatMap fun e => e.message :: e.cause?.toList) ++
    if r.gaps.isEmpty then []
    else [toString r.gaps.length ++ " region(s) of input could not be scanned"]

/-- The outcome of a run that a lexer cannot be compiled or used for. -/
def failure (e : CompileError) : Outcome := ⟨1, "", e.message :: e.cause?.toList⟩

/-- The outcome of a run with some input, which only a scan looks at. -/
def Options.outcome (o : Options) (input : List Delivery) : Outcome :=
  match o.lexer.compile.result with
  | .error e => failure e
  | .ok l =>
    if o.scan then
      match scanInput l input with
      | .error e => failure e
      | .ok r => r.outcome
    else
      match document? o.format l with
      | some text => ⟨0, Text.trimEnd text ++ "\n", []⟩
      | none => failure .notCompiled

/-- How the program is used. -/
def usage : String :=
  "Usage: munch [OPTIONS] --pattern PATTERN\n\n" ++
  "Compile a set of patterns, then print their automaton or scan the standard input.\n\n" ++
  "  -p, --pattern PATTERN  a pattern to add, in order of priority\n" ++
  "  -f, --format FORMAT    nfa, nfa-text, dfa-program, nfa-dot, dfa (default) or dot\n" ++
  "      --no-minimize      do not merge the states of the table\n" ++
  "      --trace-parse      let the parser tell what it does\n" ++
  "      --scan             scan the standard input and print every match\n" ++
  "  -v, --verbose          tell more\n" ++
  "  -h, --help             print this text\n" ++
  "  -V, --version          print the version\n"

/-- The outcome of a command line that does not lead to a run. -/
def Stop.outcome : Stop → Outcome
  | .help => ⟨0, usage, []⟩
  | .version => ⟨0, "munch 1.0.0\n", []⟩
  | .wrong e => ⟨2, "", [e.message]⟩

/-- The outcome of a command line with some input. -/
def outcome (arguments : List String) (input : List Delivery) : Outcome :=
  match Options.ofArguments arguments with
  | .error stop => stop.outcome
  | .ok o => o.outcome input

end Munch.CommandLine

import Munch.Event

set_option autoImplicit false

/-! # The options of the command line

An option has a long name, which follows two dashes, and may have a letter, which follows one. An
option that takes a value takes it from the same argument, after an equals sign or right after the
letter, or else from the next argument, which must not look like an option. Letters of options
without a value may share an argument. Arguments are read from left to right, and the first that is
wrong, or that asks for help or for the version, ends the reading. -/

namespace Munch.CommandLine

/-- The documents that an automaton can be printed as. -/
inductive Format where
  /-- The listing of the program. -/
  | program
  /-- The program in the form that can be read back. -/
  | programText
  /-- The deterministic program in the form that can be read back. -/
  | deterministicText
  /-- The graph of the program. -/
  | programGraph
  /-- The listing of the table. -/
  | table
  /-- The graph of the table. -/
  | tableGraph
deriving DecidableEq, Repr

namespace Format

/-- The format of a name. -/
def ofName? : String → Option Format
  | "nfa" => some .program
  | "nfa-text" => some .programText
  | "dfa-program" => some .deterministicText
  | "nfa-dot" => some .programGraph
  | "dfa" => some .table
  | "dot" => some .tableGraph
  | _ => none

/-- The automaton that a format prints. -/
def backend : Format → Backend
  | .program | .programText | .deterministicText | .programGraph => .threads
  | .table | .tableGraph => .table

end Format

/-- The options. -/
inductive Flag where
  | pattern
  | format
  | noMinimize
  | traceParse
  | scan
  | verbose
  | help
  | version
deriving DecidableEq, Repr

namespace Flag

/-- The option of a long name. -/
def ofName? : String → Option Flag
  | "pattern" => some .pattern
  | "format" => some .format
  | "no-minimize" => some .noMinimize
  | "trace-parse" => some .traceParse
  | "scan" => some .scan
  | "verbose" => some .verbose
  | "help" => some .help
  | "version" => some .version
  | _ => none

/-- The option of a letter. -/
def ofLetter? : Char → Option Flag
  | 'p' => some .pattern
  | 'f' => some .format
  | 'v' => some .verbose
  | 'h' => some .help
  | 'V' => some .version
  | _ => none

/-- The long name of an option. -/
def name : Flag → String
  | .pattern => "pattern"
  | .format => "format"
  | .noMinimize => "no-minimize"
  | .traceParse => "trace-parse"
  | .scan => "scan"
  | .verbose => "verbose"
  | .help => "help"
  | .version => "version"

/-- Whether an option takes a value. -/
def takesValue : Flag → Bool
  | .pattern | .format => true
  | _ => false

end Flag

/-- What is wrong with a command line. -/
inductive UsageError where
  | unknownOption (text : String)
  | missingValue (flag : Flag)
  | unneededValue (flag : Flag)
  | repeated (flag : Flag)
  | unknownFormat (name : String)
  | positional (text : String)
  | noPatterns
deriving DecidableEq, Repr

/-- The wording of what is wrong with a command line. -/
def UsageError.message : UsageError → String
  | .unknownOption text => "Unknown option " ++ text
  | .missingValue flag => "Missing value for --" ++ flag.name
  | .unneededValue flag => "Unneeded value for --" ++ flag.name
  | .repeated flag => "Repeated option --" ++ flag.name
  | .unknownFormat name => "Unknown format " ++ name
  | .positional text => "Unexpected argument " ++ text
  | .noPatterns => "Missing option --" ++ Flag.pattern.name

/-- Why the reading of a command line ends before its end. -/
inductive Stop where
  | help
  | version
  | wrong (e : UsageError)
deriving DecidableEq, Repr

/-- The options that were given so far. -/
structure Given where
  patterns : List String
  format? : Option Format
  noMinimize : Bool
  traceParse : Bool
  scan : Bool
  verbosity : Nat
deriving DecidableEq, Repr

namespace Given

/-- No options. -/
def nothing : Given := ⟨[], none, false, false, false, 0⟩

/-- Give an option that takes no value. -/
def set (g : Given) (flag : Flag) : Except Stop Given :=
  match flag with
  | .noMinimize =>
    if g.noMinimize then .error (.wrong (.repeated flag)) else .ok { g with noMinimize := true }
  | .traceParse =>
    if g.traceParse then .error (.wrong (.repeated flag)) else .ok { g with traceParse := true }
  | .scan => if g.scan then .error (.wrong (.repeated flag)) else .ok { g with scan := true }
  | .verbose => .ok { g with verbosity := g.verbosity + 1 }
  | .help => .error .help
  | .version => .error .version
  | .pattern | .format => .error (.wrong (.missingValue flag))

/-- Give an option with its value. -/
def setTo (g : Given) (flag : Flag) (value : String) : Except Stop Given :=
  match flag with
  | .pattern => .ok { g with patterns := g.patterns ++ [value] }
  | .format =>
    match Format.ofName? value with
    | none => .error (.wrong (.unknownFormat value))
    | some f =>
      if g.format?.isSome then .error (.wrong (.repeated flag))
      else .ok { g with format? := some f }
  | _ => .error (.wrong (.unneededValue flag))

end Given

/-- What an argument looks like. -/
inductive Argument where
  /-- Two dashes alone, after which there are no more options. -/
  | separator
  /-- Two dashes with a name, and with what follows the first equals sign. -/
  | long (name : String) (value? : Option String)
  /-- One dash with letters. -/
  | short (letter : Char) (rest : List Char)
  /-- Anything else, which includes one dash alone. -/
  | plain (text : String)
deriving DecidableEq, Repr

/-- What an argument looks like. -/
def Argument.ofString (text : String) : Argument :=
  match text.toList with
  | ['-', '-'] => .separator
  | '-' :: '-' :: rest =>
    .long (String.ofList (rest.takeWhile (· != '=')))
      (match rest.dropWhile (· != '=') with
        | [] => none
        | _ :: value => some (String.ofList value))
  | '-' :: c :: rest => .short c rest
  | _ => .plain text

/-- Give the options of letters. If the last of them still lacks its value, it is given back. -/
def Given.setLetters (g : Given) : List Char → Except Stop (Given × Option Flag)
  | [] => .ok (g, none)
  | c :: rest =>
    match Flag.ofLetter? c with
    | none => .error (.wrong (.unknownOption (String.ofList ['-', c])))
    | some flag =>
      if flag.takesValue then
        match rest with
        | [] => .ok (g, some flag)
        | '=' :: value => (g.setTo flag (String.ofList value)).map (·, none)
        | value => (g.setTo flag (String.ofList value)).map (·, none)
      else
        match g.set flag with
        | .error e => .error e
        | .ok g => g.setLetters rest

/-- Give the option of a long name. If it still lacks its value, it is given back. -/
def Given.setName (g : Given) (name : String) (value? : Option String) :
    Except Stop (Given × Option Flag) :=
  match Flag.ofName? name, value? with
  | none, _ => .error (.wrong (.unknownOption ("--" ++ name)))
  | some flag, some value =>
    if flag.takesValue then (g.setTo flag value).map (·, none)
    else .error (.wrong (.unneededValue flag))
  | some flag, none => if flag.takesValue then .ok (g, some flag) else (g.set flag).map (·, none)

/-- Give the options of one argument. If the last of them still lacks its value, it is given
back. -/
def Given.setArgument (g : Given) (text : String) : Except Stop (Given × Option Flag) :=
  match Argument.ofString text with
  | .separator => .ok (g, none)
  | .long name value? => g.setName name value?
  | .short letter rest => g.setLetters (letter :: rest)
  | .plain text => .error (.wrong (.positional text))

/-- Give the options of a list of arguments, of which the first may be the value of an option that
still lacks it. -/
def Given.setArguments (g : Given) (pending? : Option Flag) : List String → Except Stop Given
  | [] =>
    match pending? with
    | none => .ok g
    | some flag => .error (.wrong (.missingValue flag))
  | text :: rest =>
    match pending?, Argument.ofString text, rest with
    | some flag, .plain value, rest =>
      match g.setTo flag value with
      | .error e => .error e
      | .ok g => g.setArguments none rest
    | some flag, _, _ => .error (.wrong (.missingValue flag))
    | none, .separator, next :: _ => .error (.wrong (.positional next))
    | none, _, rest =>
      match g.setArgument text with
      | .error e => .error e
      | .ok (g, pending?) => g.setArguments pending? rest

/-- What a run is to do: with which patterns, what to print, whether to merge states, whether the
parser tells what it does, and whether to scan the input instead. -/
structure Options where
  patterns : List String
  format : Format
  minimize : Bool
  traceParse : Bool
  scan : Bool
  verbosity : Nat
deriving DecidableEq, Repr

/-- Read the arguments of a command line. At least one pattern must be given. -/
def Options.ofArguments (arguments : List String) : Except Stop Options :=
  match Given.nothing.setArguments none arguments with
  | .error e => .error e
  | .ok g =>
    if g.patterns.isEmpty then .error (.wrong .noPatterns)
    else
      .ok ⟨g.patterns, g.format?.getD .table, !g.noMinimize, g.traceParse, g.scan, g.verbosity⟩

/-- Whether a command line leads to a scan, which is the only thing that reads the standard
input. -/
def scansInput (arguments : List String) : Bool :=
  match Options.ofArguments arguments with
  | .ok o => o.scan
  | .error _ => false

end Munch.CommandLine

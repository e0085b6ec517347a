import Munch.Lexer.Basic
import Munch.Scan.Scanner
import Munch.Scan.Stream

set_option autoImplicit false

/-! # Scanning for tokens

A compiled lexer is bound to an input and pulled for one token after the other. Each pull scans for
matches and runs their actions until one of them makes a token, an action fails, no pattern matches,
or the input ends. Since an action may move the cursor back, a pull need not come to an end; a limit
on the number of actions that it may run decides how long it is followed, and does not change what
it comes to. -/

namespace Munch

/-- The automaton of a lexer as an engine. -/
inductive LexerEngine where
  | threads (s : Simulator)
  | table (t : Table)

/-- The engine of an automaton. -/
def Automaton.engine : Automaton → LexerEngine
  | .program p => .threads (.ofProgram p)
  | .table t => .table t

instance : Engine LexerEngine where
  find e text tc :=
    match e with
    | .threads s =>
      let (finding, s) := Engine.find s text tc
      (finding, .threads s)
    | .table t => (t.find text tc, .table t)

/-- What a pull comes to. -/
inductive Pull (τ : Type) where
  /-- The input has ended. -/
  | ended
  | token (t : τ)
  | error (e : ScanError)
  /-- The limit was reached. -/
  | undecided
deriving DecidableEq, Repr

namespace Lexer

variable {σ τ : Type}

/-- What the action for a match does. -/
def react (rules : List (Rule σ τ)) (state : σ) (m : Match) : Reaction (Verdict σ τ) :=
  match rules[m.id]? with
  | some rule => rule.action state m
  | none => .done ⟨state, .ok none⟩

/-! ## Texts -/

/-- A text being scanned by a lexer, and the cursor. -/
structure TextScanner (σ τ : Type) where
  rules : List (Rule σ τ)
  scanner : Scanner LexerEngine
  tc : Nat

/-- Bind a compiled lexer to a text. -/
def scanText (l : Lexer σ τ) (text : Bytes) : Except CompileError (TextScanner σ τ) :=
  match l.automaton? with
  | none => .error .notCompiled
  | some a => .ok ⟨l.rules, .start a.engine text, 0⟩

namespace TextScanner

/-- Pull a token, running at most `limit` actions. -/
def next (s : TextScanner σ τ) (state : σ) (limit : Nat) : Pull τ × TextScanner σ τ × σ :=
  let (found, scanner) := s.scanner.step s.tc
  match found with
  | none => (.ended, { s with scanner }, state)
  | some (.error u) => (.error (.unconsumed u), { s with scanner }, state)
  | some (.ok m) =>
    match limit with
    | 0 => (.undecided, { s with scanner }, state)
    | limit + 1 =>
      let (verdict, buffer) := (react s.rules state m).run (TextBuffer.mk scanner.text m.stop)
      let s := { s with scanner, tc := buffer.cursor }
      match verdict.token with
      | .ok none => next s verdict.state limit
      | .ok (some t) => (.token t, s, verdict.state)
      | .error message => (.error (.action message), s, verdict.state)

/-- Move the cursor forward, at most to the largest word. -/
def skip (s : TextScanner σ τ) (n : Nat) : TextScanner σ τ :=
  { s with tc := min (s.tc + n) maxWord }

end TextScanner

/-! ## Sources -/

/-- A source being scanned by a lexer. -/
structure SourceScanner (σ τ κ : Type) where
  rules : List (Rule σ τ)
  stream : Stream κ

/-- Bind a lexer that is compiled to a table to a source. -/
def scanSource {κ : Type} (l : Lexer σ τ) (source : κ) :
    Except CompileError (SourceScanner σ τ κ) :=
  match l.automaton? with
  | none => .error .notCompiled
  | some (.program _) => .error .streamUnsupported
  | some (.table t) => .ok ⟨l.rules, .start t source⟩

namespace SourceScanner

variable {κ : Type} [ByteSource κ]

/-- Pull a token, running at most `limit` actions. -/
def next (s : SourceScanner σ τ κ) (state : σ) (limit : Nat) :
    Pull τ × SourceScanner σ τ κ × σ :=
  let (found, stream) := s.stream.step
  match found with
  | none => (.ended, { s with stream }, state)
  | some (.error e) => (.error e, { s with stream }, state)
  | some (.ok m) =>
    match limit with
    | 0 => (.undecided, { s with stream }, state)
    | limit + 1 =>
      let (verdict, buffer) := (react s.rules state m).run (SourceBuffer.mk stream.source)
      let s := { s with stream := { stream with source := buffer.source } }
      match verdict.token with
      | .ok none => next s verdict.state limit
      | .ok (some t) => (.token t, s, verdict.state)
      | .error message => (.error (.action message), s, verdict.state)

/-- Move the cursor forward by at most `n` bytes. -/
def skip (s : SourceScanner σ τ κ) (n : Nat) : SourceScanner σ τ κ :=
  { s with stream := s.stream.skip n }

end SourceScanner

end Lexer

end Munch

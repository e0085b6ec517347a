import Munch.Lexer.Scanner

set_option autoImplicit false

/-! # Pulls in turns

A pull goes on in turns: each makes a step of the scan, and runs the action for the match that the
step found. What a scanner does is known from its turns, for a text and for a source alike
(`Lexer.TokenScanner`). What holds of a scanner and is kept by every turn is kept by every pull
(`Lexer.TokenScanner.Invariant.next`), and scanners with the same turns show the same to whoever
pulls tokens and skips bytes (`Lexer.TokenScanner.Agree.session_eq`). An action sees its match and
what the buffer answers (`Call`), and nothing else of the input. -/

namespace Munch

/-! ## What actions see -/

/-- What a buffer answers. -/
inductive Answer where
  | byte (tc : Nat) (answer : Option UInt8)
  | bytes (tc : Nat) (answer : Bytes)
  | cursor (tc : Nat)
deriving DecidableEq, Repr

/-- A call of an action: the match that it is given, and what it is answered. -/
structure Call where
  found : Match
  answers : List Answer
deriving DecidableEq, Repr

/-- What a buffer answers to a reaction. -/
def Reaction.answers {β ρ : Type} [Buffer β] : Reaction ρ → β → List Answer
  | .done _, _ => []
  | .byte tc next, b =>
    .byte tc (Buffer.byte b tc).1 :: (next (Buffer.byte b tc).1).answers (Buffer.byte b tc).2
  | .bytes tc more next, b =>
    .bytes tc (Buffer.bytes b tc more).1 :: (next (Buffer.bytes b tc more).1).answers
      (Buffer.bytes b tc more).2
  | .cursor next, b => .cursor (Buffer.cursor b) :: (next (Buffer.cursor b)).answers b
  | .moveTo tc next, b => next.answers (Buffer.moveTo b tc)

/-! ## Turns -/

namespace Lexer

/-- What a turn of a pull comes to. -/
inductive Turn (χ σ τ : Type) where
  /-- No match was found, and the pull stops. -/
  | stopped (pull : Pull τ) (s : χ)
  /-- A match was found, and its action was run. Before that, the scanner was `waiting`. -/
  | acted (call : Call) (waiting : χ) (verdict : Verdict σ τ) (s : χ)

/-- A scanner from which tokens are pulled, in turns. -/
class TokenScanner (χ : Type) (σ τ : outParam Type) where
  next : χ → σ → Nat → Pull τ × χ × σ
  skip : χ → Nat → χ
  turn : χ → σ → Turn χ σ τ
  next_eq : ∀ s state limit, next s state limit =
    match turn s state, limit with
    | .stopped pull s, _ => (pull, s, state)
    | .acted _ waiting _ _, 0 => (.undecided, waiting, state)
    | .acted _ _ verdict s, limit + 1 =>
      match verdict.token with
      | .ok none => next s verdict.state limit
      | .ok (some t) => (.token t, s, verdict.state)
      | .error message => (.error (.action message), s, verdict.state)

namespace TokenScanner

variable {χ σ τ : Type} [TokenScanner χ σ τ]

/-- The calls of actions during a pull. -/
def calls (s : χ) (state : σ) : Nat → List Call
  | 0 => []
  | limit + 1 =>
    match turn s state with
    | .stopped _ _ => []
    | .acted call _ verdict s =>
      call :: match verdict.token with
        | .ok none => calls s verdict.state limit
        | _ => []

/-- A property of scanners is kept by every turn, and the matches that are found have a property. -/
def Invariant (P : χ → Prop) (Q : Match → Prop) : Prop :=
  ∀ (s : χ) (state : σ), P s →
    match turn s state with
    | .stopped _ s' => P s'
    | .acted call waiting _ s' => Q call.found ∧ P waiting ∧ P s'

/-- What is kept by every turn is kept by every pull. -/
theorem Invariant.next {P : χ → Prop} {Q : Match → Prop} (hinv : Invariant P Q) {s : χ}
    (h : P s) (state : σ) (limit : Nat) :
    P (next s state limit).2.1 ∧ ∀ call ∈ calls s state limit, Q call.found := by
  induction limit generalizing s state with
  | zero =>
    have hturn := hinv s state h
    refine ⟨?_, fun call hcall => absurd hcall List.not_mem_nil⟩
    rw [next_eq]
    generalize turn s state = a at hturn
    cases a with
    | stopped pull s' => exact hturn
    | acted call waiting verdict s' => exact hturn.2.1
  | succ limit ih =>
    have hturn := hinv s state h
    rw [next_eq, calls]
    generalize turn s state = a at hturn
    cases a with
    | stopped pull s' => exact ⟨hturn, fun call hcall => absurd hcall List.not_mem_nil⟩
    | acted call waiting verdict s' =>
      obtain ⟨hfound, _, hs'⟩ := hturn
      obtain ⟨hnext, hcalls⟩ := ih hs' verdict.state
      simp only [List.forall_mem_cons]
      rcases verdict.token with message | _ | t
      · exact ⟨hs', hfound, fun call hcall => absurd hcall List.not_mem_nil⟩
      · exact ⟨hnext, hfound, hcalls⟩
      · exact ⟨hs', hfound, fun call hcall => absurd hcall List.not_mem_nil⟩

/-! ## Scanners that agree -/

variable {χ' : Type} [TokenScanner χ' σ τ] {R : χ → χ' → Prop} {rank : χ → Nat} {s : χ} {s' : χ'}
  {limit : Nat}

/-- Two turns are the same for whoever pulls, and lead to related scanners, the first of a rank
below `n` if the pull goes on. -/
inductive SameTurn (R : χ → χ' → Prop) (rank : χ → Nat) (n : Nat) : Turn χ σ τ → Turn χ' σ τ → Prop
  | stopped {pull : Pull τ} {s : χ} {s' : χ'} (hpull : pull ≠ .undecided) (h : R s s') :
      SameTurn R rank n (.stopped pull s) (.stopped pull s')
  | acted {call : Call} {verdict : Verdict σ τ} {waiting s : χ}
      {waiting' s' : χ'} (hlt : rank s < n) (h : R s s') :
      SameTurn R rank n (.acted call waiting verdict s) (.acted call waiting' verdict s')

/-- Related scanners have the same turns, and stay related. The rank of the first one falls as long
as turns find matches. -/
def Agree (R : χ → χ' → Prop) (rank : χ → Nat) : Prop :=
  ∀ (s : χ) (s' : χ') (state : σ), R s s' → SameTurn R rank (rank s) (turn s state) (turn s' state)

/-- What a pull shows: what it comes to, the calls of actions, and the state that those left. -/
structure Shown (σ τ : Type) where
  pull : Pull τ
  calls : List Call
  state : σ

/-- What a pull shows that runs at most `limit` actions. -/
def shown (s : χ) (state : σ) (limit : Nat) : Shown σ τ :=
  ⟨(next s state limit).1, calls s state limit, (next s state limit).2.2⟩

/-- Pulls of related scanners that are followed far enough show the same, and come to an end. -/
theorem Agree.shown_eq (hagree : Agree R rank) (h : R s s') (state : σ) (hrank : rank s ≤ limit) :
    shown s' state limit = shown s state limit ∧ (shown s state limit).pull ≠ .undecided ∧
      R (next s state limit).2.1 (next s' state limit).2.1 := by
  induction limit generalizing s s' state with
  | zero =>
    have hturn := hagree s s' state h
    rw [shown, shown, calls, calls, next_eq s, next_eq s']
    generalize turn s state = a, turn s' state = a' at hturn
    cases hturn with
    | stopped hpull h => exact ⟨rfl, hpull, h⟩
    | acted hlt => exact absurd (Nat.lt_of_lt_of_le hlt hrank) (Nat.not_lt_zero _)
  | succ limit ih =>
    have hturn := hagree s s' state h
    rw [shown, shown, calls, calls, next_eq s, next_eq s']
    generalize turn s state = a, turn s' state = a' at hturn
    cases hturn with
    | stopped hpull h => exact ⟨rfl, hpull, h⟩
    | @acted call verdict _ t _ t' hlt h =>
      obtain ⟨hshown, hpull, hnext⟩ :=
        ih h verdict.state (Nat.le_of_lt_succ (Nat.lt_of_lt_of_le hlt hrank))
      obtain ⟨hsame, hcalls, hstate⟩ := Shown.mk.inj hshown
      rcases htoken : verdict.token with message | _ | token <;> simp only [htoken]
      · exact ⟨trivial, by simp, h⟩
      · simp only [hsame, hcalls, hstate, true_and]
        exact ⟨hpull, hnext⟩
      · exact ⟨trivial, by simp, h⟩

/-- What a scanner is asked for: a token, or to skip some bytes. -/
inductive Request where
  | next
  | skip (n : Nat)
deriving DecidableEq, Repr

/-- What the pulls of a scanner show, one after the other. -/
def session (limit : Nat) (s : χ) (state : σ) : List Request → List (Shown σ τ)
  | [] => []
  | .next :: rest =>
    shown s state limit :: session limit (TokenScanner.next s state limit).2.1
      (shown s state limit).state rest
  | .skip n :: rest => session limit (skip s n) state rest

/-- Scanners that are related, whatever is skipped, show the same all the time. -/
theorem Agree.session_eq (hagree : Agree R rank)
    (hskip : ∀ s s' n, R s s' → R (skip s n) (skip s' n)) (hrank : ∀ s s', R s s' → rank s ≤ limit)
    (h : R s s') (state : σ) (requests : List Request) :
    session limit s' state requests = session limit s state requests ∧
      ∀ x ∈ session limit s state requests, x.pull ≠ .undecided := by
  induction requests generalizing s s' state with
  | nil => exact ⟨rfl, fun x hx => absurd hx List.not_mem_nil⟩
  | cons request rest ih =>
    cases request with
    | skip n => exact ih (hskip s s' n h) state
    | next =>
      obtain ⟨hshown, hpull, hnext⟩ := hagree.shown_eq h state (hrank s s' h)
      obtain ⟨hrest, hpulls⟩ := ih hnext (shown s state limit).state
      rw [session, session, hshown, hrest]
      exact ⟨rfl, List.forall_mem_cons.mpr ⟨hpull, hpulls⟩⟩

end TokenScanner

/-! ## Scanners of texts and of sources -/

variable {σ τ κ : Type}

/-- A turn of a scanner of a text. -/
def TextScanner.turn (s : TextScanner σ τ) (state : σ) : Turn (TextScanner σ τ) σ τ :=
  let (found, scanner) := s.scanner.step s.tc
  match found with
  | none => .stopped .ended { s with scanner }
  | some (.error u) => .stopped (.error (.unconsumed u)) { s with scanner }
  | some (.ok m) =>
    let buffer := TextBuffer.mk scanner.text m.stop
    let (verdict, after) := (react s.rules state m).run buffer
    .acted ⟨m, (react s.rules state m).answers buffer⟩ { s with scanner } verdict
      { s with scanner, tc := after.cursor }

instance : TokenScanner (TextScanner σ τ) σ τ where
  next := TextScanner.next
  skip := TextScanner.skip
  turn := TextScanner.turn
  next_eq s state limit := by
    conv => lhs; unfold TextScanner.next
    rw [TextScanner.turn]
    rcases s.scanner.step s.tc with ⟨_ | _ | m, _⟩
    · rfl
    · rfl
    · cases limit <;> rfl

section Text

variable {s : TextScanner σ τ} {state : σ}

theorem TextScanner.turn_of_none (h : (s.scanner.step s.tc).1 = none) :
    TokenScanner.turn s state = .stopped .ended { s with scanner := (s.scanner.step s.tc).2 } := by
  show s.turn state = _
  rw [turn]
  simp only [h]

theorem TextScanner.turn_of_error {u : Unconsumed} (h : (s.scanner.step s.tc).1 = some (.error u)) :
    TokenScanner.turn s state =
      .stopped (.error (.unconsumed u)) { s with scanner := (s.scanner.step s.tc).2 } := by
  show s.turn state = _
  rw [turn]
  simp only [h]

/-- Once a match was found, its action is run on the text, with the cursor at the end of the
    match. -/
theorem TextScanner.turn_of_ok {m : Match} (h : (s.scanner.step s.tc).1 = some (.ok m)) :
    let scanner := (s.scanner.step s.tc).2
    let buffer := TextBuffer.mk scanner.text m.stop
    let out := (react s.rules state m).run buffer
    TokenScanner.turn s state =
      .acted ⟨m, (react s.rules state m).answers buffer⟩ { s with scanner } out.1
      { s with scanner, tc := out.2.cursor } := by
  show s.turn state = _
  rw [turn]
  simp only [h]

end Text

/-- A turn of a scanner of a source. -/
def SourceScanner.turn [ByteSource κ] (s : SourceScanner σ τ κ) (state : σ) :
    Turn (SourceScanner σ τ κ) σ τ :=
  let (found, stream) := s.stream.step
  match found with
  | none => .stopped .ended { s with stream }
  | some (.error e) => .stopped (.error e) { s with stream }
  | some (.ok m) =>
    let buffer := SourceBuffer.mk stream.source
    let (verdict, after) := (react s.rules state m).run buffer
    .acted ⟨m, (react s.rules state m).answers buffer⟩ { s with stream } verdict
      { s with stream := { stream with source := after.source } }

instance [ByteSource κ] : TokenScanner (SourceScanner σ τ κ) σ τ where
  next := SourceScanner.next
  skip := SourceScanner.skip
  turn := SourceScanner.turn
  next_eq s state limit := by
    conv => lhs; unfold SourceScanner.next
    rw [SourceScanner.turn]
    rcases s.stream.step with ⟨_ | _ | m, _⟩
    · rfl
    · rfl
    · cases limit <;> rfl

section Source

variable [ByteSource κ] {s : SourceScanner σ τ κ} {state : σ}

theorem SourceScanner.turn_of_none (h : s.stream.step.1 = none) :
    TokenScanner.turn s state = .stopped .ended { s with stream := s.stream.step.2 } := by
  show s.turn state = _
  rw [turn]
  simp only [h]

theorem SourceScanner.turn_of_error {e : ScanError} (h : s.stream.step.1 = some (.error e)) :
    TokenScanner.turn s state = .stopped (.error e) { s with stream := s.stream.step.2 } := by
  show s.turn state = _
  rw [turn]
  simp only [h]

/-- Once a match was found, its action is run on the source, which was moved to the end of the
    match. -/
theorem SourceScanner.turn_of_ok {m : Match} (h : s.stream.step.1 = some (.ok m)) :
    let stream := s.stream.step.2
    let buffer := SourceBuffer.mk stream.source
    let out := (react s.rules state m).run buffer
    TokenScanner.turn s state =
      .acted ⟨m, (react s.rules state m).answers buffer⟩ { s with stream } out.1
      { s with stream := { stream with source := out.2.source } } := by
  show s.turn state = _
  rw [turn]
  simp only [h]

end Source

end Lexer

end Munch

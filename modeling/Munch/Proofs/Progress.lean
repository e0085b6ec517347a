import Munch.Proofs.Located
import Munch.Proofs.Recovery

set_option autoImplicit false

/-! # Scanning forward makes progress

A pull need not come to an end if actions move the cursor back. If no action leaves the cursor
before the end of its match (`Action.Onward`), every turn that finds a match gets further in the
text: matches are not empty, and the scan goes on from where the action left the cursor, be it that
the action made a token, no token, or failed. So a pull returns after at most one more step of the
engine than there are bytes from the cursor on (`Lexer.Advances`).

All that a pull does is told by one relation (`Lexer.Pulls`), from which its properties follow by
induction. What the actions were handed over a whole run of pulls, skips and moves forward is a list
of matches between the start of the text and the cursor, one after the other (`Lexer.Between`,
`Lexer.Passes.between`). All of this holds of any automaton, since it only depends on what engines
find to lie within the text. -/

namespace Munch

variable {σ τ : Type} {text : Bytes} {tc : Nat}

/-- An action leaves the cursor at or after the end of its match, for whatever match in a text it is
    run, and in whatever state. In the meantime it may move the cursor anywhere. -/
def Action.Onward (text : Bytes) (action : Action σ τ) : Prop :=
  ∀ (state : σ) (m : Match), m.stop ≤ text.length → m.bytes = text.slice m.tc m.stop →
    m.stop ≤ ((action state m).run (TextBuffer.mk text m.stop)).2.cursor

/-! ## The engine of a lexer -/

theorem LexerEngine.within_find (e : LexerEngine) (htc : tc ≤ text.length) :
    (Engine.find e text tc).1.Within text tc := by
  cases e with
  | threads s => exact Simulation.within_run s.program s.threads htc
  | table t => exact t.within_find htc

/-- The engine of a lexer finds the same whatever it was asked for before. -/
theorem Automaton.steady_engine (a : Automaton) : Engine.Steady a.engine := by
  cases a with
  | program p =>
    obtain ⟨P, hP, hsteady⟩ := Simulator.steady p
    refine ⟨fun e => ∃ s, e = .threads s ∧ P s, ⟨_, rfl, hP⟩, ?_⟩
    rintro _ ⟨s, rfl, hs⟩ text tc
    obtain ⟨hfind, hkept⟩ := hsteady s hs text tc
    exact ⟨hfind, _, rfl, hkept⟩
  | table t =>
    refine ⟨(· = .table t), rfl, ?_⟩
    rintro _ rfl text tc
    exact ⟨rfl, rfl⟩

namespace Lexer

open TokenScanner

/-! ## Pulls that are followed far enough -/

/-- Following a pull further does not change what it comes to. -/
theorem TokenScanner.next_eq_of_le {χ : Type} [TokenScanner χ σ τ] {limit : Nat} {s : χ} {state : σ}
    (h : (next s state limit).1 ≠ .undecided) {limit' : Nat} (hle : limit ≤ limit') :
    next s state limit' = next s state limit := by
  induction limit generalizing s state limit' with
  | zero =>
    rw [next_eq] at h
    rw [next_eq, next_eq s state 0]
    cases hturn : turn s state with
    | stopped pull s' => rfl
    | acted call waiting verdict s' =>
      rw [hturn] at h
      exact absurd rfl h
  | succ limit ih =>
    obtain ⟨limit', rfl⟩ := Nat.exists_eq_add_of_le' (Nat.le_trans (Nat.le_add_left 1 limit) hle)
    rw [next_eq] at h
    rw [next_eq, next_eq s state (limit + 1)]
    cases hturn : turn s state with
    | stopped pull s' => rfl
    | acted call waiting verdict s' =>
      rw [hturn] at h
      rcases htoken : verdict.token with message | _ | t
      · simp only [htoken]
      · simp only [htoken] at h ⊢
        exact ih h (Nat.le_of_succ_le_succ hle)
      · simp only [htoken]

/-! ## What is handed to actions -/

/-- A match that was handed to its action: the state before, what the action came to, and where it
    left the cursor. -/
structure Handling (σ τ : Type) where
  state : σ
  found : Match
  verdict : Verdict σ τ
  cursor : Nat

/-- The action of the pattern of a match was run on the text, with the cursor at the end of the
    match. The match is not empty, its bytes are those of the text, and the cursor was not left
    before its end. -/
structure Handling.IsRun (rules : List (Rule σ τ)) (text : Bytes) (h : Handling σ τ) : Prop where
  bytes_ne_nil : h.found.bytes ≠ []
  bytes_eq : h.found.bytes = text.slice h.found.tc h.found.stop
  stop_le : h.found.stop ≤ text.length
  verdict_eq : ((react rules h.state h.found).run (TextBuffer.mk text h.found.stop)).1 = h.verdict
  cursor_eq : ((react rules h.state h.found).run (TextBuffer.mk text h.found.stop)).2.cursor =
    h.cursor
  stop_le_cursor : h.found.stop ≤ h.cursor

theorem Handling.IsRun.tc_lt_stop {rules : List (Rule σ τ)} {h : Handling σ τ}
    (hrun : h.IsRun rules text) : h.found.tc < h.found.stop :=
  Nat.lt_add_of_pos_right (List.length_pos_iff.mpr hrun.bytes_ne_nil)

/-- Fewer bytes are left after it than there were before. -/
theorem Handling.IsRun.left_lt {rules : List (Rule σ τ)} {h : Handling σ τ}
    (hrun : h.IsRun rules text) : text.length - h.cursor < text.length - h.found.tc := by
  have hlt := hrun.tc_lt_stop
  have hstop := hrun.stop_le
  have hcursor := hrun.stop_le_cursor
  omega

/-- Where the cursor is after some matches were handed to actions. -/
def cursorAfter (tc : Nat) : List (Handling σ τ) → Nat
  | [] => tc
  | h :: rest => cursorAfter h.cursor rest

namespace TextScanner

/-- What is handed to actions during a pull. -/
def handlings (s : TextScanner σ τ) (state : σ) : Nat → List (Handling σ τ)
  | 0 => []
  | limit + 1 =>
    match TokenScanner.turn s state with
    | .stopped _ _ => []
    | .acted call _ verdict s' =>
      ⟨state, call.found, verdict, s'.tc⟩ :: match verdict.token with
        | .ok none => handlings s' verdict.state limit
        | _ => []

/-- The cursors at which the engine is stepped during a pull. -/
def cursors (s : TextScanner σ τ) (state : σ) : Nat → List Nat
  | 0 => [s.tc]
  | limit + 1 =>
    s.tc :: match TokenScanner.turn s state with
      | .stopped _ _ => []
      | .acted _ _ verdict s' =>
        match verdict.token with
        | .ok none => cursors s' verdict.state limit
        | _ => []

end TextScanner

/-! ## Matches one after the other -/

/-- Matches that were handed to actions lie between two offsets of a text, one after the other. -/
structure Between (rules : List (Rule σ τ)) (text : Bytes) (lo hi : Nat)
    (hs : List (Handling σ τ)) : Prop where
  le : lo ≤ hi
  isRun : ∀ h ∈ hs, h.IsRun rules text
  bounds : ∀ h ∈ hs, lo ≤ h.found.tc ∧ h.found.stop ≤ hi
  pairwise : hs.Pairwise fun h h' => h.found.stop ≤ h'.found.tc

section Between

variable {rules : List (Rule σ τ)} {lo mid hi : Nat} {hs hs' : List (Handling σ τ)}

theorem Between.nil (h : lo ≤ hi) : Between rules text lo hi [] := ⟨h, nofun, nofun, .nil⟩

theorem Between.singleton {h : Handling σ τ} (hrun : h.IsRun rules text) (hlo : lo ≤ h.found.tc)
    (hhi : h.found.stop ≤ hi) : Between rules text lo hi [h] :=
  ⟨hlo.trans (hrun.tc_lt_stop.le.trans hhi), List.forall_mem_singleton.mpr hrun,
    List.forall_mem_singleton.mpr ⟨hlo, hhi⟩, List.pairwise_singleton _ _⟩

/-- Matches up to an offset and matches from there on. -/
theorem Between.append (h : Between rules text lo mid hs) (h' : Between rules text mid hi hs') :
    Between rules text lo hi (hs ++ hs') where
  le := h.le.trans h'.le
  isRun := List.forall_mem_append.mpr ⟨h.isRun, h'.isRun⟩
  bounds := List.forall_mem_append.mpr
    ⟨fun x hx => ⟨(h.bounds x hx).1, (h.bounds x hx).2.trans h'.le⟩,
      fun x hx => ⟨h.le.trans (h'.bounds x hx).1, (h'.bounds x hx).2⟩⟩
  pairwise := List.pairwise_append.mpr
    ⟨h.pairwise, h'.pairwise, fun x hx y hy => (h.bounds x hx).2.trans (h'.bounds y hy).1⟩

theorem Between.mono (h : Between rules text lo mid hs) (hle : mid ≤ hi) :
    Between rules text lo hi hs :=
  List.append_nil hs ▸ h.append (.nil hle)

end Between

/-! ## Turns -/

/-- The scanner after a step of its scan, with the cursor where it was. -/
def TextScanner.stepped (s : TextScanner σ τ) : TextScanner σ τ :=
  { s with scanner := (s.scanner.step s.tc).2 }

/-- A scanner of a text with some rules whose scan goes on with engines of a property, or has
    finished. -/
structure Scans (P : LexerEngine → Prop) (rules : List (Rule σ τ)) (text : Bytes)
    (s : TextScanner σ τ) : Prop where
  rules_eq : s.rules = rules
  scan : s.scanner.GoesOn P text ∨ s.scanner.finished = true

/-- What a turn can be. Where nothing more is found, or nothing matches, the cursor stays. A match
    starts at the cursor, and the scanner goes on from where its action left the cursor. -/
inductive TurnFrom (P : LexerEngine → Prop) (found : Nat → Finding)
    (rules : List (Rule σ τ)) (text : Bytes)
    (s : TextScanner σ τ) (state : σ) : Turn (TextScanner σ τ) σ τ → Prop
  | ended (hfinished : s.stepped.scanner.finished = true) :
    TurnFrom P found rules text s state (.stopped .ended s.stepped)
  | failed {u : Unconsumed} (hgoes : s.stepped.scanner.GoesOn P text) (htc : s.tc < text.length)
    (hu : Scanner.report text s.tc (found s.tc) = .error u) :
    TurnFrom P found rules text s state (.stopped (.error (.unconsumed u)) s.stepped)
  | acted {call : Call} {verdict : Verdict σ τ} {cursor : Nat}
    (hgoes : s.stepped.scanner.GoesOn P text) (htc : call.found.tc = s.tc)
    (hrun : Handling.IsRun rules text ⟨state, call.found, verdict, cursor⟩) :
    TurnFrom P found rules text s state
    (.acted call s.stepped verdict { s.stepped with tc := cursor })

/-- What a pull can be that runs at most so many actions, what it hands to them, and the cursors at
    which it steps the engine. The scan goes on after every match and after an error. -/
inductive Pulls (P : LexerEngine → Prop) (found : Nat → Finding)
    (rules : List (Rule σ τ)) (text : Bytes) :
    TextScanner σ τ → σ → Nat → Pull τ × TextScanner σ τ × σ → List (Handling σ τ) → List Nat → Prop
  | ended {s : TextScanner σ τ} {state : σ} {limit : Nat}
    (hfinished : s.stepped.scanner.finished = true) :
    Pulls P found rules text s state limit (.ended, s.stepped, state) [] [s.tc]
  | failed {s : TextScanner σ τ} {state : σ} {limit : Nat} {u : Unconsumed}
    (hgoes : s.stepped.scanner.GoesOn P text) (htc : s.tc < text.length)
    (hu : Scanner.report text s.tc (found s.tc) = .error u) :
    Pulls P found rules text s state limit (.error (.unconsumed u), s.stepped, state) [] [s.tc]
  | waits {s : TextScanner σ τ} {state : σ} (hgoes : s.stepped.scanner.GoesOn P text)
    (htc : s.tc < text.length) :
    Pulls P found rules text s state 0 (.undecided, s.stepped, state) [] [s.tc]
  | skipped {s : TextScanner σ τ} {h : Handling σ τ} {limit : Nat}
    {out : Pull τ × TextScanner σ τ × σ} {hs : List (Handling σ τ)} {cursors : List Nat}
    (hrun : h.IsRun rules text) (htc : h.found.tc = s.tc)
    (hnext : Pulls P found rules text { s.stepped with tc := h.cursor } h.verdict.state
      limit out hs cursors) :
    Pulls P found rules text s h.state (limit + 1) out (h :: hs) (s.tc :: cursors)
  | token {s : TextScanner σ τ} {h : Handling σ τ} {limit : Nat} {t : τ} (hrun : h.IsRun rules text)
    (htc : h.found.tc = s.tc) (hgoes : s.stepped.scanner.GoesOn P text) :
    Pulls P found rules text s h.state (limit + 1)
      (.token t, { s.stepped with tc := h.cursor }, h.verdict.state) [h] [s.tc]
  | actionFailed {s : TextScanner σ τ} {h : Handling σ τ} {limit : Nat} {message : String}
    (hrun : h.IsRun rules text) (htc : h.found.tc = s.tc) (hgoes : s.stepped.scanner.GoesOn P text)
    (htoken : h.verdict.token = .error message) :
    Pulls P found rules text s h.state (limit + 1)
      (.error (.action message), { s.stepped with tc := h.cursor }, h.verdict.state) [h] [s.tc]

section

variable {P : LexerEngine → Prop} {found : Nat → Finding} {rules : List (Rule σ τ)}
  {s : TextScanner σ τ} {state : σ} {limit : Nat}

theorem onward_react (hactions : ∀ rule ∈ rules, rule.action.Onward text) (state : σ) {m : Match}
    (hstop : m.stop ≤ text.length) (hbytes : m.bytes = text.slice m.tc m.stop) :
    m.stop ≤ ((react rules state m).run (TextBuffer.mk text m.stop)).2.cursor := by
  unfold react
  split
  · next rule hrule => exact hactions rule (List.mem_of_getElem? hrule) state m hstop hbytes
  · exact Nat.le_refl _

/-- A step of a scan that has finished, or is at the end of the text, finishes it. -/
theorem Scans.finished_step (h : Scans P rules text s)
    (hend : s.scanner.GoesOn P text → text.length ≤ s.tc) :
    (s.scanner.step s.tc).1 = none ∧ s.stepped.scanner.finished = true := by
  rcases h.scan with hgoes | hfinished
  · refine s.scanner.finished_step ?_
    rw [hgoes.text_eq]
    exact hend hgoes
  · rw [TextScanner.stepped, Scanner.step_of_finished hfinished]
    exact ⟨rfl, hfinished⟩

/-- Running the action for a match that is reported of something within the text. -/
theorem isRun_of_report {found : Finding} (hfound : found.Within text tc)
    (hactions : ∀ rule ∈ rules, rule.action.Onward text) (state : σ) {m : Match}
    (hm : Scanner.report text tc found = .ok m) :
    let out := (react rules state m).run (TextBuffer.mk text m.stop)
    m.tc = tc ∧ Handling.IsRun rules text ⟨state, m, out.1, out.2.cursor⟩ := by
  obtain ⟨rfl, hlt, hstop, hbytes⟩ := hfound.of_report_eq_ok hm
  have hpos : 0 < m.bytes.length := Nat.pos_of_lt_add_right hlt
  exact ⟨rfl, List.length_pos_iff.mp hpos, hbytes, hstop, rfl, rfl,
    onward_react hactions state hstop hbytes⟩

variable (hfind : ∀ e, P e → ∀ tc, (Engine.find e text tc).1 = found tc ∧
    P (Engine.find e text tc).2)

include hfind

/-- Where nothing matches, a turn tells so, whatever was done before. -/
theorem turn_of_report_eq_error (hgoes : s.scanner.GoesOn P text)
    (htc : s.tc < text.length) {u : Unconsumed}
    (hu : Scanner.report text s.tc (found s.tc) = .error u) :
    turn s state = .stopped (.error (.unconsumed u)) s.stepped :=
  TextScanner.turn_of_error (by rw [(hgoes.step hfind htc).1, hu])

variable (hwithin : ∀ tc < text.length, (found tc).Within text tc)
  (hactions : ∀ rule ∈ rules, rule.action.Onward text)

include hwithin hactions

theorem Scans.turnFrom (h : Scans P rules text s) (state : σ) :
    TurnFrom P found rules text s state (turn s state) := by
  obtain rfl := h.rules_eq
  by_cases hgoes : s.scanner.GoesOn P text ∧ s.tc < text.length
  · obtain ⟨hgoes, htc⟩ := hgoes
    obtain ⟨hstep, hgoes'⟩ := hgoes.step hfind htc
    cases hreport : Scanner.report text s.tc (found s.tc) with
    | error u =>
      rw [turn_of_report_eq_error hfind hgoes htc hreport]
      exact .failed hgoes' htc hreport
    | ok m =>
      obtain ⟨hmtc, hrun⟩ := isRun_of_report (hwithin s.tc htc) hactions state hreport
      rw [hreport] at hstep
      rw [TextScanner.turn_of_ok hstep]
      simp only [hgoes'.text_eq]
      exact .acted hgoes' hmtc hrun
  · obtain ⟨hnone, hfinished⟩ :=
      h.finished_step fun hgoes' => Nat.le_of_not_lt fun htc => hgoes ⟨hgoes', htc⟩
    rw [TextScanner.turn_of_none hnone]
    exact .ended hfinished

/-! ## Pulls -/

theorem Scans.pulls (h : Scans P rules text s) (state : σ) (limit : Nat) :
    Pulls P found rules text s state limit (next s state limit) (s.handlings state limit)
    (s.cursors state limit) := by
  induction limit generalizing s state with
  | zero =>
    have hturn := h.turnFrom hfind hwithin hactions state
    rw [next_eq, TextScanner.handlings, TextScanner.cursors]
    generalize turn s state = a at hturn
    cases hturn with
    | ended hfinished => exact .ended hfinished
    | failed hgoes htc hu => exact .failed hgoes htc hu
    | acted hgoes htc hrun =>
      exact .waits hgoes (htc ▸ Nat.lt_of_lt_of_le hrun.tc_lt_stop hrun.stop_le)
  | succ limit ih =>
    have hturn := h.turnFrom hfind hwithin hactions state
    rw [next_eq, TextScanner.handlings, TextScanner.cursors]
    generalize turn s state = a at hturn
    cases hturn with
    | ended hfinished => exact .ended hfinished
    | failed hgoes htc hu => exact .failed hgoes htc hu
    | @acted call verdict cursor hgoes htc hrun =>
      rcases htoken : verdict.token with message | _ | t
      · simp only [htoken]
        exact .actionFailed hrun htc hgoes htoken
      -- There is no token, so the scanner goes on behind the action, with one turn less.
      · simp only [htoken]
        have hs' : Scans P rules text { s.stepped with tc := cursor } := ⟨h.rules_eq, .inl hgoes⟩
        exact .skipped hrun htc (ih hs' verdict.state)
      · simp only [htoken]
        exact .token hrun htc hgoes

end

namespace Pulls

variable {P : LexerEngine → Prop} {found : Nat → Finding} {rules : List (Rule σ τ)}
  {s : TextScanner σ τ} {state : σ} {limit : Nat} {out : Pull τ × TextScanner σ τ × σ}
    {hs : List (Handling σ τ)} {cursors : List Nat}

theorem scans (h : Pulls P found rules text s state limit out hs cursors)
    (hrules : s.rules = rules) : Scans P rules text out.2.1 := by
  induction h with
  | ended hfinished => exact ⟨hrules, .inr hfinished⟩
  | failed hgoes => exact ⟨hrules, .inl hgoes⟩
  | waits hgoes => exact ⟨hrules, .inl hgoes⟩
  | skipped _ _ _ ih => exact ih hrules
  | token _ _ hgoes => exact ⟨hrules, .inl hgoes⟩
  | actionFailed _ _ hgoes => exact ⟨hrules, .inl hgoes⟩

/-- What is handed to actions lies between the cursor before and the cursor after, as far as they
    are in the text. -/
theorem between (h : Pulls P found rules text s state limit out hs cursors) :
    Between rules text (min s.tc text.length) (min out.2.1.tc text.length) hs := by
  have hone : ∀ {tc : Nat} {h : Handling σ τ}, h.IsRun rules text → h.found.tc = tc →
      Between rules text (min tc text.length) (min h.cursor text.length) [h] := fun hrun htc =>
    .singleton hrun (htc ▸ Nat.min_le_left _ _) (Nat.le_min.mpr ⟨hrun.stop_le_cursor, hrun.stop_le⟩)
  induction h with
  | ended => exact .nil (Nat.le_refl _)
  | failed => exact .nil (Nat.le_refl _)
  | waits => exact .nil (Nat.le_refl _)
  | skipped hrun htc _ ih => exact (hone hrun htc).append ih
  | token hrun htc => exact hone hrun htc
  | actionFailed hrun htc => exact hone hrun htc

/-- The engine is stepped at most once more than there are bytes from the cursor on, since every
    match that is passed over takes the cursor at least one byte on. -/
theorem length_cursors_le (h : Pulls P found rules text s state limit out hs cursors) :
    cursors.length ≤ text.length - s.tc + 1 := by
  induction h with
  | skipped hrun htc _ ih => exact Nat.succ_le_succ (ih.trans (htc ▸ hrun.left_lt))
  | _ => exact Nat.le_add_left 1 _

/-- The scan was stepped at these cursors, and not otherwise. -/
theorem scanner_eq (h : Pulls P found rules text s state limit out hs cursors) :
    out.2.1.scanner = s.scanner.steps cursors := by
  induction h with
  | skipped _ _ _ ih => exact ih
  | _ => rfl

/-- The cursor is where the last action left it, or where it was. -/
theorem tc_eq (h : Pulls P found rules text s state limit out hs cursors) :
    out.2.1.tc = cursorAfter s.tc hs := by
  induction h with
  | skipped _ _ _ ih => exact ih
  | _ => rfl

/-- A pull that may run as many actions as there are bytes from the cursor on comes to something. -/
theorem ne_undecided (h : Pulls P found rules text s state limit out hs cursors)
    (hlimit : text.length - s.tc ≤ limit) : out.1 ≠ .undecided := by
  induction h with
  | waits _ htc => exact absurd hlimit (Nat.not_le_of_lt (Nat.sub_pos_of_lt htc))
  | skipped hrun htc _ ih =>
    exact ih (Nat.le_of_lt_succ (Nat.lt_of_lt_of_le (htc ▸ hrun.left_lt) hlimit))
  | _ => exact nofun

/-- The error of an action is that of the last one that was run. -/
theorem of_action (h : Pulls P found rules text s state limit out hs cursors) {message : String}
    (hout : out.1 = .error (.action message)) :
    ∃ before last, hs = before ++ [last] ∧ last.verdict.token = .error message ∧
    out.2.1.tc = last.cursor := by
  induction h with
  | ended => cases hout
  | failed => cases hout
  | waits => cases hout
  | @skipped s h _ _ _ _ _ _ _ ih =>
    obtain ⟨before, last, rfl, hlast⟩ := ih hout
    exact ⟨h :: before, last, rfl, hlast⟩
  | token => cases hout
  | @actionFailed s h _ _ _ _ _ htoken =>
    cases hout
    exact ⟨[], h, rfl, htoken, rfl⟩

/-- Where no pattern matches, the cursor is where the scan failed to find a match. -/
theorem of_unconsumed (h : Pulls P found rules text s state limit out hs cursors) {u : Unconsumed}
    (hout : out.1 = .error (.unconsumed u)) :
    out.2.1.tc < text.length ∧ Scanner.report text out.2.1.tc (found out.2.1.tc) = .error u := by
  induction h with
  | ended => cases hout
  | failed _ htc hu =>
    cases hout
    exact ⟨htc, hu⟩
  | waits => cases hout
  | skipped _ _ _ ih => exact ih hout
  | token => cases hout
  | actionFailed => cases hout

/-- After an error the scan goes on. -/
theorem goesOn_of_error (h : Pulls P found rules text s state limit out hs cursors) {e : ScanError}
    (hout : out.1 = .error e) : out.2.1.scanner.GoesOn P text := by
  induction h with
  | ended => cases hout
  | failed hgoes => exact hgoes
  | waits => cases hout
  | skipped _ _ _ ih => exact ih hout
  | token => cases hout
  | actionFailed _ _ hgoes => exact hgoes

end Pulls

/-! ## After an error -/

/-- Two scanners of a text go on from the same cursor, or have both ended. -/
inductive Alike (P : LexerEngine → Prop) (rules : List (Rule σ τ)) (text : Bytes) :
    TextScanner σ τ → TextScanner σ τ → Prop
  | goesOn {scanner scanner' : Scanner LexerEngine} {tc : Nat} (h : scanner.GoesOn P text)
    (h' : scanner'.GoesOn P text) : Alike P rules text ⟨rules, scanner, tc⟩ ⟨rules, scanner', tc⟩
  | ended {scanner scanner' : Scanner LexerEngine} {tc tc' : Nat} (h : scanner.finished = true)
    (h' : scanner'.finished = true) : Alike P rules text ⟨rules, scanner, tc⟩ ⟨rules, scanner', tc'⟩

section

variable {P : LexerEngine → Prop} {found : Nat → Finding} {rules : List (Rule σ τ)}
  (hfind : ∀ e, P e → ∀ tc, (Engine.find e text tc).1 = found tc ∧ P (Engine.find e text tc).2)
  (hwithin : ∀ tc < text.length, (found tc).Within text tc)
    (hactions : ∀ rule ∈ rules, rule.action.Onward text)

include hfind hwithin hactions

/-- Scanners that go on from the same cursor show the same from then on, whatever was done
    before. -/
theorem agree_alike : Agree (Alike P rules text) fun s => text.length - s.tc := by
  have hended : ∀ {scanner scanner' : Scanner LexerEngine} {tc tc' n : Nat} {state : σ},
      (scanner.step tc).1 = none ∧ (scanner.step tc).2.finished = true →
      (scanner'.step tc').1 = none ∧ (scanner'.step tc').2.finished = true →
      SameTurn (Alike P rules text) (fun s => text.length - s.tc) n
        (turn (TextScanner.mk rules scanner tc) state)
        (turn (TextScanner.mk rules scanner' tc') state) := fun h h' => by
    rw [TextScanner.turn_of_none h.1, TextScanner.turn_of_none h'.1]
    exact .stopped nofun (.ended h.2 h'.2)
  rintro _ _ state (@⟨scanner, scanner', tc, h, h'⟩ | @⟨scanner, scanner', tc, tc', h, h'⟩)
  -- Before the end both find what the text has at the cursor; at the end both are finished.
  · rcases Nat.lt_or_ge tc text.length with htc | htc
    · obtain ⟨hstep, hgoes⟩ := h.step hfind htc
      obtain ⟨hstep', hgoes'⟩ := h'.step hfind htc
      cases hreport : Scanner.report text tc (found tc) with
      | error u =>
        rw [hreport] at hstep hstep'
        rw [TextScanner.turn_of_error hstep, TextScanner.turn_of_error hstep']
        exact .stopped nofun (.goesOn hgoes hgoes')
      | ok m =>
        obtain ⟨hmtc, hrun⟩ := isRun_of_report (hwithin tc htc) hactions state hreport
        rw [hreport] at hstep hstep'
        rw [TextScanner.turn_of_ok hstep, TextScanner.turn_of_ok hstep']
        simp only [hgoes.text_eq, hgoes'.text_eq]
        exact .acted (hmtc ▸ hrun.left_lt) (.goesOn hgoes hgoes')
    · have hlength : scanner.text.length ≤ tc ∧ scanner'.text.length ≤ tc := by
        rw [h.text_eq, h'.text_eq]
        exact ⟨htc, htc⟩
      exact hended (scanner.finished_step hlength.1) (scanner'.finished_step hlength.2)
  · refine hended ?_ ?_
    · rw [Scanner.step_of_finished h]
      exact ⟨rfl, h⟩
    · rw [Scanner.step_of_finished h']
      exact ⟨rfl, h'⟩

end

/-- A pull of a scanner in a state gets on. -/
structure Advances (l : Lexer σ τ) (text : Bytes) (s : TextScanner σ τ) (state : σ) : Prop where
  /-- It returns, and is followed to the end with as many actions as there are bytes from the cursor
  on. -/
  returns : ∃ out : Pull τ × TextScanner σ τ × σ, out.1 ≠ .undecided ∧
    ∀ limit, text.length - s.tc ≤ limit → TokenScanner.next s state limit = out
  /-- It steps the engine at most once more than there are bytes from the cursor on. -/
  length_cursors_le : ∀ limit, (s.cursors state limit).length ≤ text.length - s.tc + 1
  scanner_eq : ∀ limit,
    (TokenScanner.next s state limit).2.1.scanner = s.scanner.steps (s.cursors state limit)
  /-- It leaves the cursor where the last action left it, or where it was. -/
  tc_eq : ∀ limit,
    (TokenScanner.next s state limit).2.1.tc = cursorAfter s.tc (s.handlings state limit)
  /-- If an action fails, it is the last one that was run, and the cursor is where it left it. -/
  of_action : ∀ limit message, (TokenScanner.next s state limit).1 = .error (.action message) →
    ∃ before last, s.handlings state limit = before ++ [last] ∧
      last.verdict.token = .error message ∧ (TokenScanner.next s state limit).2.1.tc = last.cursor
  /-- If no pattern matches, the cursor is where none does, and the next pulls tell the same. -/
  of_unconsumed : ∀ limit u, (TokenScanner.next s state limit).1 = .error (.unconsumed u) →
    (TokenScanner.next s state limit).2.1.tc = u.start ∧
      ∀ state' limit', ∃ s', s'.tc = u.start ∧
        TokenScanner.next (TokenScanner.next s state limit).2.1 state' limit' =
        (.error (.unconsumed u), s', state')
  /-- After an error, whoever goes on is shown what a new scanner of the text shows from the cursor
  on. -/
  resumes : ∀ limit e, (TokenScanner.next s state limit).1 = .error e →
    ∀ fresh, l.scanText text = .ok fresh → ∀ limit', text.length ≤ limit' → ∀ state' requests,
      session limit' (TokenScanner.next s state limit).2.1 state' requests =
        session limit' { fresh with tc := (TokenScanner.next s state limit).2.1.tc } state' requests

/-- The scanners that a lexer is bound to a text with, after any pulls, skips and moves forward, and
    what was handed to actions until then. -/
inductive Passes (l : Lexer σ τ) (text : Bytes) : TextScanner σ τ → List (Handling σ τ) → Prop
  | start {s : TextScanner σ τ} (h : l.scanText text = .ok s) : Passes l text s []
  | next {s : TextScanner σ τ} {hs : List (Handling σ τ)} (h : Passes l text s hs)
    (state : σ) (limit : Nat) :
    Passes l text (TokenScanner.next s state limit).2.1 (hs ++ s.handlings state limit)
  | skip {s : TextScanner σ τ} {hs : List (Handling σ τ)} (h : Passes l text s hs) (n : Nat) :
    Passes l text (s.skip n) hs
  | moveTo {s : TextScanner σ τ} {hs : List (Handling σ τ)} (h : Passes l text s hs)
    {tc : Nat} (hle : s.tc ≤ tc) : Passes l text { s with tc } hs

section

variable {P : LexerEngine → Prop} {found : Nat → Finding} {l : Lexer σ τ} {s : TextScanner σ τ}
  {hs : List (Handling σ τ)} {a : Automaton}
  (hfind : ∀ e, P e → ∀ tc, (Engine.find e text tc).1 = found tc ∧ P (Engine.find e text tc).2)
  (hwithin : ∀ tc < text.length, (found tc).Within text tc)
  (hactions : ∀ rule ∈ l.rules, rule.action.Onward text)
    (ha : l.automaton? = some a) (hP : P a.engine)

theorem scanText_eq (text : Bytes) (ha : l.automaton? = some a) :
    l.scanText text = .ok ⟨l.rules, .start a.engine text, 0⟩ := by
  rw [scanText, ha]

include hfind hwithin hactions ha hP

/-- What was handed to actions lies between the start of the text and the cursor, one after the
    other. -/
theorem Passes.between (hsize : text.length < wordCount) (h : l.Passes text s hs) :
    Scans P l.rules text s ∧ Between l.rules text 0 (min s.tc text.length) hs := by
  induction h with
  | start h =>
    obtain rfl := Except.ok.inj ((scanText_eq text ha).symm.trans h)
    exact ⟨⟨rfl, .inl (Scanner.goesOn_start hP text)⟩, .nil (Nat.zero_le _)⟩
  | next _ state limit ih =>
    obtain ⟨hscans, hbetween⟩ := ih
    have hpulls := hscans.pulls hfind hwithin hactions state limit
    exact ⟨hpulls.scans hscans.rules_eq, hbetween.append hpulls.between⟩
  | @skip s _ _ n ih =>
    obtain ⟨hscans, hbetween⟩ := ih
    refine ⟨⟨hscans.rules_eq, hscans.scan⟩, hbetween.mono ?_⟩
    have hmax : wordCount = maxWord + 1 := rfl
    show min s.tc text.length ≤ min (min (s.tc + n) maxWord) text.length
    omega
  | moveTo _ hle ih =>
    obtain ⟨hscans, hbetween⟩ := ih
    exact ⟨⟨hscans.rules_eq, hscans.scan⟩, hbetween.mono (min_le_min_right _ hle)⟩

/-- Every pull of a scanner of the text gets on. -/
theorem Scans.advances (h : Scans P l.rules text s) (state : σ) : Advances l text s state := by
  have hpulls := h.pulls hfind hwithin hactions state
  constructor
  · refine ⟨next s state (text.length - s.tc), (hpulls _).ne_undecided (Nat.le_refl _),
      fun limit hlimit => ?_⟩
    exact TokenScanner.next_eq_of_le ((hpulls _).ne_undecided (Nat.le_refl _)) hlimit
  · exact fun limit => (hpulls limit).length_cursors_le
  · exact fun limit => (hpulls limit).scanner_eq
  · exact fun limit => (hpulls limit).tc_eq
  · exact fun limit message hout => (hpulls limit).of_action hout
  · intro limit u hout
    obtain ⟨htc, hu⟩ := (hpulls limit).of_unconsumed hout
    have hstart := Scanner.start_of_report_eq_error hu
    refine ⟨hstart.symm, fun state' limit' => ⟨(next s state limit).2.1.stepped, hstart.symm, ?_⟩⟩
    rw [next_eq, turn_of_report_eq_error hfind ((hpulls limit).goesOn_of_error hout) htc hu]
  · intro limit e hout fresh hfresh limit' hlimit' state' requests
    obtain rfl := Except.ok.inj ((scanText_eq text ha).symm.trans hfresh)
    have hrules := ((hpulls limit).scans h.rules_eq).rules_eq
    have hgoes := (hpulls limit).goesOn_of_error hout
    generalize (next s state limit).2.1 = after at hrules hgoes
    obtain ⟨rules, scanner, tc⟩ := after
    obtain rfl := hrules
    have hskip : ∀ s s' n, Alike P l.rules text s s' →
        Alike P l.rules text (skip s n) (skip s' n) := by
      rintro _ _ n (⟨h, h'⟩ | ⟨h, h'⟩)
      · exact .goesOn h h'
      · exact .ended h h'
    have halike : Alike P l.rules text ⟨l.rules, .start a.engine text, tc⟩ ⟨l.rules, scanner, tc⟩ :=
      .goesOn (Scanner.goesOn_start hP text) hgoes
    exact ((agree_alike hfind hwithin hactions).session_eq hskip
      (fun s _ _ => (Nat.sub_le _ s.tc).trans hlimit') halike state' requests).1

end

/-- A lexer that is compiled, to a program or to a table, gets on in a text if its actions never
    leave the cursor before the end of their match. After any pulls, skips and moves forward, each
    next pull gets on (`Advances`). Over all of them, the matches that were handed to actions are
    not empty, and each starts at or after the end of every one before it, and so after its
    start. -/
theorem passes_advance (options : LexerOptions) (operations : List (Operation σ τ))
    (hcompiled : (after options operations).isCompiled = true) {text : Bytes}
    (hsize : text.length < wordCount)
    (hactions : ∀ rule ∈ (after options operations).rules, rule.action.Onward text) :
    let l := after options operations
    (∃ s, l.scanText text = .ok s) ∧ ∀ s handlings, l.Passes text s handlings →
      (∀ h ∈ handlings, h.IsRun l.rules text) ∧
      handlings.Pairwise (fun h h' => h.found.stop ≤ h'.found.tc ∧ h.found.tc < h'.found.tc) ∧
      ∀ state, Advances l text s state := by
  intro l
  obtain ⟨a, ha⟩ : ∃ a, l.automaton? = some a := Option.isSome_iff_exists.mp hcompiled
  obtain ⟨P, hP, hsteady⟩ := a.steady_engine
  have hfind : ∀ e, P e → ∀ tc, (Engine.find e text tc).1 = (Engine.find a.engine text tc).1 ∧
      P (Engine.find e text tc).2 := fun e he tc => hsteady e he text tc
  have hwithin : ∀ tc < text.length, (Engine.find a.engine text tc).1.Within text tc :=
      fun tc htc =>
    LexerEngine.within_find a.engine htc.le
  refine ⟨⟨_, scanText_eq text ha⟩, fun s handlings h => ?_⟩
  obtain ⟨hscans, hbetween⟩ := h.between hfind hwithin hactions ha hP hsize
  refine ⟨hbetween.isRun, ?_, hscans.advances hfind hwithin hactions ha hP⟩
  refine hbetween.pairwise.imp_of_mem fun {h _} hh _ hle => ⟨hle, ?_⟩
  exact Nat.lt_of_lt_of_le (hbetween.isRun h hh).tc_lt_stop hle

/-- An action passes the byte after each `a`, makes no token of the first one, and fails at the
    second. Two pulls go on from where it left the cursor, and a byte is skipped between them. -/
theorem passes_advance_pairs :
    let action : Action Nat Nat := fun count m =>
      .moveTo (m.stop + 1) (.done ⟨count + 1, if count = 0 then .ok none else .error "second"⟩)
    let l := after .standard [.add [97] action, .compile]
    let text : Bytes := [97, 98, 97, 99, 98, 97]
    l.isCompiled = true ∧ text.length < wordCount ∧ (∀ rule ∈ l.rules, rule.action.Onward text) ∧
      ∃ s, l.scanText text = .ok s ∧
        let s' := (TokenScanner.next s 0 6).2.1.skip 1
        Advances l text s 0 ∧ Advances l text s' 2 ∧
        (s.handlings 0 6 ++ s'.handlings 2 6).Pairwise
          fun h h' => h.found.stop ≤ h'.found.tc ∧ h.found.tc < h'.found.tc := by
  intro action l text
  have honward : action.Onward text := fun count m _ _ => Nat.le_succ m.stop
  let before : Lexer Nat Nat := ⟨[⟨[97], action⟩], .standard, none⟩
  obtain ⟨a, ha⟩ := before.exists_perform_compile rfl (List.cons_ne_nil _ _)
    (List.forall_mem_singleton.mpr (Pattern.usable_byte (by decide)))
  have hl : l = { before with automaton? := some a } := ha
  have hcompiled : l.isCompiled = true := by rw [hl]; rfl
  have hactions : ∀ rule ∈ l.rules, rule.action.Onward text := by
    rw [hl]
    exact List.forall_mem_singleton.mpr honward
  have hsize : text.length < wordCount := by decide
  obtain ⟨⟨s, hs⟩, hpasses⟩ :=
    passes_advance .standard [.add [97] action, .compile] hcompiled hsize hactions
  have hstart : l.Passes text s [] := .start hs
  have hskip := (hstart.next 0 6).skip 1
  refine ⟨hcompiled, hsize, hactions, s, hs, (hpasses _ _ hstart).2.2 0,
    (hpasses _ _ hskip).2.2 2, ?_⟩
  exact (hpasses _ _ (hskip.next 2 6)).2.1

end Lexer

end Munch

import Munch.Proofs.Operations

set_option autoImplicit false

/-! # Scanners in step

A scanner of a text and one of a source keep their cursors in different places: the one reads the
cursor off the buffer once the action is done, the other runs the action on the source itself. An
action can tell the two apart only by going back. If it asks for no byte before the cursor, and
moves the cursor only forward and at most to the end (`Action.Forward`), it is answered the same by
both buffers, which end with the same cursor (`Reaction.Forward.run_eq`).

So both scanners have the same turns (`Lexer.agree`), and whoever pulls tokens from them and skips
bytes is shown the same (`Lexer.session_scanSource`). -/

namespace Munch

variable {σ τ κ : Type} [ByteSource κ] {text : Bytes} {failure? : Option String}
  {At : Nat → Bool → κ → Prop} {cursor tc : Nat} {seen : Bool} {source : κ}

/-! ## Buffers -/

/-- Bytes that are asked for one after the other are those of the text, from the same offset on. -/
theorem SourceBuffer.takeFrom_eq (hd : ByteSource.Delivers text failure? At)
    (hsize : text.length < wordCount) (more : Bytes → Bool) (limit lookahead : Nat) (sofar : Bytes)
    (h : At cursor seen source) (hword : cursor + lookahead < wordCount)
    (hlimit : text.length < cursor + lookahead + limit) :
        (takeFrom more limit source lookahead sofar).1 =
          TextBuffer.takeFrom more sofar (text.drop (cursor + lookahead)) ∧
      ∃ seen', At cursor seen' (takeFrom more limit source lookahead sofar).2 := by
  induction limit generalizing source seen lookahead sofar with
  | zero =>
    have hle : text.length ≤ cursor + lookahead := Nat.le_of_lt hlimit
    rw [List.drop_eq_nil_of_le hle]
    exact ⟨rfl, seen, h⟩
  | succ limit ih =>
    obtain ⟨hpeek, hat⟩ := hd.peek h hword
    rw [takeFrom]
    by_cases hmore : more sofar = true
    · rw [if_pos hmore]
      simp only [hpeek]
      rcases Nat.lt_or_ge (cursor + lookahead) text.length with hlt | hge
      · rw [List.getElem?_eq_getElem hlt, List.drop_eq_getElem_cons hlt,
          TextBuffer.takeFrom, if_pos hmore]
        exact ih _ _ hat (by omega) (by omega)
      · rw [List.getElem?_eq_none hge, List.drop_eq_nil_of_le hge]
        exact ⟨rfl, _, hat⟩
    · rw [if_neg hmore]
      refine ⟨?_, seen, h⟩
      cases text.drop (cursor + lookahead) with
      | nil => rfl
      | cons b rest => rw [TextBuffer.takeFrom, if_neg hmore]

/-- At or after its cursor, a source answers what the text does. -/
theorem SourceBuffer.byte_eq (hd : ByteSource.Delivers text failure? At) (h : At cursor seen source)
    (hle : cursor ≤ tc) (hword : tc < wordCount) : ∃ seen' source',
      Buffer.byte (SourceBuffer.mk source) tc = (text[tc]?, SourceBuffer.mk source') ∧
      At cursor seen' source' := by
  have hadd : cursor + (tc - cursor) = tc := Nat.add_sub_cancel' hle
  obtain ⟨hpeek, hat⟩ := hd.peek (k := tc - cursor) h (by rwa [hadd])
  refine ⟨_, _, ?_, hat⟩
  show (if tc < ByteSource.tc source then _ else _) = _
  rw [hd.tc_eq h, if_neg (Nat.not_lt_of_le hle)]
  simp only [hpeek, hadd]

theorem SourceBuffer.bytes_eq (hd : ByteSource.Delivers text failure? At)
    (hsize : text.length < wordCount) (h : At cursor seen source) (hle : cursor ≤ tc)
    (hword : tc < wordCount) (more : Bytes → Bool) :
    ∃ seen' source', Buffer.bytes (SourceBuffer.mk source) tc more =
        (TextBuffer.takeFrom more [] (text.drop tc), SourceBuffer.mk source') ∧
        At cursor seen' source' := by
  have hadd : cursor + (tc - cursor) = tc := Nat.add_sub_cancel' hle
  have hreach := hd.length_le_reach h
  obtain ⟨htake, seen', hat⟩ :=
    takeFrom_eq hd hsize more (ByteSource.reach source + 1) (tc - cursor) [] h (by omega) (by omega)
  refine ⟨seen', _, ?_, hat⟩
  show (if tc < ByteSource.tc source then _ else _) = _
  rw [hd.tc_eq h, if_neg (Nat.not_lt_of_le hle)]
  simp only [htake, hadd]

theorem SourceBuffer.moveTo_eq (hd : ByteSource.Delivers text failure? At)
    (h : At cursor seen source) (hle : cursor ≤ tc) (hlength : tc ≤ text.length) : ∃ seen' source',
      Buffer.moveTo (SourceBuffer.mk source) tc = SourceBuffer.mk source' ∧
      At tc seen' source' := by
  have hat := hd.advance (tc - cursor) h
  rw [Nat.add_sub_cancel' hle, Nat.min_eq_left hlength] at hat
  refine ⟨_, _, ?_, hat⟩
  show (if tc < ByteSource.tc source then _ else _) = _
  rw [hd.tc_eq h, if_neg (Nat.not_lt_of_le hle)]

/-- A reaction asks for no byte of a text before the cursor, and moves the cursor only forward and
at most to the end, if it is answered by the text. -/
def Reaction.Forward {ρ : Type} (text : Bytes) : Reaction ρ → (cursor : Nat) → Prop
  | .done _, _ => True
  | .byte tc next, cursor => cursor ≤ tc ∧ tc < wordCount ∧ (next text[tc]?).Forward text cursor
  | .bytes tc more next, cursor =>
    cursor ≤ tc ∧ tc < wordCount ∧
      (next (TextBuffer.takeFrom more [] (text.drop tc))).Forward text cursor
  | .cursor next, cursor => (next cursor).Forward text cursor
  | .moveTo tc next, cursor => cursor ≤ tc ∧ tc ≤ text.length ∧ next.Forward text tc

/-- A reaction that goes forward comes to the same on a source that delivers the text as on the
text, is answered the same, and leaves the cursor in the same place. -/
theorem Reaction.Forward.run_eq {ρ : Type} (hd : ByteSource.Delivers text failure? At)
    (hsize : text.length < wordCount) {r : Reaction ρ} (hr : r.Forward text cursor)
    (h : At cursor seen source) :
    let b := TextBuffer.mk text cursor
    let b' := SourceBuffer.mk source
    (r.run b').1 = (r.run b).1 ∧ r.answers b' = r.answers b ∧ cursor ≤ (r.run b).2.cursor ∧
      ∃ seen', At (r.run b).2.cursor seen' (r.run b').2.source := by
  induction r generalizing cursor seen source with
  | done result => exact ⟨rfl, rfl, Nat.le_refl _, seen, h⟩
  | byte tc next ih =>
    obtain ⟨hle, hword, hnext⟩ := hr
    obtain ⟨seen', source', hbyte, hat⟩ := SourceBuffer.byte_eq hd h hle hword
    obtain ⟨hresult, hanswers, hrest⟩ := ih _ hnext hat
    simp only [run, answers, hbyte]
    exact ⟨hresult, congrArg _ hanswers, hrest⟩
  | bytes tc more next ih =>
    obtain ⟨hle, hword, hnext⟩ := hr
    obtain ⟨seen', source', hbytes, hat⟩ := SourceBuffer.bytes_eq hd hsize h hle hword more
    obtain ⟨hresult, hanswers, hrest⟩ := ih _ hnext hat
    simp only [run, answers, hbytes]
    exact ⟨hresult, congrArg _ hanswers, hrest⟩
  | cursor next ih =>
    have hcursor : Buffer.cursor (SourceBuffer.mk source) = cursor := hd.tc_eq h
    obtain ⟨hresult, hanswers, hrest⟩ := ih cursor hr h
    simp only [run, answers, hcursor]
    exact ⟨hresult, congrArg _ hanswers, hrest⟩
  | moveTo tc next ih =>
    obtain ⟨hle, hlength, hnext⟩ := hr
    obtain ⟨seen', source', hmove, hat⟩ := SourceBuffer.moveTo_eq hd h hle hlength
    obtain ⟨hresult, hanswers, htc, hrest⟩ := ih hnext hat
    simp only [run, answers, hmove]
    exact ⟨hresult, hanswers, Nat.le_trans hle htc, hrest⟩

/-- An action goes forward, for whatever match in a text it is run, and in whatever state. -/
def Action.Forward (text : Bytes) (action : Action σ τ) : Prop :=
  ∀ (state : σ) (m : Match), m.stop ≤ text.length → m.bytes = text.slice m.tc m.stop →
    (action state m).Forward text m.stop

/-! ## Streams -/

/-- With a table that does not accept the empty text, a stream never ends before its source. -/
theorem Stream.GoesOn.step_of_start {s : Stream κ} {t : Table}
    (hd : ByteSource.Delivers text none At) (hsize : text.length < wordCount) (h : s.GoesOn At t tc)
    (htc : tc < text.length) (hstart : t.accept? t.start = none) :
    match Scanner.report text tc (t.find text tc) with
    | .ok m => s.step.1 = some (.ok m) ∧ s.step.2.GoesOn At t m.stop
    | .error u => s.step.1 = some (.error (.unconsumed u)) ∧ s.step.2.GoesOn At t tc := by
  have hstep := h.step_of_lt hd hsize htc
  rwa [hstart] at hstep

namespace Lexer

open TokenScanner

variable {t : Table} {re : Regex} {patterns : List Bytes} {rules : List (Rule σ τ)}

/-! ## Scanners in step -/

/-- If no pattern has the empty text, the start state of a table of the set does not accept. -/
theorem accept?_start_eq_none (hset : IsSetOf re patterns) (hauto : IsAutomatonOf re (.table t))
    (husable : ∀ s ∈ patterns, Pattern.Usable s) : t.accept? t.start = none := by
  rw [Option.eq_none_iff_forall_ne_some]
  intro k hk
  have hleast : IsLeast {k | re.Accepts k []} k := (hauto.recognizes hset.isPatternSet [] k).mp hk
  obtain ⟨s, hs, hempty⟩ := (hset.accepts_iff k []).mp hleast.1
  exact (husable s (List.mem_of_getElem? hs)).2 hempty

/-- If the actions of all rules go forward, so does the reaction to a match in the text. -/
theorem forward_react (hactions : ∀ rule ∈ rules, rule.action.Forward text) (state : σ) {m : Match}
    (hstop : m.stop ≤ text.length) (hbytes : m.bytes = text.slice m.tc m.stop) :
    (react rules state m).Forward text m.stop := by
  unfold react
  split
  · next rule hrule => exact hactions rule (List.mem_of_getElem? hrule) state m hstop hbytes
  · exact trivial

/-- A scanner of a text and one of a source that delivers it are in step: both go on from the same
cursor, as far as there is one in the text, or both have ended. -/
inductive InStep (At : Nat → Bool → κ → Prop) (t : Table) (text : Bytes) (rules : List (Rule σ τ)) :
    TextScanner σ τ → SourceScanner σ τ κ → Prop
  | goesOn {scanner : Scanner LexerEngine} {stream : Stream κ} {tc : Nat}
      (h : scanner.GoesOn (· = .table t) text) (h' : stream.GoesOn At t (min tc text.length)) :
      InStep At t text rules ⟨rules, scanner, tc⟩ ⟨rules, stream⟩
  | ended {scanner : Scanner LexerEngine} {stream : Stream κ} {tc : Nat}
      (h : scanner.finished = true) (h' : stream.finished = true) :
      InStep At t text rules ⟨rules, scanner, tc⟩ ⟨rules, stream⟩

/-- Skipping bytes keeps scanners in step. A cursor past the end of the text does not matter. -/
theorem InStep.skip (hd : ByteSource.Delivers text none At) (hsize : text.length < wordCount)
    {s : TextScanner σ τ} {s' : SourceScanner σ τ κ} (h : InStep At t text rules s s') (n : Nat) :
    InStep At t text rules (s.skip n) (s'.skip n) := by
  cases h with
  | ended h h' => exact .ended h h'
  | @goesOn scanner stream tc h h' =>
    refine .goesOn h ?_
    have hmax : wordCount = maxWord + 1 := rfl
    have hmin : min (min (tc + n) maxWord) text.length =
      min (min tc text.length + n) text.length := by omega
    rw [hmin]
    exact h'.skip hd n

/-- Where neither scanner finds anything more, both have ended. -/
theorem sameTurn_of_none {scanner : Scanner LexerEngine} {stream : Stream κ}
    {rank : TextScanner σ τ → Nat} {n : Nat} {state : σ}
    (h : (scanner.step tc).1 = none ∧ (scanner.step tc).2.finished = true)
    (h' : stream.step.1 = none ∧ stream.step.2.finished = true) :
    SameTurn (InStep At t text rules) rank n (turn (TextScanner.mk rules scanner tc) state)
      (turn (SourceScanner.mk rules stream) state) := by
  rw [TextScanner.turn_of_none h.1, SourceScanner.turn_of_none h'.1]
  exact .stopped nofun (.ended h.2 h'.2)

section

variable (hd : ByteSource.Delivers text none At) (hsize : text.length < wordCount)
  (hset : IsSetOf re patterns) (hauto : IsAutomatonOf re (.table t))
    (hactions : ∀ rule ∈ rules, rule.action.Forward text)

include hd hsize hactions in
/-- Where both scanners find the same match, the action leaves both cursors in the same place, which
is at or after the end of the match. -/
theorem sameTurn_of_isLongest {scanner : Scanner LexerEngine} {stream : Stream κ}
    {state : σ} {m : Match} (hmatch : m.IsLongest re text tc)
    (hstep : (scanner.step tc).1 = some (.ok m))
    (hgoes : (scanner.step tc).2.GoesOn (· = .table t) text) (hstep' : stream.step.1 = some (.ok m))
    (hgoes' : stream.step.2.GoesOn At t m.stop) :
    SameTurn (InStep At t text rules) (fun s => text.length - s.tc) (text.length - tc)
      (turn (TextScanner.mk rules scanner tc) state)
      (turn (SourceScanner.mk rules stream) state) := by
  obtain ⟨htable, hfin, seen, hat⟩ := hgoes'
  obtain ⟨⟨hlt, hle, _⟩, _⟩ := hmatch.isGreatest
  have hbytes : m.bytes = text.slice m.tc m.stop := by rw [hmatch.bytes_eq, hmatch.tc_eq]
  obtain ⟨hresult, hanswers, hcursor, seen', hat'⟩ :=
    (forward_react hactions state hle hbytes).run_eq hd hsize hat
  have hmin := Nat.min_eq_left (hd.le_length hat')
  rw [TextScanner.turn_of_ok hstep, SourceScanner.turn_of_ok hstep']
  simp only [hgoes.text_eq, hresult, hanswers]
  refine .acted ?_ (.goesOn hgoes ?_)
  · simp only
    omega
  · rw [hmin]
    exact ⟨htable, hfin, seen', hat'⟩

variable (husable : ∀ s ∈ patterns, Pattern.Usable s)

include hd hsize hset hauto hactions husable

/-- Scanners in step have the same turns if all actions go forward. -/
theorem agree : Agree (InStep At t text rules) fun s => text.length - s.tc := by
  have hstart := accept?_start_eq_none hset hauto husable
  have hfind : ∀ e : LexerEngine, e = .table t → ∀ tc,
      (Engine.find e text tc).1 = t.find text tc ∧ (Engine.find e text tc).2 = .table t :=
      fun e he tc => by
    rw [hauto.find_eq]
    exact hauto.find_table e he text tc
  rintro _ _ state (@⟨scanner, stream, tc, h, h'⟩ | @⟨scanner, stream, tc, h, h'⟩)
  · rcases Nat.lt_or_ge tc text.length with htc | htc
    · rw [Nat.min_eq_left htc.le] at h'
      obtain ⟨hstep, hgoes⟩ := h.step hfind htc
      have hstep' := h'.step_of_start hd hsize htc hstart
      cases hreport : Scanner.report text tc (t.find text tc) with
      | error u =>
        rw [hreport] at hstep hstep'
        rw [TextScanner.turn_of_error hstep, SourceScanner.turn_of_error hstep'.1]
        refine .stopped nofun (.goesOn hgoes ?_)
        show stream.step.2.GoesOn At t (min tc text.length)
        rw [Nat.min_eq_left htc.le]
        exact hstep'.2
      | ok m =>
        have hmatch : m.IsLongest re text tc :=
          Table.of_report_eq_ok hset.isPatternSet (by rw [← hauto.find_eq, hreport])
        rw [hreport] at hstep hstep'
        exact sameTurn_of_isLongest hd hsize hactions hmatch hstep hgoes hstep'.1 hstep'.2
    · rw [Nat.min_eq_right htc] at h'
      obtain ⟨_, hfin, seen, hat⟩ := h'
      rw [← h.text_eq] at htc
      exact sameTurn_of_none (scanner.finished_step htc) (Stream.step_of_end hd hat hfin)
  · have hstep := Scanner.step_of_finished h tc
    have hstep' := Stream.step_of_finished h'
    exact sameTurn_of_none (by rw [hstep]; exact ⟨rfl, h⟩) (by rw [hstep']; exact ⟨rfl, h'⟩)

/-- Whoever pulls tokens from a scanner of a source that delivers a text is shown what a scanner of
the text shows. -/
theorem session_eq_of_delivers {limit : Nat} (hlimit : text.length ≤ limit)
    (h : ∃ seen, At 0 seen source) (state : σ) (requests : List Request) :
    let shown := session limit (TextScanner.mk rules (.start (.table t) text) 0) state requests
    session limit (SourceScanner.mk rules (.start t source)) state requests = shown ∧
      ∀ x ∈ shown, x.pull ≠ .undecided := by
  have hagree := agree hd hsize hset hauto hactions husable
  have hstart : InStep At t text rules ⟨rules, .start (.table t) text,
      0⟩ ⟨rules, .start t source⟩ :=
    .goesOn (Scanner.goesOn_start (P := (· = LexerEngine.table t)) rfl text) ⟨rfl, rfl,
      by rwa [Nat.zero_min]⟩
  exact hagree.session_eq (fun s s' n hs => hs.skip hd hsize n)
    (fun s _ _ => Nat.le_trans (Nat.sub_le _ s.tc) hlimit) hstart state requests

end

/-- A lexer that is compiled to a table works on a text as on any source of the text, be it the text
itself or a reader that brings it in pieces and with interruptions, if its actions go forward:
whoever pulls tokens and skips bytes is shown the same tokens and errors and the same end, and each
action is given the same matches and answers. Every pull comes to an end if it is followed for as
many actions as the text has bytes. -/
theorem session_scanSource (options : LexerOptions) (operations : List (Operation σ τ))
    (hbackend : options.backend = .table) (hcompiled : (after options operations).isCompiled = true)
    {text : Bytes} (hsize : text.length < wordCount)
    (hactions : ∀ rule ∈ (after options operations).rules, rule.action.Forward text)
    {limit : Nat} (hlimit : text.length ≤ limit) (state : σ) (requests : List Request) :
    let l := after options operations
    ∃ s, l.scanText text = .ok s ∧ (∀ x ∈ session limit s state requests, x.pull ≠ .undecided) ∧
      (∃ s', l.scanSource (Slice.ofText text) = .ok s' ∧
        session limit s' state requests = session limit s state requests) ∧
      ∀ deliveries, Delivery.contents deliveries = .ok text →
        ∃ s', l.scanSource (Reader.ofDeliveries deliveries) = .ok s' ∧
          session limit s' state requests = session limit s state requests := by
  intro l
  obtain ⟨a, ha⟩ : ∃ a, l.automaton? = some a := Option.isSome_iff_exists.mp hcompiled
  have hresult := (upToDate_after options operations).of_automaton? a ha
  obtain ⟨t, rfl⟩ := exists_table_of_compilePatterns hbackend hresult
  obtain ⟨husable, re, hset, hauto⟩ := exists_of_compilePatterns hresult
  have hslice := session_eq_of_delivers (Slice.delivers hsize) hsize hset hauto
    hactions husable hlimit ⟨false, Slice.at_ofText text⟩ state requests
  refine ⟨⟨l.rules, .start (.table t) text, 0⟩, ?_, hslice.2,
    ⟨⟨l.rules, .start t (Slice.ofText text)⟩, ?_, hslice.1⟩, ?_⟩
  · rw [scanText, ha]
    rfl
  · rw [scanSource, ha]
  · intro deliveries hcontents
    obtain ⟨rfl, hfailure⟩ := Delivery.contents_eq_ok_iff.mp hcontents
    have hat := Reader.at_ofDeliveries deliveries
    rw [hfailure] at hat
    have hreader := session_eq_of_delivers (Reader.delivers hsize) hsize hset hauto
      hactions husable hlimit ⟨false, hat⟩ state requests
    refine ⟨⟨l.rules, .start t (Reader.ofDeliveries deliveries)⟩, ?_, hreader.1⟩
    rw [scanSource, ha]

/-- An action passes the byte after each `a`, which a reader brings after an interruption. Another
byte is skipped between two pulls. -/
theorem session_scanSource_passes :
    let action : Action Nat Nat := fun count m =>
      .byte m.stop fun b? =>
        match b? with
        | none => .done ⟨count + 1, .ok (some count)⟩
        | some _ => .moveTo (m.stop + 1) (.done ⟨count + 1, .ok (some count)⟩)
    let l := after .standard [.add [97] action, .compile]
    let text : Bytes := [97, 98, 99, 97]
    let deliveries : List Delivery := [.data [97], .interrupt, .data [98, 99, 97]]
    l.isCompiled = true ∧ (∀ rule ∈ l.rules, rule.action.Forward text) ∧
      ∃ s s', l.scanText text = .ok s ∧ l.scanSource (Reader.ofDeliveries deliveries) = .ok s' ∧
      session 4 s' 0 [.next, .skip 1, .next, .next] = session 4 s 0 [.next,
        .skip 1, .next, .next] := by
  intro action l text deliveries
  have hforward : action.Forward text := by
    intro count m hstop _
    refine ⟨Nat.le_refl _, Nat.lt_of_le_of_lt hstop (by decide), ?_⟩
    rcases hbyte : text[m.stop]? with _ | b
    · exact trivial
    · exact ⟨Nat.le_succ _, (List.getElem?_eq_some_iff.mp hbyte).1, trivial⟩
  let before : Lexer Nat Nat := ⟨[⟨[97], action⟩], .standard, none⟩
  obtain ⟨a, ha⟩ := before.exists_perform_compile rfl (List.cons_ne_nil _ _)
    (List.forall_mem_singleton.mpr (Pattern.usable_byte (by decide)))
  have hl : l = { before with automaton? := some a } := ha
  have hcompiled : l.isCompiled = true := by rw [hl]; rfl
  have hactions : ∀ rule ∈ l.rules, rule.action.Forward text := by
    rw [hl]
    exact List.forall_mem_singleton.mpr hforward
  have hsize : text.length < wordCount := by decide
  have hlimit : text.length ≤ 4 := Nat.le_refl 4
  obtain ⟨s, hs, _, _, hreader⟩ :=
    session_scanSource .standard [.add [97] action, .compile] rfl hcompiled hsize
    hactions hlimit 0 [.next, .skip 1, .next, .next]
  obtain ⟨s', hs', hsession⟩ := hreader deliveries rfl
  exact ⟨hcompiled, hactions, s, s', hs, hs', hsession⟩

end Lexer

end Munch

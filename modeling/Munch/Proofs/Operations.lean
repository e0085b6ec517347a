import Munch.Proofs.Compilation
import Munch.Proofs.Resumption
import Munch.Proofs.Streaming
import Munch.Proofs.Tracking
import Munch.Proofs.Turns

set_option autoImplicit false

/-! # Lexers with a past

A lexer is given rules and compiled, in any order and any number of times. Whenever it is compiled,
its automaton is the one that a new lexer with the same options and the same patterns would be
compiled to, and the matches that its scanners hand to actions are named after the patterns that it
has (`Lexer.compiled_after`). So no action of a rule is run for a match of another one, and none is
looked for that is not there.

What a scanner of a text finds is what the table of the set of patterns finds, whichever automaton
the set was compiled to (`Lexer.IsAutomatonOf.exists_find`). A scanner of a source hands out what
its table accepts, whatever the source does (`Stream.accepts_of_step`). -/

namespace Munch

/-! ## Walks over any source -/

namespace Stream

variable {κ : Type} [ByteSource κ] {t : Table} {s : Stream κ}

namespace Walk

variable {w w' : Walk} {b : UInt8}

/-- The longest match of a walk is a start of its bytes, and the table accepts it. -/
def IsAccepted (t : Table) (w : Walk) : Prop :=
  ∀ id length, w.longest? = some (id, length) →
    length ≤ w.bytes.length ∧ t.accept? (t.run t.start (w.bytes.take length)) = some id

theorem isAccepted_start (t : Table) :
    IsAccepted t ⟨[], false, (t.accept? t.start).map (·, 0)⟩ := by
  intro id length hlongest
  obtain ⟨_, haccept, heq⟩ := Option.map_eq_some_iff.mp hlongest
  obtain ⟨rfl, rfl⟩ := Prod.mk.inj heq
  exact ⟨Nat.le_refl 0, haccept⟩

theorem IsAccepted.append (h : w.IsAccepted t) (hbytes : w'.bytes = w.bytes ++ [b])
    (hlongest : w'.longest? = w.longest?) : w'.IsAccepted t := by
  intro id length hw
  rw [hlongest] at hw
  obtain ⟨hle, haccept⟩ := h id length hw
  rw [hbytes, List.take_append_of_le_length hle, List.length_append]
  exact ⟨Nat.le_add_right_of_le hle, haccept⟩

theorem IsAccepted.next (h : w.IsAccepted t) (b : UInt8) :
    (w.next b (t.accept? (t.run t.start (w.bytes ++ [b])))).IsAccepted t := by
  cases haccept : t.accept? (t.run t.start (w.bytes ++ [b])) with
  | none => exact h.append (b := b) rfl rfl
  | some id =>
    intro id' length hlongest
    obtain ⟨rfl, rfl⟩ := Prod.mk.inj (Option.some.inj hlongest)
    refine ⟨Nat.le_refl _, ?_⟩
    show t.accept? (t.run t.start ((w.bytes ++ [b]).take (w.bytes ++ [b]).length)) = _
    rw [List.take_length, haccept]

end Walk

/-- Whatever a source answers, the longest match of a walk over it is accepted. -/
theorem isAccepted_walkFrom (limit : Nat) (source : κ) {state : Nat} {w : Walk}
    (hstate : state = t.run t.start w.bytes) (hw : w.IsAccepted t) :
    (walkFrom t limit source state w).1.IsAccepted t := by
  induction limit generalizing source state w with
  | zero => exact hw
  | succ limit ih =>
    rw [walkFrom]
    rcases ByteSource.peek source w.bytes.length with ⟨_ | b, source'⟩
    · exact hw
    · have hnext : t.next state b = t.run t.start (w.bytes ++ [b]) := by
        rw [hstate, Table.run_append]; rfl
      simp only
      split
      · exact hw.append (b := b) rfl rfl
      · refine ih source' hnext ?_
        rw [hnext]
        exact hw.next b

theorem isAccepted_walk (t : Table) (source : κ) : (walk t source).1.IsAccepted t :=
  isAccepted_walkFrom _ source rfl (Walk.isAccepted_start t)

/-- A match is what a walk remembers. -/
theorem exists_walk_of_step {m : Match} (h : s.step.1 = some (.ok m)) :
    ∃ (source : κ) (length : Nat), (walk s.table source).1.longest? = some (m.id, length) ∧
      m.bytes = (walk s.table source).1.bytes.take length := by
  have hended : ∀ e? : Option ScanError, e?.map Except.error ≠ some (.ok m) := by
    intro e? he
    cases e? <;> cases he
  unfold step at h
  split at h
  · cases h
  · simp only at h
    split at h
    · exact absurd h (hended _)
    · split at h
      · exact absurd h (hended _)
      · split at h
        · cases h
        · next hlongest =>
          obtain rfl := Except.ok.inj (Option.some.inj h)
          exact ⟨_, _, hlongest, rfl⟩
        · cases h

/-- A match is accepted by the table, whatever the source does. -/
theorem accepts_of_step {m : Match} (h : s.step.1 = some (.ok m)) :
    s.table.accept? (s.table.run s.table.start m.bytes) = some m.id := by
  obtain ⟨source, length, hlongest, hbytes⟩ := exists_walk_of_step h
  rw [hbytes]
  exact (isAccepted_walk s.table source m.id length hlongest).2

theorem table_step (s : Stream κ) : s.step.2.table = s.table := by
  unfold step
  split
  · rfl
  · simp only
    split
    · rfl
    · split
      · rfl
      · split <;> rfl

end Stream

/-! ## Matches in a text -/

/-- A longest match of a set of patterns at a cursor of a text, of the least pattern that has it. -/
structure Match.IsLongest (re : Regex) (text : Bytes) (tc : Nat) (m : Match) : Prop where
  tc_eq : m.tc = tc
  isGreatest : IsGreatest (Table.matchEnds re text tc) m.stop
  bytes_eq : m.bytes = text.slice tc m.stop
  isLeast : IsLeast {k | re.Accepts k m.bytes} m.id

/-- A match that the table of a set reports is a longest match. -/
theorem Table.of_report_eq_ok {re : Regex} {text : Bytes} {tc : Nat} {m : Match}
    (h : re.IsPatternSet) (hm : Scanner.report text tc ((ofRegex re).find text tc) = .ok m) :
    m.IsLongest re text tc := by
  rw [Scanner.report] at hm
  cases hfound : ((ofRegex re).find text tc).longest? with
  | none =>
    rw [hfound] at hm
    cases hm
  | some found =>
    obtain ⟨id, stop⟩ := found
    obtain ⟨hgreatest, hleast⟩ := (findsLongest_ofRegex h text tc).of_some id stop hfound
    have hstop := @Scanner.stop_matchAt text id tc stop hgreatest.1.1.le hgreatest.1.2.1
    rw [hfound] at hm
    obtain rfl := Except.ok.inj hm
    exact ⟨rfl, by rwa [hstop], by rw [hstop]; rfl, hleast⟩

namespace Lexer

variable {σ τ κ : Type} {l : Lexer σ τ} {re : Regex} {patterns : List Bytes}
    {a : Automaton} {m : Match}

/-! ## Matches -/

/-- A match names the least of the patterns that have its bytes. -/
structure Names (patterns : List Bytes) (m : Match) : Prop where
  id_lt : m.id < patterns.length
  isLeast : IsLeast {k | ∃ s, patterns[k]? = some s ∧ Pattern.Matches s m.bytes} m.id

theorem IsSetOf.names (h : IsSetOf re patterns) (hleast : IsLeast {k | re.Accepts k m.bytes} m.id) :
    Names patterns m := by
  simp only [h.accepts_iff] at hleast
  obtain ⟨s, hs, _⟩ := hleast.1
  exact ⟨(List.getElem?_eq_some_iff.mp hs).1, hleast⟩

/-- Engines with a property find what the table of a set finds, and keep the property. -/
def Find (re : Regex) (P : LexerEngine → Prop) : Prop :=
  ∀ e, P e → ∀ (text : Bytes) (tc : Nat),
    (Engine.find e text tc).1 = (Table.ofRegex re).find text tc ∧ P (Engine.find e text tc).2

theorem IsAutomatonOf.find_eq {t : Table} (h : IsAutomatonOf re (.table t))
    (text : Bytes) (tc : Nat) : t.find text tc = (Table.ofRegex re).find text tc := by
  cases h with
  | table => rfl
  | minimized => exact Table.find_minimize (Table.wellFormed_ofLabelled _) text tc

/-- A table of a set finds the same, whatever it was asked for before. -/
theorem IsAutomatonOf.find_table {t : Table} (h : IsAutomatonOf re (.table t)) :
    Find re (· = .table t) := by
  rintro _ rfl text tc
  exact ⟨h.find_eq text tc, rfl⟩

/-- All the automata of a set find the same, whatever they were asked for before. -/
theorem IsAutomatonOf.exists_find (h : IsAutomatonOf re a) (hset : re.IsPatternSet) :
    ∃ P, P a.engine ∧ Find re P := by
  cases a with
  | table t => exact ⟨(· = .table t), rfl, h.find_table⟩
  | program p =>
    obtain ⟨hp⟩ := h
    obtain ⟨q, hq, hcode⟩ := Program.exists_ofRegex_eq_ok hset
    obtain rfl := Except.ok.inj (hq.symm.trans hp)
    obtain ⟨P, hP, hsteady⟩ := Simulator.steady q
    refine ⟨fun e => ∃ s, e = .threads s ∧ P s, ⟨_, rfl, hP⟩, ?_⟩
    rintro _ ⟨s, rfl, hs⟩ text tc
    obtain ⟨hfind, hkept⟩ := hsteady s hs text tc
    refine ⟨hfind.trans ?_, _, rfl, hkept⟩
    rw [Table.find_ofRegex hcode]
    exact hcode.run_eq text tc

/-- The tables of a set recognize it. -/
theorem IsAutomatonOf.recognizes {t : Table} (h : IsAutomatonOf re (.table t))
    (hset : re.IsPatternSet) : t.Recognizes re := by
  cases h with
  | table => exact Table.recognizes_ofRegex hset
  | minimized =>
    exact Table.recognizes_minimize (Table.wellFormed_ofLabelled _) (Table.recognizes_ofRegex hset)

/-! ## Scanners -/

/-- The scanners that a lexer is bound to a text with, after any pulls and moves of the cursor. -/
inductive ScansText (l : Lexer σ τ) (text : Bytes) : TextScanner σ τ → Prop
  | start {s : TextScanner σ τ} (h : l.scanText text = .ok s) : ScansText l text s
  | next {s : TextScanner σ τ} (h : ScansText l text s) (state : σ) (limit : Nat) :
      ScansText l text (s.next state limit).2.1
  | skip {s : TextScanner σ τ} (h : ScansText l text s) (n : Nat) : ScansText l text (s.skip n)
  | moveTo {s : TextScanner σ τ} (h : ScansText l text s) (tc : Nat) :
    ScansText l text { s with tc }

/-- The scanners that a lexer is bound to a source with, after any pulls and moves of the cursor. -/
inductive ScansSource [ByteSource κ] (l : Lexer σ τ) (source : κ) : SourceScanner σ τ κ → Prop
  | start {s : SourceScanner σ τ κ} (h : l.scanSource source = .ok s) : ScansSource l source s
  | next {s : SourceScanner σ τ κ} (h : ScansSource l source s) (state : σ) (limit : Nat) :
      ScansSource l source (s.next state limit).2.1
  | skip {s : SourceScanner σ τ κ} (h : ScansSource l source s) (n : Nat) :
    ScansSource l source (s.skip n)

/-- A scan of a text by an engine with a property that goes on, or has finished. -/
def IsScan (P : LexerEngine → Prop) (s : Scanner LexerEngine) : Prop :=
  (∃ text, s.GoesOn P text) ∨ s.finished = true

/-- A step of a scan reports what the table of the set finds, whatever was done before. -/
theorem isScan_step {P : LexerEngine → Prop} (hset : re.IsPatternSet) (hfind : Find re P)
    {s : Scanner LexerEngine} (h : IsScan P s) (tc : Nat) : IsScan P (s.step tc).2 ∧
      ∀ m, (s.step tc).1 = some (.ok m) → IsLeast {k | re.Accepts k m.bytes} m.id := by
  obtain ⟨text, hgoes⟩ | hfinished := h
  · rcases Nat.lt_or_ge tc text.length with htc | htc
    · obtain ⟨hstep, hgoes'⟩ := hgoes.step (fun e he => hfind e he text) htc
      refine ⟨.inl ⟨text, hgoes'⟩, fun m hm => ?_⟩
      exact (Table.of_report_eq_ok hset (Option.some.inj (hstep.symm.trans hm))).isLeast
    · rw [← hgoes.text_eq] at htc
      obtain ⟨hnone, hfinished⟩ := s.finished_step htc
      exact ⟨.inr hfinished, fun m hm => by cases hnone.symm.trans hm⟩
  · rw [Scanner.step_of_finished hfinished]
    exact ⟨.inr hfinished, fun m hm => by cases hm⟩

/-- Every turn of a scanner of a text keeps its rules, and every match that is found names its
    pattern. -/
theorem invariant_text {P : LexerEngine → Prop} (hset : IsSetOf re patterns) (hfind : Find re P)
    (rules : List (Rule σ τ)) : TokenScanner.Invariant
      (fun s : TextScanner σ τ => s.rules = rules ∧ IsScan P s.scanner) (Names patterns) := by
  rintro s state ⟨hrules, hscan⟩
  obtain ⟨hscan', hmatch⟩ := isScan_step hset.isPatternSet hfind hscan s.tc
  rcases hfound : (s.scanner.step s.tc).1 with _ | u | m
  · rw [TextScanner.turn_of_none hfound]
    exact ⟨hrules, hscan'⟩
  · rw [TextScanner.turn_of_error hfound]
    exact ⟨hrules, hscan'⟩
  · rw [TextScanner.turn_of_ok hfound]
    exact ⟨hset.names (hmatch m hfound), ⟨hrules, hscan'⟩, hrules, hscan'⟩

/-- Every turn of a scanner of a source keeps its rules, and every match that is found names its
    pattern. -/
theorem invariant_source [ByteSource κ] {t : Table} (hset : IsSetOf re patterns)
    (ht : t.Recognizes re) (rules : List (Rule σ τ)) : TokenScanner.Invariant
      (fun s : SourceScanner σ τ κ => s.rules = rules ∧ s.stream.table = t) (Names patterns) := by
  rintro s state ⟨hrules, rfl⟩
  have htable := s.stream.table_step
  rcases hfound : s.stream.step.1 with _ | u | m
  · rw [SourceScanner.turn_of_none hfound]
    exact ⟨hrules, htable⟩
  · rw [SourceScanner.turn_of_error hfound]
    exact ⟨hrules, htable⟩
  · rw [SourceScanner.turn_of_ok hfound]
    have hleast := (ht m.bytes m.id).mp (Stream.accepts_of_step hfound)
    exact ⟨hset.names hleast, ⟨hrules, htable⟩, hrules, htable⟩

/-- The calls that scanners of a lexer make are for matches that name one of its rules. -/
def NamesRules (l : Lexer σ τ) {χ : Type} [TokenScanner χ σ τ] (s : χ) : Prop :=
  ∀ (state : σ) (limit : Nat), ∀ call ∈ TokenScanner.calls s state limit,
    Names l.patterns call.found

theorem ScansText.of_isAutomatonOf {text : Bytes} {s : TextScanner σ τ} (h : ScansText l text s)
    (ha : l.automaton? = some a) (hset : IsSetOf re l.patterns) (hauto : IsAutomatonOf re a) :
    s.rules = l.rules ∧ NamesRules l s := by
  obtain ⟨P, hP, hfind⟩ := hauto.exists_find hset.isPatternSet
  have hinv := invariant_text hset hfind l.rules
  have hs : s.rules = l.rules ∧ IsScan P s.scanner := by
    induction h with
    | start h =>
      rw [scanText, ha] at h
      obtain rfl := Except.ok.inj h
      exact ⟨rfl, .inl ⟨text, Scanner.goesOn_start hP text⟩⟩
    | next _ state limit ih => exact (hinv.next ih state limit).1
    | skip _ _ ih | moveTo _ _ ih => exact ih
  exact ⟨hs.1, fun state limit => (hinv.next hs state limit).2⟩

theorem ScansSource.of_isAutomatonOf [ByteSource κ] {source : κ} {s : SourceScanner σ τ κ}
    (h : ScansSource l source s) (ha : l.automaton? = some a) (hset : IsSetOf re l.patterns)
    (hauto : IsAutomatonOf re a) : s.rules = l.rules ∧ NamesRules l s := by
  cases a with
  | program p =>
    exfalso
    induction h with
    | start h =>
      rw [scanSource, ha] at h
      cases h
    | next _ _ _ ih | skip _ _ ih => exact ih
  | table t =>
    have hinv := invariant_source (κ := κ) hset (hauto.recognizes hset.isPatternSet) l.rules
    have hs : s.rules = l.rules ∧ s.stream.table = t := by
      induction h with
      | start h =>
        rw [scanSource, ha] at h
        obtain rfl := Except.ok.inj h
        exact ⟨rfl, rfl⟩
      | next _ state limit ih => exact (hinv.next ih state limit).1
      | skip _ _ ih => exact ih
    exact ⟨hs.1, fun state limit => (hinv.next hs state limit).2⟩

/-! ## Operations -/

/-- What is done with a lexer until it is bound to an input. -/
inductive Operation (σ τ : Type) where
  | add (pattern : Bytes) (action : Action σ τ)
  | compile

/-- The lexer after an operation. Where compiling fails, it is the same as before. -/
def perform (l : Lexer σ τ) : Operation σ τ → Lexer σ τ
  | .add pattern action => l.add pattern action
  | .compile =>
    match l.compile.result with
    | .ok l' => l'
    | .error _ => l

/-- A new lexer after operations, one after the other. -/
def after (options : LexerOptions) (operations : List (Operation σ τ)) : Lexer σ τ :=
  operations.foldl perform (withOptions options)

/-- A new lexer with rules. -/
def ofRules (options : LexerOptions) (rules : List (Rule σ τ)) : Lexer σ τ :=
  after options (rules.map fun rule => .add rule.pattern rule.action)

/-- If a lexer is compiled, its automaton is what its patterns are compiled to with its options. -/
structure UpToDate (options : LexerOptions) (l : Lexer σ τ) : Prop where
  options_eq : l.options = options
  of_automaton? : ∀ a, l.automaton? = some a → (compilePatterns options l.patterns).result = .ok a

theorem upToDate_perform {options : LexerOptions} (h : UpToDate options l)
    (operation : Operation σ τ) : UpToDate options (l.perform operation) := by
  cases operation with
  | add pattern action => exact ⟨h.options_eq, fun a ha => by cases ha⟩
  | compile =>
    rw [perform]
    cases hresult : l.compile.result with
    | error e => exact h
    | ok l' =>
      obtain rfl | ⟨a, ha, rfl⟩ := eq_or_of_result_compile hresult
      · exact h
      · obtain ⟨rfl, _⟩ := h
        refine ⟨rfl, fun a' ha' => ?_⟩
        obtain rfl := Option.some.inj ha'
        exact ha

theorem upToDate_after (options : LexerOptions) (operations : List (Operation σ τ)) :
    UpToDate options (after options operations) := by
  suffices ∀ l : Lexer σ τ, UpToDate options l → UpToDate options (operations.foldl perform l) from
    this _ ⟨rfl, fun a ha => by cases ha⟩
  intro l h
  induction operations generalizing l with
  | nil => exact h
  | cons operation rest ih => exact ih _ (upToDate_perform h operation)

theorem ofRules_eq (options : LexerOptions) (rules : List (Rule σ τ)) :
    ofRules options rules = ⟨rules, options, none⟩ := by
  let add := fun rule : Rule σ τ => Operation.add rule.pattern rule.action
  suffices ∀ before, (rules.map add).foldl perform ⟨before, options, none⟩ =
    ⟨before ++ rules, options, none⟩ from
    this []
  induction rules with
  | nil => simp
  | cons rule rest ih =>
    intro before
    rw [List.append_cons]
    exact ih (before ++ [rule])

/-- A lexer that cannot be compiled is not compiled. -/
theorem UpToDate.isCompiled_eq_false {options : LexerOptions}
    (h : UpToDate options l) {e : CompileError} (he : l.compile.result = .error e) :
    l.isCompiled = false := by
  by_contra hcompiled
  rw [Bool.not_eq_false] at hcompiled
  obtain ⟨a, ha⟩ := Option.isSome_iff_exists.mp hcompiled
  have hne := mt patterns_eq_nil_iff.mpr (ne_nil_of_compilePatterns (h.of_automaton? a ha))
  cases (result_compile_of_isCompiled hne hcompiled).symm.trans he

/-- A lexer with rules whose patterns are usable is compiled. -/
theorem exists_perform_compile (h : l.isCompiled = false) (hne : l.patterns ≠ [])
    (husable : ∀ s ∈ l.patterns, Pattern.Usable s) :
    ∃ a, l.perform .compile = { l with automaton? := some a } := by
  have hrules := mt patterns_eq_nil_iff.mpr hne
  obtain ⟨a, ha⟩ := (exists_result_compilePatterns_iff hne).mpr husable
  refine ⟨a, ?_⟩
  rw [perform, result_compile_of_ne_nil hrules h, ha]
  rfl

/-- Whenever a lexer is compiled, whatever was done with it, its automaton is the one that any new
lexer with its options and its patterns is compiled to, every pattern parses and does not match the
empty text, and each match that a scanner of it hands to an action names the least pattern that has
the bytes of the match. Where compiling fails, the lexer was not compiled, and is the same
afterwards. Adding a rule leaves it not compiled. -/
theorem compiled_after (options : LexerOptions) (operations : List (Operation σ τ)) :
    let l := after options operations
    (∀ a, l.automaton? = some a →
      (∀ rules : List (Rule σ τ), (ofRules options rules).patterns = l.patterns →
        (ofRules options rules).compile.result =
          .ok { ofRules options rules with automaton? := some a }) ∧
      (∀ s ∈ l.patterns, Pattern.Usable s) ∧
      (∀ text s, ScansText l text s → s.rules = l.rules ∧ NamesRules l s) ∧
      ∀ (κ : Type) [ByteSource κ] (source : κ) s, ScansSource l source s →
        s.rules = l.rules ∧ NamesRules l s) ∧
    (∀ e, l.compile.result = .error e → l.isCompiled = false ∧ l.perform .compile = l) ∧
    ∀ pattern action, (l.add pattern action).isCompiled = false := by
  intro l
  have h : UpToDate options l := upToDate_after options operations
  refine ⟨fun a ha => ?_, fun e he => ?_, fun _ _ => rfl⟩
  · have hcompiled := h.of_automaton? a ha
    obtain ⟨husable, re, hset, hauto⟩ := exists_of_compilePatterns hcompiled
    refine ⟨fun rules hrules => ?_, husable, fun text s hs => hs.of_isAutomatonOf ha hset hauto, ?_⟩
    · rw [ofRules_eq] at hrules ⊢
      rw [← hrules] at hcompiled
      have hne := mt patterns_eq_nil_iff.mpr (ne_nil_of_compilePatterns hcompiled)
      rw [result_compile_of_ne_nil hne rfl, hcompiled]
      rfl
    · intro κ _ source s hs
      exact hs.of_isAutomatonOf ha hset hauto
  · refine ⟨h.isCompiled_eq_false he, ?_⟩
    rw [perform, he]

/-- A rule is added to a lexer that was compiled, and it is compiled again. -/
theorem compiled_after_twice :
    let action : Action Unit Unit := fun state _ => .done ⟨state, .ok none⟩
    let l := after .standard [.add [97] action, .compile, .add [98] action, .compile]
    ∃ a s, l.automaton? = some a ∧ l.scanText [98] = .ok s ∧ NamesRules l s ∧
      (ofRules .standard [⟨[97], action⟩, ⟨[98], action⟩]).compile.result = .ok l := by
  intro action l
  have ha : Pattern.Usable [97] := Pattern.usable_byte (by decide)
  have hb : Pattern.Usable [98] := Pattern.usable_byte (by decide)
  have hone : ∀ s ∈ ([[97]] : List Bytes), Pattern.Usable s := List.forall_mem_singleton.mpr ha
  have htwo : ∀ s ∈ ([[97], [98]] : List Bytes), Pattern.Usable s :=
    List.forall_mem_cons.mpr ⟨ha, List.forall_mem_singleton.mpr hb⟩
  let first : Lexer Unit Unit := ⟨[⟨[97], action⟩], .standard, none⟩
  let second : Lexer Unit Unit := ⟨[⟨[97], action⟩, ⟨[98], action⟩], .standard, none⟩
  obtain ⟨_, hfirst⟩ := first.exists_perform_compile rfl (List.cons_ne_nil _ _) hone
  obtain ⟨a, hsecond⟩ := second.exists_perform_compile rfl (List.cons_ne_nil _ _) htwo
  -- What is compiled second is put in the place of what was compiled first.
  have hl : l = { second with automaton? := some a } := by
    show ((first.perform .compile).perform (.add [98] action)).perform .compile = _
    rw [hfirst]
    exact hsecond
  have hauto : l.automaton? = some a := by rw [hl]
  obtain ⟨hall, _⟩ :=
    compiled_after .standard [.add [97] action, .compile, .add [98] action, .compile]
  obtain ⟨hfresh, _, htext, _⟩ := hall a hauto
  refine ⟨a, ⟨l.rules, .start a.engine [98], 0⟩, hauto, ?_, ?_, ?_⟩
  · rw [scanText, hauto]
  · refine (htext [98] _ (.start ?_)).2
    show l.scanText [98] = _
    rw [scanText, hauto]
  · have hpatterns :
        (ofRules .standard [⟨[97], action⟩, ⟨[98], action⟩]).patterns = l.patterns := by
      rw [hl, ofRules_eq]
      rfl
    rw [hfresh _ hpatterns, hl, ofRules_eq]

end Lexer

end Munch

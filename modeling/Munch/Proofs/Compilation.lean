import Mathlib.Data.List.Forall2
import Munch.Lexer.Basic
import Munch.Proofs.Grammar
import Munch.Proofs.Irreducible

set_option autoImplicit false

/-! # What compiling comes to

A list of patterns can be compiled if it is not empty and every pattern is usable: it parses, and
does not match the empty text (`Pattern.Usable`). Otherwise the first pattern with a flaw is named,
and what is wrong with it (`Lexer.FirstFlaw`). None of this depends on the automaton that the
patterns are compiled to (`Lexer.result_compile`), although the empty text is looked for with that
automaton: the threads of a program accept before they consume a byte, or the start state of a table
accepts, exactly if some pattern of the set has the empty text.

What is compiled is an automaton of a set whose patterns are those of the list, in their order
(`Lexer.exists_of_compilePatterns`). -/

namespace Munch

/-! ## Parsed patterns -/

namespace Regex

variable {body : Regex} {k : Nat} {w : Bytes}

@[simp] theorem language_pattern_cat_finish (body : Regex) :
    (pattern (.cat [body, .finish])).language = body.language := by
  simp only [language, catLanguage, mul_one]

/-- A set of one pattern has its words under the number zero. -/
theorem accepts_pattern_cat_finish :
    (pattern (.cat [body, .finish])).Accepts k w ↔ k = 0 ∧ w ∈ body.language := by
  show (∃ b, ([body] : List Regex)[k]? = some b ∧ w ∈ b.language) ↔ _
  cases k <;> simp

/-- Joining sets of patterns puts the bodies of the one after those of the other. -/
theorem exists_joinPatterns_eq_some {rs : List Regex} (h : rs ≠ []) :
    ∃ re, joinPatterns rs = some re ∧ re.bodies = rs.flatMap bodies := by
  induction rs with
  | nil => exact absurd rfl h
  | cons r rest ih =>
    rw [joinPatterns]
    by_cases hrest : rest = []
    · subst hrest
      exact ⟨r, rfl, by simp⟩
    · obtain ⟨re, hre, hbodies⟩ := ih hrest
      rw [hre]
      exact ⟨.either r re, rfl, by rw [bodies, hbodies, List.flatMap_cons]⟩

end Regex

namespace Pattern

variable {s w : Bytes} {r : Regex}

/-- A pattern parses, and a text is in its language. -/
def Matches (s w : Bytes) : Prop := ∃ r, parse s = .ok r ∧ w ∈ r.language

/-- A pattern that a lexer can have: it parses, and does not match the empty text. -/
def Usable (s : Bytes) : Prop := (∃ r, parse s = .ok r) ∧ ¬ Matches s []

theorem matches_iff (h : parse s = .ok r) : Matches s w ↔ w ∈ r.language := by
  refine ⟨fun ⟨r', hr', hw⟩ => ?_, fun hw => ⟨r, h, hw⟩⟩
  obtain rfl := Except.ok.inj (h.symm.trans hr')
  exact hw

/-- A byte that stands for itself, with repetitions after it, parses. -/
theorem parse_byte_repeated {b : UInt8} {u : Bytes} {q : Regex}
    (hb : b ∉ Grammar.special.map Byte.ofChar) (h : Grammar.Repeated (.byte b) u q) :
    parse (b :: u) = .ok (.pattern (.cat [q, .finish])) :=
  have hbyte : ∀ c ∈ Grammar.special, b ≠ Byte.ofChar c :=
    fun _ hc hbc => hb (hbc ▸ List.mem_map_of_mem hc)
  parse_eq_ok_iff.mpr ⟨q, .single (.single (.repeated (.symbol (.byte hbyte)) h)), rfl⟩

/-- What is parsed is a body, made into a complete pattern. -/
theorem exists_body_of_parse (h : parse s = .ok r) :
    ∃ body, body.isBody = true ∧ r = .pattern (.cat [body, .finish]) := by
  obtain ⟨body, hbody, rfl⟩ := parse_eq_ok_iff.mp h
  exact ⟨body, hbody.isBody, rfl⟩

theorem isPatternSet_of_parse (h : parse s = .ok r) : r.IsPatternSet := by
  obtain ⟨body, hbody, rfl⟩ := exists_body_of_parse h
  show ∀ r ∈ [body], r.isBody = true
  simpa using hbody

theorem complete_of_parse (h : parse s = .ok r) : r.complete = r := by
  obtain ⟨body, _, rfl⟩ := exists_body_of_parse h
  rfl

/-- Taken as a set of one pattern, what is parsed has its words under the number zero. -/
theorem exists_accepts_iff_matches (h : parse s = .ok r) : (∃ k, r.Accepts k w) ↔ Matches s w := by
  rw [matches_iff h]
  obtain ⟨body, _, rfl⟩ := exists_body_of_parse h
  simp [Regex.accepts_pattern_cat_finish]

theorem matches_byte {b : UInt8} (hb : b ∉ Grammar.special.map Byte.ofChar) :
    Matches [b] w ↔ w = [b] := by
  rw [matches_iff (parse_byte_repeated hb .nil), Regex.language_pattern_cat_finish,
    Regex.mem_language_byte]

theorem usable_byte {b : UInt8} (hb : b ∉ Grammar.special.map Byte.ofChar) : Usable [b] := by
  refine ⟨⟨_, parse_byte_repeated hb .nil⟩, fun hempty => ?_⟩
  cases (matches_byte hb).mp hempty

end Pattern

/-! ## The empty text -/

/-- A program accepts before it consumes a byte exactly if control passes to an `accept`. -/
theorem Program.matchesEmpty_iff (p : Program) :
    p.matchesEmpty = true ↔ ∃ pc k, p.Reach 0 pc ∧ p.pattern? pc = some k := by
  have hwf : (ThreadList.close p (.empty p.size) 0).WellFormed :=
    ThreadList.wellFormed_close (ThreadList.wellFormed_clear (.empty p.size)) 0
  have hclosed := ThreadList.closed_of_contains_eq_false (p := p) (ThreadList.contains_empty p.size)
  have hmem : ∀ pc, pc ∈ (ThreadList.close p (.empty p.size) 0).toList ↔
      pc < p.size ∧ p.Reach 0 pc :=
    fun pc => by
      rw [← ThreadList.contains_iff_mem hwf,
        ThreadList.contains_close (ThreadList.capacity_empty _) hclosed, ThreadList.contains_empty]
      simp
  rw [matchesEmpty, List.any_eq_true]
  simp only [hmem, Option.isSome_iff_exists]
  constructor
  · intro ⟨pc, ⟨_, hreach⟩, k, hk⟩
    exact ⟨pc, k, hreach, hk⟩
  · intro ⟨pc, k, hreach, hk⟩
    exact ⟨pc, ⟨lt_size_of_isKernelInst (isKernelInst_of_pattern? hk), hreach⟩, k, hk⟩

/-- A program accepts before it consumes a byte exactly if its first kernel accepts. -/
theorem Program.matchesEmpty_iff_kernelOf (p : Program) :
    p.matchesEmpty = true ↔ ∃ k, ∃ pc ∈ p.kernelOf [0], p.pattern? pc = some k := by
  simp only [matchesEmpty_iff, mem_kernelOf, List.mem_singleton, exists_eq_left]
  constructor
  · intro ⟨pc, k, hreach, hk⟩
    exact ⟨k, pc, ⟨hreach, isKernelInst_of_pattern? hk⟩, hk⟩
  · intro ⟨k, pc, ⟨hreach, _⟩, hk⟩
    exact ⟨pc, k, hreach, hk⟩

/-- A program of a pattern set accepts before it consumes a byte exactly if a pattern has the empty
    text. -/
theorem Program.IsCodeOf.matchesEmpty_iff {p : Program} {re : Regex}
    (h : p.IsCodeOf re.desugar.anchor (re.bodies.map Regex.desugar)) :
    p.matchesEmpty = true ↔ ∃ k, re.Accepts k [] := by
  rw [p.matchesEmpty_iff_kernelOf]
  refine exists_congr fun k => ?_
  simp [h.accepts_iff]

/-- A table of a pattern set accepts at its start exactly if a pattern has the empty text. -/
theorem Table.Recognizes.matchesEmpty_iff {t : Table} {re : Regex} (h : t.Recognizes re) :
    t.matchesEmpty = true ↔ ∃ k, re.Accepts k [] := by
  have hstart : ∀ k, t.accept? t.start = some k ↔ IsLeast {k | re.Accepts k []} k := h []
  rw [matchesEmpty, Option.isSome_iff_exists]
  exact (exists_congr hstart).trans exists_isLeast_iff

/-! ## Computations that can fail -/

namespace Told

variable {α β : Type} {a : Told α} {f : α → Told β}

theorem result_andThen_eq_ok_iff {y : β} :
    (a.andThen f).result = .ok y ↔ ∃ x, a.result = .ok x ∧ (f x).result = .ok y := by
  unfold andThen
  cases a.result <;> simp

theorem result_andThen_eq_error_iff {e : CompileError} :
    (a.andThen f).result = .error e ↔
      a.result = .error e ∨ ∃ x, a.result = .ok x ∧ (f x).result = .error e := by
  unfold andThen
  cases a.result <;> simp

/-- What comes after a success is all that counts. -/
theorem result_andThen {x : α} (h : a.result = .ok x) : (a.andThen f).result = (f x).result := by
  unfold andThen
  rw [h]

/-- Two computations that fail in the same way, or both succeed, have the same outcome. -/
theorem outcome_eq_of_error_iff {b : Told α} (h : ∀ e, a.result = .error e ↔ b.result = .error e) :
    (a.result.map fun _ => ()) = b.result.map fun _ => () := by
  cases hb : b.result with
  | error e =>
    rw [(h e).mpr hb]
  | ok _ =>
    cases ha : a.result with
    | error e => cases hb.symm.trans ((h e).mp ha)
    | ok _ => rfl

end Told

namespace Lexer

variable {options : LexerOptions} {index : Nat} {s : Bytes} {patterns : List Bytes} {r re : Regex}
  {rs : List Regex} {e : CompileError} {a : Automaton}

/-! ## Checking patterns -/

/-- What is wrong with the pattern of a number: it does not parse, for a cause, or it matches the
    empty text, and is told as a text with replacements where it is not UTF-8. -/
inductive Flaw (index : Nat) (s : Bytes) : CompileError → Prop
  | parse {cause : Pattern.ParseError} (h : Pattern.parse s = .error cause) :
    Flaw index s (.parse index cause)
  | empty (h : Pattern.Matches s []) : Flaw index s (.emptyPattern index (Text.ofBytesLossy s))

/-- The first pattern with a flaw in a list of patterns that are numbered from `index` on. -/
def FirstFlaw (index : Nat) (patterns : List Bytes) (e : CompileError) : Prop :=
  ∃ i s, patterns[i]? = some s ∧ Flaw (index + i) s e ∧
    ∀ j t, j < i → patterns[j]? = some t → Pattern.Usable t

theorem result_makeProgram (h : re.IsPatternSet) : ∃ p, (makeProgram re).result = .ok p ∧
    Program.ofRegex re = .ok p ∧ p.IsCodeOf re.desugar.anchor (re.bodies.map Regex.desugar) := by
  obtain ⟨p, hp, hcode⟩ := Program.exists_ofRegex_eq_ok h
  refine ⟨p, ?_, hp, hcode⟩
  rw [makeProgram, hp]

/-- Whatever a pattern is compiled to, it is found out whether it matches the empty text. -/
theorem exists_result_matchesEmpty (options : LexerOptions) (h : Pattern.parse s = .ok r) :
    ∃ isEmpty, (matchesEmpty options r).result = .ok isEmpty ∧
    (isEmpty = true ↔ Pattern.Matches s []) := by
  have hset := Pattern.isPatternSet_of_parse h
  simp only [← Pattern.exists_accepts_iff_matches h]
  unfold matchesEmpty
  cases options.backend with
  | threads =>
    obtain ⟨p, hp, _, hcode⟩ := result_makeProgram hset
    exact ⟨p.matchesEmpty, Told.result_andThen hp, hcode.matchesEmpty_iff⟩
  | table =>
    exact ⟨(Table.ofRegex r).matchesEmpty, rfl, (Table.recognizes_ofRegex hset).matchesEmpty_iff⟩

/-- A pattern passes the check: it parses, and does not match the empty text. -/
def Checked (s : Bytes) (r : Regex) : Prop := Pattern.parse s = .ok r ∧ ¬ Pattern.Matches s []

theorem result_checkPattern_eq_ok_iff :
    (checkPattern options index s).result = .ok r ↔ Checked s r := by
  unfold Checked
  cases hparse : Pattern.parse s with
  | error cause =>
    simp [checkPattern, Told.result_andThen_eq_ok_iff, parsePattern, hparse, Except.mapError]
  | ok q =>
    have hresult : (parsePattern options index s).result = .ok q := by
      simp [parsePattern, hparse, Except.mapError]
    obtain ⟨isEmpty, hempty, hiff⟩ := exists_result_matchesEmpty options hparse
    rw [checkPattern, Told.result_andThen hresult, Told.result_andThen hempty,
      ← hiff, Except.ok.injEq]
    cases isEmpty <;> simp [Told.fail, Told.done, Pattern.complete_of_parse hparse]

theorem result_checkPattern_eq_error_iff :
    (checkPattern options index s).result = .error e ↔ Flaw index s e := by
  cases hparse : Pattern.parse s with
  | error cause =>
    have hresult : (parsePattern options index s).result = .error (.parse index cause) := by
      simp [parsePattern, hparse, Except.mapError]
    rw [checkPattern, Told.result_andThen_eq_error_iff, hresult]
    constructor
    · rintro (h | ⟨_, h, _⟩)
      · obtain rfl := Except.error.inj h
        exact .parse hparse
      · cases h
    · rintro (h | ⟨_, h, _⟩)
      · obtain rfl := Except.error.inj (hparse.symm.trans h)
        exact .inl rfl
      · cases hparse.symm.trans h
  | ok q =>
    have hresult : (parsePattern options index s).result = .ok q := by
      simp [parsePattern, hparse, Except.mapError]
    -- A pattern that is parsed is at fault only if it matches the empty text.
    obtain ⟨isEmpty, hempty, hiff⟩ := exists_result_matchesEmpty options hparse
    rw [checkPattern, Told.result_andThen hresult, Told.result_andThen hempty]
    constructor
    · intro h
      cases isEmpty with
      | false => cases h
      | true =>
        obtain rfl := Except.error.inj h
        exact .empty (hiff.mp rfl)
    · rintro (h | h)
      · cases hparse.symm.trans h
      · rw [hiff.mpr h]
        rfl

/-- A pattern is usable if and only if nothing is wrong with it. -/
theorem usable_iff : Pattern.Usable s ↔ ∀ e, ¬ Flaw index s e := by
  cases hparse : Pattern.parse s with
  | error cause =>
    refine iff_of_false (fun ⟨⟨_, h⟩, _⟩ => ?_) fun h => h _ (.parse hparse)
    cases hparse.symm.trans h
  | ok r =>
    constructor
    · rintro ⟨_, hempty⟩ e (h | h)
      · cases hparse.symm.trans h
      · exact hempty h
    · exact fun h => ⟨⟨r, hparse⟩, fun hempty => h _ (.empty hempty)⟩

/-- Patterns are checked one by one. -/
theorem result_checkPatterns_eq_ok_iff :
    (checkPatterns options index patterns).result = .ok rs ↔ List.Forall₂ Checked patterns rs := by
  induction patterns generalizing index rs with
  | nil => simp [checkPatterns, Told.done, eq_comm]
  | cons s rest ih =>
    simp only [checkPatterns, Told.result_andThen_eq_ok_iff,
      result_checkPattern_eq_ok_iff, ih, Told.done, Except.ok.injEq, List.forall₂_cons_left_iff]
    constructor
    · rintro ⟨r, hr, rs', hrs, rfl⟩
      exact ⟨r, rs', hr, hrs, rfl⟩
    · rintro ⟨r, rs', hr, hrs, rfl⟩
      exact ⟨r, hr, rs', hrs, rfl⟩

theorem firstFlaw_cons_iff : FirstFlaw index (s :: patterns) e ↔
    Flaw index s e ∨ Pattern.Usable s ∧ FirstFlaw (index + 1) patterns e := by
  constructor
  · rintro ⟨_ | i, t, ht, hflaw, hbefore⟩
    · obtain rfl := Option.some.inj ht
      exact .inl hflaw
    · refine .inr ⟨hbefore 0 s (Nat.succ_pos i) rfl, i, t, ht, ?_, fun j u hj hu => ?_⟩
      · rwa [Nat.add_right_comm]
      · exact hbefore (j + 1) u (Nat.succ_lt_succ hj) hu
  · rintro (hflaw | ⟨hs, i, t, ht, hflaw, hbefore⟩)
    · exact ⟨0, s, rfl, hflaw, fun j _ hj => absurd hj (Nat.not_lt_zero j)⟩
    · refine ⟨i + 1, t, ht, ?_, fun j u hj hu => ?_⟩
      · rwa [Nat.add_right_comm] at hflaw
      · cases j with
        | zero => exact Option.some.inj hu ▸ hs
        | succ j => exact hbefore j u (Nat.lt_of_succ_lt_succ hj) hu

/-- Checking ends at the first pattern with a flaw. -/
theorem result_checkPatterns_eq_error_iff :
    (checkPatterns options index patterns).result = .error e ↔ FirstFlaw index patterns e := by
  induction patterns generalizing index with
  | nil => simp [checkPatterns, Told.done, FirstFlaw]
  | cons s rest ih =>
    rw [firstFlaw_cons_iff, ← ih, checkPatterns, Told.result_andThen_eq_error_iff,
      result_checkPattern_eq_error_iff]
    refine or_congr_right ?_
    simp only [result_checkPattern_eq_ok_iff, Told.result_andThen_eq_error_iff, Told.done,
      reduceCtorEq, and_false, exists_false, or_false]
    exact ⟨fun ⟨r, ⟨hr, hempty⟩, hrest⟩ => ⟨⟨⟨r, hr⟩, hempty⟩, hrest⟩,
      fun ⟨⟨⟨r, hr⟩, hempty⟩, hrest⟩ => ⟨r, ⟨hr, hempty⟩, hrest⟩⟩

/-! ## The set of the patterns -/

/-- The patterns of a set are those of a list, under the same numbers. -/
structure IsSetOf (re : Regex) (patterns : List Bytes) : Prop where
  isPatternSet : re.IsPatternSet
  accepts_iff : ∀ k w, re.Accepts k w ↔ ∃ s, patterns[k]? = some s ∧ Pattern.Matches s w

/-- The body of a pattern that parses. -/
def IsBodyOf (s : Bytes) (body : Regex) : Prop :=
  body.isBody = true ∧ ∀ w, Pattern.Matches s w ↔ w ∈ body.language

/-- Patterns that were parsed one by one have their bodies in the same order. -/
theorem exists_bodies (h : List.Forall₂ Checked patterns rs) :
    ∃ bs, rs.flatMap Regex.bodies = bs ∧ List.Forall₂ IsBodyOf patterns bs := by
  induction h with
  | nil => exact ⟨[], rfl, .nil⟩
  | @cons s r _ _ hr _ ih =>
    obtain ⟨bs, hbs, hall⟩ := ih
    obtain ⟨body, hbody, rfl⟩ := Pattern.exists_body_of_parse hr.1
    refine ⟨body :: bs, by rw [List.flatMap_cons, hbs]; rfl, .cons ⟨hbody, fun w => ?_⟩ hall⟩
    rw [Pattern.matches_iff hr.1, Regex.language_pattern_cat_finish]

theorem isSetOf_of_bodies (h : List.Forall₂ IsBodyOf patterns re.bodies) : IsSetOf re patterns where
  isPatternSet b hb := by
    obtain ⟨k, hk⟩ := List.mem_iff_getElem?.mp hb
    obtain ⟨hlt, rfl⟩ := List.getElem?_eq_some_iff.mp hk
    exact (h.get (h.length_eq ▸ hlt) hlt).1
  accepts_iff k w := by
    constructor
    · intro ⟨b, hb, hw⟩
      obtain ⟨hlt, rfl⟩ := List.getElem?_eq_some_iff.mp hb
      have hlt' : k < patterns.length := h.length_eq ▸ hlt
      exact ⟨_, List.getElem?_eq_getElem hlt', ((h.get hlt' hlt).2 w).mpr hw⟩
    · intro ⟨s, hs, hw⟩
      obtain ⟨hlt, rfl⟩ := List.getElem?_eq_some_iff.mp hs
      have hlt' : k < re.bodies.length := h.length_eq ▸ hlt
      exact ⟨_, List.getElem?_eq_getElem hlt', ((h.get hlt hlt').2 w).mp hw⟩

/-! ## Automata -/

/-- The automata that a set of patterns can be compiled to. -/
inductive IsAutomatonOf (re : Regex) : Automaton → Prop
  | program {p : Program} (h : Program.ofRegex re = .ok p) : IsAutomatonOf re (.program p)
  | table : IsAutomatonOf re (.table (.ofRegex re))
  | minimized : IsAutomatonOf re (.table (Table.ofRegex re).minimize)

/-- An automaton is made for every set of patterns. -/
theorem exists_result_makeAutomaton (options : LexerOptions) (h : re.IsPatternSet) :
    ∃ a, (makeAutomaton options re).result = .ok a ∧ IsAutomatonOf re a := by
  unfold makeAutomaton
  cases options.backend with
  | threads =>
    obtain ⟨p, hresult, hp, _⟩ := result_makeProgram h
    exact ⟨.program p, Told.result_andThen hresult, .program hp⟩
  | table =>
    refine ⟨_, rfl, ?_⟩
    cases options.minimize with
    | true => exact .minimized
    | false => exact .table

theorem exists_table_of_makeAutomaton (hbackend : options.backend = .table)
    (h : (makeAutomaton options re).result = .ok a) : ∃ t, a = .table t := by
  rw [makeAutomaton, hbackend] at h
  exact ⟨_, (Except.ok.inj h).symm⟩

/-- Patterns that pass the check are compiled to an automaton of their set. -/
theorem exists_result_compilePatterns (hne : patterns ≠ [])
    (h : (checkPatterns options 0 patterns).result = .ok rs) : ∃ a re,
      (compilePatterns options patterns).result = .ok a ∧ IsSetOf re patterns ∧
      IsAutomatonOf re a := by
  have hall := result_checkPatterns_eq_ok_iff.mp h
  have hrs : rs ≠ [] := by
    rintro rfl
    exact hne (List.forall₂_nil_right_iff.mp hall)
  obtain ⟨re, hre, hbodies⟩ := Regex.exists_joinPatterns_eq_some hrs
  obtain ⟨bs, hbs, hpatterns⟩ := exists_bodies hall
  have hset : IsSetOf re patterns := isSetOf_of_bodies (by rwa [hbodies, hbs])
  obtain ⟨a, ha, hauto⟩ := exists_result_makeAutomaton options hset.isPatternSet
  refine ⟨a, re, ?_, hset, hauto⟩
  rw [compilePatterns, Told.result_andThen h, Told.result_andThen (x := ()) rfl, hre]
  exact ha

theorem usable_of_checkPatterns (h : (checkPatterns options index patterns).result = .ok rs) :
    ∀ s ∈ patterns, Pattern.Usable s := by
  intro s hs
  obtain ⟨k, hk⟩ := List.mem_iff_getElem?.mp hs
  have hall := result_checkPatterns_eq_ok_iff.mp h
  obtain ⟨hlt, rfl⟩ := List.getElem?_eq_some_iff.mp hk
  obtain ⟨hparse, hempty⟩ := hall.get hlt (hall.length_eq ▸ hlt)
  exact ⟨⟨_, hparse⟩, hempty⟩

/-- A list of patterns is compiled if it is not empty and each of its patterns is usable. -/
theorem exists_result_compilePatterns_iff (hne : patterns ≠ []) :
    (∃ a, (compilePatterns options patterns).result = .ok a) ↔
      ∀ s ∈ patterns, Pattern.Usable s := by
  constructor
  · intro ⟨a, ha⟩
    obtain ⟨rs, hrs, _⟩ := Told.result_andThen_eq_ok_iff.mp ha
    exact usable_of_checkPatterns hrs
  · intro hall
    cases hcheck : (checkPatterns options 0 patterns).result with
    | ok rs =>
      obtain ⟨a, _, ha, _⟩ := exists_result_compilePatterns hne hcheck
      exact ⟨a, ha⟩
    | error e =>
      obtain ⟨i, s, hs, hflaw, _⟩ := result_checkPatterns_eq_error_iff.mp hcheck
      exact absurd hflaw (usable_iff.mp (hall s (List.mem_of_getElem? hs)) e)

/-- Compiling a list of patterns that is not empty fails with the flaw of the first pattern that has
    one. -/
theorem result_compilePatterns_eq_error_iff (hne : patterns ≠ []) :
    (compilePatterns options patterns).result = .error e ↔ FirstFlaw 0 patterns e := by
  rw [← @result_checkPatterns_eq_error_iff options]
  cases hcheck : (checkPatterns options 0 patterns).result with
  | error e' => rw [compilePatterns, Told.result_andThen_eq_error_iff, hcheck]; simp
  | ok rs =>
    obtain ⟨a, _, ha, _⟩ := exists_result_compilePatterns hne hcheck
    simp [ha]

theorem ne_nil_of_compilePatterns (h : (compilePatterns options patterns).result = .ok a) :
    patterns ≠ [] := by
  rintro rfl
  cases h

/-- What was compiled to a table is one. -/
theorem exists_table_of_compilePatterns (hbackend : options.backend = .table)
    (h : (compilePatterns options patterns).result = .ok a) : ∃ t, a = .table t := by
  obtain ⟨rs, _, hrest⟩ := Told.result_andThen_eq_ok_iff.mp h
  obtain ⟨_, _, hmake⟩ := Told.result_andThen_eq_ok_iff.mp hrest
  split at hmake
  · cases hmake
  · exact exists_table_of_makeAutomaton hbackend hmake

/-- What was compiled is an automaton of the set of the patterns, which are all usable. -/
theorem exists_of_compilePatterns (h : (compilePatterns options patterns).result = .ok a) :
    (∀ s ∈ patterns, Pattern.Usable s) ∧ ∃ re, IsSetOf re patterns ∧ IsAutomatonOf re a := by
  obtain ⟨rs, hrs, _⟩ := Told.result_andThen_eq_ok_iff.mp h
  have hne := ne_nil_of_compilePatterns h
  obtain ⟨a', re, ha', hset, hauto⟩ := exists_result_compilePatterns hne hrs
  obtain rfl := Except.ok.inj (h.symm.trans ha')
  exact ⟨usable_of_checkPatterns hrs, re, hset, hauto⟩

end Lexer

/-! ## Compiling a lexer -/

namespace Lexer

variable {σ τ : Type} {l : Lexer σ τ} {e : CompileError}

/-- The patterns of a lexer, in the order in which they were added. -/
def patterns (l : Lexer σ τ) : List Bytes := l.rules.map (·.pattern)

@[simp] theorem patterns_eq_nil_iff : l.patterns = [] ↔ l.rules = [] := List.map_eq_nil_iff

theorem result_compile_of_nil (h : l.rules = []) : l.compile.result = .error .noPatterns := by
  rw [compile, h, List.isEmpty_nil, if_pos rfl]
  rfl

/-- A lexer with rules that is not compiled is compiled to what its patterns are compiled to, and
stays the same otherwise. -/
theorem result_compile_of_ne_nil (hne : l.rules ≠ []) (h : l.isCompiled = false) :
    l.compile.result =
    (compilePatterns l.options l.patterns).result.map fun a => { l with automaton? := some a } := by
  rw [compile, List.isEmpty_eq_false_iff.mpr hne, h, if_neg Bool.false_ne_true,
    if_neg Bool.false_ne_true, patterns]
  unfold Told.andThen
  cases (compilePatterns l.options (l.rules.map (·.pattern))).result <;> rfl

theorem result_compile_of_isCompiled (hne : l.rules ≠ []) (h : l.isCompiled = true) :
    l.compile.result = .ok l := by
  rw [compile, List.isEmpty_eq_false_iff.mpr hne, h, if_neg Bool.false_ne_true, if_pos rfl]
  rfl

/-- Compiling changes nothing, or sets the automaton to what the patterns are compiled to. -/
theorem eq_or_of_result_compile {l' : Lexer σ τ} (h : l.compile.result = .ok l') : l' = l ∨
    ∃ a, (compilePatterns l.options l.patterns).result = .ok a ∧
    l' = { l with automaton? := some a } := by
  by_cases hnil : l.rules = []
  · cases (result_compile_of_nil hnil).symm.trans h
  · cases hcompiled : l.isCompiled with
    | true =>
      exact .inl (Except.ok.inj (h.symm.trans (result_compile_of_isCompiled hnil hcompiled)))
    | false =>
      rw [result_compile_of_ne_nil hnil hcompiled] at h
      cases ha : (compilePatterns l.options l.patterns).result with
      | error e =>
        rw [ha] at h
        cases h
      | ok a =>
        rw [ha] at h
        exact .inr ⟨a, rfl, (Except.ok.inj h).symm⟩

theorem exists_result_compile_iff (h : l.isCompiled = false) :
    (∃ l', l.compile.result = .ok l') ↔ l.patterns ≠ [] ∧ ∀ s ∈ l.patterns, Pattern.Usable s := by
  by_cases hnil : l.rules = []
  · simp [result_compile_of_nil hnil, hnil]
  · have hne : l.patterns ≠ [] := mt patterns_eq_nil_iff.mp hnil
    rw [and_iff_right hne, ← @exists_result_compilePatterns_iff l.options _ hne,
      result_compile_of_ne_nil hnil h]
    cases (compilePatterns l.options l.patterns).result <;> simp [Except.map]

theorem result_compile_eq_error_iff (h : l.isCompiled = false) : l.compile.result = .error e ↔
    l.patterns = [] ∧ e = .noPatterns ∨ l.patterns ≠ [] ∧ FirstFlaw 0 l.patterns e := by
  by_cases hnil : l.rules = []
  · rw [result_compile_of_nil hnil, Except.error.injEq, eq_comm]
    simp [hnil]
  · have hne : l.patterns ≠ [] := mt patterns_eq_nil_iff.mp hnil
    rw [← @result_compilePatterns_eq_error_iff l.options _ _ hne, result_compile_of_ne_nil hnil h]
    cases (compilePatterns l.options l.patterns).result <;> simp [Except.map, hnil]

/-- No pattern is to blame for the program that would be made of it. -/
theorem FirstFlaw.ne_draft {index : Nat} {patterns : List Bytes} (h : FirstFlaw index patterns e)
    (cause : Program.DraftError) : e ≠ .draft cause := by
  rintro rfl
  obtain ⟨_, _, _, hflaw, _⟩ := h
  cases hflaw

/-- Compiling a lexer that is not compiled succeeds exactly if it has a pattern and every pattern
parses and does not match the empty text. Otherwise there is no pattern, or the first pattern with a
flaw is named: it does not parse, and the cause is told, or it matches the empty text, and it is
told as a text. No program is ever to blame, and the outcome is the same with all options. -/
theorem result_compile (l : Lexer σ τ) (h : l.isCompiled = false) :
    ((∃ l', l.compile.result = .ok l') ↔ l.patterns ≠ [] ∧ ∀ s ∈ l.patterns, Pattern.Usable s) ∧
    (∀ e, l.compile.result = .error e ↔
      l.patterns = [] ∧ e = .noPatterns ∨ l.patterns ≠ [] ∧ FirstFlaw 0 l.patterns e) ∧
    (∀ cause, l.compile.result ≠ .error (.draft cause)) ∧
    ∀ options, (({ l with options } : Lexer σ τ).compile.result.map fun _ => ()) =
      l.compile.result.map fun _ => () := by
  refine ⟨exists_result_compile_iff h, fun e => result_compile_eq_error_iff h, ?_, ?_⟩
  · intro cause hcause
    obtain ⟨_, hne⟩ | ⟨_, hflaw⟩ := (result_compile_eq_error_iff h).mp hcause
    · cases hne
    · exact hflaw.ne_draft cause rfl
  · intro options
    have hother : ({ l with options } : Lexer σ τ).isCompiled = false := h
    exact Told.outcome_eq_of_error_iff fun e =>
      (result_compile_eq_error_iff hother).trans (result_compile_eq_error_iff h).symm

/-- Of `"a"`, `"a*"` and `"a?"` the second is the first pattern with a flaw. -/
theorem result_compile_repeated :
    let rule := fun pattern : Bytes =>
      (⟨pattern, fun state _ => .done ⟨state, .ok none⟩⟩ : Rule Unit Unit)
    let l : Lexer Unit Unit := ⟨[rule [97], rule [97, 42], rule [97, 63]], .standard, none⟩
    l.isCompiled = false ∧ l.compile.result = .error (.emptyPattern 1 "a*") ∧
    ∀ options, (({ l with options } : Lexer Unit Unit).compile.result.map fun _ => ()) =
      .error (.emptyPattern 1 "a*") := by
  intro rule l
  have hl : l.isCompiled = false := rfl
  have htext : Text.ofBytesLossy [97, 42] = "a*" := by decide +kernel
  have hflaw : FirstFlaw 0 l.patterns (.emptyPattern 1 "a*") := by
    rw [← htext]
    refine ⟨1, [97, 42], rfl, .empty ⟨_, Pattern.parse_byte_repeated (by decide) (.star .nil), ?_⟩,
      ?_⟩
    · rw [Regex.language_pattern_cat_finish]
      exact Language.nil_mem_kstar _
    · intro j t hj ht
      obtain rfl : j = 0 := Nat.lt_one_iff.mp hj
      obtain rfl : [97] = t := Option.some.inj ht
      exact Pattern.usable_byte (by decide)
  obtain ⟨_, herror, _, houtcome⟩ := result_compile l hl
  have hresult := (herror _).mpr (.inr ⟨List.cons_ne_nil _ _, hflaw⟩)
  refine ⟨hl, hresult, fun options => ?_⟩
  rw [houtcome, hresult]
  rfl

end Lexer

end Munch

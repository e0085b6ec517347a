import Munch.CommandLine.Outcome
import Munch.Proofs.Recovery

set_option autoImplicit false

/-! # What a scan of the command line prints

With some options a scan runs a table over the standard input as it comes, and with the others it
reads the input as a whole and runs a program over it. Both recover in the same way where no pattern
matches, so both make the same reports one after the other, print the same lines and leave the same
gaps. Which patterns can be compiled does not depend on the options either. So what a scan prints
and its exit status depend on the patterns and the bytes of the input alone
(`CommandLine.outcome_scan`). -/

namespace Munch

/-! ## Sets with the same patterns -/

section

variable {re re' : Regex} {text : Bytes} {tc : Nat}

/-- The tables of sets with the same patterns find the same. -/
theorem Table.find_ofRegex_congr (h : re.IsPatternSet) (h' : re'.IsPatternSet)
    (haccepts : ∀ k w, re.Accepts k w ↔ re'.Accepts k w) (htc : tc ≤ text.length) :
    (ofRegex re).find text tc = (ofRegex re').find text tc := by
  have hviable : ∀ w, re.Viable w ↔ re'.Viable w := fun w => by simp only [Regex.Viable, haccepts]
  have hdead : deadEnds re text tc = deadEnds re' text tc := by simp only [deadEnds, hviable]
  have hsame : re.Accepts = re'.Accepts := funext₂ fun k w => propext (haccepts k w)
  have hlongest := (hsame ▸ findsLongest_ofRegex h text tc).unique (findsLongest_ofRegex h' text tc)
  have hfail := (hdead ▸ fail_find_ofRegex h htc).unique (fail_find_ofRegex h' htc)
  exact congrArg₂ Finding.mk hlongest hfail

/-- From a cursor on, sets with the same patterns have the same course. -/
theorem Course.congr (h : re.IsPatternSet) (h' : re'.IsPatternSet)
    (haccepts : ∀ k w, re.Accepts k w ↔ re'.Accepts k w) {results : List (Except Unconsumed Match)}
    (hcourse : Course (reportOf re text) text.length tc results) :
    Course (reportOf re' text) text.length tc results := by
  induction hcourse with
  | ended => exact .ended
  | @goesOn tc results htc _ ih =>
    have hreport : reportOf re text tc = reportOf re' text tc := by
      rw [reportOf, reportOf, Table.find_ofRegex_congr h h' haccepts htc.le]
    rw [hreport] at ih ⊢
    exact .goesOn htc ih

end

/-! ## Rules that keep their matches -/

namespace CommandLine

open Lexer (IsSetOf IsAutomatonOf SourceScanner TextScanner)

/-- The rules of a run. -/
def Options.rules (o : Options) : List (Rule Unit Match) :=
  o.patterns.map fun p => ⟨Bytes.ofString p, keep⟩

theorem Options.lexer_eq (o : Options) :
    o.lexer = ⟨o.rules, ⟨o.format.backend, o.minimize, o.traceParse⟩, none⟩ := by
  let rule := fun p : String => (⟨Bytes.ofString p, keep⟩ : Rule Unit Match)
  suffices ∀ (patterns : List String) (before : List (Rule Unit Match)) (options : LexerOptions),
      patterns.foldl (fun l p => l.add (Bytes.ofString p) keep)
        (⟨before, options, none⟩ : Lexer Unit Match) =
        ⟨before ++ patterns.map rule, options, none⟩ from this o.patterns [] _
  intro patterns
  induction patterns with
  | nil => simp
  | cons p rest ih =>
    intro before options
    rw [List.map_cons, List.append_cons]
    exact ih (before ++ [rule p]) options

/-- A match has a rule, and the rule makes the match its own token. -/
def Keeps (rules : List (Rule Unit Match)) (m : Match) : Prop :=
  ∃ rule, rules[m.id]? = some rule ∧ rule.action = keep

theorem react_of_keeps {rules : List (Rule Unit Match)} {m : Match} (h : Keeps rules m) :
    Lexer.react rules () m = .done ⟨(), .ok (some m)⟩ := by
  obtain ⟨rule, hrule, haction⟩ := h
  rw [Lexer.react, hrule]
  simp only [haction, keep]

/-! ## Loops -/

/-- The matches of some results. -/
def matched (results : List (Except Unconsumed Match)) : List Match :=
  results.filterMap Except.toOption

/-- The gaps of some results. -/
def gaps (results : List (Except Unconsumed Match)) : List Unconsumed :=
  results.filterMap fun
    | .ok _ => none
    | .error u => some u

section

variable {κ : Type} {next : κ → Pull Match × κ} {moveOn : κ → Unconsumed → κ}

/-- A pull that gives a match or finds that nothing matches, after which the scan is moved on. -/
def pull (next : κ → Pull Match × κ) (moveOn : κ → Unconsumed → κ) (s : κ) :
    Option (Except ScanError Match) × κ :=
  match next s with
  | (.ended, s) | (.undecided, s) => (none, s)
  | (.token m, s) => (some (.ok m), s)
  | (.error (.unconsumed u), s) => (some (.error (.unconsumed u)), moveOn s u)
  | (.error e, s) => (some (.error e), s)

/-- A scan prints what a pull matched, keeps the place at which nothing matches, and goes on; it
    ends at the end and at any other error. -/
theorem report_succ (pulls : Nat) (s : κ) : report next moveOn (pulls + 1) s =
    let r := report next moveOn pulls (pull next moveOn s).2
    match (pull next moveOn s).1 with
    | none => ⟨[], [], none⟩
    | some (.ok m) => { r with lines := matchLine m :: r.lines }
    | some (.error (.unconsumed u)) => { r with gaps := u :: r.gaps }
    | some (.error e) => ⟨[], [], some e⟩ := by
  rw [report, pull]
  rcases next s with ⟨found, s'⟩
  cases found with
  | ended | undecided | token _ => rfl
  | error e => cases e <;> rfl

/-- A scan whose pulls follow reports prints the matches of their course, and is left with its
    gaps. -/
theorem report_eq {reportAt : Nat → Except Unconsumed Match} {length tc limit : Nat}
    {At : Nat → κ → Prop} {s : κ} {results : List (Except Unconsumed Match)}
    (hfollows : Follows reportAt length (.mapError .unconsumed) (pull next moveOn) At)
    (hcourse : Course reportAt length tc results) (hs : At tc s) (hlimit : results.length ≤ limit) :
    report next moveOn (limit + 1) s = ⟨(matched results).map matchLine, gaps results, none⟩ := by
  induction hcourse generalizing s limit with
  | ended =>
    rw [report_succ, hfollows.ended hs]
    rfl
  | @goesOn tc results htc _ ih =>
    obtain ⟨hsome, hnext⟩ := hfollows.goesOn htc hs
    -- One pull more than there are results is left for the end of the text.
    obtain ⟨limit, rfl⟩ :=
      Nat.exists_eq_add_of_le' (Nat.le_trans (Nat.succ_pos results.length) hlimit)
    have hrest := ih hnext (Nat.le_of_succ_le_succ hlimit)
    rw [report_succ, hsome]
    simp only [hrest]
    cases reportAt tc <;> rfl

end

/-- A pull of a scanner of a source whose rules keep what they match is a step of its stream. -/
theorem pull_source {κ : Type} [ByteSource κ] {s : SourceScanner Unit Match κ}
    (hkeeps : ∀ m, s.stream.step.1 = some (.ok m) → Keeps s.rules m) :
    pull (fun s => ((s.next () 1).1, (s.next () 1).2.1)) (fun s _ => s.skip 1) s =
      (s.stream.recover.1, ⟨s.rules, s.stream.recover.2⟩) := by
  rcases hstep : s.stream.step with ⟨_ | e | m, stream⟩
  · simp only [pull, SourceScanner.next, Stream.recover, hstep]
  · cases e <;> simp only [pull, SourceScanner.next, Stream.recover, hstep, SourceScanner.skip]
  · have hreact := react_of_keeps (hkeeps m (by rw [hstep]))
    simp only [pull, SourceScanner.next, Stream.recover, hstep, hreact, Reaction.run]

/-- A pull of a scanner of a text whose rules keep what they match is a step of its scan. -/
theorem pull_text {s : TextScanner Unit Match}
    (hkeeps : ∀ m, (s.scanner.step s.tc).1 = some (.ok m) → Keeps s.rules m) :
    let out := Scanner.recover (s.scanner, s.tc)
    pull (fun s => ((s.next () 1).1, (s.next () 1).2.1))
      (fun s u => { s with tc := u.start + 1 }) s =
        (out.1.map (.mapError .unconsumed), ⟨s.rules, out.2.1, out.2.2⟩) := by
  intro out
  rcases hstep : s.scanner.step s.tc with ⟨_ | u | m, scanner⟩
  · simp [pull, TextScanner.next, Scanner.recover, out, hstep]
  · simp [pull, TextScanner.next, Scanner.recover, out, hstep, Except.mapError, resume]
  · have hreact := react_of_keeps (hkeeps m (by rw [hstep]))
    simp [pull, TextScanner.next, Scanner.recover, out, hstep, hreact, Reaction.run,
      Except.mapError, resume]

section

variable {reportAt : Nat → Except Unconsumed Match} {length : Nat} {rules : List (Rule Unit Match)}
  (hkeeps : ∀ tc < length, ∀ m, reportAt tc = .ok m → Keeps rules m)

include hkeeps

/-- Pulls of a scanner of a source follow the reports that its stream follows. -/
theorem follows_source {κ : Type} [ByteSource κ] {At : Nat → Stream κ → Prop}
    (h : Follows reportAt length (.mapError .unconsumed) Stream.recover At) :
    Follows reportAt length (.mapError .unconsumed)
      (pull (fun s => ((s.next () 1).1, (s.next () 1).2.1)) fun s _ => s.skip 1)
      fun tc (s : SourceScanner Unit Match κ) => s.rules = rules ∧ At tc s.stream where
  ended := by
    rintro s ⟨rfl, hs⟩
    have hnone : s.stream.step.1 = none := h.ended hs
    rw [pull_source fun m hm => by cases hnone.symm.trans hm]
    exact hnone
  goesOn := by
    rintro tc s htc ⟨rfl, hs⟩
    obtain ⟨hsome, hnext⟩ := h.goesOn htc hs
    rw [pull_source fun m hm => ?_]
    · exact ⟨hsome, rfl, hnext⟩
    · have heq := Option.some.inj (hsome.symm.trans hm)
      cases hreport : reportAt tc with
      | ok m' =>
        rw [hreport] at heq
        obtain rfl := Except.ok.inj heq
        exact hkeeps tc htc _ hreport
      | error u =>
        rw [hreport] at heq
        cases heq

/-- Pulls of a scanner of a text follow the reports that its scan follows. -/
theorem follows_text {At : Nat → Scanner LexerEngine × Nat → Prop}
    (h : Follows reportAt length id Scanner.recover At) :
    Follows reportAt length (.mapError .unconsumed)
      (pull (fun s => ((s.next () 1).1, (s.next () 1).2.1)) fun s u => { s with tc := u.start + 1 })
      fun tc (s : TextScanner Unit Match) => s.rules = rules ∧ At tc (s.scanner, s.tc) where
  ended := by
    rintro s ⟨rfl, hs⟩
    have hnone : (s.scanner.step s.tc).1 = none := h.ended hs
    rw [pull_text fun m hm => by cases hnone.symm.trans hm]
    exact Option.map_eq_none_iff.mpr hnone
  goesOn := by
    rintro tc s htc ⟨rfl, hs⟩
    obtain ⟨hsome, hnext⟩ := h.goesOn htc hs
    rw [pull_text fun m hm => hkeeps tc htc m (Option.some.inj (hsome.symm.trans hm))]
    exact ⟨congrArg (Option.map _) hsome, rfl, hnext⟩

end

/-! ## Runs -/

section

variable {re : Regex} {l : Lexer Unit Match} {a : Automaton} {text : Bytes} {input : List Delivery}
  {results : List (Except Unconsumed Match)}

/-- If all rules of a lexer keep what they match, the matches that are reported are kept. -/
theorem keeps_of_reportOf (hset : IsSetOf re l.patterns)
    (hrules : ∀ rule ∈ l.rules, rule.action = keep) :
    ∀ tc < text.length, ∀ m, reportOf re text tc = .ok m → Keeps l.rules m := by
  intro tc htc m hm
  have hnames := hset.names (Table.of_report_eq_ok hset.isPatternSet hm).isLeast
  have hid : m.id < l.rules.length := by
    rw [← l.rules.length_map]
    exact hnames.id_lt
  exact ⟨_, List.getElem?_eq_getElem hid, hrules _ (List.getElem_mem hid)⟩

/-- Whatever a lexer is compiled to, a scan of an input comes to the same. -/
theorem scanInput_eq (ha : l.automaton? = some a) (hset : IsSetOf re l.patterns)
    (hauto : IsAutomatonOf re a) (husable : ∀ s ∈ l.patterns, Pattern.Usable s)
    (hrules : ∀ rule ∈ l.rules, rule.action = keep) (hsize : text.length < wordCount)
    (hcontents : Delivery.contents input = .ok text)
    (hcourse : Course (reportOf re text) text.length 0 results) :
    scanInput l input = .ok ⟨(matched results).map matchLine, gaps results, none⟩ := by
  have hkeeps : ∀ tc < text.length, ∀ m, reportOf re text tc = .ok m → Keeps l.rules m :=
    keeps_of_reportOf hset hrules
  have hlimit : results.length ≤ text.length := (hcourse.tiles hset.isPatternSet).length_le
  cases a with
  | table t =>
    have hstart := Lexer.accept?_start_eq_none hset hauto husable
    have hat := Reader.at_of_contents hcontents
    have hd : ByteSource.Delivers text none (Reader.At text none) := Reader.delivers hsize
    have hfollows := follows_source hkeeps (Stream.follows hauto hstart hd hsize)
    have hreach := hd.length_le_reach hat
    rw [Nat.zero_add] at hreach
    have htable : l.table? = some t := by rw [Lexer.table?, ha]
    rw [scanInput, htable, Option.isSome_some, if_pos rfl, Lexer.scanSource, ha]
    let s : SourceScanner Unit Match Reader := ⟨l.rules, .start t (.ofDeliveries input)⟩
    have hs : s.rules = l.rules ∧ s.stream.GoesOn _ t 0 := ⟨rfl, rfl, rfl, false, hat⟩
    exact congrArg Except.ok (report_eq hfollows hcourse hs (Nat.le_trans hlimit hreach))
  | program p =>
    obtain ⟨P, hP, hfind⟩ := hauto.exists_find hset.isPatternSet
    have hfollows := follows_text hkeeps (Scanner.follows fun e he => hfind e he text)
    have htable : l.table? = none := by rw [Lexer.table?, ha]
    rw [scanInput, htable, Option.isSome_none, if_neg Bool.false_ne_true, hcontents]
    simp only [Lexer.scanText, ha]
    let s : TextScanner Unit Match := ⟨l.rules, .start (Automaton.program p).engine text, 0⟩
    have hs : s.rules = l.rules ∧ s.tc = 0 ∧ s.scanner.GoesOn P text :=
      ⟨rfl, rfl, Scanner.goesOn_start hP text⟩
    exact congrArg Except.ok (report_eq hfollows hcourse hs hlimit)

end

variable {o : Options} {text : Bytes} {input : List Delivery} {re : Regex}
  {results : List (Except Unconsumed Match)}

theorem Options.patterns_lexer (o : Options) :
    o.lexer.patterns = o.patterns.map Bytes.ofString := by
  rw [o.lexer_eq, Lexer.patterns, rules, List.map_map]
  rfl

theorem Options.isCompiled_lexer (o : Options) : o.lexer.isCompiled = false := by
  rw [o.lexer_eq]
  rfl

/-- A run can be compiled if its patterns are usable, whatever its options are. -/
theorem Options.exists_result_compile_iff (hne : o.patterns ≠ []) :
    (∃ l, o.lexer.compile.result = .ok l) ↔
      ∀ s ∈ o.patterns, Pattern.Usable (Bytes.ofString s) := by
  rw [Lexer.exists_result_compile_iff o.isCompiled_lexer, o.patterns_lexer, List.forall_mem_map]
  exact and_iff_right (mt List.map_eq_nil_iff.mp hne)

/-- The lexer of a run with usable patterns is compiled to an automaton of their set. -/
theorem Options.exists_automaton (hne : o.patterns ≠ [])
    (husable : ∀ s ∈ o.patterns, Pattern.Usable (Bytes.ofString s)) : ∃ a re,
      o.lexer.compile.result = .ok { o.lexer with automaton? := some a } ∧
      IsSetOf re (o.patterns.map Bytes.ofString) ∧ IsAutomatonOf re a := by
  have hpatterns : o.lexer.patterns ≠ [] := by
    rw [o.patterns_lexer]
    exact mt List.map_eq_nil_iff.mp hne
  have hall : ∀ s ∈ o.lexer.patterns, Pattern.Usable s := by
    rwa [o.patterns_lexer, List.forall_mem_map]
  obtain ⟨a, ha⟩ := (@Lexer.exists_result_compilePatterns_iff o.lexer.options _ hpatterns).mpr hall
  obtain ⟨_, re, hset, hauto⟩ := Lexer.exists_of_compilePatterns ha
  refine ⟨a, re, ?_, o.patterns_lexer ▸ hset, hauto⟩
  rw [Lexer.result_compile_of_ne_nil (mt Lexer.patterns_eq_nil_iff.mpr hpatterns)
    o.isCompiled_lexer, ha]
  rfl

/-- A run whose patterns are not all usable prints nothing and fails. -/
theorem Options.outcome_of_not_usable (hne : o.patterns ≠ [])
    (h : ¬ ∀ s ∈ o.patterns, Pattern.Usable (Bytes.ofString s)) :
    (o.outcome input).status = 1 ∧ (o.outcome input).output = "" := by
  rw [← exists_result_compile_iff hne] at h
  cases hresult : o.lexer.compile.result with
  | error e =>
    rw [outcome, hresult]
    exact ⟨rfl, rfl⟩
  | ok l => exact absurd ⟨l, hresult⟩ h

/-- A scan with usable patterns prints the matches of the course of their set, and is left with its
    gaps. -/
theorem Options.outcome_of_usable (hscan : o.scan = true) (hne : o.patterns ≠ [])
    (husable : ∀ s ∈ o.patterns, Pattern.Usable (Bytes.ofString s))
    (hset : IsSetOf re (o.patterns.map Bytes.ofString))
    (hsize : text.length < wordCount) (hcontents : Delivery.contents input = .ok text)
    (hcourse : Course (reportOf re text) text.length 0 results) :
    o.outcome input = Report.outcome ⟨(matched results).map matchLine, gaps results, none⟩ := by
  obtain ⟨a, re', hresult, hset', hauto⟩ := exists_automaton hne husable
  have haccepts : ∀ k w, re.Accepts k w ↔ re'.Accepts k w := fun k w => by
    rw [hset.accepts_iff, hset'.accepts_iff]
  have hcourse' := hcourse.congr hset.isPatternSet hset'.isPatternSet haccepts
  let l : Lexer Unit Match := { o.lexer with automaton? := some a }
  have hpatterns : l.patterns = o.patterns.map Bytes.ofString := o.patterns_lexer
  have hrules : ∀ rule ∈ l.rules, rule.action = keep := by
    show ∀ rule ∈ o.lexer.rules, rule.action = keep
    rw [o.lexer_eq]
    exact List.forall_mem_map.mpr fun _ _ => rfl
  have hinput : scanInput l input = _ := scanInput_eq rfl (hpatterns ▸ hset') hauto
    (by rwa [hpatterns, List.forall_mem_map]) hrules hsize hcontents hcourse'
  rw [outcome, hresult]
  simp only [hscan, if_true]
  rw [hinput]

/-- What a scan of the command line prints and its exit status depend on the patterns and the bytes
    of the input alone, whatever its other options are and however the input arrives. If a pattern
    does not parse or matches the empty text, nothing is printed and the scan fails. Otherwise the
    matches of a scan that recovers are printed, which with the bytes skipped between them make up
    the input, and the scan succeeds if nothing was skipped. -/
theorem outcome_scan {patterns : List String} (hne : patterns ≠ []) {text : Bytes}
    (hsize : text.length < wordCount) :
    let usable := ∀ s ∈ patterns, Pattern.Usable (Bytes.ofString s)
    ∃ status output,
      (∀ (o : Options) (input : List Delivery), o.patterns = patterns → o.scan = true →
        Delivery.contents input = .ok text →
          ((∃ l, o.lexer.compile.result = .ok l) ↔ usable) ∧
          (o.outcome input).status = status ∧ (o.outcome input).output = output) ∧
      (¬ usable → status = 1 ∧ output = "") ∧
      (usable → ∃ re results, IsSetOf re (patterns.map Bytes.ofString) ∧ Tiles re text 0 results ∧
        output = String.join ((matched results).map matchLine) ∧
        (status = 0 ↔ gaps results = [])) := by
  intro usable
  by_cases husable : usable
  · let standard : Options := ⟨patterns, .table, true, false, true, 0⟩
    obtain ⟨_, re, _, hset, _⟩ := standard.exists_automaton hne husable
    obtain ⟨results, hcourse⟩ :=
      exists_course (fun tc htc => resume_reportOf hset.isPatternSet htc) (Nat.zero_le text.length)
    let r : Report := ⟨(matched results).map matchLine, gaps results, none⟩
    -- What is printed is fixed with these options, before any others are considered.
    refine ⟨r.outcome.status, r.outcome.output, ?_, fun h => absurd husable h, fun _ => ?_⟩
    · rintro o input rfl hscan hcontents
      rw [Options.outcome_of_usable hscan hne husable hset hsize hcontents hcourse]
      exact ⟨Options.exists_result_compile_iff hne, rfl, rfl⟩
    · refine ⟨re, results, hset, hcourse.tiles hset.isPatternSet, rfl, ?_⟩
      rw [Report.outcome]
      cases hgaps : gaps results <;> simp [r, hgaps]
  · refine ⟨1, "", ?_, fun _ => ⟨rfl, rfl⟩, fun h => absurd h husable⟩
    rintro o input rfl hscan hcontents
    exact ⟨Options.exists_result_compile_iff hne, Options.outcome_of_not_usable hne husable⟩

/-- Two scans with the pattern `a`, one with a program over the whole input and one with a table
    that is not minimized over its pieces. -/
theorem outcome_scan_formats :
    let whole : Options := ⟨["a"], .program, true, false, true, 0⟩
    let pieces : Options := ⟨["a"], .table, false, true, true, 0⟩
    let text : Bytes := [97, 98, 97]
    (["a"] : List String) ≠ [] ∧ text.length < wordCount ∧
      (pieces.outcome [.data [97], .interrupt, .data [98, 97]]).output =
        (whole.outcome [.data text]).output ∧
      (pieces.outcome [.data [97], .interrupt, .data [98, 97]]).status =
        (whole.outcome [.data text]).status := by
  intro whole pieces text
  have hne : (["a"] : List String) ≠ [] := List.cons_ne_nil _ _
  have hsize : text.length < wordCount := by decide
  obtain ⟨status, output, hall, _⟩ := outcome_scan hne hsize
  obtain ⟨_, hstatus, houtput⟩ := hall whole [.data text] rfl rfl rfl
  obtain ⟨_, hstatus', houtput'⟩ := hall pieces [.data [97], .interrupt, .data [98, 97]] rfl rfl rfl
  exact ⟨hne, hsize, houtput'.trans houtput.symm, hstatus'.trans hstatus.symm⟩

end CommandLine

end Munch

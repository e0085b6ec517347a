import Munch.Proofs.Engines
import Munch.Proofs.InStep

set_option autoImplicit false

/-! # Scanning with recovery

A scan that recovers goes on from the end of a match, and one byte after the start of a place at
which no pattern matches. It gets further with each result, so it comes to the end of the text, and
its results lie end to end: the matches, with the single bytes that were skipped between them, make
up the text (`Tiles`). Every engine of a pattern set gives the same results, and so does every
stream whose table does not accept the empty text (`exists_tiles`).

What an engine reports at a cursor does not depend on the way there. So the results are a `Course`
of reports, which any loop follows that makes these reports and moves on as they say
(`Follows.drain_eq`). -/

namespace Munch

variable {re : Regex} {text : Bytes} {tc : Nat} {results : List (Except Unconsumed Match)}

/-! ## Results that lie end to end -/

/-- A place in a text at which no pattern has a word that is not empty: it ends at the first byte
    after which no pattern can go on, or with the text. -/
structure Unconsumed.IsGap (re : Regex) (text : Bytes) (tc : Nat) (u : Unconsumed) : Prop where
  start_eq : u.start = tc
  not_mem_matchEnds : ∀ e, e ∉ Table.matchEnds re text tc
  isLeast : IsLeast (Table.deadEnds re text tc) u.fail
  text_eq : u.text = text.slice tc (u.fail + 1)

/-- Results from a cursor to the end of a text. A match starts where the results before it end, and
    so does a gap, of which one byte counts. -/
inductive Tiles (re : Regex) (text : Bytes) : (tc : Nat) → List (Except Unconsumed Match) → Prop
  | ended : Tiles re text text.length []
  | matched {tc : Nat} {m : Match} {results : List (Except Unconsumed Match)}
      (h : m.IsLongest re text tc) (rest : Tiles re text m.stop results) :
      Tiles re text tc (.ok m :: results)
  | skipped {tc : Nat} {u : Unconsumed} {results : List (Except Unconsumed Match)}
      (htc : tc < text.length) (h : u.IsGap re text tc) (rest : Tiles re text (tc + 1) results) :
      Tiles re text tc (.error u :: results)

/-- The bytes of a text that a result passes: those of a match, or the first of a gap. -/
def passed (text : Bytes) : Except Unconsumed Match → Bytes
  | .ok m => m.bytes
  | .error u => text.slice u.start (u.start + 1)

theorem Bytes.slice_append_drop (text : Bytes) {a b : Nat} (h : a ≤ b) :
    text.slice a b ++ text.drop b = text.drop a := by
  rw [slice, ← Nat.add_sub_cancel' h, ← List.drop_drop, Nat.add_sub_cancel_left,
    List.take_append_drop]

namespace Tiles

/-- The bytes that the results pass are those from the cursor on. -/
theorem flatMap_passed (h : Tiles re text tc results) :
    results.flatMap (passed text) = text.drop tc := by
  induction h with
  | ended => rw [List.drop_length, List.flatMap_nil]
  | @matched tc m _ h _ ih =>
    rw [List.flatMap_cons, ih, passed, h.bytes_eq]
    exact text.slice_append_drop h.isGreatest.1.1.le
  | @skipped tc u _ _ h _ ih =>
    rw [List.flatMap_cons, ih, passed, h.start_eq]
    exact text.slice_append_drop (Nat.le_succ tc)

/-- Each result passes a byte at least. -/
theorem length_le (h : Tiles re text tc results) : results.length ≤ text.length - tc := by
  induction h with
  | ended => exact Nat.zero_le _
  | @matched tc m results h _ ih =>
    obtain ⟨hlt, hle, _⟩ := h.isGreatest.1
    rw [List.length_cons]
    omega
  | skipped =>
    rw [List.length_cons]
    omega

theorem bytes_ne_nil (h : Tiles re text tc results) {m : Match} (hm : .ok m ∈ results) :
    m.bytes ≠ [] := by
  induction h with
  | ended => cases hm
  | @matched tc m' _ h _ ih =>
    rcases List.mem_cons.mp hm with hm | hm
    · obtain rfl := Except.ok.inj hm
      have hlt : tc < m.tc + m.bytes.length := h.isGreatest.1.1
      have htc := h.tc_eq
      rw [← List.length_pos_iff]
      omega
    · exact ih hm
  | skipped _ _ _ ih =>
    rcases List.mem_cons.mp hm with hm | hm
    · cases hm
    · exact ih hm

end Tiles

/-! ## Courses -/

/-- Where a scan goes on after a result. -/
def resume : Except Unconsumed Match → Nat
  | .ok m => m.stop
  | .error u => u.start + 1

/-- What is reported from a cursor on, if each report says where to go on, until that is the end. -/
inductive Course (report : Nat → Except Unconsumed Match) (length : Nat) :
    (tc : Nat) → List (Except Unconsumed Match) → Prop
  | ended : Course report length length []
  | goesOn {tc : Nat} {results : List (Except Unconsumed Match)} (htc : tc < length)
      (rest : Course report length (resume (report tc)) results) :
      Course report length tc (report tc :: results)

/-- If each report gets further, but not past the end, there is a course from every cursor. -/
theorem exists_course {report : Nat → Except Unconsumed Match} {length : Nat}
    (h : ∀ tc < length, tc < resume (report tc) ∧ resume (report tc) ≤ length) (htc : tc ≤ length) :
    ∃ results, Course report length tc results := by
  induction hn : length - tc using Nat.strong_induction_on generalizing tc with
  | h n ih =>
    rcases Nat.lt_or_eq_of_le htc with hlt | rfl
    · obtain ⟨hlt', hle⟩ := h tc hlt
      obtain ⟨results, hcourse⟩ := ih (length - resume (report tc)) (by omega) hle rfl
      exact ⟨_, .goesOn hlt hcourse⟩
    · exact ⟨[], .ended⟩

section

variable {κ ρ : Type} {report : Nat → Except Unconsumed Match} {length limit : Nat}
  {f : Except Unconsumed Match → ρ} {next : κ → Option ρ × κ} {At : Nat → κ → Prop} {s : κ}

/-- What is returned until nothing is returned, if that is so after at most `limit` results. -/
def drain (next : κ → Option ρ × κ) : (limit : Nat) → κ → Option (List ρ)
  | 0, s => if (next s).1.isNone then some [] else none
  | limit + 1, s =>
    match (next s).1 with
    | none => some []
    | some r => (drain next limit (next s).2).map (r :: ·)

/-- A loop follows reports: from a cursor before the end it returns the report there, and comes to
    where the report says to go on; at the end it returns nothing. -/
structure Follows (report : Nat → Except Unconsumed Match) (length : Nat)
    (f : Except Unconsumed Match → ρ) (next : κ → Option ρ × κ) (At : Nat → κ → Prop) : Prop where
  ended : ∀ {s}, At length s → (next s).1 = none
  goesOn : ∀ {tc s}, tc < length → At tc s →
    (next s).1 = some (f (report tc)) ∧ At (resume (report tc)) (next s).2

/-- A loop that follows reports returns those of their course. -/
theorem Follows.drain_eq (h : Follows report length f next At)
    (hcourse : Course report length tc results) (hs : At tc s) (hlimit : results.length ≤ limit) :
    drain next limit s = some (results.map f) := by
  induction hcourse generalizing s limit with
  | ended =>
    have hnone := h.ended hs
    cases limit with
    | zero => rw [drain, hnone, Option.isNone_none, if_pos rfl, List.map_nil]
    | succ limit => rw [drain, hnone, List.map_nil]
  | @goesOn tc results htc _ ih =>
    obtain ⟨hsome, hnext⟩ := h.goesOn htc hs
    cases limit with
    | zero => simp at hlimit
    | succ limit =>
      rw [drain, hsome, List.map_cons]
      simp only [ih hnext (Nat.le_of_succ_le_succ hlimit), Option.map_some]

end

/-! ## Reports of a table -/

/-- Where a table of a set reports no match, there is a gap. -/
theorem Table.of_report_eq_error {u : Unconsumed} (h : re.IsPatternSet) (htc : tc < text.length)
    (hu : Scanner.report text tc ((ofRegex re).find text tc) = .error u) : u.IsGap re text tc := by
  rw [Scanner.report] at hu
  cases hfound : ((ofRegex re).find text tc).longest? with
  | none =>
    rw [hfound] at hu
    obtain rfl := Except.error.inj hu
    exact ⟨rfl, (findsLongest_ofRegex h text tc).of_none hfound, fail_find_ofRegex h htc.le, rfl⟩
  | some found =>
    rw [hfound] at hu
    cases hu

/-- What the table of a set reports at an offset of a text. -/
def reportOf (re : Regex) (text : Bytes) (tc : Nat) : Except Unconsumed Match :=
  Scanner.report text tc ((Table.ofRegex re).find text tc)

theorem resume_reportOf (h : re.IsPatternSet) (htc : tc < text.length) :
    tc < resume (reportOf re text tc) ∧ resume (reportOf re text tc) ≤ text.length := by
  cases hreport : reportOf re text tc with
  | ok m =>
    obtain ⟨hlt, hle, _⟩ := (Table.of_report_eq_ok h hreport).isGreatest.1
    exact ⟨hlt, hle⟩
  | error u =>
    rw [resume, (Table.of_report_eq_error h htc hreport).start_eq]
    exact ⟨Nat.lt_succ_self tc, htc⟩

theorem Course.tiles (h : re.IsPatternSet)
    (hcourse : Course (reportOf re text) text.length tc results) : Tiles re text tc results := by
  induction hcourse with
  | ended => exact .ended
  | @goesOn tc results htc _ ih =>
    cases hreport : reportOf re text tc with
    | ok m =>
      rw [hreport] at ih
      exact .matched (Table.of_report_eq_ok h hreport) ih
    | error u =>
      have hgap := Table.of_report_eq_error h htc hreport
      rw [hreport, resume, hgap.start_eq] at ih
      exact .skipped htc hgap ih

/-! ## Loops -/

/-- A step of a scan at a cursor, and the cursor from which the scan goes on. -/
def Scanner.recover {ε : Type} [Engine ε] (s : Scanner ε × Nat) :
    Option (Except Unconsumed Match) × Scanner ε × Nat :=
  let (result?, scanner) := s.1.step s.2
  (result?, scanner, (result?.map resume).getD s.2)

/-- A step of a stream, after which a byte is skipped if no pattern matches. -/
def Stream.recover {σ : Type} [ByteSource σ] (s : Stream σ) :
    Option (Except ScanError Match) × Stream σ :=
  let (result?, s) := s.step
  (result?, match result? with
    | some (.error (.unconsumed _)) => s.skip 1
    | _ => s)

theorem Scanner.start_of_report_eq_error {found : Finding} {u : Unconsumed}
    (h : report text tc found = .error u) : u.start = tc := by
  unfold report at h
  split at h
  · cases h
  · obtain rfl := Except.error.inj h
    rfl

/-- A scan that recovers follows the reports of the table of a set, if engines with a property find
    what the table finds, and keep the property. -/
theorem Scanner.follows {ε : Type} [Engine ε] {P : ε → Prop}
    (hfind : ∀ e, P e → ∀ tc,
      (Engine.find e text tc).1 = (Table.ofRegex re).find text tc ∧ P (Engine.find e text tc).2) :
    Follows (reportOf re text) text.length id recover
      fun tc (s : Scanner ε × Nat) => s.2 = tc ∧ s.1.GoesOn P text where
  ended := by
    rintro ⟨scanner, _⟩ ⟨rfl, hgoes⟩
    exact (scanner.finished_step (by rw [hgoes.text_eq])).1
  goesOn := by
    rintro _ ⟨scanner, tc⟩ htc ⟨rfl, hgoes⟩
    obtain ⟨hstep, hnext⟩ := hgoes.step hfind htc
    refine ⟨hstep, ?_, hnext⟩
    show (((scanner.step tc).1.map resume).getD tc) = _
    rw [hstep, Option.map_some, Option.getD_some, reportOf]

/-- A stream that recovers follows the reports of the table of a set, if it has a table of the set
    that does not accept at its start. -/
theorem Stream.follows {σ : Type} [ByteSource σ] {At : Nat → Bool → σ → Prop} {t : Table}
    (hauto : Lexer.IsAutomatonOf re (.table t)) (hstart : t.accept? t.start = none)
    (hd : ByteSource.Delivers text none At) (hsize : text.length < wordCount) :
    Follows (reportOf re text) text.length (Except.mapError .unconsumed) recover
      fun tc (s : Stream σ) => s.GoesOn At t tc where
  ended := by
    rintro s ⟨_, hfin, seen, hat⟩
    exact (step_of_end hd hat hfin).1
  goesOn := by
    intro tc s htc hgoes
    have hstep := hgoes.step_of_start hd hsize htc hstart
    rw [hauto.find_eq, ← reportOf] at hstep
    cases hreport : reportOf re text tc with
    | ok m =>
      rw [hreport] at hstep
      refine ⟨hstep.1, ?_⟩
      simp only [recover, hstep.1]
      exact hstep.2
    | error u =>
      have htc' : u.start = tc := Scanner.start_of_report_eq_error hreport
      rw [hreport] at hstep
      have hnext := hstep.2.skip hd 1
      rw [Nat.min_eq_left htc] at hnext
      refine ⟨hstep.1, ?_⟩
      simp only [recover, hstep.1, resume, htc']
      exact hnext

/-- A scan that recovers returns what the table of the set reports, if its engine finds what the
    table finds. -/
theorem Scanner.drain_recover {ε : Type} [Engine ε] {engine : ε} (hsteady : Engine.Steady engine)
    (hfind : ∀ tc, (Engine.find engine text tc).1 = (Table.ofRegex re).find text tc)
    (hcourse : Course (reportOf re text) text.length 0 results)
    (hlimit : results.length ≤ text.length) :
    drain recover text.length (start engine text, 0) = some results := by
  obtain ⟨P, hP, hkeeps⟩ := hsteady
  have hkept : ∀ e, P e → ∀ tc, (Engine.find e text tc).1 = (Table.ofRegex re).find text tc ∧
      P (Engine.find e text tc).2 := fun e he tc =>
    ⟨(hkeeps e he text tc).1.trans (hfind tc), (hkeeps e he text tc).2⟩
  let s : Scanner ε × Nat := (start engine text, 0)
  have hs : s.2 = 0 ∧ s.1.GoesOn P text := ⟨rfl, goesOn_start hP text⟩
  have hdrain := (Scanner.follows hkept).drain_eq hcourse hs hlimit
  rwa [List.map_id] at hdrain

/-- A stream that recovers returns the same, if its source delivers the text. -/
theorem Stream.drain_recover {σ : Type} [ByteSource σ] {At : Nat → Bool → σ → Prop}
    {t : Table} {source : σ} (hauto : Lexer.IsAutomatonOf re (.table t))
    (hstart : t.accept? t.start = none) (hd : ByteSource.Delivers text none At)
    (hsize : text.length < wordCount) (hat : At 0 false source)
    (hcourse : Course (reportOf re text) text.length 0 results)
    (hlimit : results.length ≤ text.length) :
    drain recover text.length (start t source) = some (results.map (.mapError .unconsumed)) :=
  (Stream.follows hauto hstart hd hsize).drain_eq hcourse ⟨rfl, rfl, false, hat⟩ hlimit

/-- Scanning with recovery comes to an end after as many results as the text has bytes at most, and
    its results lie end to end: together, the matches, none of which is empty, and the bytes that
    were skipped at the gaps are the text. The results are the same with the program of a pattern
    set, run with threads; with its deterministic program, run with threads or by following its one
    thread; with its table, minimized or not; and with streams over a text in memory or a reader
    that brings it, if the start state of their table does not accept. -/
theorem exists_tiles (h : re.IsPatternSet) : ∃ p runner, Program.ofRegex re = .ok p ∧
    Runner.ofProgram? p.toDeterministic = some runner ∧ ∀ text : Bytes, ∃ results,
      Tiles re text 0 results ∧ results.length ≤ text.length ∧
      (∀ m, .ok m ∈ results → m.bytes ≠ []) ∧ results.flatMap (passed text) = text ∧
      drain Scanner.recover text.length (.start (Simulator.ofProgram p) text, 0) = some results ∧
      drain Scanner.recover text.length (.start (Simulator.ofProgram p.toDeterministic) text, 0) =
        some results ∧ drain Scanner.recover text.length (.start runner text, 0) = some results ∧
      (∀ t, Lexer.IsAutomatonOf re (.table t) →
        drain Scanner.recover text.length (.start t text, 0) = some results ∧
        (text.length < wordCount → t.accept? t.start = none →
          let answers := results.map (Except.mapError ScanError.unconsumed)
          drain Stream.recover text.length (.start t (Slice.ofText text)) = some answers ∧
          ∀ deliveries, Delivery.contents deliveries = .ok text →
            drain Stream.recover text.length (.start t (Reader.ofDeliveries deliveries)) =
              some answers)) := by
  obtain ⟨p, runner, hp, hrunner, hfind⟩ := exists_find_eq h
  refine ⟨p, runner, hp, hrunner, fun text => ?_⟩
  -- All engines find the same, so they go through the text on one and the same course.
  obtain ⟨results, hcourse⟩ :=
    exists_course (fun tc htc => resume_reportOf h htc) (Nat.zero_le text.length)
  have htiles := hcourse.tiles h
  have hlimit : results.length ≤ text.length := htiles.length_le
  refine ⟨results, htiles, hlimit, fun m hm => htiles.bytes_ne_nil hm,
    htiles.flatMap_passed, ?_, ?_, ?_, ?_⟩
  · exact Scanner.drain_recover (Simulator.steady p) (fun tc => (hfind text tc).1) hcourse hlimit
  · exact Scanner.drain_recover (Simulator.steady _) (fun tc => (hfind text tc).2.1) hcourse hlimit
  · exact Scanner.drain_recover runner.steady (fun tc => (hfind text tc).2.2.1) hcourse hlimit
  · intro t hauto
    refine ⟨Scanner.drain_recover t.steady (hauto.find_eq text) hcourse hlimit,
      fun hsize hstart => ⟨?_, ?_⟩⟩
    · exact Stream.drain_recover hauto hstart (Slice.delivers hsize) hsize
        (Slice.at_ofText text) hcourse hlimit
    · intro deliveries hcontents
      have hat := Reader.at_of_contents hcontents
      exact Stream.drain_recover hauto hstart (Reader.delivers hsize) hsize hat hcourse hlimit

/-- A byte that no pattern matches is skipped between two matches, by a scan of the text as by a
    stream over a reader. -/
theorem exists_tiles_gap :
    let re : Regex := .pattern (.cat [.byte 97, .finish])
    let text : Bytes := [97, 98, 97]
    let deliveries : List Delivery := [.data [97], .interrupt, .data [98, 97]]
    re.IsPatternSet ∧ ∃ results, Tiles re text 0 results ∧ results.flatMap (passed text) = text ∧
      drain Scanner.recover 3 (.start (Table.ofRegex re) text, 0) = some results ∧
      drain Stream.recover 3 (.start (Table.ofRegex re) (Reader.ofDeliveries deliveries)) =
        some (results.map (.mapError .unconsumed)) := by
  intro re text deliveries
  have h : re.IsPatternSet := by decide
  have hsize : text.length < wordCount := by decide
  have hcontents : Delivery.contents deliveries = .ok text := rfl
  have hstart : (Table.ofRegex re).accept? (Table.ofRegex re).start = none := by
    rw [Option.eq_none_iff_forall_ne_some]
    intro k hk
    obtain ⟨_, hempty⟩ :=
      Regex.accepts_pattern_cat_finish.mp ((Table.recognizes_ofRegex h [] k).mp hk).1
    cases Regex.mem_language_byte.mp hempty
  obtain ⟨p, runner, _, _, hall⟩ := exists_tiles h
  obtain ⟨results, htiles, _, _, hpassed, _, _, _, htables⟩ := hall text
  obtain ⟨hscan, hstreams⟩ := htables _ .table
  exact ⟨h, results, htiles, hpassed, hscan, (hstreams hsize hstart).2 deliveries hcontents⟩

end Munch

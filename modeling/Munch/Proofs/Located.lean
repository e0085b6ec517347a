import Munch.Proofs.LookAhead
import Munch.Proofs.Resumption

set_option autoImplicit false

/-! # All positions are those of the text

A tracker that is asked for offsets in any order answers with their positions in the text
(`Tracker.answers_start`), also past the end of the text.

So what a scan or a stream returns is located: the positions that come with a match or with
unconsumed input are those of its offsets in the text, and its bytes are those of the text between
them (`Match.Located`, `Unconsumed.Located`). An engine that finds nothing outside of the text
(`Finding.Within`) and whose state does not change what it finds has located steps, whatever steps
were made before (`Scanner.locatesSteps_of_steady`). A stream works the positions out on its own,
from where its source is; it returns what a scan would report, so its replies are located in the
text that the source delivers (`Stream.StandsAt.located_replies`). -/

namespace Munch

/-! ## Trackers -/

theorem lt_maxWord_iff {n : Nat} : n < maxWord ↔ n + 1 < wordCount := by
  have hpos : 0 < UInt64.size := by decide
  unfold maxWord wordCount
  omega

namespace Tracker

variable {text : Bytes} {n : Nat}

/-- The positions that a tracker answers with when it is asked for offsets, one after the other. -/
def answers (text : Bytes) : Tracker → List Nat → List Position
  | _, [] => []
  | t, n :: rest => (t.seek text n).position :: answers text (t.seek text n) rest

/-- Seeking an offset comes to its position, also past the end of the text. -/
theorem position_seek_eq_lineColumn (h : n < maxWord) :
    (start.seek text n).position = lineColumn text n := by
  rw [lt_maxWord_iff] at h
  rcases Nat.le_total n text.length with hle | hle
  · rw [position_seek hle, position_along hle h]
  -- Past the end all of the text is gone through, and the columns go on.
  · have hoffset : start.offset = 0 := rfl
    have htake : text.take n = text := List.take_of_length_le hle
    obtain ⟨hline, hcolumn⟩ := Position.mk.inj (position_advanceAll_start (w := text) (by omega))
    have hstart : lastLineStart text ≤ text.length := Nat.sub_le _ _
    rw [seek_of_le (Nat.zero_le n), hoffset, text.slice_zero, htake, lineColumn, htake,
      position, hline, hcolumn, addWord_of_lt (by omega), addWord_of_lt (by omega)]
    show Position.mk _ (text.length - lastLineStart text + 1 + (n - 0 - text.length)) = _
    congr 1
    omega

/-- Wherever it was before, a tracker answers with the positions of the offsets. -/
theorem answers_seek (text : Bytes) {offsets : List Nat}
    (h : ∀ n ∈ offsets, n < maxWord) (a : Nat) :
    answers text (start.seek text a) offsets = offsets.map (lineColumn text) := by
  induction offsets generalizing a with
  | nil => rfl
  | cons n rest ih =>
    rw [answers, seek_seek, position_seek_eq_lineColumn (h n List.mem_cons_self),
      ih (fun m hm => h m (List.mem_cons_of_mem n hm)) n, List.map_cons]

/-- A new tracker answers with the positions of the offsets. -/
theorem answers_start (text : Bytes) {offsets : List Nat} (h : ∀ n ∈ offsets, n < maxWord) :
    start.answers text offsets = offsets.map (lineColumn text) :=
  answers_seek text h 0

end Tracker

/-! ## What is located -/

/-- A match has the positions of its first and its last byte, and its bytes are those of the
    text. -/
structure Match.Located (text : Bytes) (m : Match) : Prop where
  first_eq : m.first = lineColumn text m.tc
  last_eq : m.last = lineColumn text (m.stop - 1)
  bytes_eq : m.bytes = text.slice m.tc m.stop
  tc_lt_stop : m.tc < m.stop
  stop_le : m.stop ≤ text.length

/-- Unconsumed input has the positions of where the scan started and failed, and its bytes are those
    from the one through the other, as far as the text goes. -/
structure Unconsumed.Located (text : Bytes) (u : Unconsumed) : Prop where
  startPosition_eq : u.startPosition = lineColumn text u.start
  failPosition_eq : u.failPosition = lineColumn text u.fail
  text_eq : u.text = text.slice u.start (u.fail + 1)
  start_le_fail : u.start ≤ u.fail
  fail_le : u.fail ≤ text.length

/-- What is found from a cursor on lies within the text: a match ends after the cursor, and nothing
    is past the end. -/
structure Finding.Within (text : Bytes) (tc : Nat) (found : Finding) : Prop where
  le_fail : tc ≤ found.fail
  fail_le : found.fail ≤ text.length
  stop_bounds : ∀ m ∈ found.longest?, tc < m.2 ∧ m.2 ≤ text.length

namespace Scanner

/-- What a step at a cursor returns is located there. -/
def Located (text : Bytes) (tc : Nat) : Except Unconsumed Match → Prop
  | .ok m => m.tc = tc ∧ m.Located text
  | .error u => u.start = tc ∧ u.Located text

end Scanner

variable {text : Bytes} {tc : Nat}

/-- What is reported of something within the text is located. -/
theorem Finding.Within.located_report {found : Finding} (h : found.Within text tc)
    (hsize : text.length < maxWord) : Scanner.Located text tc (Scanner.report text tc found) := by
  have hle := h.le_fail
  have hfail := h.fail_le
  unfold Scanner.report
  cases hfound : found.longest? with
  | none =>
    refine ⟨rfl, ?_, ?_, rfl, hle, hfail⟩
    · exact Tracker.position_seek_eq_lineColumn (by omega)
    · show ((Tracker.start.seek text tc).seek text found.fail).position = _
      rw [Tracker.seek_seek]
      exact Tracker.position_seek_eq_lineColumn (Nat.lt_of_le_of_lt hfail hsize)
  | some m =>
    obtain ⟨id, stop⟩ := m
    obtain ⟨hlt, hstop⟩ := h.stop_bounds _ hfound
    have hend : (Scanner.matchAt text .start id tc stop).1.stop = stop :=
      Scanner.stop_matchAt hlt.le hstop
    refine ⟨rfl, ?_, ?_, ?_, ?_, ?_⟩
    · exact Tracker.position_seek_eq_lineColumn (by omega)
    · rw [hend]
      show ((Tracker.start.seek text tc).seek text (stop - 1)).position = _
      rw [Tracker.seek_seek]
      exact Tracker.position_seek_eq_lineColumn (by omega)
    · rw [hend]
      rfl
    · rwa [hend]
    · rwa [hend]

/-- A match that is reported of something within the text starts at the cursor, is not empty, and
    lies in the text. -/
theorem Finding.Within.of_report_eq_ok {found : Finding} (h : found.Within text tc) {m : Match}
    (hm : Scanner.report text tc found = .ok m) :
    m.tc = tc ∧ tc < m.stop ∧ m.stop ≤ text.length ∧ m.bytes = text.slice tc m.stop := by
  rw [Scanner.report] at hm
  cases hfound : found.longest? with
  | none =>
    rw [hfound] at hm
    cases hm
  | some longest =>
    obtain ⟨hlt, hstop⟩ := h.stop_bounds _ hfound
    rw [hfound] at hm
    obtain rfl := Except.ok.inj hm
    have hend := @Scanner.stop_matchAt text longest.1 tc longest.2 hlt.le hstop
    exact ⟨rfl, by rwa [hend], by rwa [hend], by rw [hend]; rfl⟩

/-! ## What engines find lies within the text -/

theorem Table.within_find (t : Table) (htc : tc ≤ text.length) :
    (t.find text tc).Within text tc := by
  obtain ⟨hle, hfail, hlongest⟩ := t.find_bounds htc
  exact ⟨hle, hfail, fun m hm => ⟨(hlongest m hm).1, Nat.le_trans (hlongest m hm).2 hfail⟩⟩

namespace Simulation

variable {p : Program} {i : Nat} {m : Nat × Nat} {best : Option (Nat × Nat)}

/-- A pattern is recorded where its thread is, past the cursor. -/
theorem mem_recordAt {a : Nat} (h : m ∈ recordAt p tc i best a) : m ∈ best ∨ tc < i ∧ m.2 = i := by
  unfold recordAt at h
  split at h
  · next id hid =>
    unfold better at h
    split at h
    · exact .inl h
    · next hi =>
      have hnew : m ∈ some (id, i) → tc < i ∧ m.2 = i := by
        rintro ⟨⟩
        exact ⟨Nat.lt_of_not_le hi, rfl⟩
      split at h
      · exact .inr (hnew h)
      · split at h
        · exact .inr (hnew h)
        · exact .inl h
  · exact .inl h

/-- What is recorded while threads are run was recorded before, or ends where they are. -/
theorem mem_runThreads {byte : Option UInt8} {threads : Threads} {k : Nat}
    (h : m ∈ (runThreads p tc i byte threads best k).2) : m ∈ best ∨ tc < i ∧ m.2 = i := by
  induction threads, best, k using runThreads_induct p tc i byte with
  | ended threads best k hget =>
    rw [runThreads_of_get?_eq_none hget] at h
    exact .inl h
  | step threads best k pc hget ih =>
    rw [runThreads_of_get?_eq_some hget] at h
    exact (ih h).elim mem_recordAt .inr

/-- A run goes on to an offset of the input, and remembers no match that ends after it. -/
theorem runBytes_bounds (rest : Bytes) {threads : Threads} {best : Option (Nat × Nat)} {i : Nat} :
    let found := (runBytes p tc threads best i rest).2
    i ≤ found.fail ∧ found.fail ≤ i + rest.length ∧
      ∀ m ∈ found.longest?, m ∈ best ∨ tc < m.2 ∧ m.2 ≤ i + rest.length := by
  induction rest generalizing threads best i with
  | nil =>
    refine ⟨Nat.le_refl i, Nat.le_refl i,
      fun m hm => (mem_runThreads hm).imp_right fun ⟨hlt, hstop⟩ => ?_⟩
    exact ⟨hstop ▸ hlt, Nat.le_of_eq hstop⟩
  | cons b rest ih =>
    have hhere : ∀ m ∈ (runThreads p tc i (some b) threads.clearNext best 0).2,
        m ∈ best ∨ tc < m.2 ∧ m.2 ≤ i + (rest.length + 1) := fun m hm =>
      (mem_runThreads hm).imp_right fun ⟨hlt, hstop⟩ => ⟨hstop ▸ hlt, by omega⟩
    rw [runBytes_cons, List.length_cons]
    simp only
    split
    · exact ⟨Nat.le_refl i, Nat.le_add_right i _, hhere⟩
    · obtain ⟨hle, hfail, hlongest⟩ := @ih ⟨_, _⟩ _ (i + 1)
      refine ⟨Nat.le_of_succ_le hle, Nat.le_trans hfail (by omega), fun m hm => ?_⟩
      exact (hlongest m hm).elim (hhere m) fun h => .inr ⟨h.1, by omega⟩

/-- What a run with threads finds lies within the text. -/
theorem within_run (p : Program) (threads : Threads) (htc : tc ≤ text.length) :
    (run p threads text tc).2.Within text tc := by
  obtain ⟨hle, hfail, hlongest⟩ :=
    @runBytes_bounds tc p (text.drop tc) ⟨threads.current.clear.close p 0, threads.next⟩ none tc
  rw [List.length_drop, Nat.add_sub_cancel' htc] at hfail hlongest
  exact ⟨hle, hfail, fun m hm => (hlongest m hm).resolve_left nofun⟩

end Simulation

namespace Direct

/-- A run with one thread goes on to an offset of the input, and remembers no match that ends after
    it. -/
theorem runFrom_bounds (p : Program) (tc : Nat) (rest : Bytes) (i : Nat)
    (path : List Nat) (pc : Nat) (best : Option (Nat × Nat)) :
    let found := (runFrom p tc rest i path pc best).finding
    i ≤ found.fail ∧ found.fail ≤ i + rest.length ∧
      ∀ m ∈ found.longest?, m ∈ best ∨ tc < m.2 ∧ m.2 ≤ i + rest.length := by
  have hstays : ∀ {rest : Bytes} {i : Nat} {best : Option (Nat × Nat)},
      i ≤ i ∧ i ≤ i + rest.length ∧ ∀ m ∈ best, m ∈ best ∨ tc < m.2 ∧ m.2 ≤ i + rest.length :=
    ⟨Nat.le_refl _, Nat.le_add_right _ _, fun m hm => .inl hm⟩
  fun_induction runFrom p tc rest i path pc best with
  | case2 rest i path pc best _ _ id _ ih =>
    obtain ⟨hle, hfail, hlongest⟩ := ih
    refine ⟨hle, hfail, fun m hm => (hlongest m hm).elim (fun hbest => ?_) .inr⟩
    split at hbest
    · next hlt =>
      obtain rfl := Option.some.inj hbest
      exact .inr ⟨hlt, Nat.le_add_right i _⟩
    · exact .inl hbest
  | case4 i path pc best _ _ r _ b rest _ ih =>
    obtain ⟨hle, hfail, hlongest⟩ := ih
    rw [List.length_cons]
    refine ⟨Nat.le_of_succ_le hle, by omega, fun m hm => ?_⟩
    exact (hlongest m hm).imp_right fun h => ⟨h.1, by omega⟩
  | case5 i path pc best _ _ r _ b rest _ ih => exact ih
  | case6 rest i path pc best _ _ x _ ih => exact ih
  | _ => exact hstays

/-- What a run with one thread finds lies within the text. -/
theorem within_run (p : Program) (htc : tc ≤ text.length) :
    (run p text tc).finding.Within text tc := by
  obtain ⟨hle, hfail, hlongest⟩ := runFrom_bounds p tc (text.drop tc) tc [] 0 none
  rw [List.length_drop, Nat.add_sub_cancel' htc] at hfail hlongest
  exact ⟨hle, hfail, fun m hm => (hlongest m hm).resolve_left nofun⟩

end Direct

/-! ## Scans -/

namespace Scanner

variable {ε : Type} [Engine ε] {engine : ε}

/-- After steps at any cursors, a step returns something that is located at its cursor. It returns
    nothing exactly if its cursor or one before it is at or past the end of the text. -/
structure LocatesSteps (engine : ε) (text : Bytes) : Prop where
  located : ∀ (before : List Nat) (tc : Nat), ∀ r ∈ (((start engine text).steps before).step tc).1,
    Located text tc r
  eq_none_iff : ∀ (before : List Nat) (tc : Nat),
    (((start engine text).steps before).step tc).1 = none ↔ ∃ c ∈ before ++ [tc], text.length ≤ c

/-- After steps at any cursors, a step returns nothing if one of the cursors is at or past the end
    of the text, and otherwise what the engine finds. -/
theorem HistoryIndependent.step_eq_report (h : HistoryIndependent engine text)
    (before : List Nat) (tc : Nat) : (((start engine text).steps before).step tc).1 =
      if ∃ c ∈ before ++ [tc], text.length ≤ c then none
      else some (report text tc (Engine.find engine text tc).1) := by
  split
  · next hend =>
    obtain ⟨c, hc, hlength⟩ := hend
    rcases List.mem_append.mp hc with hc | hc
    · obtain ⟨earlier, later, rfl⟩ := List.append_of_mem hc
      exact (h.step_eq_none earlier c hlength).2 later tc
    · obtain rfl := List.mem_singleton.mp hc
      exact (h.step_eq_none before c hlength).1
  · next hend =>
    push Not at hend
    have htc : tc < text.length := hend tc (by simp)
    rw [h.step_eq before fun c hc => hend c (List.mem_append_left _ hc), step_start,
      if_neg (Nat.not_le_of_lt htc)]

theorem locatesSteps_of_steady (hsize : text.length < maxWord) (hsteady : Engine.Steady engine)
    (hwithin : ∀ tc < text.length, (Engine.find engine text tc).1.Within text tc) :
    LocatesSteps engine text := by
  have hindependent := historyIndependent_of_steady hsteady text
  constructor
  · intro before tc r hr
    rw [hindependent.step_eq_report] at hr
    split at hr
    · exact nomatch hr
    · next hend =>
      push Not at hend
      obtain rfl := Option.some.inj hr
      exact (hwithin tc (hend tc (by simp))).located_report hsize
  · intro before tc
    rw [hindependent.step_eq_report, ite_eq_left_iff]
    exact ⟨fun h => of_not_not fun hend => absurd (h hend) nofun, fun hend h => absurd hend h⟩

end Scanner

/-! ## Streams -/

/-- The positions that an error comes with are those of its offsets. -/
def ScanError.Located (text : Bytes) : ScanError → Prop
  | .unconsumed u => u.Located text
  | .emptyMatch _ tc position => position = lineColumn text tc
  | .action _ | .io _ => True

namespace Stream

/-- A reply of a stream is located in the text that its source delivers. -/
def Located (text : Bytes) : Except ScanError Match → Prop
  | .ok m => m.Located text
  | .error e => e.Located text

variable {t : Table} {failure? : Option String}

theorem Standing.located_proceed (hsize : text.length < maxWord) {p : Standing}
    (htc : p.tc ≤ text.length) : ∀ r ∈ (proceed t text p).1, Located text r := by
  have hreport := (t.within_find htc).located_report hsize
  unfold proceed
  cases hcase : Scanner.report text p.tc (t.find text p.tc) with
  | ok m =>
    rw [hcase] at hreport
    rintro _ ⟨⟩
    exact hreport.2
  | error u =>
    rw [hcase] at hreport
    cases t.accept? t.start with
    | none =>
      rintro _ ⟨⟩
      exact hreport.2
    | some id =>
      rintro _ ⟨⟩
      rfl

/-- What a step returns is located, whether the source fails or not. -/
theorem Standing.located_step (hsize : text.length < maxWord) {p : Standing}
    (htc : p.tc ≤ text.length) : ∀ r ∈ (step t text failure? p).1, Located text r := by
  unfold step
  split
  · intro r hr
    obtain ⟨e, -, rfl⟩ := Option.map_eq_some_iff.mp hr
    trivial
  · simp only
    split
    · rintro _ ⟨⟩
      trivial
    · exact located_proceed hsize htc

theorem mem_endedAnswers {requests : List Request} {r : Option (Except ScanError Match)}
    (h : r ∈ endedAnswers requests) : r = none := by
  induction requests with
  | nil => exact nomatch h
  | cons request rest ih =>
    cases request with
    | step => exact (List.mem_cons.mp h).elim id ih
    | skip n => exact ih h

variable {σ : Type} [ByteSource σ] {At : Nat → Bool → σ → Prop}

/-- All replies of a stream are located in the text that its source delivers. -/
theorem StandsAt.located_replies (hd : ByteSource.Delivers text failure? At)
    (hsize : text.length < maxWord)
    (hlook : ∀ {tc seen s}, At tc seen s → ∀ k, ∃ seen', At tc seen' (ByteSource.peek s k).2)
    {s : Stream σ} {p? : Option Standing} (h : s.StandsAt At t p?) (operations : List Operation) :
    ∀ reply ∈ s.replies operations, ∀ r ∈ reply, Located text r := by
  have hwords : text.length < wordCount := Nat.lt_of_succ_lt (lt_maxWord_iff.mp hsize)
  induction operations generalizing s p? with
  | nil => exact nofun
  | cons operation rest ih =>
    -- A stream that has ended has nothing to locate.
    cases p? with
    | none =>
      rw [replies_of_finished h]
      intro reply hreply r hr
      rw [mem_endedAnswers hreply] at hr
      exact nomatch hr
    | some p =>
      cases operation with
      | skip n => exact ih (h.skip hd n)
      | look k =>
        obtain ⟨seen', hat⟩ := hlook h.2.2 k
        have hstands : (s.look k).StandsAt At t (some ⟨p.tc, seen'⟩) := ⟨h.1, h.2.1, hat⟩
        exact ih hstands
      | step =>
        obtain ⟨hstep, hnext⟩ := h.step_eq hd hwords
        intro reply hreply
        rcases List.mem_cons.mp hreply with rfl | hlater
        · rw [hstep]
          exact Standing.located_step hsize (hd.le_length h.2.2)
        · exact ih hnext reply hlater

end Stream

/-- Trackers, scans and streams work out the positions of the text. A new tracker answers any
    offsets with their positions. A scan with any engine, after steps at any cursors, returns what
    is located at the cursor of the step: a match has the positions of its first and last byte, and
    unconsumed input those of where it starts and fails, with the bytes of the text from the one
    through the other. The same holds of every reply of a stream, over a reader that brings its text
    in any pieces, with any interruptions, and over a text in memory. -/
theorem positions_are_lineColumns :
    (∀ (text : Bytes) (offsets : List Nat), (∀ n ∈ offsets, n < maxWord) →
      Tracker.start.answers text offsets = offsets.map (lineColumn text)) ∧
    (∀ text : Bytes, text.length < maxWord →
      (∀ p : Program, Scanner.LocatesSteps (Simulator.ofProgram p) text) ∧
      (∀ runner : Runner, Scanner.LocatesSteps runner text) ∧
      ∀ t : Table, Scanner.LocatesSteps t text) ∧
    ∀ (t : Table) (operations : List Stream.Operation),
      (∀ deliveries : List Delivery, (Delivery.before deliveries).length < maxWord →
        ∀ reply ∈ (Stream.start t (Reader.ofDeliveries deliveries)).replies operations,
          ∀ r ∈ reply, Stream.Located (Delivery.before deliveries) r) ∧
      ∀ text : Bytes, text.length < maxWord →
        ∀ reply ∈ (Stream.start t (Slice.ofText text)).replies operations,
          ∀ r ∈ reply, Stream.Located text r := by
  refine ⟨fun text offsets h => Tracker.answers_start text h,
    fun text hsize => ⟨fun p => ?_, fun runner => ?_, fun t => ?_⟩,
    fun t operations => ⟨fun deliveries hsize => ?_, fun text hsize => ?_⟩⟩
  · exact Scanner.locatesSteps_of_steady hsize (Simulator.steady p) fun tc htc =>
      Simulation.within_run p _ htc.le
  · exact Scanner.locatesSteps_of_steady hsize runner.steady fun tc htc =>
      Direct.within_run runner.program htc.le
  · exact Scanner.locatesSteps_of_steady hsize t.steady fun tc htc => t.within_find htc.le
  · have hwords := Nat.lt_of_succ_lt (lt_maxWord_iff.mp hsize)
    have hstands : (Stream.start t (Reader.ofDeliveries deliveries)).StandsAt (Reader.At _ _) t
        (some ⟨0, false⟩) :=
      ⟨rfl, rfl, Reader.at_ofDeliveries deliveries⟩
    exact hstands.located_replies (Reader.delivers hwords) hsize
      (fun hat k => ⟨_, hat.fill⟩) operations
  · have hwords := Nat.lt_of_succ_lt (lt_maxWord_iff.mp hsize)
    have hstands : (Stream.start t (Slice.ofText text)).StandsAt
        (fun tc _ s => Slice.At text tc s) t (some ⟨0, false⟩) := ⟨rfl, rfl, Slice.at_ofText text⟩
    exact hstands.located_replies (Slice.delivers hwords) hsize
      (fun hat k => ⟨false, hat.text_eq, hat.tracker_eq, hat.le_length⟩) operations

/-- Two words of `a`s on two lines: offsets out of order and past the end, a step that goes back to
    the second word, and a stream over a reader that brings the words in two pieces. -/
theorem positions_are_lineColumns_two_lines :
    let row := Row.ofFn fun b => if b = 97 then 2 else Table.error
    let t : Table := ⟨1, #[Table.errorRow, row, row], #[none, none, some 0], true⟩
    let text : Bytes := [97, 10, 97, 97]
    let deliveries : List Delivery := [.data [97, 10, 97], .interrupt, .data [97]]
    (∀ n ∈ [3, 0, 6, 2], n < maxWord) ∧ text.length < maxWord ∧ Delivery.before deliveries = text ∧
    Tracker.start.answers text [3, 0, 6, 2] = [⟨2, 2⟩, ⟨1, 1⟩, ⟨2, 5⟩, ⟨2, 1⟩] ∧
    (∃ r, (((Scanner.start t text).steps [2, 1]).step 2).1 = some r ∧ Scanner.Located text 2 r) ∧
    ∀ reply ∈ (Stream.start t (Reader.ofDeliveries deliveries)).replies [.look 3, .step,
      .step, .skip 1, .step], ∀ r ∈ reply, Stream.Located text r := by
  intro row t text deliveries
  have hoffsets : ∀ n ∈ [3, 0, 6, 2], n < maxWord := by decide
  have hsize : text.length < maxWord := by decide
  obtain ⟨hanswers, hsteps, hreplies⟩ := positions_are_lineColumns
  have hlocates := (hsteps text hsize).2.2 t
  refine ⟨hoffsets, hsize, rfl, ?_, ?_, (hreplies t _).1 deliveries hsize⟩
  · rw [hanswers text _ hoffsets]
    decide +kernel
  · have hsome : (((Scanner.start t text).steps [2, 1]).step 2).1 ≠ none := by
      rw [Ne, hlocates.eq_none_iff]
      decide
    obtain ⟨r, hr⟩ := Option.ne_none_iff_exists'.mp hsome
    exact ⟨r, hr, hlocates.located [2, 1] 2 r hr⟩

end Munch

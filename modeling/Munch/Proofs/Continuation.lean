import Munch.Proofs.Streaming

set_option autoImplicit false

/-! # What comes after a text

A table that comes to the error state on a byte of a text never looks at what comes after the text:
it finds the same in every text that goes on (`Table.find_append`), and a scan and a stream return
the same with the same positions (`Table.report_append`, `Stream.Standing.proceed_append`). If it
does not come to the error state, it uses the text up (`Table.UsesUp`), and what it finds may depend
on what comes next. -/

namespace Munch

theorem Bytes.slice_append_left {text : Bytes} (more : Bytes) (start : Nat) {stop : Nat}
    (h : stop ≤ text.length) : (text ++ more).slice start stop = text.slice start stop := by
  rcases Nat.le_total stop start with hle | hle
  · rw [slice, slice, Nat.sub_eq_zero_of_le hle, List.take_zero, List.take_zero]
  · rw [slice, slice, List.drop_append_of_le_length (Nat.le_trans hle h),
      List.take_append_of_le_length]
    rw [List.length_drop]
    exact Nat.sub_le_sub_right h start

theorem Tracker.seek_append {text : Bytes} (more : Bytes) {n : Nat} (h : n ≤ text.length) :
    start.seek (text ++ more) n = start.seek text n := by
  rw [seek_of_le (Nat.zero_le n), seek_of_le (Nat.zero_le n), Bytes.slice_append_left more _ h]

theorem lineColumn_append {text : Bytes} (more : Bytes) {n : Nat} (h : n ≤ text.length) :
    lineColumn (text ++ more) n = lineColumn text n := by
  rw [lineColumn, lineColumn, List.take_append_of_le_length h]

variable {t : Table} {text : Bytes} {tc : Nat}

/-! ## Tables -/

namespace Table

/-- From a cursor on, a table uses a text up: no byte leads it to the error state. -/
def UsesUp (t : Table) (text : Bytes) (tc : Nat) : Prop :=
  ∀ stop ≤ text.length, tc < stop → t.run t.start (text.slice tc stop) ≠ error

instance (t : Table) (text : Bytes) (tc : Nat) : Decidable (t.UsesUp text tc) :=
  inferInstanceAs (Decidable (∀ stop ≤ text.length, tc < stop →
    t.run t.start (text.slice tc stop) ≠ error))

/-- A run looks at no byte after the one that it fails at, and remembers no match that ends after
    it. -/
theorem findFrom_bounds (t : Table) (rest : Bytes) (state i : Nat) (best : Option (Nat × Nat)) :
    let found := t.findFrom state i best rest
    i ≤ found.fail ∧ found.fail ≤ i + rest.length ∧
      ∀ m ∈ found.longest?, m ∈ best ∨ i < m.2 ∧ m.2 ≤ found.fail := by
  induction rest generalizing state i best with
  | nil => exact ⟨Nat.le_refl i, Nat.le_refl i, fun m hm => .inl hm⟩
  | cons b rest ih =>
    rw [findFrom, List.length_cons]
    by_cases herror : t.next state b = error
    · rw [if_pos herror]
      exact ⟨Nat.le_refl i, Nat.le_add_right i _, fun m hm => .inl hm⟩
    · cases haccept : t.accept? (t.next state b) with
      | none =>
        obtain ⟨hle, hle', hlongest⟩ := ih (t.next state b) (i + 1) best
        simp only [if_neg herror]
        refine ⟨Nat.le_of_succ_le hle, by omega, fun m hm => ?_⟩
        exact (hlongest m hm).imp_right fun h => ⟨Nat.lt_of_succ_lt h.1, h.2⟩
      | some id =>
        obtain ⟨hle, hle', hlongest⟩ := ih (t.next state b) (i + 1) (some (id, i + 1))
        simp only [if_neg herror]
        refine ⟨Nat.le_of_succ_le hle, by omega, fun m hm => .inr ?_⟩
        rcases hlongest m hm with hbest | h
        · obtain rfl := Option.some.inj hbest
          exact ⟨Nat.lt_succ_self i, hle⟩
        · exact ⟨Nat.lt_of_succ_lt h.1, h.2⟩

/-- A run comes to the end of its input if no byte leads it to the error state. -/
theorem fail_findFrom_eq_iff (t : Table) (rest : Bytes) (state i : Nat)
    (best : Option (Nat × Nat)) : (t.findFrom state i best rest).fail = i + rest.length ↔
      ∀ n < rest.length, t.run state (rest.take (n + 1)) ≠ error := by
  induction rest generalizing state i best with
  | nil => exact iff_of_true rfl fun n hn => absurd hn (Nat.not_lt_zero n)
  | cons b rest ih =>
    have hrun : ∀ n, t.run state ((b :: rest).take (n + 1)) =
      t.run (t.next state b) (rest.take n) := fun _ => rfl
    rw [findFrom, List.length_cons]
    by_cases herror : t.next state b = error
    · rw [if_pos herror]
      refine iff_of_false (by simp) fun hall => hall 0 (Nat.succ_pos _) ?_
      rw [hrun, List.take_zero, run, List.foldl_nil, herror]
    · simp only [if_neg herror, hrun]
      rw [Nat.add_comm rest.length 1, ← Nat.add_assoc, ih]
      constructor
      · intro hall n hn
        cases n with
        | zero => exact herror
        | succ n => exact hall n (by omega)
      · exact fun hall n hn => hall (n + 1) (by omega)

theorem findFrom_append (t : Table) (rest more : Bytes) (state i : Nat) (best : Option (Nat × Nat))
    (h : (t.findFrom state i best rest).fail < i + rest.length) :
    t.findFrom state i best (rest ++ more) = t.findFrom state i best rest := by
  induction rest generalizing state i best with
  | nil => exact absurd h (Nat.lt_irrefl i)
  | cons b rest ih =>
    rw [List.cons_append, findFrom, findFrom]
    rw [findFrom, List.length_cons] at h
    by_cases herror : t.next state b = error
    · rw [if_pos herror, if_pos herror]
    · simp only [if_neg herror] at h ⊢
      exact ih _ _ _ (by omega)

/-- What is found from a cursor on fails at an offset from there to the end of the text, and a match
    that is found ends there at the latest. -/
theorem find_bounds (t : Table) (htc : tc ≤ text.length) :
    tc ≤ (t.find text tc).fail ∧ (t.find text tc).fail ≤ text.length ∧
      ∀ m ∈ (t.find text tc).longest?, tc < m.2 ∧ m.2 ≤ (t.find text tc).fail := by
  obtain ⟨hle, hle', hlongest⟩ := t.findFrom_bounds (text.drop tc) t.start tc none
  rw [List.length_drop, Nat.add_sub_cancel' htc] at hle'
  exact ⟨hle, hle', fun m hm => (hlongest m hm).resolve_left nofun⟩

/-- A table fails at the end of a text exactly if it uses the text up. -/
theorem fail_find_eq_length_iff (htc : tc ≤ text.length) :
    (t.find text tc).fail = text.length ↔ t.UsesUp text tc := by
  have hiff := t.fail_findFrom_eq_iff (text.drop tc) t.start tc none
  rw [List.length_drop, Nat.add_sub_cancel' htc] at hiff
  rw [find, hiff, UsesUp]
  simp only [Bytes.take_drop_eq_slice]
  constructor
  · intro hall stop hstop hlt
    have hne := hall (stop - tc - 1) (by omega)
    rwa [show tc + (stop - tc - 1 + 1) = stop by omega] at hne
  · exact fun hall n hn => hall (tc + (n + 1)) (by omega) (by omega)

/-- A table that fails at a byte of a text finds the same in every text that goes on. -/
theorem find_append (more : Bytes) (htc : tc ≤ text.length)
    (h : (t.find text tc).fail < text.length) : t.find (text ++ more) tc = t.find text tc := by
  rw [find, List.drop_append_of_le_length htc]
  refine t.findFrom_append _ more _ _ _ ?_
  rwa [List.length_drop, Nat.add_sub_cancel' htc]

/-- What is reported where a table fails at a byte of a text is reported in every text that goes
    on. -/
theorem report_append (more : Bytes) (htc : tc ≤ text.length)
    (h : (t.find text tc).fail < text.length) :
    Scanner.report (text ++ more) tc (t.find (text ++ more) tc) =
      Scanner.report text tc (t.find text tc) := by
  obtain ⟨_, _, hlongest⟩ := t.find_bounds htc
  rw [find_append more htc h]
  unfold Scanner.report
  cases hfound : (t.find text tc).longest? with
  | none =>
    rw [Scanner.unconsumedAt, Scanner.unconsumedAt, Tracker.seek_seek, Tracker.seek_seek,
      Tracker.seek_append more htc, Tracker.seek_append more h.le, Bytes.slice_append_left more _ h]
  | some m =>
    obtain ⟨hlt, hle⟩ := hlongest m hfound
    have hstop : m.2 ≤ text.length := Nat.le_trans hle h.le
    simp only
    rw [Scanner.matchAt, Scanner.matchAt, Tracker.seek_seek, Tracker.seek_seek,
      Tracker.seek_append more htc,
      Tracker.seek_append more (by omega), Bytes.slice_append_left more _ hstop]

end Table

/-! ## Streams -/

namespace Stream.Standing

/-- A step that tells no failure ends the stream or moves it on, at most to where the table fails,
    whatever was asked for before. -/
theorem proceed_cases (t : Table) (htc : tc ≤ text.length) :
    (∃ r, ∀ seen, proceed t text ⟨tc, seen⟩ = (some r, none)) ∨
      ∃ r next, next ≤ (t.find text tc).fail ∧ ∀ seen,
      proceed t text ⟨tc, seen⟩ = (some r, some ⟨next, seen⟩) := by
  obtain ⟨hle, hfail, hlongest⟩ := t.find_bounds htc
  unfold proceed
  cases hreport : Scanner.report text tc (t.find text tc) with
  | ok m =>
    refine .inr ⟨.ok m, m.stop, ?_, fun seen => by simp only [hreport]⟩
    rw [Scanner.report] at hreport
    cases hfound : (t.find text tc).longest? with
    | none =>
      rw [hfound] at hreport
      cases hreport
    | some found =>
      obtain ⟨hlt, hstop⟩ := hlongest found hfound
      rw [hfound] at hreport
      obtain rfl := Except.ok.inj hreport
      rwa [Scanner.stop_matchAt hlt.le (Nat.le_trans hstop hfail)]
  | error u =>
    cases haccept : t.accept? t.start with
    | none => exact .inr ⟨.error (.unconsumed u), tc, hle, fun seen => by simp only [hreport]⟩
    | some id =>
      exact .inl ⟨.error (.emptyMatch id tc (lineColumn text tc)),
        fun seen => by simp only [hreport]⟩

/-- A step that tells no failure is the same in every text that goes on, if the table fails at a
    byte of the text. -/
theorem proceed_append (more : Bytes) (seen : Bool) (htc : tc ≤ text.length)
    (h : (t.find text tc).fail < text.length) :
    proceed t (text ++ more) ⟨tc, seen⟩ = proceed t text ⟨tc, seen⟩ := by
  simp only [proceed, Table.report_append more htc h, lineColumn_append more htc]

end Stream.Standing

end Munch

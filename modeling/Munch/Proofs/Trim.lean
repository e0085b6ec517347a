import Munch.Proofs.Irreducible

set_option autoImplicit false

/-! # The states of a compiled table

The table of a pattern set starts in state 1, the first state that is numbered after the error
state, and so does its minimal table: blocks are numbered by their first states, and no state is in
the block of the error state (`Table.start_minimize`). Merging states takes no reached state away
and no text that is accepted, so the minimal table is as trim as the table is (`Table.Merges.trim`).

The states that accept a pattern are listed under the number of the pattern, up to the last pattern
that some state accepts (`Table.mem_getD_acceptingStates`). The states of a trim table are reached,
and a state accepts the least of the patterns that have the text that leads to it; so the list of a
pattern is empty exactly if earlier patterns have all its words (`Table.compiled_ofRegex`). -/

namespace Munch

namespace Table

variable {t u : Table} {f : Nat → Nat} {s k : Nat}

/-! ## The lists of accepting states -/

theorem lt_size_of_accept? (h : t.accept? s = some k) : s < t.accepting.size := by
  by_contra hge
  rw [accept?, Array.getElem?_eq_none (Nat.le_of_not_lt hge)] at h
  cases h

theorem mem_statesAccepting : s ∈ t.statesAccepting k ↔ t.accept? s = some k := by
  rw [statesAccepting, List.mem_filter, List.mem_range, beq_iff_eq]
  exact and_iff_right_of_imp lt_size_of_accept?

theorem pairwise_statesAccepting (t : Table) (k : Nat) : (t.statesAccepting k).Pairwise (· < ·) :=
  List.pairwise_lt_range.sublist List.filter_sublist

/-- The patterns that states accept are the members of the table of accepting states. -/
theorem mem_filterMap_accepting :
    k ∈ t.accepting.toList.filterMap id ↔ ∃ s, t.accept? s = some k := by
  rw [List.mem_filterMap]
  simp only [id_eq, exists_eq_right]
  simp only [List.mem_iff_getElem?, Array.getElem?_toList, accept?, Option.join_eq_some_iff]

/-- The list under the number of a pattern has the states that accept the pattern; past the last
    list there is no such state. -/
theorem getD_acceptingStates (t : Table) (k : Nat) :
    t.acceptingStates[k]?.getD [] = t.statesAccepting k := by
  have hnil : (∀ s, t.accept? s ≠ some k) → t.statesAccepting k = [] := fun h =>
    List.eq_nil_iff_forall_not_mem.mpr fun s hs => h s (mem_statesAccepting.mp hs)
  unfold acceptingStates
  cases hmax : (t.accepting.toList.filterMap id).max? with
  | none =>
    rw [List.max?_eq_none_iff] at hmax
    refine (hnil fun s hs => ?_).symm
    exact List.eq_nil_iff_forall_not_mem.mp hmax k (mem_filterMap_accepting.mpr ⟨s, hs⟩)
  | some last =>
    by_cases hk : k < last + 1
    · simp [hk]
    · refine Eq.trans (by simp [hk]) (hnil fun s hs => hk (Nat.lt_succ_of_le ?_)).symm
      exact (List.max?_eq_some_iff.mp hmax).2 k (mem_filterMap_accepting.mpr ⟨s, hs⟩)

/-- Some state accepts the last pattern that is listed. -/
theorem getLast?_acceptingStates (t : Table) : t.acceptingStates.getLast? ≠ some [] := by
  unfold acceptingStates
  cases hmax : (t.accepting.toList.filterMap id).max? with
  | none => simp
  | some last =>
    obtain ⟨s, hs⟩ := mem_filterMap_accepting.mp (List.max?_eq_some_iff.mp hmax).1
    have hmem : s ∈ t.statesAccepting last := mem_statesAccepting.mpr hs
    simpa [List.range_succ] using List.ne_nil_of_mem hmem

/-! ## Accepting states are states -/

theorem size_accepting_ofLabelled (l : Labelled) :
    (ofLabelled l).accepting.size = (ofLabelled l).size := by
  simp [ofLabelled, size]

theorem size_accepting_minimize (h : t.accepting.size = t.size) :
    t.minimize.accepting.size = t.minimize.size := by
  unfold minimize
  split
  · exact h
  · show (if _ then _ else _ : Table).accepting.size = (if _ then _ else _ : Table).size
    split
    · exact h
    · simp [Partition.merge, size]

/-! ## The start state -/

/-- The first state after the error state is the start, if anything can come first. -/
theorem start_ofLabelled {l : Labelled} (h : l.start ≠ []) : (ofLabelled l).start = 1 := by
  have hfirst : (sets l).found.head? = some l.start := head?_found _ _ _ _ _
  obtain ⟨rest, hfound⟩ := List.head?_eq_some_iff.mp hfirst
  show stateOf (sets l).found l.start = 1
  rw [stateOf, if_neg (by simpa using h), hfound, List.idxOf_cons_self]

end Table

/-- The second member has the number 1 if it is not the first one. -/
theorem idxOf_eraseDups_second {α : Type} [BEq α] [LawfulBEq α] {a b : α}
    (h : b ≠ a) (rest : List α) : (a :: b :: rest).eraseDups.idxOf b = 1 := by
  have hkept : (b :: rest).filter (fun c => !c == a) = b :: rest.filter fun c => !c == a :=
    List.filter_cons_of_pos (by simpa using h)
  rw [List.eraseDups_cons, hkept, List.eraseDups_cons, List.idxOf_cons_ne _ h.symm,
    List.idxOf_cons_self]

/-- The first state after the error state is in the first block after that of the error state. -/
theorem Partition.block_final_one {t : Table} (h : t.WellFormed) (hlt : 1 < t.size) :
    (final t).block 1 = 1 := by
  obtain ⟨q, hlast, _⟩ := exists_getLast?_rounds (initial t) (counts_initial t)
  have hfinal : final t = refine t q := by rw [final, hlast]; rfl
  have hapart : (refine t q).block 1 ≠ (refine t q).block Table.error := by
    rw [← hfinal, (stable_final h).block_error]
    exact mt ((stable_final h).block_eq_error_iff h hlt).mp Nat.one_ne_zero
  rw [Ne, block_refine_eq_iff hlt h.size_pos] at hapart
  obtain ⟨n, hn⟩ := Nat.exists_eq_add_of_lt hlt
  rw [hfinal, block_refine hlt,
    show t.size = n + 1 + 1 by omega, List.range_succ_eq_map, List.range_succ_eq_map]
  exact idxOf_eraseDups_second hapart _

namespace Table

variable {t u : Table} {f : Nat → Nat} {s k : Nat}

theorem start_minimize (h : t.WellFormed) (hstart : t.start = 1) : t.minimize.start = 1 := by
  unfold minimize
  split
  · exact hstart
  · show (if _ then _ else _ : Table).start = 1
    split
    · exact hstart
    · show (Partition.final t).block t.start = 1
      rw [hstart]
      exact Partition.block_final_one h (hstart ▸ h.start_lt)

/-! ## Trim tables -/

/-- Merging the states of a trim table gives a trim table. -/
theorem Merges.trim (h : t.Merges u f) (ht : t.WellFormed) (htrim : t.Trim) : u.Trim := by
  constructor
  · intro j hj hne
    obtain ⟨s, hs, rfl⟩ := h.onto j hj
    obtain ⟨w, hw⟩ := htrim.reached s hs (mt (h.error_iff s hs).mpr hne)
    exact ⟨w, by rw [h.run_start ht, hw]⟩
  · intro j hj hne
    obtain ⟨s, hs, rfl⟩ := h.onto j hj
    obtain ⟨w, hw⟩ := htrim.live s hs (mt (h.error_iff s hs).mpr hne)
    exact ⟨w, by rwa [h.residual_eq ht hs]⟩

/-- In a trim table that recognizes a pattern set, a state accepts a pattern exactly if some word of
    the pattern is a word of no earlier one. -/
theorem Recognizes.exists_accept?_iff {re : Regex} (h : t.Recognizes re)
    (ht : t.WellFormed) (htrim : t.Trim) (hsize : t.accepting.size = t.size) :
    (∃ s, t.accept? s = some k) ↔ ∃ w, re.Accepts k w ∧ ∀ j < k, ¬ re.Accepts j w := by
  have hleast : ∀ w, IsLeast {k | re.Accepts k w} k ↔ re.Accepts k w ∧ ∀ j < k, ¬ re.Accepts j w :=
      fun w =>
    and_congr_right fun _ => forall_congr' fun j => by
      rw [← not_imp_not, Nat.not_le]
      rfl
  simp only [← hleast, ← h _ k]
  constructor
  · rintro ⟨s, hs⟩
    have hne : s ≠ error := by
      rintro rfl
      exact nomatch ht.accept_error.symm.trans hs
    obtain ⟨w, rfl⟩ := htrim.reached s (hsize ▸ lt_size_of_accept? hs) hne
    exact ⟨w, hs⟩
  · rintro ⟨w, hw⟩
    exact ⟨_, hw⟩

/-- The table of a pattern set and its minimal table start in state 1. State 0 is the error state:
    it accepts nothing, and its row leads nowhere else. Every byte leads from a state to a state;
    every other state is reached from the start, and some text leads from it to an accepting state.
    Under the number of each pattern the states that accept it are listed in ascending order, and
    there is one exactly if some word of the pattern is a word of no earlier one; the last list is
    not empty. -/
theorem compiled_ofRegex {re : Regex} (h : re.IsPatternSet) :
    ∀ t ∈ [ofRegex re, (ofRegex re).minimize],
      t.start = 1 ∧ 1 < t.size ∧
      t.accept? error = none ∧ t.rows[error]? = some errorRow ∧ (∀ b, t.next error b = error) ∧
      (∀ s < t.size, ∀ b, t.next s b < t.size) ∧
      (∀ s < t.size, s ≠ error →
        (∃ w, t.run t.start w = s) ∧ ∃ w k, t.accept? (t.run s w) = some k) ∧
      (∀ k, let states := t.acceptingStates[k]?.getD []
        states.Pairwise (· < ·) ∧
        (∀ s, s ∈ states ↔ s < t.size ∧ t.accept? s = some k) ∧
        (states ≠ [] ↔ ∃ w, re.Accepts k w ∧ ∀ j < k, ¬ re.Accepts j w)) ∧
      t.acceptingStates.getLast? ≠ some [] := by
  obtain ⟨p, _, hcode⟩ := Program.exists_ofRegex_eq_ok h
  have hwf : (ofRegex re).WellFormed := wellFormed_ofLabelled _
  have hstart : (ofRegex re).start = 1 :=
    start_ofLabelled (Program.start_ne_nil (Pairs.of_isCodeOf hcode) hcode)
  have hsize : (ofRegex re).accepting.size = (ofRegex re).size := size_accepting_ofLabelled _
  obtain ⟨f, hmerges, _⟩ := exists_merges_minimize hwf
  -- All that follows is derived of both tables alike, from what is proved of each.
  have hall : ∀ t ∈ [ofRegex re, (ofRegex re).minimize],
      t.WellFormed ∧ t.Trim ∧ t.Recognizes re ∧ t.start = 1 ∧ t.accepting.size = t.size := by
    refine List.forall_mem_cons.mpr ⟨⟨hwf, trim_ofRegex h, recognizes_ofRegex h, hstart, hsize⟩, ?_⟩
    exact List.forall_mem_singleton.mpr ⟨hmerges.wellFormed hwf, hmerges.trim hwf (trim_ofRegex h),
      recognizes_minimize hwf (recognizes_ofRegex h), start_minimize hwf hstart,
      size_accepting_minimize hsize⟩
  intro t hmem
  obtain ⟨ht, htrim, hrec, hone, hpaired⟩ := hall t hmem
  refine ⟨hone, hone ▸ ht.start_lt, ht.accept_error, ht.getElem?_rows_error,
    ht.next_error, ht.next_lt,
    fun s hs hne => ⟨htrim.reached s hs hne, ?_⟩, fun k => ?_, getLast?_acceptingStates t⟩
  · obtain ⟨w, hw⟩ := htrim.live s hs hne
    obtain ⟨k, hk⟩ := Option.ne_none_iff_exists'.mp hw
    exact ⟨w, k, hk⟩
  · rw [getD_acceptingStates]
    refine ⟨pairwise_statesAccepting t k, fun s => ?_, ?_⟩
    · rw [mem_statesAccepting, ← hpaired]
      exact (and_iff_right_of_imp lt_size_of_accept?).symm
    · rw [← hrec.exists_accept?_iff ht htrim hpaired]
      simp only [← mem_statesAccepting]
      exact ⟨List.exists_mem_of_ne_nil _, fun ⟨s, hs⟩ => List.ne_nil_of_mem hs⟩

/-- One or more `a`s before a single one: no state is left for the second pattern. -/
theorem compiled_ofRegex_shadowed :
    let re : Regex := .either (.plus (.byte 97)) (.byte 97)
    re.IsPatternSet ∧ ∀ t ∈ [ofRegex re, (ofRegex re).minimize],
      t.start = 1 ∧ t.acceptingStates[0]?.getD [] ≠ [] ∧ t.acceptingStates[1]?.getD [] = [] := by
  intro re
  have h : re.IsPatternSet := by decide
  have hplus : [97] ∈ (Regex.plus (.byte 97)).language :=
    Language.mem_mul.mpr ⟨[97], rfl, [], Language.nil_mem_kstar _, rfl⟩
  have hzero : re.Accepts 0 [97] := ⟨_, rfl, hplus⟩
  refine ⟨h, fun t ht => ?_⟩
  obtain ⟨hstart, -, -, -, -, -, -, hlists, -⟩ := compiled_ofRegex h t ht
  refine ⟨hstart, (hlists 0).2.2.mpr ⟨[97], hzero, fun j hj => absurd hj j.not_lt_zero⟩, ?_⟩
  by_contra hne
  obtain ⟨w, ⟨body, hbody, hw⟩, hfirst⟩ := (hlists 1).2.2.mp hne
  obtain rfl := Option.some.inj hbody
  rw [Regex.mem_language_byte] at hw
  exact hfirst 0 Nat.one_pos (hw ▸ hzero)

end Table

end Munch

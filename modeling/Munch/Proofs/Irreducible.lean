import Munch.Proofs.Determinization
import Munch.Proofs.LongestMatch
import Munch.Proofs.Minimize

set_option autoImplicit false

/-! # The smallest table

What a state can still do is its residual: the pattern that is accepted after each text that could
come next. A table is irreducible if all its states other than the error state are reached and no
two of its states have the same residual. There is no smaller table with the same residual at its
start (`Table.Irreducible.size_le`), and any other irreducible one has the same states under other
numbers (`Table.Irreducible.exists_renumbering`).

The minimal table of a pattern set is irreducible (`Table.minimize_ofRegex_smallest`). Its states
are reached because those of the table of the pattern set are; and the rounds of the minimization
never divide states of one residual, since at first only the error state is put apart from states
that accept nothing, and every other state of the table goes on to accept something. -/

namespace Munch

namespace Table

variable {t u m : Table} {s s' : Nat} {b : UInt8} {v w : Bytes}

/-! ## Residuals -/

/-- The pattern that is accepted after a state and a text. -/
def residual (t : Table) (s : Nat) (w : Bytes) : Option Nat := t.accept? (t.run s w)

theorem residual_run (t : Table) (s : Nat) (v w : Bytes) :
    t.residual (t.run s v) w = t.residual s (v ++ w) := by
  rw [residual, residual, run_append]

theorem residual_next (t : Table) (s : Nat) (b : UInt8) (w : Bytes) :
    t.residual (t.next s b) w = t.residual s (b :: w) := rfl

theorem WellFormed.residual_error (h : t.WellFormed) (w : Bytes) : t.residual error w = none := by
  rw [residual, h.run_error, h.accept_error]

/-- The states that come after states of one residual have one residual. -/
theorem residual_next_congr (h : t.residual s = u.residual s') (b : UInt8) :
    t.residual (t.next s b) = u.residual (u.next s' b) := by
  funext w
  rw [residual_next, residual_next, h]

/-- The residual is what the machine of the table accepts. -/
theorem WellFormed.accepted?_machine (h : t.WellFormed) (s : Nat) (w : Bytes) :
    t.machine.accepted? s w = t.residual s w := by
  induction w generalizing s with
  | nil => rfl
  | cons b w ih =>
    rw [Machine.accepted?, Machine.run_cons, ← residual_next]
    by_cases hdead : t.next s b = error
    · rw [next?_machine_eq_none hdead, hdead, h.residual_error]
      rfl
    · rw [next?_machine_eq_some hdead, ← ih]
      rfl

theorem run_eq_of_machine_run (h : t.machine.run s w = some s') : t.run s w = s' := by
  induction w generalizing s with
  | nil => exact Option.some.inj h
  | cons b w ih =>
    rw [Machine.run_cons] at h
    by_cases hdead : t.next s b = error
    · simp [next?_machine_eq_none hdead] at h
    · rw [next?_machine_eq_some hdead, Option.bind_some] at h
      exact ih h

/-- States have the residuals of the states that stand for them. -/
theorem Merges.residual_eq {f : Nat → Nat} (h : t.Merges u f)
    (ht : t.WellFormed) (hs : s < t.size) : u.residual (f s) = t.residual s := by
  funext w
  rw [residual, residual, h.run ht hs, h.accept _ (ht.run_lt hs w)]

/-! ## Irreducible tables -/

/-- Every state other than the error state is reached, and no two states have the same residual. -/
structure Irreducible (t : Table) : Prop where
  reached : ∀ s < t.size, s ≠ error → ∃ w, t.run t.start w = s
  eq_of_residual_eq : ∀ s < t.size, ∀ s' < t.size, t.residual s = t.residual s' → s = s'

/-- Any other table that starts with the residual of an irreducible one has all its residuals. -/
theorem Irreducible.exists_residual_eq (h : m.Irreducible) (hm : m.WellFormed) (hu : u.WellFormed)
    (hstart : u.residual u.start = m.residual m.start) (hs : s < m.size) :
    ∃ j < u.size, u.residual j = m.residual s := by
  by_cases herror : s = error
  · refine ⟨error, hu.size_pos, funext fun w => ?_⟩
    rw [herror, hu.residual_error, hm.residual_error]
  · obtain ⟨v, rfl⟩ := h.reached s hs herror
    refine ⟨u.run u.start v, hu.run_lt hu.start_lt v, funext fun w => ?_⟩
    rw [residual_run, residual_run, hstart]

/-- The states of an irreducible table are told apart by the states of the other one with their
    residuals. -/
theorem Irreducible.exists_residual_map (h : m.Irreducible) (hm : m.WellFormed) (hu : u.WellFormed)
    (hstart : u.residual u.start = m.residual m.start) :
    ∃ f : Nat → Nat, (∀ s < m.size, f s < u.size ∧ u.residual (f s) = m.residual s) ∧
      ∀ s < m.size, ∀ s' < m.size, f s = f s' → s = s' := by
  have hex : ∀ s, ∃ j, s < m.size → j < u.size ∧ u.residual j = m.residual s := by
    intro s
    by_cases hs : s < m.size
    · obtain ⟨j, hj⟩ := h.exists_residual_eq hm hu hstart hs
      exact ⟨j, fun _ => hj⟩
    · exact ⟨0, fun hs' => absurd hs' hs⟩
  choose f hf using hex
  refine ⟨f, hf, fun s hs s' hs' heq => h.eq_of_residual_eq s hs s' hs' ?_⟩
  rw [← (hf s hs).2, heq, (hf s' hs').2]

/-- No table is smaller than an irreducible one that starts with the same residual. -/
theorem Irreducible.size_le (h : m.Irreducible) (hm : m.WellFormed) (hu : u.WellFormed)
    (hstart : u.residual u.start = m.residual m.start) : m.size ≤ u.size := by
  obtain ⟨f, hf, hf_inj⟩ := h.exists_residual_map hm hu hstart
  have hmaps : Set.MapsTo f (Finset.range m.size) (Finset.range u.size) := by
    intro s hs
    exact Finset.mem_coe.mpr (Finset.mem_range.mpr (hf s (Finset.mem_range.mp hs)).1)
  have hinj : Set.InjOn f (Finset.range m.size) := by
    intro s hs s' hs' heq
    exact hf_inj s (Finset.mem_range.mp hs) s' (Finset.mem_range.mp hs') heq
  simpa using Finset.card_le_card_of_injOn f hmaps hinj

/-- Irreducible tables that start with the same residual have the same states under different
    numbers. -/
theorem Irreducible.exists_renumbering (h : m.Irreducible) (hm : m.WellFormed) (hu' : u.Irreducible)
    (hu : u.WellFormed) (hstart : u.residual u.start = m.residual m.start) :
    ∃ f, m.Merges u f ∧ ∀ s < m.size, ∀ s' < m.size, f s = f s' → s = s' := by
  obtain ⟨f, hf, hf_inj⟩ := h.exists_residual_map hm hu hstart
  -- A state of `u` is known by its residual.
  have hf_eq : ∀ s < m.size, ∀ j < u.size, u.residual j = m.residual s → f s = j := by
    intro s hs j hj hres
    exact hu'.eq_of_residual_eq _ (hf s hs).1 j hj ((hf s hs).2.trans hres.symm)
  have hf_error : f error = error := by
    refine hf_eq error hm.size_pos error hu.size_pos (funext fun w => ?_)
    rw [hm.residual_error, hu.residual_error]
  refine ⟨f, ⟨?_, fun s hs => (hf s hs).1, fun j hj => ?_, fun s hs => ?_, fun s hs b => ?_,
    fun s hs => ?_⟩, hf_inj⟩
  · exact hf_eq m.start hm.start_lt u.start hu.start_lt hstart
  · obtain ⟨s, hs, hres⟩ := hu'.exists_residual_eq hu hm hstart.symm hj
    exact ⟨s, hs, hf_eq s hs j hj hres.symm⟩
  · exact congrFun (hf s hs).2 []
  · refine (hf_eq _ (hm.next_lt s hs b) _ (hu.next_lt _ (hf s hs).1 b) ?_).symm
    exact residual_next_congr (hf s hs).2 b
  · constructor
    · intro heq
      exact hf_inj s hs error hm.size_pos (heq.trans hf_error.symm)
    · rintro rfl
      exact hf_error

/-! ## The rounds keep states of one residual together -/

/-- Every state other than the error state is reached, and goes on to accept something. -/
structure Trim (t : Table) : Prop where
  reached : ∀ s < t.size, s ≠ error → ∃ w, t.run t.start w = s
  live : ∀ s < t.size, s ≠ error → ∃ w, t.residual s w ≠ none

theorem Trim.eq_error_of_residual_eq (h : t.Trim) (ht : t.WellFormed) (hs : s < t.size)
    (hres : t.residual s = t.residual error) : s = error := by
  by_contra hne
  obtain ⟨w, hw⟩ := h.live s hs hne
  rw [hres, ht.residual_error] at hw
  exact hw rfl

end Table

namespace Partition

variable {t : Table} {p : Partition}

/-- States of one residual are in one block. -/
def KeepsTogether (t : Table) (p : Partition) : Prop :=
  ∀ s < t.size, ∀ s' < t.size, t.residual s = t.residual s' → p.block s = p.block s'

theorem keepsTogether_initial (h : t.Trim) (ht : t.WellFormed) : KeepsTogether t (initial t) := by
  intro s hs s' hs' hres
  rw [block_initial hs, block_initial hs', kind, kind]
  have haccept : t.accept? s = t.accept? s' := congrFun hres []
  by_cases herror : s = Table.error
  · subst herror
    rw [h.eq_error_of_residual_eq ht hs' hres.symm]
  · have herror' : s' ≠ Table.error := by
      rintro rfl
      exact herror (h.eq_error_of_residual_eq ht hs hres)
    rw [if_neg herror, if_neg herror', haccept]

theorem KeepsTogether.refine (h : KeepsTogether t p) (ht : t.WellFormed) :
    KeepsTogether t (p.refine t) := by
  intro s hs s' hs' hres
  rw [block_refine_eq_iff hs hs', signature_eq_iff]
  refine ⟨h s hs s' hs' hres, fun b => ?_⟩
  exact h _ (ht.next_lt s hs b) _ (ht.next_lt s' hs' b) (Table.residual_next_congr hres b)

theorem KeepsTogether.rounds (h : KeepsTogether t p) (ht : t.WellFormed) :
    ∀ q ∈ rounds t p, KeepsTogether t q := by
  fun_induction Partition.rounds t p with
  | case1 p hlt ih =>
    intro q hq
    rcases List.mem_cons.mp hq with rfl | hq
    · exact h.refine ht
    · exact ih (h.refine ht) q hq
  | case2 p hlt =>
    intro q hq
    rw [List.mem_singleton.mp hq]
    exact h.refine ht

theorem keepsTogether_final (h : t.Trim) (ht : t.WellFormed) : KeepsTogether t (final t) := by
  have hinitial := keepsTogether_initial h ht
  unfold final
  cases hlast : ((initial t).rounds t).getLast? with
  | none => exact hinitial
  | some q => exact hinitial.rounds ht q (List.mem_of_getLast? hlast)

end Partition

namespace Table

variable {t : Table}

/-- The minimal table of a trim table is irreducible. -/
theorem Trim.irreducible_minimize (h : t.Trim) (ht : t.WellFormed) (hmin : t.minimal = false) :
    t.minimize.Irreducible := by
  obtain ⟨f, hmerges, hblocks⟩ := exists_merges_minimize ht
  have hblocks := hblocks hmin
  constructor
  · intro j hj hne
    obtain ⟨s, hs, rfl⟩ := hmerges.onto j hj
    obtain ⟨w, hw⟩ := h.reached s hs (mt (hmerges.error_iff s hs).mpr hne)
    exact ⟨w, by rw [hmerges.run_start ht, hw]⟩
  · intro j hj j' hj' hres
    obtain ⟨s, hs, rfl⟩ := hmerges.onto j hj
    obtain ⟨s', hs', rfl⟩ := hmerges.onto j' hj'
    rw [hmerges.residual_eq ht hs, hmerges.residual_eq ht hs'] at hres
    exact (hblocks s hs s' hs').mpr (Partition.keepsTogether_final h ht s hs s' hs' hres)

/-! ## Tables of pattern sets -/

/-- After every text, the table accepts the least pattern of a set that has the text, if there is
    one. -/
def Recognizes (t : Table) (re : Regex) : Prop :=
  ∀ w k, t.accept? (t.run t.start w) = some k ↔ IsLeast {k | re.Accepts k w} k

theorem Recognizes.residual_eq {re re' : Regex} (h : t.Recognizes re) {u : Table}
    (h' : u.Recognizes re')
    (hsame : ∀ w k, IsLeast {k | re.Accepts k w} k ↔ IsLeast {k | re'.Accepts k w} k) :
    t.residual t.start = u.residual u.start := by
  funext w
  refine Option.ext fun k => ?_
  exact (h w k).trans ((hsame w k).trans (h' w k).symm)

variable {re : Regex}

/-- A table of a pattern set accepts what the machine of its kernels accepts. -/
theorem residual_ofRegex {p : Program} {rs : List Regex} (hcode : p.IsCodeOf re.desugar.anchor rs)
    (w : Bytes) : (ofRegex re).residual (ofRegex re).start w =
      p.kernelMachine.accepted? (p.kernelOf [0]) w := by
  have hpairs := Pairs.of_isCodeOf hcode
  have hbisim := (bisim_ofLabelled (Labelled.ofRegex re)).trans
    (Program.bisim_kernelMachine hpairs hcode)
  have hwf : (ofRegex re).WellFormed := wellFormed_ofLabelled _
  rw [← hwf.accepted?_machine]
  exact hbisim.accepted?_eq ⟨_, ⟨start_mem_sets _, rfl⟩, Program.matches_start hpairs⟩ w

theorem recognizes_ofRegex (h : re.IsPatternSet) : (ofRegex re).Recognizes re := by
  obtain ⟨p, _, hcode⟩ := Program.exists_ofRegex_eq_ok h
  intro w k
  rw [← hcode.acceptsLeast, ← residual_ofRegex hcode, residual]

/-- The table of a pattern set is trim. -/
theorem trim_ofRegex (h : re.IsPatternSet) : (ofRegex re).Trim := by
  obtain ⟨p, _, hcode⟩ := Program.exists_ofRegex_eq_ok h
  have hpairs := Pairs.of_isCodeOf hcode
  have hreaches : ∀ s < (ofRegex re).size, s ≠ error →
      (ofRegex re).machine.Reaches (ofRegex re).start s := fun s hs hne =>
    (reaches_ofLabelled_iff (Program.start_ne_nil hpairs hcode)).mpr ⟨hne, hs⟩
  constructor
  · intro s hs hne
    obtain ⟨w, hw⟩ := hreaches s hs hne
    exact ⟨w, run_eq_of_machine_run hw⟩
  -- The text that leads to a state is the start of a word, and the rest of the word is accepted.
  · intro s hs hne
    obtain ⟨w, hw⟩ := hreaches s hs hne
    have hbisim := (bisim_ofLabelled _).trans (Program.bisim_kernelMachine hpairs hcode)
    have hrun : Option.Rel _ ((ofRegex re).machine.run (ofRegex re).start w)
        (p.kernelMachine.run (p.kernelOf [0]) w) :=
      hbisim.run ⟨_, ⟨start_mem_sets _, rfl⟩, Program.matches_start hpairs⟩ w
    have hgo : p.kernelMachine.run (p.kernelOf [0]) w ≠ none := by
      intro hnone
      rw [hw, hnone] at hrun
      cases hrun
    obtain ⟨k, v, hk⟩ := hcode.run_ne_none_iff.mp hgo
    refine ⟨v, fun hnone => ?_⟩
    rw [← run_eq_of_machine_run hw, residual_run, residual_ofRegex hcode,
      hcode.acceptsLeast.accepted?_eq_none_iff] at hnone
    exact hnone k hk

theorem recognizes_minimize (ht : t.WellFormed) (h : t.Recognizes re) :
    t.minimize.Recognizes re := by
  obtain ⟨f, hmerges, _⟩ := exists_merges_minimize ht
  intro w k
  rw [hmerges.run_start ht, hmerges.accept _ (ht.run_lt ht.start_lt w)]
  exact h w k

/-- In the minimal table of a pattern set, every state other than the error state is reached, and
    any two states are told apart by some text. So no table that accepts the same patterns is
    smaller, and the minimal tables of pattern sets that give every text the same pattern differ by
    the numbers of their states only. -/
theorem minimize_ofRegex_smallest (h : re.IsPatternSet) :
    let m := (ofRegex re).minimize
    (∀ s < m.size, s ≠ error → ∃ w, m.run m.start w = s) ∧
      (∀ s < m.size, ∀ s' < m.size, s ≠ s' →
        ∃ w, m.accept? (m.run s w) ≠ m.accept? (m.run s' w)) ∧
      m.Recognizes re ∧
      (∀ u : Table, u.WellFormed → u.Recognizes re → m.size ≤ u.size) ∧
      ∀ re' : Regex, re'.IsPatternSet →
        (∀ w k, IsLeast {k | re.Accepts k w} k ↔ IsLeast {k | re'.Accepts k w} k) →
        ∃ f, m.Merges (ofRegex re').minimize f ∧
          ∀ s < m.size, ∀ s' < m.size, f s = f s' → s = s' := by
  intro m
  have hwf : ∀ re' : Regex, (ofRegex re').minimize.WellFormed := fun re' => by
    obtain ⟨f, hmerges, _⟩ := exists_merges_minimize (wellFormed_ofLabelled (Labelled.ofRegex re'))
    exact hmerges.wellFormed (wellFormed_ofLabelled _)
  have hirr : ∀ {re' : Regex}, re'.IsPatternSet → (ofRegex re').minimize.Irreducible := fun h' =>
    (trim_ofRegex h').irreducible_minimize (wellFormed_ofLabelled _) rfl
  have hrec : ∀ {re' : Regex}, re'.IsPatternSet → (ofRegex re').minimize.Recognizes re' := fun h' =>
    recognizes_minimize (wellFormed_ofLabelled _) (recognizes_ofRegex h')
  refine ⟨(hirr h).reached, fun s hs s' hs' hne => ?_, hrec h, fun u hu hurec => ?_,
    fun re' h' hsame => ?_⟩
  · by_contra hall
    push Not at hall
    exact hne ((hirr h).eq_of_residual_eq s hs s' hs' (funext hall))
  · exact (hirr h).size_le (hwf re) hu (hurec.residual_eq (hrec h) fun w k => Iff.rfl)
  · exact (hirr h).exists_renumbering (hwf re) (hirr h') (hwf re')
      ((hrec h).residual_eq (hrec h') hsame).symm

/-- One or more `a`s, or an `a` and then any number of them. -/
theorem minimize_ofRegex_smallest_plus :
    (Regex.plus (.byte 97)).IsPatternSet ∧
      (Regex.cat [.byte 97, .star (.byte 97)]).IsPatternSet ∧
      ∃ f, (ofRegex (.plus (.byte 97))).minimize.Merges
        (ofRegex (.cat [.byte 97, .star (.byte 97)])).minimize f := by
  have h : (Regex.plus (.byte 97)).IsPatternSet := by decide
  have h' : (Regex.cat [.byte 97, .star (.byte 97)]).IsPatternSet := by decide
  have hlanguage : (Regex.plus (.byte 97)).language =
      (Regex.cat [.byte 97, .star (.byte 97)]).language := by
    simp [Regex.language, Regex.catLanguage]
  have haccepts : ∀ k w, (Regex.plus (.byte 97)).Accepts k w ↔
      (Regex.cat [.byte 97, .star (.byte 97)]).Accepts k w := by
    intro k w
    cases k <;> simp [Regex.Accepts, Regex.bodies, hlanguage]
  obtain ⟨f, hf, _⟩ := (minimize_ofRegex_smallest h).2.2.2.2 _ h' fun w k => by
    simp only [haccepts]
  exact ⟨h, h', f, hf⟩

end Table

end Munch

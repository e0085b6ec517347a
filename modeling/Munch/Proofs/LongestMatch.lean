import Mathlib.Order.Nat
import Munch.Proofs.Kernels
import Munch.Proofs.Scanner

set_option autoImplicit false

/-! # Longest matches

A scan finds the longest match at a cursor, and of the patterns that have it the one with the least
number; where no pattern matches, it says at which byte no pattern could go on any more
(`Table.step_ofRegex`).

For a machine this is a matter of its states after the prefixes of the input alone
(`Machine.longest?_find`, `Machine.fail_find`). A machine that accepts, after every text, the least
of the patterns that have the text finds the longest texts of these patterns
(`Machine.AcceptsLeast.findsLongest`). The states after a prefix are known from the runs of the
program, and so from the languages of the patterns. -/

namespace Munch

/-- Numbers with a property have a least one. -/
theorem exists_isLeast_iff {P : Nat → Prop} : (∃ k, IsLeast {k | P k} k) ↔ ∃ k, P k := by
  classical
  exact ⟨fun ⟨k, hk⟩ => ⟨k, hk.1⟩, fun h => ⟨Nat.find h, Nat.isLeast_find h⟩⟩

/-! ## What a machine finds -/

namespace Machine

variable {σ : Type} (M : Machine σ)

/-- The pattern that the state after a text accepts. -/
def accepted? (s : σ) (w : Bytes) : Option Nat := (M.run s w).bind M.accept?

variable {M} {s t : σ} {b : UInt8}

/-- Related states accept the same patterns. -/
theorem Bisim.accepted?_eq {τ : Type} {N : Machine τ} {R : σ → τ → Prop} {x : τ} (h : Bisim M N R)
    (hsx : R s x) (w : Bytes) : M.accepted? s w = N.accepted? x w := by
  have hrun := h.run hsx w
  unfold accepted?
  cases hs : M.run s w with
  | none =>
    rw [hs] at hrun
    cases hx : N.run x w with
    | none => rfl
    | some y => rw [hx] at hrun; cases hrun
  | some t =>
    rw [hs] at hrun
    cases hx : N.run x w with
    | none => rw [hx] at hrun; cases hrun
    | some y =>
      rw [hx] at hrun
      cases hrun with
      | some hty => exact h.accept hty

theorem run_take_succ (h : M.next? s b = some t) (rest : Bytes) (j : Nat) :
    M.run s ((b :: rest).take (j + 1)) = M.run t (rest.take j) := by
  rw [List.take_succ_cons, run_cons, h, Option.bind_some]

theorem accepted?_take_succ (h : M.next? s b = some t) (rest : Bytes) (j : Nat) :
    M.accepted? s ((b :: rest).take (j + 1)) = M.accepted? t (rest.take j) := by
  rw [accepted?, run_take_succ h, accepted?]

/-- A run remembers the longest prefix that is accepted; the empty prefix does not count. -/
theorem longest?_find (rest : Bytes) : ∀ s i best,
    (∃ j id, 0 < j ∧ j ≤ rest.length ∧ M.accepted? s (rest.take j) = some id ∧
        (∀ j', j < j' → j' ≤ rest.length → M.accepted? s (rest.take j') = none) ∧
        (M.find s i best rest).longest? = some (id, i + j)) ∨
      (∀ j, 0 < j → j ≤ rest.length → M.accepted? s (rest.take j) = none) ∧
        (M.find s i best rest).longest? = best := by
  induction rest with
  | nil =>
    intro s i best
    right
    refine ⟨fun j hj hle => ?_, rfl⟩
    simp at hle
    omega
  | cons b rest ih =>
    intro s i best
    cases hnext : M.next? s b with
    | none =>
      right
      refine ⟨fun j hj _ => ?_, by rw [find_of_next?_eq_none hnext]⟩
      obtain ⟨j, rfl⟩ := Nat.exists_eq_succ_of_ne_zero (Nat.ne_of_gt hj)
      rw [List.take_succ_cons, accepted?, run_cons, hnext]
      rfl
    | some t =>
      have htake := accepted?_take_succ hnext rest
      rw [find_of_next?_eq_some hnext]
      -- What the rest finds past its own start wins; then the state after the first byte counts.
      rcases ih t (i + 1) (record (i + 1) best (M.accept? t)) with
        ⟨j, id, hj, hle, hacc, hmax, hfind⟩ | ⟨hnone, hfind⟩
      · refine .inl ⟨j + 1, id, Nat.succ_pos j, Nat.succ_le_succ hle, ?_, fun j' hlt hle' => ?_, ?_⟩
        · rw [htake, hacc]
        · obtain ⟨j', rfl⟩ := Nat.exists_eq_succ_of_ne_zero (by omega : j' ≠ 0)
          rw [htake, hmax j' (by omega) (Nat.le_of_succ_le_succ hle')]
        · rw [hfind, Nat.add_right_comm, Nat.add_assoc]
      · have hlater : ∀ j, 0 < j → j ≤ rest.length →
            M.accepted? s ((b :: rest).take (j + 1)) = none := by
          intro j hj hle
          rw [htake, hnone j hj hle]
        have hone : M.accepted? s ((b :: rest).take 1) = M.accept? t := by
          rw [htake 0]
          rfl
        cases hacc : M.accept? t with
        | some id =>
          refine .inl ⟨1, id, Nat.one_pos, by simp, hone.trans hacc, fun j hlt hle => ?_, ?_⟩
          · obtain ⟨j, rfl⟩ := Nat.exists_eq_succ_of_ne_zero (by omega : j ≠ 0)
            exact hlater j (by omega) (Nat.le_of_succ_le_succ hle)
          · rw [hacc] at hfind
            rw [hfind]
            rfl
        | none =>
          refine .inr ⟨fun j hj hle => ?_, ?_⟩
          · obtain ⟨j, rfl⟩ := Nat.exists_eq_succ_of_ne_zero (by omega : j ≠ 0)
            by_cases hzero : j = 0
            · subst hzero
              exact hone.trans hacc
            · exact hlater j (by omega) (Nat.le_of_succ_le_succ hle)
          · rw [hacc] at hfind
            rw [hfind]
            rfl

/-- A run goes on until the end of the input, or up to the first byte after which there is no
    state. -/
theorem fail_find (rest : Bytes) : ∀ s i best, ∃ m ≤ rest.length,
    (M.find s i best rest).fail = i + m ∧ (∀ j ≤ m, M.run s (rest.take j) ≠ none) ∧
      (m < rest.length → M.run s (rest.take (m + 1)) = none) := by
  induction rest with
  | nil =>
    intro s i best
    exact ⟨0, Nat.le_refl 0, rfl, by simp, by simp⟩
  | cons b rest ih =>
    intro s i best
    cases hnext : M.next? s b with
    | none =>
      refine ⟨0, Nat.zero_le _,
        by rw [find_of_next?_eq_none hnext]; rfl, fun j hj => ?_, fun _ => ?_⟩
      · obtain rfl : j = 0 := Nat.le_zero.mp hj
        simp
      · rw [List.take_succ_cons, run_cons, hnext]
        rfl
    | some t =>
      have htake := run_take_succ hnext rest
      obtain ⟨m, hm, hfail, hgo, hstop⟩ := ih t (i + 1) (record (i + 1) best (M.accept? t))
      refine ⟨m + 1, Nat.succ_le_succ hm, ?_, fun j hj => ?_, fun hlt => ?_⟩
      · rw [find_of_next?_eq_some hnext, hfail, Nat.add_right_comm, Nat.add_assoc]
      · cases j with
        | zero => simp
        | succ j =>
          rw [htake]
          exact hgo j (Nat.le_of_succ_le_succ hj)
      · rw [htake]
        exact hstop (Nat.lt_of_succ_lt_succ hlt)

/-- After every text, a state accepts the least of the patterns that have the text, if there is
    one. -/
def AcceptsLeast (M : Machine σ) (s : σ) (A : Nat → Bytes → Prop) : Prop :=
  ∀ w k, M.accepted? s w = some k ↔ IsLeast {k | A k w} k

variable {A : Nat → Bytes → Prop}

/-- States that accept the least of some patterns, which are those that have the text. -/
theorem acceptsLeast_of_run {ids : σ → List Nat} (haccept : ∀ t, M.accept? t = (ids t).min?)
    (hrun : ∀ w k, A k w ↔ ∃ t, M.run s w = some t ∧ k ∈ ids t) : M.AcceptsLeast s A := by
  intro w k
  replace hrun := hrun w
  unfold accepted?
  cases ht : M.run s w with
  | none =>
    simp only [ht, reduceCtorEq, false_and, exists_false, iff_false] at hrun
    simp [IsLeast, hrun]
  | some t =>
    simp only [ht, Option.some.injEq, exists_eq_left'] at hrun
    rw [Option.bind_some, haccept, List.min?_eq_some_iff]
    simp only [IsLeast, lowerBounds, Set.mem_ofPred_eq, hrun]

theorem AcceptsLeast.accepted?_eq_none_iff (h : M.AcceptsLeast s A) {w : Bytes} :
    M.accepted? s w = none ↔ ∀ k, ¬ A k w := by
  rw [← not_exists, ← exists_isLeast_iff, Option.eq_none_iff_forall_ne_some, not_exists]
  exact forall_congr' fun k => not_congr (h w k)

end Machine

/-! ## Longest texts -/

namespace Bytes

theorem length_slice {text : Bytes} {start stop : Nat} (h : stop ≤ text.length) :
    (text.slice start stop).length = stop - start := by
  rw [slice, List.length_take, List.length_drop]
  omega

theorem take_drop_eq_slice (text : Bytes) (start j : Nat) :
    (text.drop start).take j = text.slice start (start + j) := by
  rw [slice, Nat.add_sub_cancel_left]

end Bytes

section Longest

variable {A B : Nat → Bytes → Prop} {text : Bytes} {tc : Nat}

/-- The ends of the texts of some pattern that start at a cursor; the empty text does not count. -/
def endsOf (A : Nat → Bytes → Prop) (text : Bytes) (tc : Nat) : Set Nat :=
  {e | tc < e ∧ e ≤ text.length ∧ ∃ k, A k (text.slice tc e)}

/-- What is found at a cursor is the longest text of some pattern, of the least pattern that has
    it. -/
structure FindsLongest (A : Nat → Bytes → Prop) (text : Bytes) (tc : Nat)
    (found : Option (Nat × Nat)) : Prop where
  of_some : ∀ id stop, found = some (id, stop) →
    IsGreatest (endsOf A text tc) stop ∧ IsLeast {k | A k (text.slice tc stop)} id
  of_none : found = none → ∀ e, e ∉ endsOf A text tc

/-- Only one thing is found at a cursor. -/
theorem FindsLongest.unique {found found' : Option (Nat × Nat)} (h : FindsLongest A text tc found)
    (h' : FindsLongest A text tc found') : found = found' := by
  rcases found with _ | ⟨id, stop⟩ <;> rcases found' with _ | ⟨id', stop'⟩
  · rfl
  · exact absurd (h'.of_some _ _ rfl).1.1 (h.of_none rfl stop')
  · exact absurd (h.of_some _ _ rfl).1.1 (h'.of_none rfl stop)
  · obtain ⟨hgreatest, hleast⟩ := h.of_some _ _ rfl
    obtain ⟨hgreatest', hleast'⟩ := h'.of_some _ _ rfl
    obtain rfl := hgreatest.unique hgreatest'
    rw [hleast.unique hleast']

/-- What is found depends on the least patterns only that texts have which are not empty. -/
theorem FindsLongest.congr (hsame : ∀ w ≠ [], ∀ k, IsLeast {k | A k w} k ↔ IsLeast {k | B k w} k)
    {found : Option (Nat × Nat)} (h : FindsLongest A text tc found) :
    FindsLongest B text tc found := by
  have hne : ∀ {e}, tc < e → e ≤ text.length → text.slice tc e ≠ [] := by
    intro e hlt hle
    have hlength : (text.slice tc e).length = e - tc := Bytes.length_slice hle
    exact List.ne_nil_of_length_pos (by omega)
  have hends : endsOf A text tc = endsOf B text tc := by
    ext e
    refine and_congr_right fun hlt => and_congr_right fun hle => ?_
    exact exists_isLeast_iff.symm.trans ((exists_congr
      (hsame _ (hne hlt hle))).trans exists_isLeast_iff)
  refine ⟨fun id stop hfound => ?_, hends ▸ h.of_none⟩
  obtain ⟨hgreatest, hleast⟩ := h.of_some id stop hfound
  exact ⟨hends ▸ hgreatest, (hsame _ (hne hgreatest.1.1 hgreatest.1.2.1) id).mp hleast⟩

/-- A whole text that is not empty is found under its least pattern. -/
theorem FindsLongest.eq_some_length_iff {w : Bytes} {found : Option (Nat × Nat)} {k : Nat}
    (h : FindsLongest A w 0 found) (hne : w ≠ []) :
    found = some (k, w.length) ↔ IsLeast {k | A k w} k := by
  have hslice : w.slice 0 w.length = w := List.take_length
  constructor
  · intro hfound
    have hleast := (h.of_some k w.length hfound).2
    rwa [hslice] at hleast
  · intro hleast
    have hmem : w.length ∈ endsOf A w 0 :=
      ⟨List.length_pos_iff.mpr hne, Nat.le_refl _, k, hslice.symm ▸ hleast.1⟩
    cases hfound : found with
    | none => exact absurd hmem (h.of_none hfound _)
    | some m =>
      obtain ⟨id, stop⟩ := m
      obtain ⟨hgreatest, hid⟩ := h.of_some id stop hfound
      obtain rfl : stop = w.length := Nat.le_antisymm hgreatest.1.2.1 (hgreatest.2 hmem)
      rw [hslice] at hid
      rw [hid.unique hleast]

/-- What finds the longest texts of some patterns and what finds those of others find the same
    everywhere exactly if they give every text that is not empty the same least pattern. -/
theorem FindsLongest.forall_eq_iff {f g : Bytes → Nat → Option (Nat × Nat)}
    (hf : ∀ text tc, FindsLongest A text tc (f text tc))
    (hg : ∀ text tc, FindsLongest B text tc (g text tc)) :
    (∀ text tc, f text tc = g text tc) ↔ ∀ w ≠ [], ∀ k,
    IsLeast {k | A k w} k ↔ IsLeast {k | B k w} k := by
  constructor
  · intro hsame w hne k
    rw [← (hf w 0).eq_some_length_iff hne, hsame w 0, (hg w 0).eq_some_length_iff hne]
  · intro hleast text tc
    exact ((hf text tc).congr hleast).unique (hg text tc)

/-- A machine that accepts the least patterns finds the longest texts. -/
theorem Machine.AcceptsLeast.findsLongest {σ : Type} {M : Machine σ} {s : σ}
    (h : M.AcceptsLeast s A) (text : Bytes) (tc : Nat) :
    FindsLongest A text tc (M.find s tc none (text.drop tc)).longest? := by
  have hlen : (text.drop tc).length = text.length - tc := List.length_drop
  rcases longest?_find (M := M) (text.drop tc) s tc none with
    ⟨j, id, hj, hle, hacc, hmax, hfind⟩ | ⟨hnone, hfind⟩
  · rw [hfind]
    refine ⟨fun id' stop heq => ?_, by simp⟩
    obtain ⟨rfl, rfl⟩ := Prod.mk.inj (Option.some.inj heq)
    rw [Bytes.take_drop_eq_slice, h] at hacc
    refine ⟨⟨⟨by omega, by omega, id, hacc.1⟩, fun e he => ?_⟩, hacc⟩
    obtain ⟨hlt, hend, k, hk⟩ := he
    by_contra hgt
    have hlater := hmax (e - tc) (by omega) (by omega)
    rw [Bytes.take_drop_eq_slice, h.accepted?_eq_none_iff, Nat.add_sub_cancel' hlt.le] at hlater
    exact hlater k hk
  · rw [hfind]
    refine ⟨by simp, fun _ e he => ?_⟩
    obtain ⟨hlt, hend, k, hk⟩ := he
    have htake := hnone (e - tc) (by omega) (by omega)
    rw [Bytes.take_drop_eq_slice, h.accepted?_eq_none_iff, Nat.add_sub_cancel' hlt.le] at htake
    exact htake k hk

end Longest

/-! ## What the patterns of a set accept -/

namespace Regex

/-- The pattern with a number has a word. -/
def Accepts (re : Regex) (k : Nat) (w : Bytes) : Prop :=
  ∃ body, re.bodies[k]? = some body ∧ w ∈ body.language

/-- A text is the start of a word of some pattern. -/
def Viable (re : Regex) (w : Bytes) : Prop := ∃ k v, re.Accepts k (w ++ v)

end Regex

namespace Program

variable {p : Program} {re : Regex}
  (h : p.IsCodeOf re.desugar.anchor (re.bodies.map Regex.desugar))

include h

theorem IsCodeOf.accepts_iff {k : Nat} {w : Bytes} :
    re.Accepts k w ↔ ∃ kernel, p.kernelMachine.run (p.kernelOf [0]) w = some kernel ∧
      k ∈ kernel.filterMap p.pattern? := by
  rw [Regex.Accepts, ← h.run_iff_bodies]
  exact run_accept_iff h.threaded

/-- After a text, the machine accepts the least pattern that has the text. -/
theorem IsCodeOf.acceptsLeast : p.kernelMachine.AcceptsLeast (p.kernelOf [0]) re.Accepts :=
  Machine.acceptsLeast_of_run (fun _ => rfl) fun _ _ => h.accepts_iff

/-- No state of the machine is empty. -/
theorem IsCodeOf.exists_mem_of_run {w : Bytes} {kernel : IndexSet}
    (hrun : p.kernelMachine.run (p.kernelOf [0]) w = some kernel) : ∃ x, x ∈ kernel := by
  have hstart : ∃ x, x ∈ p.kernelOf [0] := by
    obtain ⟨stop, hcode, _⟩ := h.exists_patternsCode
    obtain ⟨n, v, t, k, hrun, ht⟩ := hcode.exists_run_accept (Nat.le_refl 0) hcode.base_lt_stop
    obtain ⟨y, hy, m, hm⟩ := exists_passes_of_run hrun (isKernelInst_of_pattern? ht)
    obtain ⟨kernel, hkernel, hmem⟩ := (h.mem_run []).mpr ⟨hy, m, hm⟩
    obtain rfl := Option.some.inj hkernel
    exact ⟨y, hmem⟩
  refine Machine.Reaches.induct (M := p.kernelMachine) (P := fun kernel => ∃ x,
    x ∈ kernel) ⟨w, hrun⟩ hstart fun s t b _ ht => ?_
  rw [next?_kernelMachine] at ht
  split at ht
  · simp at ht
  · next hmoved =>
    obtain rfl := Option.some.inj ht
    obtain ⟨c, hc⟩ := List.exists_mem_of_ne_nil _ hmoved
    obtain ⟨a, _, r, hr, _, rfl⟩ := mem_movedBy.mp hc
    obtain ⟨y, hy, hreach⟩ := h.exists_reach_succ hr
    exact ⟨y, mem_kernelOf.mpr ⟨⟨_, hc, hreach⟩, hy⟩⟩

/-- The machine goes on for as long as the text can become a word of some pattern. -/
theorem IsCodeOf.run_ne_none_iff {w : Bytes} :
    p.kernelMachine.run (p.kernelOf [0]) w ≠ none ↔ re.Viable w := by
  constructor
  · intro hne
    obtain ⟨kernel, hkernel⟩ := Option.ne_none_iff_exists'.mp hne
    obtain ⟨x, hx⟩ := h.exists_mem_of_run hkernel
    obtain ⟨hsite, n, hn⟩ := (h.mem_run w).mp ⟨kernel, hkernel, hx⟩
    obtain ⟨m, v, t, k, hm, ht⟩ := h.exists_run_accept hsite
    exact ⟨k, v, h.run_iff_bodies.mp ⟨_, t, hn.trans hm, ht⟩⟩
  · intro ⟨k, v, hk⟩ hnone
    obtain ⟨kernel, hkernel, _⟩ := h.accepts_iff.mp hk
    rw [Machine.run_append, hnone] at hkernel
    simp at hkernel

end Program

/-! ## What a scan finds -/

namespace Table

/-- What a table of a pattern set finds is what the machine of its kernels finds. -/
theorem find_ofRegex {re : Regex} {p : Program} {rs : List Regex}
    (hcode : p.IsCodeOf re.desugar.anchor rs) (text : Bytes) (tc : Nat) :
      (ofRegex re).find text tc = p.kernelMachine.find (p.kernelOf [0]) tc none (text.drop tc) := by
  have hpairs := Pairs.of_isCodeOf hcode
  rw [ofRegex, find_ofLabelled]
  exact (Program.bisim_kernelMachine hpairs hcode).find_eq (Program.matches_start hpairs) _ _ _

/-- The ends of the words of some pattern that start at a cursor; the empty word does not count. -/
def matchEnds (re : Regex) (text : Bytes) (tc : Nat) : Set Nat :=
  {e | tc < e ∧ e ≤ text.length ∧ ∃ k, re.Accepts k (text.slice tc e)}

/-- The offsets from a cursor on at which the input has ended or no pattern can go on any more. -/
def deadEnds (re : Regex) (text : Bytes) (tc : Nat) : Set Nat :=
  {i | tc ≤ i ∧ (text.length ≤ i ∨ ¬ re.Viable (text.slice tc (i + 1)))}

variable {re : Regex} {text : Bytes} {tc : Nat}

/-- A table of a pattern set finds the longest match, and the least pattern that has it. -/
theorem findsLongest_ofRegex (h : re.IsPatternSet) (text : Bytes) (tc : Nat) :
    FindsLongest re.Accepts text tc ((ofRegex re).find text tc).longest? := by
  obtain ⟨p, _, hcode⟩ := Program.exists_ofRegex_eq_ok h
  rw [find_ofRegex hcode]
  exact hcode.acceptsLeast.findsLongest text tc

/-- A table of a pattern set fails where no pattern can go on any more. -/
theorem fail_find_ofRegex (h : re.IsPatternSet) (htc : tc ≤ text.length) :
    IsLeast (deadEnds re text tc) ((ofRegex re).find text tc).fail := by
  obtain ⟨p, _, hcode⟩ := Program.exists_ofRegex_eq_ok h
  have hlen : (text.drop tc).length = text.length - tc := List.length_drop
  rw [find_ofRegex hcode]
  obtain ⟨m, hm, hfail, hgo, hstop⟩ :=
    Machine.fail_find (M := p.kernelMachine) (text.drop tc) (p.kernelOf [0]) tc none
  rw [hfail]
  refine ⟨⟨Nat.le_add_right _ _, ?_⟩, fun i hi => ?_⟩
  · by_cases hend : m < (text.drop tc).length
    · right
      have hnone := hstop hend
      rw [Bytes.take_drop_eq_slice, ← Nat.add_assoc] at hnone
      exact fun hviable => hcode.run_ne_none_iff.mpr hviable hnone
    · left
      omega
  · obtain ⟨hle, hdead⟩ := hi
    by_contra hlt
    rcases hdead with hend | hdead
    · omega
    · have hne := hgo (i + 1 - tc) (by omega)
      rw [Bytes.take_drop_eq_slice, Nat.add_sub_cancel' (by omega : tc ≤ i + 1)] at hne
      exact hdead (hcode.run_ne_none_iff.mp hne)

/-- A step before the end of the text finds a match exactly if some pattern has a word that is not
    empty at the cursor. Then it is the longest such word, of the least pattern that has it;
    otherwise the step fails at the first byte after which no pattern can go on, or at the end of
    the text. -/
theorem step_ofRegex (h : re.IsPatternSet) (htc : tc < text.length) :
    let found := ((Scanner.start (ofRegex re) text).step tc).1
    (∃ r, found = some r) ∧
      ((∃ m, found = some (.ok m)) ↔ ∃ e, e ∈ matchEnds re text tc) ∧
      (∀ m, found = some (.ok m) → m.tc = tc ∧ IsGreatest (matchEnds re text tc) m.stop ∧
        IsLeast {k | re.Accepts k (text.slice tc m.stop)} m.id ∧
        m.bytes = text.slice tc m.stop) ∧
      ∀ u, found = some (.error u) → u.start = tc ∧ IsLeast (deadEnds re text tc) u.fail ∧
        u.text = text.slice tc (u.fail + 1) := by
  intro found
  have hlongest := findsLongest_ofRegex h text tc
  have hfail := fail_find_ofRegex h htc.le
  have hstep : found = some (Scanner.report text tc ((ofRegex re).find text tc)) := by
    show ((Scanner.start (ofRegex re) text).step tc).1 = _
    rw [Scanner.step_start, if_neg (Nat.not_le.mpr htc)]
    rfl
  rw [hstep, Scanner.report]
  cases hfound : ((ofRegex re).find text tc).longest? with
  | none =>
    refine ⟨⟨_, rfl⟩, ?_, by simp, fun u hu => ?_⟩
    · exact iff_of_false (by simp) fun ⟨e, he⟩ => hlongest.of_none hfound e he
    · obtain rfl := Except.error.inj (Option.some.inj hu)
      exact ⟨rfl, hfail, rfl⟩
  | some m =>
    obtain ⟨id, stop⟩ := m
    obtain ⟨hgreatest, hleast⟩ := hlongest.of_some id stop hfound
    obtain ⟨hlt, hle, _⟩ := hgreatest.1
    have hstop : (Scanner.matchAt text .start id tc stop).1.stop = stop := by
      show tc + (text.slice tc stop).length = stop
      rw [Bytes.length_slice hle]
      omega
    refine ⟨⟨_, rfl⟩, ?_, fun m hm => ?_, by simp⟩
    · exact iff_of_true ⟨_, rfl⟩ ⟨stop, hgreatest.1⟩
    · obtain rfl := Except.ok.inj (Option.some.inj hm)
      rw [hstop]
      exact ⟨rfl, hgreatest, hleast, rfl⟩

/-- A word of `a`s is found in front of another byte. -/
theorem step_ofRegex_plus :
    (Regex.plus (.byte 97)).IsPatternSet ∧ 0 < ([97, 97, 98] : Bytes).length ∧
      ∃ m, ((Scanner.start (ofRegex (.plus (.byte 97))) [97, 97, 98]).step 0).1 = some (.ok m) ∧
        m.id = 0 := by
  have h : (Regex.plus (.byte 97)).IsPatternSet := by decide
  have hlt : 0 < ([97, 97, 98] : Bytes).length := by decide
  obtain ⟨_, hmatch, hok, _⟩ := step_ofRegex h hlt
  have hmem : [97] ++ [] ∈ (Regex.plus (.byte 97)).language :=
    Language.append_mem_mul (l := (Regex.byte 97).language) rfl (Language.nil_mem_kstar _)
  have hword : (Regex.plus (.byte 97)).Accepts 0 (Bytes.slice [97, 97, 98] 0 1) := ⟨_, rfl, hmem⟩
  obtain ⟨m, hm⟩ := hmatch.mpr ⟨1, by decide, by decide, 0, hword⟩
  obtain ⟨body, hbody, _⟩ := (hok m hm).2.2.1.1
  have hid : m.id < 1 := (List.getElem?_eq_some_iff.mp hbody).1
  exact ⟨h, hlt, m, hm, Nat.lt_one_iff.mp hid⟩

end Table

end Munch

import Mathlib.Data.Set.Function
import Munch.Scan.Match

set_option autoImplicit false

/-! # Machines

A `Machine` is what a scan needs of a deterministic automaton: the state that comes next on a byte,
if the automaton can go on, and the pattern that a state accepts. Every automaton of the project
runs as some machine, and two machines are compared by a bisimulation: states that it relates accept
the same pattern and go on together. Related states find the same matches (`Machine.Bisim.find_eq`),
and if no state is related to two others, the states that can be reached are in bijection
(`Machine.Bisim.exists_bijOn`). -/

namespace Munch

/-- A deterministic automaton over bytes, as far as a scan uses it. -/
structure Machine (σ : Type) where
  /-- The state after a byte, or nothing if no pattern can go on. -/
  next? : σ → UInt8 → Option σ
  /-- The pattern that a state accepts. -/
  accept? : σ → Option Nat

namespace Machine

variable {σ τ υ : Type}

/-- The state after a text. -/
def run (M : Machine σ) (s : σ) : Bytes → Option σ
  | [] => some s
  | b :: rest => (M.next? s b).bind fun t => M.run t rest

/-- The longest match after a state at offset `i` accepted some pattern or none. -/
def record (i : Nat) (best : Option (Nat × Nat)) : Option Nat → Option (Nat × Nat)
  | some id => some (id, i)
  | none => best

/-- The longest match after a run from `tc` accepted some pattern or none at offset `i`. At the
    start of the run, nothing is recorded. -/
def recordPast (tc i : Nat) (best : Option (Nat × Nat)) (accepted? : Option Nat) :
    Option (Nat × Nat) :=
  if tc < i then record i best accepted? else best

/-- Run from a state on the rest of the input, which starts at offset `i`. -/
def find (M : Machine σ) (s : σ) (i : Nat) (best : Option (Nat × Nat)) : Bytes → Finding
  | [] => ⟨best, i⟩
  | b :: rest =>
    match M.next? s b with
    | none => ⟨best, i⟩
    | some t => M.find t (i + 1) (record (i + 1) best (M.accept? t)) rest

/-- What a state accepts at offset `i` is recorded, unless the run from `tc` has just started. -/
def recordState (M : Machine σ) (tc i : Nat) (best : Option (Nat × Nat)) (s : σ) :
    Option (Nat × Nat) :=
  if tc < i then record i best (M.accept? s) else best

@[simp] theorem run_nil (M : Machine σ) (s : σ) : M.run s [] = some s := rfl

theorem run_cons (M : Machine σ) (s : σ) (b : UInt8) (rest : Bytes) :
    M.run s (b :: rest) = (M.next? s b).bind fun t => M.run t rest := rfl

theorem run_append (M : Machine σ) (v w : Bytes) : ∀ s,
    M.run s (v ++ w) = (M.run s v).bind fun t => M.run t w := by
  induction v with
  | nil => exact fun s => rfl
  | cons b v ih =>
    intro s
    rw [List.cons_append, run_cons, run_cons, Option.bind_assoc]
    exact Option.bind_congr fun t _ => ih t

theorem find_of_next?_eq_none {M : Machine σ} {s : σ} {b : UInt8} (h : M.next? s b = none)
    (i : Nat) (best : Option (Nat × Nat)) (rest : Bytes) :
    M.find s i best (b :: rest) = ⟨best, i⟩ := by
  rw [find, h]

theorem find_of_next?_eq_some {M : Machine σ} {s t : σ} {b : UInt8} (h : M.next? s b = some t)
    (i : Nat) (best : Option (Nat × Nat)) (rest : Bytes) :
    M.find s i best (b :: rest) = M.find t (i + 1) (record (i + 1) best (M.accept? t)) rest := by
  rw [find, h]

theorem recordPast_none (tc i : Nat) (best : Option (Nat × Nat)) :
    recordPast tc i best none = best :=
  ite_self best

/-- Of two patterns that are accepted at an offset, the later one is recorded. -/
theorem recordPast_recordPast (tc i : Nat) (best : Option (Nat × Nat)) (first? last? : Option Nat) :
    recordPast tc i (recordPast tc i best first?) last? =
      recordPast tc i best (last?.or first?) := by
  unfold recordPast
  split
  · cases last? with
    | none => rfl
    | some id => rfl
  · rfl

theorem lt_of_mem_recordPast {tc i : Nat} {best : Option (Nat × Nat)} (hbest : ∀ m ∈ best, m.2 < i)
    (accepted? : Option Nat) : ∀ m ∈ recordPast tc i best accepted?, m.2 < i + 1 := by
  have hlt : ∀ m ∈ best, m.2 < i + 1 := fun m hm => Nat.lt_succ_of_lt (hbest m hm)
  unfold recordPast
  split
  · cases accepted? with
    | none => exact hlt
    | some id =>
      intro m hm
      obtain rfl := Option.some.inj hm
      exact Nat.lt_succ_self i
  · exact hlt

theorem recordState_eq_recordPast (M : Machine σ) (tc i : Nat) (best : Option (Nat × Nat)) (s : σ) :
    M.recordState tc i best s = recordPast tc i best (M.accept? s) := rfl

theorem lt_of_mem_recordState {M : Machine σ} {tc i : Nat} {best : Option (Nat × Nat)}
    (hbest : ∀ m ∈ best, m.2 < i) (s : σ) : ∀ m ∈ M.recordState tc i best s, m.2 < i + 1 :=
  lt_of_mem_recordPast hbest _

/-- A state can come after another one. -/
def Reaches (M : Machine σ) (s t : σ) : Prop := ∃ w, M.run s w = some t

theorem Reaches.refl (M : Machine σ) (s : σ) : M.Reaches s s := ⟨[], rfl⟩

theorem Reaches.next {M : Machine σ} {s t u : σ} {b : UInt8} (h : M.Reaches s t)
    (ht : M.next? t b = some u) : M.Reaches s u := by
  obtain ⟨w, hw⟩ := h
  refine ⟨w ++ [b], ?_⟩
  rw [run_append, hw, Option.bind_some, run_cons, ht, Option.bind_some, run_nil]

/-- What holds of a state and is kept on every byte holds of all that comes after the state. -/
theorem Reaches.induct {M : Machine σ} {P : σ → Prop} {s t : σ} (h : M.Reaches s t) (hs : P s)
    (hstep : ∀ t u b, P t → M.next? t b = some u → P u) : P t := by
  obtain ⟨w, hw⟩ := h
  induction w generalizing s with
  | nil =>
    obtain rfl := Option.some.inj hw
    exact hs
  | cons b w ih =>
    rw [run_cons, Option.bind_eq_some_iff] at hw
    obtain ⟨u, hu, hw⟩ := hw
    exact ih (hstep s u b hs hu) hw

/-! ## Bisimulations -/

/-- States that a relation relates accept the same pattern, and go on to related states. -/
structure Bisim (M : Machine σ) (N : Machine τ) (R : σ → τ → Prop) : Prop where
  accept : ∀ {s t}, R s t → M.accept? s = N.accept? t
  next : ∀ {s t}, R s t → ∀ b, Option.Rel R (M.next? s b) (N.next? t b)

variable {M : Machine σ} {N : Machine τ} {R : σ → τ → Prop} {s : σ} {t : τ}

/-- Related states find the same matches. -/
theorem Bisim.find_eq (h : Bisim M N R) (hst : R s t) (rest : Bytes) :
    ∀ i best, M.find s i best rest = N.find t i best rest := by
  induction rest generalizing s t with
  | nil => exact fun i best => rfl
  | cons b rest ih =>
    intro i best
    have hnext := h.next hst b
    cases hs : M.next? s b with
    | none =>
      rw [hs] at hnext
      have ht : N.next? t b = none := by
        cases ht : N.next? t b with
        | none => rfl
        | some u => rw [ht] at hnext; cases hnext
      rw [find_of_next?_eq_none hs, find_of_next?_eq_none ht]
    | some u =>
      rw [hs] at hnext
      cases ht : N.next? t b with
      | none => rw [ht] at hnext; cases hnext
      | some v =>
        rw [ht] at hnext
        cases hnext with
        | some huv =>
          rw [find_of_next?_eq_some hs, find_of_next?_eq_some ht, h.accept huv]
          exact ih huv _ _

/-- Related states are related after every text. -/
theorem Bisim.run (h : Bisim M N R) (hst : R s t) (w : Bytes) :
    Option.Rel R (M.run s w) (N.run t w) := by
  induction w generalizing s t with
  | nil => exact .some hst
  | cons b w ih =>
    have hnext := h.next hst b
    rw [run_cons, run_cons]
    cases hs : M.next? s b with
    | none =>
      rw [hs] at hnext
      cases ht : N.next? t b with
      | none => exact .none
      | some v => rw [ht] at hnext; cases hnext
    | some u =>
      rw [hs] at hnext
      cases ht : N.next? t b with
      | none => rw [ht] at hnext; cases hnext
      | some v =>
        rw [ht] at hnext
        cases hnext with
        | some huv => exact ih huv

theorem Bisim.symm (h : Bisim M N R) : Bisim N M fun t s => R s t where
  accept := fun hst => (h.accept hst).symm
  next := by
    intro t s hst b
    have hnext := h.next hst b
    generalize M.next? s b = x at hnext
    generalize N.next? t b = y at hnext
    cases hnext with
    | some hxy => exact .some hxy
    | none => exact .none

theorem Bisim.trans {O : Machine υ} {S : τ → υ → Prop} (h : Bisim M N R) (h' : Bisim N O S) :
    Bisim M O fun s u => ∃ t, R s t ∧ S t u where
  accept := by
    intro s u ⟨t, hst, htu⟩
    rw [h.accept hst, h'.accept htu]
  next := by
    intro s u ⟨t, hst, htu⟩ b
    have hnext := h.next hst b
    have hnext' := h'.next htu b
    generalize M.next? s b = x at hnext
    generalize N.next? t b = y at hnext hnext'
    generalize O.next? u b = z at hnext'
    cases hnext with
    | some hxy => cases hnext' with | some hyz => exact .some ⟨_, hxy, hyz⟩
    | none => cases hnext' with | none => exact .none

/-- What comes after a state is related to what comes after a related state. -/
theorem Bisim.exists_reaches (h : Bisim M N R) (hst : R s t) {a : σ} (ha : M.Reaches s a) :
    ∃ b, N.Reaches t b ∧ R a b := by
  obtain ⟨w, hw⟩ := ha
  have hrun := h.run hst w
  rw [hw] at hrun
  cases hb : N.run t w with
  | none => rw [hb] at hrun; cases hrun
  | some b =>
    rw [hb] at hrun
    cases hrun with
    | some hab => exact ⟨b, ⟨w, hb⟩, hab⟩

/-- If no state is related to two others, what comes after related states is in bijection. -/
theorem Bisim.exists_bijOn (h : Bisim M N R) (hst : R s t)
    (hright : ∀ a b b', R a b → R a b' → b = b') (hleft : ∀ a a' b, R a b → R a' b → a = a') :
    ∃ f : σ → τ, Set.BijOn f {a | M.Reaches s a} {b | N.Reaches t b} ∧
      ∀ a, M.Reaches s a → R a (f a) := by
  have hex : ∀ a, ∃ b, M.Reaches s a → N.Reaches t b ∧ R a b := by
    intro a
    by_cases ha : M.Reaches s a
    · obtain ⟨b, hb⟩ := h.exists_reaches hst ha
      exact ⟨b, fun _ => hb⟩
    · exact ⟨t, fun ha' => absurd ha' ha⟩
  choose f hf using hex
  refine ⟨f, ⟨fun a ha => (hf a ha).1, ?_, ?_⟩, fun a ha => (hf a ha).2⟩
  · intro a ha a' ha' heq
    exact hleft a a' (f a) (hf a ha).2 (heq ▸ (hf a' ha').2)
  · intro b hb
    obtain ⟨a, ha, hab⟩ := h.symm.exists_reaches hst hb
    exact ⟨a, ha, hright a (f a) b (hf a ha).2 hab⟩

end Machine

end Munch

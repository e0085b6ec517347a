set_option autoImplicit false

/-! # Sets of indices

The states of an automaton built from another one are sets of indices below a bound: positions of
an expression, or instructions of a program. Such a set is written as the ascending list of its
indices, so equal sets are equal lists, and the sets below a bound are finitely many
(`mem_subsets`). -/

namespace Munch

/-- A set of indices, as an ascending list. -/
abbrev IndexSet := List Nat

namespace IndexSet

/-- The indices below `n` with a property. -/
def collect (n : Nat) (p : Nat → Bool) : IndexSet := (List.range n).filter p

/-- The indices below `n` that occur in a list. -/
def ofList (n : Nat) (l : List Nat) : IndexSet := collect n l.contains

/-- Whether two sets have an index in common. -/
def meets (s t : IndexSet) : Bool := s.any t.contains

/-- The text of a set: its indices in braces. -/
def describe (s : IndexSet) : String := "\x7b" ++ ", ".intercalate (s.map toString) ++ "\x7d"

@[simp] theorem mem_collect {n i : Nat} {p : Nat → Bool} :
    i ∈ collect n p ↔ i < n ∧ p i = true := by
  simp [collect]

@[simp] theorem mem_ofList {n i : Nat} {l : List Nat} : i ∈ ofList n l ↔ i < n ∧ i ∈ l := by
  simp [ofList]

/-- The sublists of a list. -/
def sublists : List Nat → List (List Nat)
  | [] => [[]]
  | x :: rest => sublists rest ++ (sublists rest).map (x :: ·)

/-- All sets of indices below a bound. -/
def subsets (n : Nat) : List IndexSet := sublists (List.range n)

theorem filter_mem_sublists (p : Nat → Bool) (l : List Nat) : l.filter p ∈ sublists l := by
  induction l with
  | nil => simp [sublists]
  | cons x rest ih =>
    simp only [sublists, List.filter_cons, List.mem_append, List.mem_map]
    split
    · exact .inr ⟨_, ih, rfl⟩
    · exact .inl ih

/-- Every set collected below a bound is among the sets below it. -/
theorem mem_subsets (n : Nat) (p : Nat → Bool) : collect n p ∈ subsets n :=
  filter_mem_sublists p _

/-- Fewer members of a list have the stronger of two properties, if some member tells them apart. -/
theorem length_filter_lt {α : Type} {l : List α} {p q : α → Bool} {a : α}
    (hpq : ∀ x, q x = true → p x = true) (ha : a ∈ l) (hp : p a = true) (hq : q a = false) :
    (l.filter q).length < (l.filter p).length := by
  induction l with
  | nil => simp at ha
  | cons x rest ih =>
    have hle : (rest.filter q).length ≤ (rest.filter p).length := by
      have hsub : rest.filter q = (rest.filter p).filter q := by
        rw [List.filter_filter]
        refine List.filter_congr fun y _ => ?_
        have := hpq y
        cases hqy : q y <;> simp_all
      rw [hsub]
      exact List.length_filter_le _ _
    rcases List.mem_cons.mp ha with rfl | ha
    · simp [hp, hq]
      omega
    · have hlt := ih ha
      simp only [List.filter_cons]
      split
      · next hqx =>
        rw [if_pos (hpq x hqx)]
        exact Nat.succ_lt_succ hlt
      · split
        · exact Nat.lt_succ_of_lt hlt
        · exact hlt

/-- The number of indices below `n` that do not occur in a list. -/
def missing (n : Nat) (l : List Nat) : Nat := (collect n fun i => !l.contains i).length

theorem missing_cons_lt {n i : Nat} {l : List Nat} (hi : i < n) (hl : i ∉ l) :
    missing n (i :: l) < missing n l := by
  refine length_filter_lt (fun x hx => ?_) (List.mem_range.mpr hi) ?_ ?_
  · simp only [Bool.not_eq_true', List.contains_eq_mem, decide_eq_false_iff_not] at *
    exact fun h => hx (List.mem_cons_of_mem _ h)
  · simpa using hl
  · simp

end IndexSet

end Munch

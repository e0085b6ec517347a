import Munch.IndexSet

set_option autoImplicit false

/-! # Exploring sets of indices

`explore` finds every set that can be reached from a first one by a successor function, numbering
the sets in the order in which they are found. Sets that were found but not yet visited wait in an
agenda; the `Turn` decides whether the newest or the oldest of them is visited next. There are
finitely many sets below a bound and each enters the agenda once, so the exploration ends. -/

namespace Munch

/-- Which of the sets that wait is visited next. -/
inductive Turn where
  | newestFirst
  | oldestFirst
deriving DecidableEq, Repr

/-- The agenda after some new sets were found, in order. -/
def Turn.enqueue : Turn → List IndexSet → List IndexSet → List IndexSet
  | .newestFirst, new, waiting => new.reverse ++ waiting
  | .oldestFirst, new, waiting => waiting ++ new

/-- The sets that were found, in the order in which they were found, and in the order in which
they were visited. -/
structure Exploration where
  found : List IndexSet
  visited : List IndexSet
deriving DecidableEq, Repr

namespace Exploration

/-- The members of a list that were not found before, each once. -/
def fresh (found : List IndexSet) : List IndexSet → List IndexSet
  | [] => []
  | s :: rest =>
    if found.contains s then fresh found rest else s :: fresh (found ++ [s]) rest

theorem mem_of_mem_fresh {s : IndexSet} {l : List IndexSet} : ∀ {found : List IndexSet},
    s ∈ fresh found l → s ∈ l ∧ s ∉ found := by
  induction l with
  | nil => simp [fresh]
  | cons t rest ih =>
    intro found h
    unfold fresh at h
    split at h
    · have := ih h
      simp [this]
    · next ht =>
      rcases List.mem_cons.mp h with rfl | h
      · simpa using ht
      · have := ih h
        simp at this
        simp [this]

/-- The number of sets below a bound that were not found yet. -/
def unseen (n : Nat) (found : List IndexSet) : Nat :=
  ((IndexSet.subsets n).filter fun s => !found.contains s).length

theorem unseen_append_lt {n : Nat} {found new : List IndexSet} {s : IndexSet}
    (hs : s ∈ IndexSet.subsets n) (hnew : s ∈ new) (hold : s ∉ found) :
    unseen n (found ++ new) < unseen n found := by
  refine IndexSet.length_filter_lt (fun x hx => ?_) hs ?_ ?_
  · simp only [Bool.not_eq_true', List.contains_eq_mem, decide_eq_false_iff_not] at *
    exact fun h => hx (List.mem_append.mpr (.inl h))
  · simpa using hold
  · simp [hnew]

/-- Visit the sets of an agenda and all that they lead to, after those already found. -/
def walk (n : Nat) (turn : Turn) (next : IndexSet → List IndexSet)
    (bounded : ∀ s, ∀ t ∈ next s, t ∈ IndexSet.subsets n)
    (found waiting : List IndexSet) : Exploration :=
  match waiting with
  | [] => ⟨found, []⟩
  | s :: rest =>
    let new := fresh found (next s)
    let later := walk n turn next bounded (found ++ new) (turn.enqueue new rest)
    ⟨later.found, s :: later.visited⟩
termination_by (unseen n found, waiting.length)
decreasing_by
  cases hnew : fresh found (next s) with
  | nil =>
    simp only [List.append_nil]
    refine Prod.Lex.right _ ?_
    cases turn <;> simp [Turn.enqueue]
  | cons t more =>
    have ht : t ∈ fresh found (next s) := by simp [hnew]
    have := mem_of_mem_fresh ht
    exact Prod.Lex.left _ _
      (unseen_append_lt (bounded s t this.1) (List.mem_cons_self ..) this.2)

end Exploration

/-- Explore all sets that a first one leads to. -/
def explore (n : Nat) (turn : Turn) (next : IndexSet → List IndexSet)
    (bounded : ∀ s, ∀ t ∈ next s, t ∈ IndexSet.subsets n) (first : IndexSet) : Exploration :=
  Exploration.walk n turn next bounded [first] [first]

end Munch

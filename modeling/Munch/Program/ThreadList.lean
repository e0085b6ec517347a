import Munch.IndexSet

set_option autoImplicit false

/-! # Lists of threads

A `ThreadList` is a set of offsets of a program that remembers the order in which they were
inserted. Membership, insertion and clearing take constant time: `dense` holds the offsets in
order, and `sparse` holds, for each offset, the place in `dense` where it would be. An entry of
`sparse` counts only if `dense` agrees with it, so clearing need not touch `sparse`. -/

namespace Munch

/-- An insertion-ordered set of offsets below a size. -/
structure ThreadList where
  dense : Array Nat
  sparse : Array Nat
deriving DecidableEq

namespace ThreadList

/-- The empty list for offsets below `size`. -/
def empty (size : Nat) : ThreadList := ⟨#[], Array.replicate size 0⟩

/-- The number of offsets that the list can hold. -/
def capacity (l : ThreadList) : Nat := l.sparse.size

/-- Whether an offset is in the list. -/
def contains (l : ThreadList) (pc : Nat) : Bool :=
  match l.sparse[pc]? with
  | some i => l.dense[i]? == some pc
  | none => false

/-- The list with an offset added at its end, unless it is in the list already. An offset that the
list has no place for is passed over here; it traps in `Checked.insert`. -/
def insert (l : ThreadList) (pc : Nat) : ThreadList :=
  if l.contains pc then l
  else if h : pc < l.sparse.size then ⟨l.dense.push pc, l.sparse.set pc l.dense.size⟩
  else l

/-- Whether inserting an offset changes the list. -/
def accepts (l : ThreadList) (pc : Nat) : Bool := !l.contains pc && pc < l.capacity

/-- The list without its offsets. -/
def clear (l : ThreadList) : ThreadList := { l with dense := #[] }

/-- The number of offsets in the list. -/
def size (l : ThreadList) : Nat := l.dense.size

/-- Whether the list has no offsets. -/
def isEmpty (l : ThreadList) : Bool := l.dense.isEmpty

/-- The offset at a place of the list. -/
def get? (l : ThreadList) (i : Nat) : Option Nat := l.dense[i]?

/-- The offsets in the order in which they were inserted. -/
def toList (l : ThreadList) : List Nat := l.dense.toList

/-- The number of offsets that could still be inserted. -/
def room (l : ThreadList) : Nat :=
  (IndexSet.collect l.capacity fun pc => !l.contains pc).length

theorem accepts_iff {l : ThreadList} {pc : Nat} :
    l.accepts pc = true ↔ l.contains pc = false ∧ pc < l.capacity := by
  simp [accepts]

@[simp] theorem capacity_insert (l : ThreadList) (pc : Nat) :
    (l.insert pc).capacity = l.capacity := by
  unfold insert capacity
  split
  · rfl
  · split <;> simp

@[simp] theorem capacity_clear (l : ThreadList) : l.clear.capacity = l.capacity := rfl

theorem insert_of_not_accepts {l : ThreadList} {pc : Nat} (h : l.accepts pc = false) :
    l.insert pc = l := by
  unfold insert
  split
  · rfl
  · split
    · next hc hlt => simp [accepts, hc, capacity, hlt] at h
    · rfl

/-- Insertion makes the offset a member and changes no other membership. -/
theorem contains_insert {l : ThreadList} {pc q : Nat} (h : l.accepts pc = true) :
    (l.insert pc).contains q = (q == pc || l.contains q) := by
  obtain ⟨hc, hlt⟩ := accepts_iff.mp h
  have hlt : pc < l.sparse.size := hlt
  unfold insert
  rw [if_neg (by simp [hc]), dif_pos hlt]
  by_cases hq : pc = q
  · subst hq
    simp [contains, hlt]
  · have hne : (q == pc) = false := by simpa using fun h => hq h.symm
    rw [hne, Bool.false_or]
    simp only [contains, Array.getElem?_set, if_neg hq]
    cases l.sparse[q]? with
    | none => rfl
    | some i =>
      simp only [Array.getElem?_push]
      split
      · next hi =>
        have : l.dense[i]? = none := by simp [hi]
        rw [this]
        simpa using hq
      · rfl

/-- Insertion takes room. -/
theorem room_insert_lt {l : ThreadList} {pc : Nat} (h : l.accepts pc = true) :
    (l.insert pc).room < l.room := by
  obtain ⟨hc, hlt⟩ := accepts_iff.mp h
  unfold room
  rw [capacity_insert]
  refine IndexSet.length_filter_lt (fun x hx => ?_) (List.mem_range.mpr hlt) ?_ ?_
  · rw [contains_insert h] at hx
    simp at hx ⊢
    exact hx.2
  · simp [hc]
  · simp [contains_insert h]

/-- Going on to the next place of a list brings its end nearer. -/
theorem next_place_lt {l : ThreadList} {k pc : Nat} (h : l.get? k = some pc) :
    Prod.Lex (· < ·) (· < ·) (l.room, l.size - (k + 1)) (l.room, l.size - k) := by
  obtain ⟨hk, _⟩ := Array.getElem?_eq_some_iff.mp h
  exact Prod.Lex.right _ (Nat.sub_succ_lt_self _ _ hk)

end ThreadList

end Munch

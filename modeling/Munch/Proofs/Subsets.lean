import Munch.Proofs.Exploration
import Munch.Table.Build

set_option autoImplicit false

/-! # Tables as machines

A table runs as the machine of its states other than the error state. The table of a labelled
expression is the machine of its sets of positions with the sets numbered: `Labelled.machine` says
what comes after a set without numbers or rows, and `Table.bisim_ofLabelled` relates the two. -/

namespace Munch

namespace Row

theorem entry_ofFn (f : UInt8 → Nat) (b : UInt8) : (ofFn f).entry b = f b := by
  have hlt := b.toNat_lt
  show (Vector.ofFn fun i : Fin 256 => f (UInt8.ofNat i.val))[b.toNat] = f b
  rw [Vector.getElem_ofFn, UInt8.ofNat_toNat]

theorem entry_replicate (n : Nat) (b : UInt8) : entry (Vector.replicate 256 n) b = n := by
  simp [entry, Vector.get]

end Row

namespace Table

/-- The machine of the states of a table other than the error state. -/
def machine (t : Table) : Machine Nat where
  next? s b := if t.next s b = error then none else some (t.next s b)
  accept? := t.accept?

section Machine

variable {t : Table} {s : Nat} {b : UInt8}

theorem next?_machine_eq_none (h : t.next s b = error) : t.machine.next? s b = none := if_pos h

theorem next?_machine_eq_some (h : t.next s b ≠ error) :
    t.machine.next? s b = some (t.next s b) := if_neg h

end Machine

theorem findFrom_eq_find (t : Table) (rest : Bytes) : ∀ s i best,
    t.findFrom s i best rest = t.machine.find s i best rest := by
  induction rest with
  | nil => exact fun s i best => rfl
  | cons b rest ih =>
    intro s i best
    rw [findFrom]
    by_cases h : t.next s b = error
    · rw [Machine.find_of_next?_eq_none (next?_machine_eq_none h), if_pos h]
    · rw [Machine.find_of_next?_eq_some (next?_machine_eq_some h), if_neg h, ih]
      rfl

/-- A table finds what its machine finds. -/
theorem find_eq (t : Table) (text : Bytes) (tc : Nat) :
    t.find text tc = t.machine.find t.start tc none (text.drop tc) :=
  t.findFrom_eq_find _ _ _ _

theorem mem_allBytes (b : UInt8) : b ∈ allBytes := by
  rw [allBytes, List.mem_map]
  exact ⟨b.toNat, List.mem_range.mpr b.toNat_lt, by simp⟩

/-- Every byte leads from a state to a state, and from the error state only to itself. -/
structure WellFormed (t : Table) : Prop where
  start_lt : t.start < t.size
  next_lt : ∀ s < t.size, ∀ b, t.next s b < t.size
  next_error : ∀ b, t.next error b = error
  accept_error : t.accept? error = none

theorem WellFormed.size_pos {t : Table} (h : t.WellFormed) : 0 < t.size :=
  Nat.zero_lt_of_lt h.start_lt

end Table

/-- The machine of the sets of positions of a labelled expression. -/
def Labelled.machine (l : Labelled) : Machine IndexSet where
  next? set b :=
    let next := Table.followAll l l.follow (Table.movers l set b)
    if next.isEmpty then none else some next
  accept? := Table.setAccept? l

namespace Table

variable {l : Labelled} {set next : IndexSet} {b : UInt8}

theorem mem_movers {p : Nat} :
    p ∈ movers l set b ↔ p ∈ set ∧ ∃ r, l.span? p = some r ∧ b ∈ r := by
  simp [movers, Option.any_eq_true]

theorem mem_followAll {follow : List IndexSet} {ps : List Nat} {q : Nat} :
    q ∈ followAll l follow ps ↔ q < l.positionCount ∧ ∃ p ∈ ps, q ∈ follow[p]?.getD [] := by
  simp [followAll, List.any_eq_true]

theorem next?_setMachine_eq_none (h : followAll l l.follow (movers l set b) = []) :
    l.machine.next? set b = none := if_pos (by simp [h])

theorem next?_setMachine_eq_some (h : followAll l l.follow (movers l set b) ≠ []) :
    l.machine.next? set b = some (followAll l l.follow (movers l set b)) :=
  if_neg (by simpa using h)

theorem movers_mem_moverGroups (l : Labelled) (set : IndexSet) (b : UInt8) :
    movers l set b ∈ moverGroups l set := by
  rw [moverGroups, List.mem_eraseDups, List.mem_map]
  exact ⟨b, mem_allBytes b, rfl⟩

/-- The sets that come after a set are those that its machine goes on to. -/
theorem mem_nextSets : next ∈ nextSets l l.follow set ↔ ∃ b, l.machine.next? set b = some next := by
  rw [nextSets, List.mem_filter, List.mem_map]
  simp only [moverGroups, List.mem_eraseDups, List.mem_map, Bool.not_eq_true', Labelled.machine]
  constructor
  · rintro ⟨⟨_, ⟨b, _, rfl⟩, rfl⟩, hne⟩
    exact ⟨b, by rw [if_neg (by simp [hne])]⟩
  · rintro ⟨b, hb⟩
    split at hb
    · simp at hb
    · next hne =>
      obtain rfl := Option.some.inj hb
      exact ⟨⟨_, ⟨b, mem_allBytes b, rfl⟩, rfl⟩, by simpa using hne⟩

/-- The sets that are found are those that the machine goes to. -/
theorem mem_sets_iff : set ∈ (sets l).found ↔ l.machine.Reaches l.start set :=
  mem_found_iff _ _ _ _ _ (fun _ _ => mem_nextSets) set

theorem lookup_map_self {α β : Type} [BEq α] [LawfulBEq α] (f : α → β) {xs : List α} {a : α}
    (h : a ∈ xs) : (xs.map fun x => (x, f x)).lookup a = some (f a) := by
  induction xs with
  | nil => simp at h
  | cons x xs ih =>
    rw [List.map_cons, List.lookup_cons]
    by_cases hx : a = x
    · subst hx
      simp
    · have hne : (a == x) = false := by simpa using hx
      rw [hne]
      exact ih ((List.mem_cons.mp h).resolve_left hx)

/-- An entry of the row of a set is the state of the set that comes next. -/
theorem entry_rowOf (follow found : List IndexSet) :
    (rowOf l follow found set).entry b = stateOf found (followAll l follow (movers l set b)) := by
  rw [rowOf, Row.entry_ofFn, lookup_map_self _ (movers_mem_moverGroups l set b), Option.getD_some]

theorem size_ofLabelled (l : Labelled) : (ofLabelled l).size = (sets l).found.length + 1 := by
  simp [ofLabelled, size]

theorem getElem?_found {found : List IndexSet} (h : set ∈ found) :
    found[found.idxOf set]? = some set := by
  rw [List.getElem?_eq_getElem (List.idxOf_lt_length_of_mem h)]
  simp

theorem stateOf_eq_error_iff {found : List IndexSet} : stateOf found set = error ↔ set = [] := by
  unfold stateOf
  by_cases h : set = [] <;> simp [h]

theorem stateOf_lt {found : List IndexSet} (h : set ∈ found) :
    stateOf found set < found.length + 1 := by
  have hlt := List.idxOf_lt_length_of_mem h
  unfold stateOf
  split
  · exact Nat.succ_pos _
  · exact Nat.succ_lt_succ hlt

theorem next_error (b : UInt8) : (ofLabelled l).next error b = error := by
  simp [next, row, ofLabelled, errorRow, Row.entry_replicate]

theorem followAll_nil (l : Labelled) (follow : List IndexSet) : followAll l follow [] = [] := by
  simp [followAll, IndexSet.collect]

/-- A byte leads from the state of a set to the state of the set that comes next. -/
theorem next_stateOf (h : set ∈ (sets l).found) :
    (ofLabelled l).next (stateOf (sets l).found set) b =
      stateOf (sets l).found (followAll l l.follow (movers l set b)) := by
  by_cases hempty : set = []
  · subst hempty
    have hmovers : movers l [] b = [] := rfl
    rw [stateOf_eq_error_iff.mpr rfl, next_error, hmovers, followAll_nil]
    exact (stateOf_eq_error_iff.mpr rfl).symm
  · have hstate : stateOf (sets l).found set = (sets l).found.idxOf set + 1 :=
      if_neg (by simpa using hempty)
    have hrow : (ofLabelled l).row ((sets l).found.idxOf set + 1) =
        rowOf l l.follow (sets l).found set := by
      simp [row, ofLabelled, getElem?_found h]
    rw [hstate, next, hrow, entry_rowOf]

theorem accept?_stateOf (h : set ∈ (sets l).found) :
    (ofLabelled l).accept? (stateOf (sets l).found set) = setAccept? l set := by
  by_cases hempty : set = []
  · subst hempty
    rw [stateOf_eq_error_iff.mpr rfl]
    rfl
  · have hstate : stateOf (sets l).found set = (sets l).found.idxOf set + 1 :=
      if_neg (by simpa using hempty)
    rw [hstate]
    simp [accept?, ofLabelled, getElem?_found h]

/-- The table of a labelled expression does what the machine of its sets does. -/
theorem bisim_ofLabelled (l : Labelled) : (ofLabelled l).machine.Bisim l.machine
    fun s set => set ∈ (sets l).found ∧ s = stateOf (sets l).found set where
  accept := by
    rintro s set ⟨hset, rfl⟩
    exact accept?_stateOf hset
  next := by
    rintro s set ⟨hset, rfl⟩ b
    have hnext := next_stateOf (b := b) hset
    by_cases h : followAll l l.follow (movers l set b) = []
    · have herror : (ofLabelled l).next (stateOf (sets l).found set) b = error := by
        rw [hnext]
        exact stateOf_eq_error_iff.mpr h
      rw [next?_machine_eq_none herror, next?_setMachine_eq_none h]
      exact .none
    · have herror : (ofLabelled l).next (stateOf (sets l).found set) b ≠ error := by
        rw [hnext]
        exact fun he => h (stateOf_eq_error_iff.mp he)
      rw [next?_machine_eq_some herror, next?_setMachine_eq_some h]
      refine .some ⟨?_, hnext⟩
      rw [mem_sets_iff] at hset ⊢
      exact hset.next (next?_setMachine_eq_some h)

theorem start_mem_sets (l : Labelled) : l.start ∈ (sets l).found := first_mem_found _ _ _ _ _

/-- The table of a labelled expression finds what the machine of its sets finds. -/
theorem find_ofLabelled (l : Labelled) (text : Bytes) (tc : Nat) :
    (ofLabelled l).find text tc = l.machine.find l.start tc none (text.drop tc) := by
  rw [find_eq]
  exact (bisim_ofLabelled l).find_eq ⟨start_mem_sets l, rfl⟩ _ _ _

/-- Every state other than the error state is the state of a set that was found. -/
theorem exists_stateOf_eq {s : Nat} (hs : s < (ofLabelled l).size) :
    s = error ∨ ∃ set ∈ (sets l).found,
    (ofLabelled l).row s = rowOf l l.follow (sets l).found set := by
  cases s with
  | zero => exact .inl rfl
  | succ s =>
    rw [size_ofLabelled] at hs
    have hlt : s < (sets l).found.length := by omega
    refine .inr ⟨(sets l).found[s], List.getElem_mem hlt, ?_⟩
    simp [row, ofLabelled, hlt]

/-- The table of a labelled expression is well formed. -/
theorem wellFormed_ofLabelled (l : Labelled) : (ofLabelled l).WellFormed where
  start_lt := by
    rw [size_ofLabelled]
    exact stateOf_lt (start_mem_sets l)
  next_lt := by
    intro s hs b
    rcases exists_stateOf_eq hs with rfl | ⟨set, hset, hrow⟩
    · rw [next_error, size_ofLabelled]
      exact Nat.succ_pos _
    · rw [next, hrow, entry_rowOf, size_ofLabelled]
      by_cases h : followAll l l.follow (movers l set b) = []
      · rw [stateOf_eq_error_iff.mpr h]
        exact Nat.succ_pos _
      · refine stateOf_lt ?_
        rw [mem_sets_iff] at hset ⊢
        exact hset.next (next?_setMachine_eq_some h)
  next_error := next_error
  accept_error := rfl

end Table

end Munch

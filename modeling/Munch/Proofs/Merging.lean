import Mathlib.Data.Finset.Card
import Munch.Proofs.Subsets

set_option autoImplicit false

/-! # Merging the states of a table

States of a table that do the same can be merged into one state of a smaller table. `Table.Merges`
says this of a map of states: the state that stands for some others accepts what they accept, and
goes on to what stands for the states that they go on to. Then runs of the two tables stay in step
(`Table.Merges.run`), so the smaller table finds the same matches (`Table.Merges.find_eq`). -/

namespace Munch

namespace Table

variable {t u : Table} {f : Nat → Nat} {s : Nat}

/-! ## Runs -/

theorem run_append (t : Table) (s : Nat) (v w : Bytes) : t.run s (v ++ w) = t.run (t.run s v) w :=
  List.foldl_append

theorem WellFormed.run_lt (h : t.WellFormed) (hs : s < t.size) (w : Bytes) :
    t.run s w < t.size := by
  induction w generalizing s with
  | nil => exact hs
  | cons b w ih => exact ih (h.next_lt s hs b)

/-- No text leads out of the error state. -/
theorem WellFormed.run_error (h : t.WellFormed) (w : Bytes) : t.run error w = error := by
  induction w with
  | nil => rfl
  | cons b w ih =>
    show t.run (t.next error b) w = error
    rw [h.next_error, ih]

theorem WellFormed.row_error (h : t.WellFormed) : t.row error = errorRow := by
  refine Vector.ext fun i hi => ?_
  have hentry := h.next_error (UInt8.ofNat i)
  simp only [next, Row.entry, UInt8.toNat_ofNat', Nat.mod_eq_of_lt hi] at hentry
  simpa [errorRow, Vector.get] using hentry

/-- The first row of a table is that of the error state. -/
theorem WellFormed.getElem?_rows_error (h : t.WellFormed) : t.rows[error]? = some errorRow := by
  have hlt : error < t.rows.size := h.size_pos
  have hrow := h.row_error
  rw [row, Array.getElem?_eq_getElem hlt, Option.getD_some] at hrow
  rw [Array.getElem?_eq_getElem hlt, hrow]

/-! ## Merged states -/

/-- A map to the states of a table `u` under which they do what the states of a table `t` do. -/
structure Merges (t u : Table) (f : Nat → Nat) : Prop where
  start : f t.start = u.start
  lt : ∀ s < t.size, f s < u.size
  onto : ∀ j < u.size, ∃ s < t.size, f s = j
  accept : ∀ s < t.size, u.accept? (f s) = t.accept? s
  next : ∀ s < t.size, ∀ b, u.next (f s) b = f (t.next s b)
  error_iff : ∀ s < t.size, f s = error ↔ s = error

/-- Runs stay in step. -/
theorem Merges.run (h : t.Merges u f) (ht : t.WellFormed) (hs : s < t.size) (w : Bytes) :
    u.run (f s) w = f (t.run s w) := by
  induction w generalizing s with
  | nil => rfl
  | cons b w ih =>
    show u.run (u.next (f s) b) w = f (t.run (t.next s b) w)
    rw [h.next s hs b, ih (ht.next_lt s hs b)]

theorem Merges.run_start (h : t.Merges u f) (ht : t.WellFormed) (w : Bytes) :
    u.run u.start w = f (t.run t.start w) := by
  rw [← h.start, h.run ht ht.start_lt]

theorem Merges.error_eq (h : t.Merges u f) (ht : t.WellFormed) : f error = error :=
  (h.error_iff error ht.size_pos).mpr rfl

/-- Merging keeps a table well formed. -/
theorem Merges.wellFormed (h : t.Merges u f) (ht : t.WellFormed) : u.WellFormed where
  start_lt := by
    rw [← h.start]
    exact h.lt _ ht.start_lt
  next_lt := by
    intro j hj b
    obtain ⟨s, hs, rfl⟩ := h.onto j hj
    rw [h.next s hs b]
    exact h.lt _ (ht.next_lt s hs b)
  next_error := by
    intro b
    have hnext := h.next error ht.size_pos b
    rwa [ht.next_error, h.error_eq ht] at hnext
  accept_error := by
    have haccept := h.accept error ht.size_pos
    rwa [ht.accept_error, h.error_eq ht] at haccept

/-- Merging makes no table larger. -/
theorem Merges.size_le (h : t.Merges u f) : u.size ≤ t.size := by
  have honto : Set.SurjOn f (Finset.range t.size) (Finset.range u.size) := by
    intro j hj
    obtain ⟨s, hs, hsj⟩ := h.onto j (Finset.mem_range.mp hj)
    exact ⟨s, Finset.mem_coe.mpr (Finset.mem_range.mpr hs), hsj⟩
  simpa using Finset.card_le_card_of_surjOn f honto

/-- States do what the states do that stand for them. -/
theorem Merges.bisim (h : t.Merges u f) (ht : t.WellFormed) :
    t.machine.Bisim u.machine fun s j => s < t.size ∧ f s = j where
  accept := by
    rintro s _ ⟨hs, rfl⟩
    exact (h.accept s hs).symm
  next := by
    rintro s _ ⟨hs, rfl⟩ b
    have hnext := h.next s hs b
    have hlt := ht.next_lt s hs b
    by_cases hdead : t.next s b = error
    · have hdead' : u.next (f s) b = error := by rw [hnext, hdead, h.error_eq ht]
      rw [next?_machine_eq_none hdead, next?_machine_eq_none hdead']
      exact .none
    · have hdead' : u.next (f s) b ≠ error := by
        rw [hnext]
        exact mt (h.error_iff _ hlt).mp hdead
      rw [next?_machine_eq_some hdead, next?_machine_eq_some hdead']
      exact .some ⟨hlt, hnext.symm⟩

/-- A table with merged states finds the same matches. -/
theorem Merges.find_eq (h : t.Merges u f) (ht : t.WellFormed) (text : Bytes) (tc : Nat) :
    u.find text tc = t.find text tc := by
  rw [Table.find_eq, Table.find_eq]
  exact ((h.bisim ht).find_eq ⟨ht.start_lt, h.start⟩ _ _ _).symm

end Table

end Munch

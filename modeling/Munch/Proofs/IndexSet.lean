import Mathlib.Data.List.Sort
import Munch.IndexSet

set_option autoImplicit false

/-! # Index sets by their members

An index set is written as an ascending list, so it is known by its members: two ascending lists
with the same members are equal (`IndexSet.ext`), and the least of some numbers depends on which
they are only (`min?_congr`). -/

namespace Munch

namespace IndexSet

/-- The indices are in strictly ascending order. -/
def Ascending (s : IndexSet) : Prop := s.Pairwise (· < ·)

theorem ascending_collect (n : Nat) (p : Nat → Bool) : (collect n p).Ascending :=
  List.pairwise_lt_range.filter p

/-- Sets with the same members are equal. -/
theorem ext {s t : IndexSet} (hs : s.Ascending) (ht : t.Ascending) (h : ∀ x, x ∈ s ↔ x ∈ t) :
    s = t :=
  List.Pairwise.eq_of_mem_iff hs ht h

end IndexSet

/-- The least of some numbers depends on which numbers they are only. -/
theorem min?_congr {xs ys : List Nat} (h : ∀ x, x ∈ xs ↔ x ∈ ys) : xs.min? = ys.min? := by
  refine Option.ext fun a => ?_
  rw [List.min?_eq_some_iff, List.min?_eq_some_iff, h]
  simp only [h]

end Munch

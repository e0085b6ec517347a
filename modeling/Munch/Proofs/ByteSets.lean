import Mathlib.Data.Set.Lattice
import Munch.Proofs.Classes

set_option autoImplicit false

/-! # Sets of bytes and the operations that make them

The lists of ranges behind a `ByteSet` come from pushing pairs of bytes, in either order, onto a
list and making it normal again, or from listing the gaps of another set. A `ByteSet.Construction`
is any expression in these operations. It has a value, which the running operations compute, and a
meaning, the set of bytes that set theory gives it. The two agree by induction on the construction,
with one lemma about the bytes of each operation (`toSet_insertPairs`, `toSet_union`,
`toSet_complement`). As a set of bytes is written in one way only, equality of values is equality of
meanings. -/

namespace Munch

namespace ByteSet

variable {s : ByteSet}

/-- The bytes between two bounds, in whichever order they are given. -/
def span (a b : UInt8) : Set UInt8 := {c | a ≤ c ∧ c ≤ b ∨ b ≤ c ∧ c ≤ a}

/-! ## The bytes of each operation -/

theorem toSet_full : full.toSet = Set.univ := Set.eq_univ_of_forall mem_full

theorem toSet_insertPairs {ps : List (UInt8 × UInt8)} :
    (s.insertPairs ps).toSet = s.toSet ∪ ⋃ p ∈ ps, span p.1 p.2 := by
  ext c
  refine mem_insertRanges.trans (or_comm.trans (or_congr_right ?_))
  rw [Set.mem_iUnion₂]
  simp only [ByteRange.Covers, List.mem_map, exists_exists_and_eq_and,
    ByteRange.mem_between, exists_prop]
  rfl

theorem toSet_ofPairs {ps : List (UInt8 × UInt8)} :
    (ofPairs ps).toSet = ⋃ p ∈ ps, span p.1 p.2 := by
  rw [ofPairs, toSet_insertPairs, toSet_empty, Set.empty_union]

/-- Whatever the lists of ranges are, listing the gaps of the gaps gives the first list back. -/
theorem complement_complement : s.complement.complement = s :=
  toSet_injective (by rw [toSet_complement, toSet_complement, compl_compl])

/-! ## Constructions -/

/-- An expression in the operations on sets of bytes. -/
inductive Construction where
  | empty
  | full
  | collect (ps : List (UInt8 × UInt8))
  | insert (c : Construction) (a b : UInt8)
  | extend (c : Construction) (ps : List (UInt8 × UInt8))
  | union (c d : Construction)
  | complement (c : Construction)

namespace Construction

/-- The set that the operations of a construction make. -/
def eval : Construction → ByteSet
  | empty => .empty
  | full => .full
  | collect ps => .ofPairs ps
  | insert c a b => c.eval.insert a b
  | extend c ps => c.eval.insertPairs ps
  | union c d => c.eval.union d.eval
  | complement c => c.eval.complement

/-- The bytes that a construction stands for. -/
def bytes : Construction → Set UInt8
  | empty => ∅
  | full => Set.univ
  | collect ps => ⋃ p ∈ ps, span p.1 p.2
  | insert c a b => c.bytes ∪ span a b
  | extend c ps => c.bytes ∪ ⋃ p ∈ ps, span p.1 p.2
  | union c d => c.bytes ∪ d.bytes
  | complement c => c.bytesᶜ

theorem toSet_eval (c : Construction) : c.eval.toSet = c.bytes := by
  induction c with
  | empty => exact toSet_empty
  | full => exact toSet_full
  | collect ps => exact toSet_ofPairs
  | insert c a b ih => rw [eval, toSet_insert, ih, bytes, span]
  | extend c ps ih => rw [eval, toSet_insertPairs, ih, bytes]
  | union c d ihc ihd => rw [eval, toSet_union, ihc, ihd, bytes]
  | complement c ih => rw [eval, toSet_complement, ih, bytes]

theorem contains_eval_iff {c : Construction} {b : UInt8} :
    c.eval.contains b = true ↔ b ∈ c.bytes := by
  rw [contains_iff, ← toSet_eval]
  rfl

theorem eval_eq_iff {c d : Construction} : c.eval = d.eval ↔ c.bytes = d.bytes := by
  rw [← toSet_eval, ← toSet_eval, toSet_injective.eq_iff]

/-- Every set that the operations make is a list of ranges with bounds in order, ascending and a
    byte apart; its ranges hold the bytes that set theory gives the operations, and the look-up
    finds exactly these; two such sets are the same list if and only if they hold the same bytes, so
    that taking the complement twice gives the list back. -/
theorem eval_canonical (c : Construction) :
    (∀ r ∈ c.eval.ranges, r.lo ≤ r.hi) ∧
      c.eval.ranges.Pairwise (fun r s => r.hi.toNat + 1 < s.lo.toNat) ∧
      {b | ∃ r ∈ c.eval.ranges, r.lo ≤ b ∧ b ≤ r.hi} = c.bytes ∧
      (∀ b, c.eval.contains b = true ↔ b ∈ c.bytes) ∧
      (∀ d : Construction, c.eval.ranges = d.eval.ranges ↔ c.bytes = d.bytes) ∧
      c.eval.complement.complement.ranges = c.eval.ranges := by
  refine ⟨fun r _ => r.lo_le_hi, c.eval.canonical, c.toSet_eval,
    fun _ => contains_eval_iff, fun d => ?_, ?_⟩
  · rw [← eval_eq_iff, ByteSet.mk.injEq]
  · rw [complement_complement]

/-- Reversed bounds, ranges that touch, and the bytes at both ends. -/
example : ((((empty.insert 9 5).extend [(255, 255), (4, 0)]).complement).eval.ranges.map
    fun r => (r.lo, r.hi)) = [(10, 254)] := by cbv

end Construction

end ByteSet

end Munch

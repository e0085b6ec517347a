import Munch.Event
import Munch.Table.Basic

set_option autoImplicit false

/-! # Minimal tables

Two states can be merged if no text tells them apart. The states are divided into blocks, at first
by what they accept, with the error state alone; then every block is divided by the blocks that its
states lead to, again and again until a round divides nothing. A round never joins what was apart,
so the number of blocks grows until it stops, and it cannot exceed the number of states. -/

namespace Munch

/-- Number the members of a list, equal members alike, in the order in which they first occur. -/
def numberByFirst {α : Type} [BEq α] (xs : List α) : List Nat :=
  let firsts := xs.eraseDups
  xs.map firsts.idxOf

theorem length_eraseDups_le {α : Type} [BEq α] (xs : List α) :
    xs.eraseDups.length ≤ xs.length := by
  match xs with
  | [] => simp
  | a :: as =>
    rw [List.eraseDups_cons, List.length_cons, List.length_cons]
    have h := length_eraseDups_le (as.filter fun b => !b == a)
    have := List.length_filter_le (fun b => !b == a) as
    omega
termination_by xs.length
decreasing_by exact Nat.lt_succ_of_le (List.length_filter_le _ _)

/-- A division of the states of a table into blocks: the block of each state, and how many blocks
there are. -/
structure Partition where
  blocks : Array Nat
  count : Nat
deriving DecidableEq, Repr

namespace Partition

/-- The block of a state. -/
def block (p : Partition) (state : Nat) : Nat := p.blocks[state]?.getD 0

/-- The division by what states accept, with the error state alone. -/
def initial (t : Table) : Partition :=
  let kinds := (List.range t.size).map fun s =>
    if s = Table.error then 0
    else
      match t.accept? s with
      | none => 1
      | some id => id + 2
  ⟨kinds.toArray, kinds.eraseDups.length⟩

/-- The block of a state, and the blocks that it leads to. -/
def signature (t : Table) (p : Partition) (state : Nat) : Nat × List Nat :=
  (p.block state, (t.row state).toList.map p.block)

/-- The division by signatures. -/
def refine (t : Table) (p : Partition) : Partition :=
  let signatures := (List.range t.size).map (p.signature t)
  ⟨(numberByFirst signatures).toArray, signatures.eraseDups.length⟩

theorem count_refine_le (t : Table) (p : Partition) : (p.refine t).count ≤ t.size := by
  have := length_eraseDups_le ((List.range t.size).map (p.signature t))
  simpa [refine] using this

/-- The divisions of one round after the other, until a round divides nothing. -/
def rounds (t : Table) (p : Partition) : List Partition :=
  if _ : p.count < (p.refine t).count then p.refine t :: rounds t (p.refine t)
  else [p.refine t]
termination_by t.size - p.count
decreasing_by
  have := count_refine_le t p
  omega

/-- The division that no round divides any more. -/
def final (t : Table) : Partition := ((initial t).rounds t).getLast?.getD (initial t)

/-- The table whose states are the blocks of a division. What a block does is what its first state
does. -/
def merge (t : Table) (p : Partition) : Table :=
  let firsts := (List.range p.count).map p.blocks.toList.idxOf
  { start := p.block t.start
    rows := (firsts.map fun s => (t.row s).map p.block).toArray
    accepting := (firsts.map t.accept?).toArray
    minimal := true }

end Partition

namespace Table

/-- The smallest table that finds the same matches. -/
def minimize (t : Table) : Table :=
  if t.minimal then t
  else
    let p := Partition.final t
    if p.count = t.size then { t with minimal := true } else p.merge t

/-- What happens while a table is minimized. -/
def minimizeEvents (t : Table) : List Event :=
  if t.minimal then []
  else
    let rounds := (Partition.initial t).rounds t
    let p := Partition.final t
    (rounds.zipIdx.map fun r => .refinedPartition r.2 r.1.count) ++
      [if p.count = t.size then .alreadyMinimal t.size else .minimized t.size p.count]

end Table

end Munch

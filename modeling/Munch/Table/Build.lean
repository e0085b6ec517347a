import Munch.Event
import Munch.Exploration
import Munch.Labelled.Follow
import Munch.Table.Basic

set_option autoImplicit false

/-! # Tables from labelled expressions

A state of the table is a set of positions, those that can come next. A byte leads from a set to the
positions that follow those of its members whose leaf has the byte; if there are none, it leads to
the error state. A set with end marks accepts the least of their patterns.

States are numbered from one in the order in which their sets are found, newest first. -/

namespace Munch

namespace Table

/-- The positions of a set whose leaf has a byte. -/
def movers (l : Labelled) (set : IndexSet) (b : UInt8) : List Nat :=
  set.filter fun p => (l.span? p).any (·.contains b)

/-- The different lists of positions that move on some byte, in the order of the bytes. -/
def moverGroups (l : Labelled) (set : IndexSet) : List (List Nat) :=
  (allBytes.map (movers l set)).eraseDups

/-- The positions that follow some position of a list. -/
def followAll (l : Labelled) (follow : List IndexSet) (ps : List Nat) : IndexSet :=
  IndexSet.collect l.positionCount fun q => ps.any fun p => (follow[p]?.getD []).contains q

/-- The sets that come after a set, in the order of the bytes that lead to them. -/
def nextSets (l : Labelled) (follow : List IndexSet) (set : IndexSet) : List IndexSet :=
  ((moverGroups l set).map (followAll l follow)).filter fun s => !s.isEmpty

theorem nextSets_bounded (l : Labelled) (follow : List IndexSet) :
    ∀ s, ∀ t ∈ nextSets l follow s, t ∈ IndexSet.subsets l.positionCount := by
  intro s t ht
  simp only [nextSets, List.mem_filter, List.mem_map] at ht
  obtain ⟨⟨ps, _, rfl⟩, _⟩ := ht
  exact IndexSet.mem_subsets _ _

/-- The sets of positions that can be reached. -/
def sets (l : Labelled) : Exploration :=
  explore l.positionCount .newestFirst (nextSets l l.follow) (nextSets_bounded l l.follow) l.start

/-- The state of a set, among the sets that were found; the empty set is the error state. -/
def stateOf (found : List IndexSet) (set : IndexSet) : Nat :=
  if set.isEmpty then error else found.idxOf set + 1

/-- The row of a set, among the sets that were found. -/
def rowOf (l : Labelled) (follow : List IndexSet) (found : List IndexSet) (set : IndexSet) : Row :=
  let targets := (moverGroups l set).map fun ps => (ps, stateOf found (followAll l follow ps))
  Row.ofFn fun b => (targets.lookup (movers l set b)).getD error

/-- The least pattern that a set accepts. -/
def setAccept? (l : Labelled) (set : IndexSet) : Option Nat := (set.filterMap l.pattern?).min?

/-- The table of a labelled expression. -/
def ofLabelled (l : Labelled) : Table :=
  let follow := l.follow
  let found := (sets l).found
  { start := stateOf found l.start
    rows := (errorRow :: found.map (rowOf l follow found)).toArray
    accepting := (none :: found.map (setAccept? l)).toArray
    minimal := false }

/-- What happens while the table of a labelled expression is built. -/
def buildEvents (l : Labelled) : List Event :=
  let explored := sets l
  (explored.visited.map fun set =>
    .buildingState (explored.found.idxOf set + 1) set (setAccept? l set)) ++
    [.builtTable explored.found.length]

/-- The table of a pattern or a set of patterns. -/
def ofRegex (r : Regex) : Table := ofLabelled (Labelled.ofRegex r)

end Table

end Munch

import Munch.Edges
import Munch.Scan.Match

set_option autoImplicit false

/-! # Transition tables

A table gives, for each state and each byte, the state that comes next. State 0 is the error state:
it accepts nothing, and no byte leads out of it. A run from the start state finds a longest match by
remembering the last accepting state that it was in, and ends when it comes to the error state.

The edges out of a state are found on one way through its row, from one run of equal entries to the
next. -/

namespace Munch

/-- The state that comes next for each byte. -/
abbrev Row := Vector Nat 256

/-- The error state. -/
abbrev Table.error : Nat := 0

namespace Row

/-- The row of a function on bytes. -/
def ofFn (f : UInt8 → Nat) : Row := Vector.ofFn fun i => f (UInt8.ofNat i.val)

/-- The entry of a row for a byte. -/
def entry (row : Row) (b : UInt8) : Nat := row.get ⟨b.toNat, b.toNat_lt⟩

/-- Where a run of bytes that lead to a target ends, from a byte on. -/
def runEnd (row : Row) (target byte : Nat) : Nat :=
  if h : byte < 256 then
    if row[byte] = target then runEnd row target (byte + 1) else byte
  else byte
termination_by 256 - byte

theorem le_runEnd (row : Row) (target byte : Nat) : byte ≤ row.runEnd target byte := by
  fun_induction runEnd row target byte with
  | case1 byte _ _ ih => exact Nat.le_of_succ_le ih
  | case2 => exact Nat.le_refl _
  | case3 => exact Nat.le_refl _

theorem runEnd_le (row : Row) {target byte : Nat} (h : byte ≤ 256) :
    row.runEnd target byte ≤ 256 := by
  fun_induction runEnd row target byte with
  | case1 byte hlt _ ih => exact ih hlt
  | case2 => exact h
  | case3 => exact h

/-- A byte is in the run that starts with it. -/
theorem lt_runEnd (row : Row) {byte : Nat} (h : byte < 256) : byte < row.runEnd row[byte] byte := by
  rw [runEnd, dif_pos h, if_pos rfl]
  exact row.le_runEnd _ _

/-- The runs of bytes from a byte on that do not lead to the error state, each with its target. -/
def edgesFrom (row : Row) (byte : Nat) : Edges :=
  if h : byte < 256 then
    let target := row[byte]
    let stop := row.runEnd target byte
    have hlt : byte < stop := row.lt_runEnd h
    if target = Table.error then edgesFrom row stop
    else
      have hle : stop ≤ 256 := row.runEnd_le (Nat.le_of_lt h)
      (⟨UInt8.ofNat byte, UInt8.ofNat (stop - 1), by
        rw [UInt8.le_iff_toNat_le, UInt8.toNat_ofNat', UInt8.toNat_ofNat']
        omega⟩, target) :: edgesFrom row stop
  else []
termination_by 256 - byte
decreasing_by all_goals exact Nat.sub_lt_sub_left h hlt

end Row

/-- A deterministic automaton over bytes. -/
structure Table where
  start : Nat
  rows : Array Row
  accepting : Array (Option Nat)
  minimal : Bool
deriving DecidableEq

namespace Table

/-- The row of the error state. -/
def errorRow : Row := Vector.replicate 256 error

/-- All bytes in ascending order. -/
def allBytes : List UInt8 := (List.range 256).map UInt8.ofNat

/-- The number of states, with the error state. -/
def size (t : Table) : Nat := t.rows.size

/-- The row of a state. -/
def row (t : Table) (state : Nat) : Row := t.rows[state]?.getD errorRow

/-- The state that comes after a state on a byte. -/
def next (t : Table) (state : Nat) (b : UInt8) : Nat := (t.row state).entry b

/-- The pattern that a state accepts. -/
def accept? (t : Table) (state : Nat) : Option Nat := (t.accepting[state]?).join

/-- The states that accept a pattern, in ascending order. -/
def statesAccepting (t : Table) (id : Nat) : List Nat :=
  (List.range t.accepting.size).filter fun s => t.accept? s == some id

/-- The states that accept each pattern, up to the last pattern that some state accepts. -/
def acceptingStates (t : Table) : List (List Nat) :=
  match (t.accepting.toList.filterMap id).max? with
  | none => []
  | some last => (List.range (last + 1)).map t.statesAccepting

/-- Whether the start state accepts a pattern, which then matches the empty text. -/
def matchesEmpty (t : Table) : Bool := (t.accept? t.start).isSome

/-- The edges out of a state other than those to the error state, as maximal ranges. -/
def edges (t : Table) (state : Nat) : Edges := (t.row state).edgesFrom 0

/-- The states that a run from the start state goes through on a text, with the start state. -/
def path (t : Table) (text : Bytes) : List Nat :=
  text.foldl (fun states b => states ++ [t.next (states.getLast?.getD t.start) b]) [t.start]

/-- The state that a run from a state ends in on a text. -/
def run (t : Table) (state : Nat) (text : Bytes) : Nat := text.foldl t.next state

/-- Run from a state on the rest of the input, which starts at offset `i`, remembering the last
pattern accepted and where. -/
def findFrom (t : Table) (state i : Nat) (best : Option (Nat × Nat)) : Bytes → Finding
  | [] => ⟨best, i⟩
  | b :: rest =>
    let state := t.next state b
    if state = error then ⟨best, i⟩
    else
      t.findFrom state (i + 1)
        (match t.accept? state with
          | some id => some (id, i + 1)
          | none => best) rest

/-- The longest match from a cursor on. -/
def find (t : Table) (text : Bytes) (tc : Nat) : Finding :=
  t.findFrom t.start tc none (text.drop tc)

/-- The pattern and the length of the longest match at the start of a text. -/
def longest? (t : Table) (text : Bytes) : Option (Nat × Nat) := (t.find text 0).longest?

end Table

end Munch

import Munch.Program.Basic
import Munch.IndexSet
import Munch.Scan.Match

set_option autoImplicit false

/-! # Running a deterministic program

A deterministic program is run by following its one thread. Each byte that is consumed shortens the
input; between two bytes, an offset that is met again would be met for ever, so a run stops there.
A program that was read never does that, nor does it leave its instructions. `Checked.follow` traps
where a run does not come to where control ends. -/

namespace Munch

namespace Direct

/-- Why a run stopped. -/
inductive Halt where
  /-- At a `fail`. -/
  | failed
  /-- At a `branch` at the end of the input. -/
  | endOfInput
  /-- At an offset met before without a byte in between. -/
  | looping
  /-- At an offset outside the program. -/
  | outside (pc : Nat)
  /-- At an instruction that needs several threads. -/
  | threaded
deriving DecidableEq, Repr

/-- What a run found, and why it stopped. -/
structure Outcome where
  finding : Finding
  halt : Halt
deriving DecidableEq, Repr

/-- Run from offset `pc` of a program at offset `i` of the input, of which `rest` is left, having
met the offsets of `path` since the last byte. The match accepted last is the longest. -/
def runFrom (p : Program) (tc : Nat) (rest : Bytes) (i : Nat) (path : List Nat) (pc : Nat)
    (best : Option (Nat × Nat)) : Outcome :=
  if _ : pc ∈ path then ⟨⟨best, i⟩, .looping⟩
  else if _ : pc < p.size then
    match p.insts[pc]? with
    | some (.accept id) =>
      runFrom p tc rest i (pc :: path) (pc + 1) (if tc < i then some (id, i) else best)
    | some (.branch r) =>
      match rest with
      | [] => ⟨⟨best, i⟩, .endOfInput⟩
      | b :: rest =>
        if r.contains b then runFrom p tc rest (i + 1) [] (pc + 1) best
        else runFrom p tc (b :: rest) i (pc :: path) (pc + 2) best
    | some (.jump x) => runFrom p tc rest i (pc :: path) x best
    | some .fail => ⟨⟨best, i⟩, .failed⟩
    | _ => ⟨⟨best, i⟩, .threaded⟩
  else ⟨⟨best, i⟩, .outside pc⟩
termination_by (rest.length, IndexSet.missing p.size path)
decreasing_by
  · exact Prod.Lex.right _ (IndexSet.missing_cons_lt ‹_› ‹_›)
  · exact Prod.Lex.left _ _ (Nat.lt_succ_self _)
  · exact Prod.Lex.right _ (IndexSet.missing_cons_lt ‹_› ‹_›)
  · exact Prod.Lex.right _ (IndexSet.missing_cons_lt ‹_› ‹_›)

/-- Run a deterministic program from offset 0 on the input from `tc` on. -/
def run (p : Program) (text : Bytes) (tc : Nat) : Outcome :=
  runFrom p tc (text.drop tc) tc [] 0 none

end Direct

end Munch

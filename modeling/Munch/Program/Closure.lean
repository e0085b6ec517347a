import Munch.Program.Basic
import Munch.Program.ThreadList

set_option autoImplicit false

/-! # Following control without consuming

A thread that reaches a `jump` or a `split` is at all its targets at once, and one that reaches an
`accept` in a deterministic program is also at the next instruction. `ThreadList.close` adds an
offset to a list of threads together with everything that can be reached from it that way. Offsets
that are in the list already are not followed again, so cycles do no harm: every offset that is
followed takes room from the list. -/

namespace Munch

/-- The offsets that control passes to from an offset without consuming a byte and without a
choice that depends on the next byte, in the order in which they are followed. -/
def Program.emptySteps (p : Program) (pc : Nat) : List Nat :=
  match p.insts[pc]? with
  | some (.jump x) => [x]
  | some (.split x y) => [x, y]
  | some (.accept _) => if p.isDeterministic then [pc + 1] else []
  | _ => []

namespace ThreadList

/-- Add the offsets of a stack, and everything reached from them without consuming, to a list. -/
def closeAll (p : Program) (l : ThreadList) (stack : List Nat) : ThreadList :=
  match stack with
  | [] => l
  | pc :: rest =>
    if l.accepts pc then closeAll p (l.insert pc) (p.emptySteps pc ++ rest)
    else closeAll p l rest
termination_by (l.room, stack.length)
decreasing_by
  · exact Prod.Lex.left _ _ (room_insert_lt ‹_›)
  · exact Prod.Lex.right _ (by simp)

/-- Add an offset, and everything reached from it without consuming, to a list. -/
def close (p : Program) (l : ThreadList) (pc : Nat) : ThreadList := closeAll p l [pc]

/-- Closing a list leaves it as it is or takes room. -/
theorem closeAll_eq_or_room_lt (p : Program) (l : ThreadList) (stack : List Nat) :
    closeAll p l stack = l ∨ (closeAll p l stack).room < l.room := by
  fun_induction closeAll p l stack with
  | case1 => exact .inl rfl
  | case2 l pc rest h ih =>
    have := room_insert_lt h
    rcases ih with ih | ih
    · rw [ih]
      exact .inr this
    · exact .inr (Nat.lt_trans ih this)
  | case3 l pc rest h ih => exact ih

theorem close_eq_or_room_lt (p : Program) (l : ThreadList) (pc : Nat) :
    close p l pc = l ∨ (close p l pc).room < l.room :=
  closeAll_eq_or_room_lt p l [pc]

/-- Closing a list and going on to its next place brings its end nearer or takes room. -/
theorem close_next_place_lt {l : ThreadList} {k pc : Nat} (h : l.get? k = some pc) (p : Program)
    (target : Nat) :
    Prod.Lex (· < ·) (· < ·) ((l.close p target).room, (l.close p target).size - (k + 1))
      (l.room, l.size - k) := by
  rcases close_eq_or_room_lt p l target with heq | hlt
  · rw [heq]
    exact next_place_lt h
  · exact Prod.Lex.left _ _ hlt

end ThreadList

/-- Whether a program accepts some pattern before it consumes a byte. -/
def Program.matchesEmpty (p : Program) : Bool :=
  (ThreadList.close p (.empty p.size) 0).toList.any fun pc => (p.pattern? pc).isSome

end Munch

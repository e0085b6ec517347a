import Munch.Table.Basic

set_option autoImplicit false

/-! # Tables as text

The text of a table gives the start state, the accepting states with their patterns, and for each
state but the error state its edges. -/

namespace Munch.Table

/-- The text of an edge. -/
def edgeText (e : ByteRange × Nat) : String := e.1.quoted ++ " -> " ++ toString e.2

/-- The line of an accepting state. -/
def acceptingLine (state id : Nat) : String :=
  "    " ++ toString state ++ " -> " ++ toString id ++ "\n"

/-- The line with the edges of a state. -/
def edgesLine (t : Table) (state : Nat) : String :=
  "    " ++ toString state ++ ":" ++
    (match t.edges state with
      | [] => ""
      | es => " " ++ ", ".intercalate (es.map edgeText)) ++ "\n"

/-- The text of a table. -/
def listing (t : Table) : String :=
  "start: " ++ toString t.start ++ "\n" ++
    "accepting:\n" ++
    String.join ((List.range t.accepting.size).filterMap fun s =>
      (t.accept? s).map (acceptingLine s)) ++
    "transitions:\n" ++
    String.join ((List.range t.size).tail.map t.edgesLine)

end Munch.Table

import Munch.Byte.Set

set_option autoImplicit false

/-! # Regular expressions over bytes

A `Regex` has the usual operators, and three constructors for sets of patterns: `pattern` is the
root of one complete pattern, `either` joins sets of patterns, those on the left before those on
the right, and `finish` marks the end of a pattern. -/

namespace Munch

/-- A set of bytes that is not empty. -/
structure ByteClass where
  set : ByteSet
  nonempty : set.ranges ≠ []
deriving DecidableEq

/-- A regular expression, or a set of complete patterns. -/
inductive Regex where
  /-- One byte. -/
  | byte (b : UInt8)
  /-- Any byte of a range. -/
  | range (r : ByteRange)
  /-- Any byte of a set. -/
  | oneOf (c : ByteClass)
  /-- One expression after the other. -/
  | cat (items : List Regex)
  /-- Either expression. -/
  | alt (left right : Regex)
  /-- Any number of repetitions. -/
  | star (body : Regex)
  /-- At least one repetition. -/
  | plus (body : Regex)
  /-- At most one repetition. -/
  | maybe (body : Regex)
  /-- The root of a complete pattern. -/
  | pattern (body : Regex)
  /-- The patterns of two sets, the left ones first. -/
  | either (left right : Regex)
  /-- The end of a pattern. -/
  | finish

namespace Regex

/-- Induction on expressions, with the items of a concatenation as one case. -/
@[elab_as_elim, induction_eliminator]
theorem induct {motive : Regex → Prop}
    (byte : ∀ b, motive (.byte b))
    (range : ∀ r, motive (.range r))
    (oneOf : ∀ c, motive (.oneOf c))
    (cat : ∀ items, (∀ r ∈ items, motive r) → motive (.cat items))
    (alt : ∀ left right, motive left → motive right → motive (.alt left right))
    (star : ∀ body, motive body → motive (.star body))
    (plus : ∀ body, motive body → motive (.plus body))
    (maybe : ∀ body, motive body → motive (.maybe body))
    (pattern : ∀ body, motive body → motive (.pattern body))
    (either : ∀ left right, motive left → motive right → motive (.either left right))
    (finish : motive .finish) (r : Regex) : motive r :=
  @Regex.rec motive (fun items => ∀ r ∈ items, motive r)
    byte range oneOf cat alt star plus maybe pattern either finish
    (by simp) (fun _ _ h hs => by simpa using ⟨h, hs⟩) r

/-! ## Equality -/

mutual

/-- Whether two expressions are equal. -/
def beq : Regex → Regex → Bool
  | .byte a, .byte b => a == b
  | .range r, .range s => decide (r = s)
  | .oneOf c, .oneOf d => decide (c = d)
  | .cat xs, .cat ys => beqAll xs ys
  | .alt a b, .alt c d => beq a c && beq b d
  | .star a, .star b => beq a b
  | .plus a, .plus b => beq a b
  | .maybe a, .maybe b => beq a b
  | .pattern a, .pattern b => beq a b
  | .either a b, .either c d => beq a c && beq b d
  | .finish, .finish => true
  | _, _ => false

/-- Whether two lists of expressions are equal. -/
def beqAll : List Regex → List Regex → Bool
  | [], [] => true
  | x :: xs, y :: ys => beq x y && beqAll xs ys
  | _, _ => false

end

theorem beqAll_iff {xs : List Regex} (h : ∀ x ∈ xs, ∀ y, beq x y = true ↔ x = y) :
    ∀ ys, beqAll xs ys = true ↔ xs = ys := by
  induction xs with
  | nil => intro ys; cases ys <;> simp [beqAll]
  | cons x xs ih =>
    intro ys
    cases ys with
    | nil => simp [beqAll]
    | cons y ys =>
      have hx := h x (by simp) y
      have hxs := ih (fun z hz => h z (by simp [hz])) ys
      simp [beqAll, hx, hxs]

theorem beq_iff (r : Regex) : ∀ s, beq r s = true ↔ r = s := by
  induction r with
  | cat items ih =>
    intro s
    cases s <;> simp [beq, beqAll_iff ih]
  | _ => intro s; cases s <;> simp_all [beq]

instance : DecidableEq Regex := fun r s => decidable_of_iff _ (beq_iff r s)

/-! ## Building expressions -/

/-- Any byte at all. -/
def any : Regex := .range ByteRange.full

/-- Any byte of a range, as one byte if the range is one. -/
def ofRange (r : ByteRange) : Regex := if r.isSingle then .byte r.lo else .range r

/-- Any byte between two bounds, given in either order. -/
def between (a b : UInt8) : Regex := ofRange (ByteRange.between a b)

/-- Any byte of a set, by the smallest expression for it; nothing if the set is empty. -/
def ofSet? (s : ByteSet) : Option Regex :=
  if h : s.ranges = [] then none
  else
    match s.single? with
    | some r => some (ofRange r)
    | none => some (.oneOf ⟨s, h⟩)

/-- The bytes of a text, one after the other. -/
def literal : Bytes → Regex
  | [b] => .byte b
  | bs => .cat (bs.map .byte)

/-- An expression as a complete pattern; a complete pattern is left as it is. -/
def complete : Regex → Regex
  | .pattern body => .pattern body
  | r => .pattern (.cat [r, .finish])

/-- Join sets of patterns, the first of them first; nothing if there are none. -/
def joinPatterns : List Regex → Option Regex
  | [] => none
  | r :: rest =>
    match joinPatterns rest with
    | none => some r
    | some s => some (.either r s)

/-! ## The empty text -/

mutual

/-- Whether an expression matches the empty text. -/
def nullable : Regex → Bool
  | .byte _ | .range _ | .oneOf _ => false
  | .star _ | .maybe _ | .finish => true
  | .plus r | .pattern r => nullable r
  | .cat items => allNullable items
  | .alt a b | .either a b => nullable a || nullable b

/-- Whether every expression of a list matches the empty text. -/
def allNullable : List Regex → Bool
  | [] => true
  | r :: rest => nullable r && allNullable rest

end

end Regex

end Munch

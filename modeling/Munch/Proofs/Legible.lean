import Munch.Byte.Range
import Munch.Proofs.RoundTrip

set_option autoImplicit false

/-! # Texts that can be taken apart

What is written for a thing is legible if it can be told from what is written for any other thing,
whatever comes behind the two (`Text.Legible`). Some texts are legible only if what comes behind
them does not go on as they could themselves: digits must not be followed by a digit. The escape of
a byte and the digits of a number are legible, as they can be read back; and so is a list of legible
things, each behind a separator, if no separator follows the last one (`Text.LegibleAt.flatMap`). -/

namespace Munch

namespace Text

variable {α : Type} {p : Char → Bool} {f : α → List Char} {u v w w' : List Char} {c sep : Char}

/-- A text does not start with a character of some kind. -/
def Stops (p : Char → Bool) (u : List Char) : Prop := ∀ c ∈ u.head?, p c = false

@[simp] theorem stops_nil (p : Char → Bool) : Stops p [] := nofun

@[simp] theorem stops_cons : Stops p (c :: u) ↔ p c = false := by simp [Stops]

theorem stops_append (hu : u.head? = some c) (hc : p c = false) (v : List Char) :
    Stops p (u ++ v) := by
  simpa [Stops, List.head?_append, hu] using hc

/-- What is written for a thing is not what is written for another one, if neither is followed by a
    character of some kind. -/
def LegibleAt (p : Char → Bool) (f : α → List Char) (a : α) : Prop :=
  ∀ b u v, Stops p u → Stops p v → f a ++ u = f b ++ v → a = b ∧ u = v

/-- What is written for things tells them apart, if it is not followed by a character of some
    kind. -/
def Legible (p : Char → Bool) (f : α → List Char) : Prop := ∀ a, LegibleAt p f a

/-- What can be read back is legible. -/
theorem legible_of_read {read : List Char → α × List Char}
    (h : ∀ a u, Stops p u → read (f a ++ u) = (a, u)) : Legible p f := by
  intro a b u v hu hv heq
  have hread : read (f a ++ u) = (a, u) := h a u hu
  rw [heq, h b v hv] at hread
  exact ⟨(congrArg Prod.fst hread).symm, (congrArg Prod.snd hread).symm⟩

/-! ## Words of one kind of characters -/

theorem takeWhile_append_of_stops (hw : ∀ c ∈ w, p c = true) (hu : Stops p u) :
    (w ++ u).takeWhile p = w := by
  rw [List.takeWhile_append_of_pos hw]
  cases u with
  | nil => exact List.append_nil w
  | cons c u => rw [List.takeWhile_cons_of_neg (by simp [stops_cons.mp hu]), List.append_nil]

/-- Characters of one kind end where a character of another kind comes. -/
theorem eq_of_append_eq (hw : ∀ c ∈ w, p c = true) (hw' : ∀ c ∈ w', p c = true)
    (hu : Stops p u) (hv : Stops p v) (h : w ++ u = w' ++ v) : w = w' ∧ u = v := by
  have hsame : w = w' := by
    rw [← takeWhile_append_of_stops hw hu, h, takeWhile_append_of_stops hw' hv]
  exact ⟨hsame, List.append_cancel_left (hsame ▸ h)⟩

/-- The digits of a number are legible in front of anything but a digit. -/
theorem legible_toDigits : Legible Char.isDigit (Nat.toDigits 10) := by
  intro n m u v hu hv h
  obtain ⟨hdigits, hrest⟩ :=
    eq_of_append_eq (fun _ => isDigit_of_mem_toDigits) (fun _ => isDigit_of_mem_toDigits) hu hv h
  refine ⟨?_, hrest⟩
  rw [← Nat.ofDigitChars_ten_toDigits (n := n), hdigits, Nat.ofDigitChars_ten_toDigits]

/-! ## Lists -/

theorem stops_flatMap_append (hsep : p sep = false) (hu : Stops p u) (xs : List α) :
    Stops p (xs.flatMap (sep :: f ·) ++ u) := by
  cases xs with
  | nil => exact hu
  | cons x xs => exact stops_cons.mpr hsep

/-- Legible things with a separator before each can be told from other such things, if no separator
    comes behind the last one. -/
theorem LegibleAt.flatMap {xs ys : List α} (hf : ∀ x ∈ xs, LegibleAt p f x) (hsep : p sep = false)
    (hu : Stops p u) (hv : Stops p v) (hu' : Stops (· == sep) u) (hv' : Stops (· == sep) v)
    (h : xs.flatMap (sep :: f ·) ++ u = ys.flatMap (sep :: f ·) ++ v) : xs = ys ∧ u = v := by
  induction xs generalizing ys with
  | nil =>
    cases ys with
    | nil => exact ⟨rfl, h⟩
    | cons y ys =>
      rw [List.flatMap_nil, List.nil_append] at h
      rw [h] at hu'
      simp at hu'
  | cons x xs ih =>
    cases ys with
    | nil =>
      rw [List.flatMap_nil, List.nil_append] at h
      rw [← h] at hv'
      simp at hv'
    | cons y ys =>
      obtain ⟨hx, hxs⟩ := List.forall_mem_cons.mp hf
      simp only [List.flatMap_cons, List.cons_append, List.append_assoc,
        List.cons.injEq, true_and] at h
      obtain ⟨rfl, hrest⟩ :=
        hx y _ _ (stops_flatMap_append hsep hu xs) (stops_flatMap_append hsep hv ys) h
      obtain ⟨rfl, hend⟩ := ih hxs hrest
      exact ⟨rfl, hend⟩

end Text

/-! ## Bytes -/

namespace Byte

/-- The value of a hexadecimal digit. -/
def hexValue (c : Char) : Nat := if c.toNat < 58 then c.toNat - 48 else c.toNat - 87

/-- The byte whose escape a text starts with, and what comes behind the escape. -/
def readEscape : List Char → UInt8 × List Char
  | '\\' :: 'x' :: a :: b :: rest => (UInt8.ofNat (hexValue a * 16 + hexValue b), rest)
  | '\\' :: 't' :: rest => (9, rest)
  | '\\' :: 'n' :: rest => (10, rest)
  | '\\' :: 'r' :: rest => (13, rest)
  | '\\' :: c :: rest => (UInt8.ofNat c.toNat, rest)
  | c :: rest => (UInt8.ofNat c.toNat, rest)
  | [] => (0, [])

theorem hexValue_hexDigit {n : Nat} (h : n < 16) : hexValue (hexDigit n) = n :=
  (by decide : ∀ n < 16, hexValue (hexDigit n) = n) n h

theorem toNat_ofNat_of_lt {n : Nat} (h : n < 256) : (Char.ofNat n).toNat = n := by
  have hvalid : n.isValidChar := .inl (by omega)
  rw [Char.ofNat, dif_pos hvalid]
  show (UInt32.ofNatLT n _).toNat = n
  simp

/-- A byte is read back from its escape. -/
theorem readEscape_escape (b : UInt8) (u : List Char) : readEscape (escape b ++ u) = (b, u) := by
  have hlt := b.toNat_lt
  unfold escape
  -- The bytes whose escapes have two characters.
  iterate 6
    split
    · next h => exact congrArg (·, u) (beq_iff_eq.mp h).symm
  split
  -- A printable byte that is not a backslash stands for itself.
  · next hbackslash _ =>
    have hchar : (Char.ofNat b.toNat).toNat = b.toNat := toNat_ofNat_of_lt hlt
    have hne : Char.ofNat b.toNat ≠ '\\' := by
      intro heq
      rw [heq] at hchar
      exact hbackslash (beq_iff_eq.mpr (UInt8.toNat_inj.mp hchar.symm))
    simp [readEscape, hne, hchar]
  · have hvalue : hexValue (hexDigit (b.toNat / 16)) * 16 + hexValue
        (hexDigit (b.toNat % 16)) = b.toNat := by
      rw [hexValue_hexDigit (by omega), hexValue_hexDigit (by omega)]
      omega
    simp [readEscape, hex, hvalue]

/-- The escape of a byte is legible in front of anything. -/
theorem legible_escape : Text.Legible (fun _ => false) escape :=
  Text.legible_of_read fun b u _ => readEscape_escape b u

end Byte

end Munch

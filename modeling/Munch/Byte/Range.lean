import Munch.Byte.Escape

set_option autoImplicit false

/-! # Inclusive byte ranges

A `ByteRange` has its bounds in order by construction, so it always holds at least one byte. -/

namespace Munch

/-- The bytes from `lo` through `hi`. -/
structure ByteRange where
  lo : UInt8
  hi : UInt8
  lo_le_hi : lo ≤ hi
deriving DecidableEq

namespace ByteRange

/-- The range of one byte. -/
def single (b : UInt8) : ByteRange := ⟨b, b, UInt8.le_refl b⟩

/-- All bytes. -/
def full : ByteRange := ⟨0, 255, by decide⟩

/-- The range between two bytes given in either order. -/
def between (a b : UInt8) : ByteRange :=
  if h : a ≤ b then ⟨a, b, h⟩ else ⟨b, a, (UInt8.le_total a b).resolve_left h⟩

/-- The smallest range around two ranges. -/
def hull (r s : ByteRange) : ByteRange where
  lo := if r.lo ≤ s.lo then r.lo else s.lo
  hi := if r.hi ≤ s.hi then s.hi else r.hi
  lo_le_hi := by
    have hr := r.lo_le_hi
    have hs := s.lo_le_hi
    rw [UInt8.le_iff_toNat_le] at *
    split <;> split <;> simp_all only [UInt8.le_iff_toNat_le] <;> omega

/-- The range of the bytes from `start` up to, and not including, `stop`; nothing if there are
none, or if `stop` is past the last byte. -/
def upTo (start stop : Nat) : Option ByteRange :=
  if h : start < stop ∧ stop ≤ 256 then
    some ⟨UInt8.ofNat start, UInt8.ofNat (stop - 1), by
      rw [UInt8.le_iff_toNat_le, UInt8.toNat_ofNat', UInt8.toNat_ofNat']
      omega⟩
  else none

/-- Whether a byte lies in a range. -/
def contains (r : ByteRange) (b : UInt8) : Bool := r.lo ≤ b && b ≤ r.hi

instance : Membership UInt8 ByteRange := ⟨fun r b => r.lo ≤ b ∧ b ≤ r.hi⟩

instance (b : UInt8) (r : ByteRange) : Decidable (b ∈ r) :=
  inferInstanceAs (Decidable (r.lo ≤ b ∧ b ≤ r.hi))

theorem mem_def {b : UInt8} {r : ByteRange} : b ∈ r ↔ r.lo ≤ b ∧ b ≤ r.hi := Iff.rfl

@[simp] theorem contains_iff {r : ByteRange} {b : UInt8} : r.contains b = true ↔ b ∈ r := by
  simp [contains, mem_def]

/-- Membership in terms of numbers. -/
theorem mem_iff_toNat {b : UInt8} {r : ByteRange} :
    b ∈ r ↔ r.lo.toNat ≤ b.toNat ∧ b.toNat ≤ r.hi.toNat := by
  simp [mem_def, UInt8.le_iff_toNat_le]

@[simp] theorem mem_single {b c : UInt8} : b ∈ single c ↔ b = c := by
  rw [mem_iff_toNat, ← UInt8.toNat_inj]
  simp only [single]
  omega

@[simp] theorem mem_full (b : UInt8) : b ∈ full := by
  rw [mem_iff_toNat]
  have := b.toNat_lt
  simp only [full]
  exact ⟨Nat.zero_le _, by simp; omega⟩

/-- Two adjacent or overlapping ranges hold the bytes of their hull between them. -/
theorem mem_hull {r s : ByteRange} {b : UInt8}
    (hrs : r.lo.toNat ≤ s.hi.toNat + 1) (hsr : s.lo.toNat ≤ r.hi.toNat + 1) :
    b ∈ hull r s ↔ b ∈ r ∨ b ∈ s := by
  have hr := r.lo_le_hi
  have hs := s.lo_le_hi
  simp only [mem_iff_toNat, hull, UInt8.le_iff_toNat_le] at *
  split <;> split <;> omega

/-- Whether a range is one byte. -/
def isSingle (r : ByteRange) : Bool := r.lo == r.hi

/-- The text of a range: its byte, or its bounds with a dash between them. -/
def describe (r : ByteRange) : String :=
  if r.isSingle then Byte.escaped r.lo else Byte.escaped r.lo ++ "-" ++ Byte.escaped r.hi

/-- The quoted text of a range, as it labels a transition. -/
def quoted (r : ByteRange) : String :=
  if r.isSingle then "'" ++ Byte.escaped r.lo ++ "'"
  else "'" ++ Byte.escaped r.lo ++ "'-'" ++ Byte.escaped r.hi ++ "'"

end ByteRange

end Munch

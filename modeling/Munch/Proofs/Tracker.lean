import Mathlib.Tactic.Common
import Munch.Position

set_option autoImplicit false

/-! # Where a tracker was does not matter

A tracker that was at some offset of a text goes on from there to later offsets, and from the start
of the text to earlier ones. Either way it comes to the position that it comes to from the start
(`Tracker.seek_seek`): going on to an offset and from there to another one is going through all that
lies between, and past the end of the text the columns go on. -/

namespace Munch

theorem Bytes.slice_append_slice (text : Bytes) {a b c : Nat} (hab : a ≤ b) (hbc : b ≤ c) :
    text.slice a b ++ text.slice b c = text.slice a c := by
  have hsum : c - a = (b - a) + (c - b) := by omega
  rw [slice, slice, slice, hsum, List.take_add, List.drop_drop, Nat.add_sub_cancel' hab]

theorem Bytes.length_slice_eq_min (text : Bytes) (a b : Nat) :
    (text.slice a b).length = min (b - a) (text.length - a) := by
  rw [slice, List.length_take, List.length_drop]

theorem addWord_lt (a b : Nat) : addWord a b < wordCount := Nat.mod_lt _ (by decide)

theorem addWord_zero {a : Nat} (h : a < wordCount) : addWord a 0 = a := Nat.mod_eq_of_lt h

theorem addWord_addWord (a b c : Nat) : addWord (addWord a b) c = addWord a (b + c) := by
  rw [addWord, addWord, addWord, Nat.mod_add_mod, Nat.add_assoc]

namespace Tracker

variable {t u : Tracker}

/-- The columns of a tracker are words. -/
theorem column_advanceAll_lt (h : t.column < wordCount) (bytes : Bytes) :
    (t.advanceAll bytes).column < wordCount := by
  induction bytes generalizing t with
  | nil => exact h
  | cons c bytes ih =>
    refine ih ?_
    unfold advance
    split
    · exact (by decide : 1 < wordCount)
    · exact addWord_lt _ _

theorem position_advance (h : t.position = u.position) (c : UInt8) :
    (t.advance c).position = (u.advance c).position := by
  obtain ⟨hline, hcolumn⟩ := Position.mk.inj h
  unfold advance position
  split
  · rw [hline]
  · rw [hline, hcolumn]

/-- The position that a tracker goes on to depends on its position alone. -/
theorem position_advanceAll (h : t.position = u.position) (bytes : Bytes) :
    (t.advanceAll bytes).position = (u.advanceAll bytes).position := by
  induction bytes generalizing t u with
  | nil => exact h
  | cons c bytes ih => exact ih (position_advance h c)

theorem advanceAll_append (t : Tracker) (v w : Bytes) :
    t.advanceAll (v ++ w) = (t.advanceAll v).advanceAll w :=
  List.foldl_append

@[simp] theorem offset_seek (t : Tracker) (text : Bytes) (a : Nat) : (t.seek text a).offset = a :=
  rfl

/-- To an offset that is not behind it, a tracker goes on from where it is. -/
theorem seek_of_le {text : Bytes} {a : Nat} (h : t.offset ≤ a) : t.seek text a =
    ⟨a, (t.advanceAll (text.slice t.offset a)).line,
      addWord (t.advanceAll (text.slice t.offset a)).column
        (a - t.offset - (text.slice t.offset a).length)⟩ := by
  rw [seek, if_neg (Nat.not_lt_of_le h)]

/-- To an offset behind it, a tracker goes from the start. -/
theorem seek_of_lt {text : Bytes} {a : Nat} (h : a < t.offset) :
    t.seek text a = start.seek text a := by
  rw [seek, if_pos h, seek_of_le (Nat.zero_le a)]

/-- Going on to an offset and from there to another one is going on to the other one. -/
theorem seek_seek_of_le (ht : t.column < wordCount) (text : Bytes) {a b : Nat} (ha : t.offset ≤ a)
    (hab : a ≤ b) : (t.seek text a).seek text b = t.seek text b := by
  have hslice := text.slice_append_slice ha hab
  rw [seek_of_le (t := t.seek text a) hab, seek_of_le (Nat.le_trans ha hab), offset_seek, ← hslice,
    advanceAll_append, List.length_append]
  have hlength := text.length_slice_eq_min t.offset a
  have hlength' := text.length_slice_eq_min a b
  rcases Nat.lt_or_ge text.length a with hend | hend
  -- Past the end of the text nothing is gone through, and the columns go on.
  · have hnil : text.slice a b = [] := List.eq_nil_of_length_eq_zero (by omega)
    have hcolumn : ∀ c, addWord (addWord c (a - t.offset - (text.slice t.offset a).length))
        (b - a - 0) = addWord c (b - t.offset - ((text.slice t.offset a).length + 0)) := by
      intro c
      rw [addWord_addWord]
      congr 1
      omega
    rw [hnil, List.length_nil, seek_of_le ha]
    exact congrArg (Tracker.mk b _) (hcolumn _)
  · have hposition :
        (t.seek text a).position = (t.advanceAll (text.slice t.offset a)).position := by
      have hpast : a - t.offset - (text.slice t.offset a).length = 0 := by omega
      rw [seek_of_le ha, hpast, addWord_zero (column_advanceAll_lt ht _)]
      rfl
    obtain ⟨hline, hcolumn⟩ := Position.mk.inj (position_advanceAll hposition (text.slice a b))
    rw [hline, hcolumn]
    congr 2
    omega

/-- A tracker that was at some offset comes to the position that it comes to from the start. -/
theorem seek_seek (text : Bytes) (a b : Nat) :
    (start.seek text a).seek text b = start.seek text b := by
  rcases Nat.lt_or_ge b a with hlt | hle
  · exact seek_of_lt hlt
  · exact seek_seek_of_le (by decide) text (Nat.zero_le a) hle

end Tracker

end Munch

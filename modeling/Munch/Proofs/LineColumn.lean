import Mathlib.Data.List.Induction
import Munch.Proofs.Tracker

set_option autoImplicit false

/-! # Trackers count lines and columns

A tracker that went through the first bytes of a text, one after the other, is at their number
(`Tracker.offset_along`), and its position is the line and the column that are counted in the text
itself (`Tracker.position_along`). It comes to the same position as a tracker that seeks the offset
(`Tracker.position_seek`). -/

namespace Munch

theorem Bytes.slice_zero (text : Bytes) (n : Nat) : text.slice 0 n = text.take n := by
  rw [slice, List.drop_zero, Nat.sub_zero]

theorem addWord_of_lt {a b : Nat} (h : a + b < wordCount) : addWord a b = a + b :=
  Nat.mod_eq_of_lt h

theorem lastLineStart_append_newline (w : Bytes) :
    lastLineStart (w ++ [Byte.newline]) = w.length + 1 := by
  simp [lastLineStart]

theorem lastLineStart_append_of_ne {b : UInt8} (hb : b ≠ Byte.newline) (w : Bytes) :
    lastLineStart (w ++ [b]) = lastLineStart w := by
  simp [lastLineStart, hb]

namespace Tracker

/-- The tracker that went through the first `n` bytes of a text. -/
def along (text : Bytes) (n : Nat) : Tracker := start.advanceAll (text.take n)

variable {text : Bytes} {n m : Nat}

/-- Going on through the bytes after the first ones. -/
theorem advanceAll_slice (h : n ≤ m) :
    (along text n).advanceAll (text.slice n m) = along text m := by
  have hslice := text.slice_append_slice (Nat.zero_le n) h
  rw [text.slice_zero, text.slice_zero] at hslice
  rw [along, ← advanceAll_append, hslice, along]

theorem offset_advance (t : Tracker) (b : UInt8) : (t.advance b).offset = addWord t.offset 1 := by
  unfold advance
  split <;> rfl

theorem offset_advanceAll (w : Bytes) {t : Tracker} (h : t.offset + w.length < wordCount) :
    (t.advanceAll w).offset = t.offset + w.length := by
  induction w generalizing t with
  | nil => rfl
  | cons b w ih =>
    rw [List.length_cons] at h ⊢
    have hoffset : (t.advance b).offset = t.offset + 1 := by
      rw [offset_advance, addWord_of_lt (by omega)]
    show ((t.advance b).advanceAll w).offset = _
    rw [ih (by omega), hoffset]
    omega

theorem length_take_of_le (h : n ≤ text.length) : (text.take n).length = n := by
  rw [List.length_take, Nat.min_eq_left h]

theorem offset_along (h : n ≤ text.length) (hn : n < wordCount) : (along text n).offset = n := by
  have hzero : start.offset = 0 := rfl
  have hlength := length_take_of_le h
  rw [along, offset_advanceAll _ (by omega), hzero, hlength, Nat.zero_add]

/-- After a whole text, a tracker is at the line and the column after it. -/
theorem position_advanceAll_start {w : Bytes} (hw : w.length + 1 < wordCount) :
    (start.advanceAll w).position = ⟨1 + w.count Byte.newline, w.length - lastLineStart w + 1⟩ := by
  induction w using List.reverseRecOn with
  | nil => rfl
  | append_singleton w b ih =>
    rw [List.length_append, List.length_singleton] at hw ⊢
    have hcount : w.count Byte.newline ≤ w.length := List.count_le_length
    have hstart : lastLineStart w ≤ w.length := Nat.sub_le _ _
    obtain ⟨hline, hcolumn⟩ := Position.mk.inj (ih (by omega))
    rw [advanceAll_append, List.count_append]
    show ((start.advanceAll w).advance b).position = _
    unfold advance
    by_cases hb : b = Byte.newline
    · subst hb
      rw [if_pos (beq_self_eq_true _), position, hline, lastLineStart_append_newline, Nat.sub_self,
        List.count_singleton_self]
      simp only [addWord_of_lt (show 1 + w.count Byte.newline + 1 < wordCount by omega),
        Nat.add_assoc]
    · rw [if_neg (by simpa using hb), position, hline, hcolumn, lastLineStart_append_of_ne hb,
        List.count_singleton, if_neg (by simpa using hb), Nat.add_zero]
      simp only [addWord_of_lt (show w.length - lastLineStart w + 1 + 1 < wordCount by omega)]
      congr 1
      omega

/-- After some bytes of a text, a tracker is at the position that is counted in the text. -/
theorem position_along (h : n ≤ text.length) (hn : n + 1 < wordCount) :
    (along text n).position = lineColumn text n := by
  have hlength := length_take_of_le h
  rw [along, position_advanceAll_start (by omega), hlength, lineColumn, addWord_of_lt (by omega)]

/-- Seeking an offset of a text is going through the bytes before it. -/
theorem position_seek (h : n ≤ text.length) :
    (start.seek text n).position = (along text n).position := by
  have hoffset : start.offset = 0 := rfl
  rw [seek_of_le (Nat.zero_le n), hoffset, text.slice_zero, length_take_of_le h, Nat.sub_zero,
    Nat.sub_self, addWord_zero (column_advanceAll_lt (by decide) _)]
  rfl

end Tracker

end Munch

import Munch.Proofs.Located
import Munch.Proofs.ReaderRefinement

set_option autoImplicit false

/-! # Where sums of words are exact

The sum of two words is their exact sum if that is a word, and falls short of it by the number of
words otherwise (`addWord_of_le`). A text in memory adds a look-ahead to its cursor, and where the
sum is no word it shows a byte that lies before the cursor, not the end of the text
(`Slice.At.peek_of_le`). The column of an offset is one more than the bytes since its line started.
That is no word for one offset only, the largest word, and only if the text is a single line; all
other positions are exact, also past the end of the text (`lineColumn_counts`). A tracker answers
with the same positions, whichever offsets it was asked for before
(`Tracker.answers_eq_map_lineColumn`). -/

namespace Munch

theorem addWord_of_le {a b : Nat} (h : wordCount ≤ a + b) (hlt : a + b < 2 * wordCount) :
    addWord a b = a + b - wordCount := by
  rw [addWord, Nat.mod_eq_sub_mod h, Nat.mod_eq_of_lt (by omega)]

/-! ## Looking ahead -/

namespace Slice

open ByteSource

variable {text : Bytes} {tc k : Nat} {s : Slice}

/-- A request leaves the cursor somewhere in the text. -/
theorem At.serve (h : At text tc s) (hsize : text.length < wordCount) (q : Request) :
    ∃ tc', At text tc' (ByteSource.serve s q).2 := by
  have hstarted : At text tc { s with started := true } := ⟨h.text_eq, h.tracker_eq, h.le_length⟩
  cases q with
  | advance n => exact ⟨_, h.advance hsize n⟩
  | current | peek | atEnd => exact ⟨tc, hstarted⟩
  | tc | started | takeError => exact ⟨tc, h⟩

theorem exists_at_after (hsize : text.length < wordCount) (qs : List Request) :
    ∃ tc, At text tc (after (ofText text) qs) := by
  induction qs using List.reverseRecOn with
  | nil => exact ⟨0, at_ofText text⟩
  | append_singleton qs q ih =>
    obtain ⟨tc, h⟩ := ih
    rw [after_append]
    exact h.serve hsize q

/-- Looking ahead shows the byte at the sum of the cursor and the look-ahead, if that is a word. -/
theorem At.peek_of_lt (h : At text tc s) (hsize : text.length < wordCount)
    (hk : tc + k < wordCount) : (s.peek k).1 = text[tc + k]? := by
  show s.text[addWord s.tracker.offset k]? = _
  rw [h.offset_eq hsize, h.text_eq, addWord_of_lt hk]

/-- If the sum is no word, the byte is one before the cursor. -/
theorem At.peek_of_le (h : At text tc s) (hsize : text.length < wordCount) (hk : k < wordCount)
    (hwrap : wordCount ≤ tc + k) :
    (s.peek k).1 = text[tc + k - wordCount]? ∧ tc + k - wordCount < tc := by
  have hle := h.le_length
  refine ⟨?_, by omega⟩
  show s.text[addWord s.tracker.offset k]? = _
  rw [h.offset_eq hsize, h.text_eq, addWord_of_le hwrap (by omega)]

end Slice

/-! ## Lines and columns -/

/-- Where the last line of a text starts there is the start of the text or the byte behind a line
    feed, and no line feed comes after it. -/
theorem lastLineStart_spec (w : Bytes) : lastLineStart w ≤ w.length ∧
    (lastLineStart w = 0 ∨ w[lastLineStart w - 1]? = some Byte.newline) ∧
    ∀ i, lastLineStart w ≤ i → i < w.length → w[i]? ≠ some Byte.newline := by
  induction w using List.reverseRecOn with
  | nil => exact ⟨Nat.le_refl _, .inl rfl, nofun⟩
  | append_singleton w b ih =>
    obtain ⟨hle, hbehind, hnone⟩ := ih
    rw [List.length_append, List.length_singleton]
    by_cases hb : b = Byte.newline
    · subst hb
      rw [lastLineStart_append_newline]
      exact ⟨Nat.le_refl _, .inr (by simp), fun i hi hlt => absurd hi (Nat.not_le.mpr hlt)⟩
    · rw [lastLineStart_append_of_ne hb]
      refine ⟨Nat.le_succ_of_le hle, hbehind.imp_right fun h => ?_, fun i hi hlt => ?_⟩
      · have hlt := (List.getElem?_eq_some_iff.mp h).1
        rwa [List.getElem?_append_left hlt]
      · rcases Nat.lt_or_eq_of_le (Nat.le_of_lt_succ hlt) with hlt | rfl
        · rw [List.getElem?_append_left hlt]
          exact hnone i hi hlt
        · simpa using hb

/-- A position is that of an offset, counted with numbers of any size: its line is one more than the
    line feeds before the offset, and its column one more than the bytes since its line started. -/
structure Position.Counts (text : Bytes) (offset : Nat) (position : Position) : Prop where
  line : position.line = 1 + (text.take offset).count Byte.newline
  column : ∃ lineStart ≤ offset, (lineStart = 0 ∨ text[lineStart - 1]? = some Byte.newline) ∧
    (∀ i, lineStart ≤ i → i < offset → text[i]? ≠ some Byte.newline) ∧
    position.column = offset - lineStart + 1

variable {text : Bytes} {offset : Nat}

/-- What is counted for an offset, whether or not its column is a word. -/
theorem counts_lastLineStart (text : Bytes) (offset : Nat) : Position.Counts text offset
    ⟨1 + (text.take offset).count Byte.newline, offset - lastLineStart (text.take offset) + 1⟩ := by
  obtain ⟨hle, hbehind, hnone⟩ := lastLineStart_spec (text.take offset)
  have htake : (text.take offset).length ≤ offset := List.length_take_le _ _
  refine ⟨rfl, lastLineStart (text.take offset), hle.trans htake, ?_, fun i hi hlt => ?_, rfl⟩
  · by_cases hzero : lastLineStart (text.take offset) = 0
    · exact .inl hzero
    · rw [← List.getElem?_take_of_lt (show lastLineStart (text.take offset) - 1 < offset by omega)]
      exact .inr (hbehind.resolve_left hzero)
  · rw [← List.getElem?_take_of_lt hlt]
    rcases Nat.lt_or_ge i (text.take offset).length with hin | hout
    · exact hnone i hi hin
    -- Behind the last byte there is no line feed either.
    · rw [List.getElem?_eq_none hout]
      exact nofun

theorem lastLineStart_pos {w : Bytes} (h : Byte.newline ∈ w) : 0 < lastLineStart w := by
  obtain ⟨i, hi, heq⟩ := List.getElem_of_mem h
  by_contra hzero
  refine (lastLineStart_spec w).2.2 i (by omega) hi ?_
  rw [List.getElem?_eq_getElem hi, heq]

theorem lastLineStart_eq_zero {w : Bytes} (h : Byte.newline ∉ w) : lastLineStart w = 0 :=
  (lastLineStart_spec w).2.1.resolve_right fun hbehind => h (List.mem_of_getElem? hbehind)

/-- The position that is found is the one that is counted, unless its column would be the number of
    words. -/
theorem lineColumn_counts (h : offset < maxWord ∨ offset < wordCount ∧
    Byte.newline ∈ text.take offset) : (lineColumn text offset).Counts text offset := by
  have hcolumn : offset - lastLineStart (text.take offset) + 1 < wordCount := by
    rcases h with hlt | ⟨hlt, hfeed⟩
    · rw [lt_maxWord_iff] at hlt
      omega
    · have hpos := lastLineStart_pos hfeed
      have hle : lastLineStart (text.take offset) ≤ offset :=
        (Nat.sub_le _ _).trans (List.length_take_le _ _)
      omega
  rw [lineColumn, addWord_of_lt hcolumn]
  exact counts_lastLineStart text offset

/-- In a single line, the column of the largest word is the number of words, which starts again at
    zero. -/
theorem lineColumn_maxWord (h : Byte.newline ∉ text.take maxWord) :
    Position.Counts text maxWord ⟨1, wordCount⟩ ∧ lineColumn text maxWord = ⟨1, 0⟩ := by
  have hcounts := counts_lastLineStart text maxWord
  have hzero := lastLineStart_eq_zero h
  have hnone := List.count_eq_zero_of_not_mem h
  rw [hzero, hnone] at hcounts
  rw [lineColumn, hzero, hnone]
  exact ⟨hcounts, rfl⟩

/-! ## Trackers -/

namespace Tracker

/-- Seeking any offset comes to the position that is found for it, also where its column is no
    word. -/
theorem position_seek_start (hsize : text.length < maxWord) (n : Nat) :
    (start.seek text n).position = lineColumn text n := by
  rw [lt_maxWord_iff] at hsize
  rcases Nat.le_total n text.length with hle | hle
  · rw [position_seek hle, position_along hle (by omega)]
  -- Past the end all of the text is gone through, and the columns go on.
  · have hoffset : start.offset = 0 := rfl
    have htake : text.take n = text := List.take_of_length_le hle
    obtain ⟨hline, hcolumn⟩ := Position.mk.inj (position_advanceAll_start hsize)
    have hstart : lastLineStart text ≤ text.length := Nat.sub_le _ _
    have hsum : addWord (text.length - lastLineStart text + 1) (n - 0 - text.length) =
        addWord (n - lastLineStart text) 1 := congrArg (· % wordCount) (by omega)
    rw [seek_of_le (Nat.zero_le n), hoffset, text.slice_zero, htake, lineColumn, htake, position,
      hline, hcolumn, hsum]

/-- Wherever it was before, a tracker answers with the positions that are found for the offsets. -/
theorem answers_eq_map_lineColumn (hsize : text.length < maxWord) (offsets : List Nat) :
    start.answers text offsets = offsets.map (lineColumn text) := by
  have hseek : ∀ a, answers text (start.seek text a) offsets = offsets.map (lineColumn text) := by
    induction offsets with
    | nil => exact fun _ => rfl
    | cons n rest ih =>
      intro a
      rw [answers, seek_seek, position_seek_start hsize, ih n, List.map_cons]
  exact hseek 0

end Tracker

/-! ## All of them -/

/-- Where sums of words are exact, for texts that fit into memory. Whatever a text in memory was
    asked for before, looking ahead by a word shows the byte at the sum of the cursor and the word,
    and nothing if that is past the end, as long as the sum is a word. If it is none, looking ahead
    shows a byte before the cursor. The position that is found for an offset is the one that is
    counted, also past the end of the text, but for the largest word in a text that is a single
    line: there the column is zero and not the number of words. A tracker, whichever offsets it was
    asked for before, finds the same positions. -/
theorem word_sums_exact (hsize : text.length < maxWord) :
    (∀ (qs : List ByteSource.Request), ∀ k < wordCount,
      let s := ByteSource.after (Slice.ofText text) qs
      let tc := s.tracker.offset
      tc ≤ text.length ∧
      (tc + k < wordCount → (s.peek k).1 = text[tc + k]?) ∧
      (wordCount ≤ tc + k →
        ∃ i < tc, i = tc + k - wordCount ∧ (s.peek k).1 = text[i]? ∧ text[tc + k]? = none)) ∧
    (∀ offset < wordCount,
      (offset < maxWord ∨ Byte.newline ∈ text → (lineColumn text offset).Counts text offset) ∧
      (offset = maxWord → Byte.newline ∉ text →
        Position.Counts text offset ⟨1, wordCount⟩ ∧ lineColumn text offset = ⟨1, 0⟩)) ∧
    (∀ offsets : List Nat, Tracker.start.answers text offsets = offsets.map (lineColumn text)) := by
  have hword : text.length < wordCount := Nat.lt_of_succ_lt (lt_maxWord_iff.mp hsize)
  refine ⟨fun qs k hk => ?_, fun offset hoffset => ⟨fun h => lineColumn_counts ?_, ?_⟩,
    Tracker.answers_eq_map_lineColumn hsize⟩
  · obtain ⟨tc, hat⟩ := Slice.exists_at_after hword qs
    have hle := hat.le_length
    show (ByteSource.after (Slice.ofText text) qs).tracker.offset ≤ text.length ∧ _
    rw [hat.offset_eq hword]
    refine ⟨hle, hat.peek_of_lt hword, fun hwrap => ?_⟩
    obtain ⟨hpeek, hlt⟩ := hat.peek_of_le hword hk hwrap
    exact ⟨_, hlt, rfl, hpeek, List.getElem?_eq_none (by omega)⟩
  · rcases Nat.lt_or_ge offset maxWord with hlt | hge
    · exact .inl hlt
    · rw [List.take_of_length_le (by omega)]
      exact .inr ⟨hoffset, h.resolve_left (Nat.not_lt.mpr hge)⟩
  · rintro rfl hnone
    exact lineColumn_maxWord fun hmem => hnone (List.mem_of_mem_take hmem)

/-- Behind the first byte of a text the largest word looks at the first byte, and its column in the
    text is zero. -/
theorem word_sums_exact_two_bytes :
    let s := ByteSource.after (Slice.ofText [97, 98]) [.advance 1]
    (s.peek 0).1 = some 98 ∧ (s.peek 1).1 = none ∧ (s.peek maxWord).1 = some 97 ∧
      Position.Counts [97, 98] 5 (lineColumn [97, 98] 5) ∧
      lineColumn [97, 98] maxWord = ⟨1, 0⟩ := by
  intro s
  obtain ⟨hpeek, hposition, -⟩ := @word_sums_exact [97, 98] (by decide)
  have hcursor : s.tracker.offset = 1 := by decide
  have hsmall : ∀ k < 2, (s.peek k).1 = ([97, 98] : Bytes)[s.tracker.offset + k]? := by
    intro k hk
    have hk' : k < wordCount := Nat.lt_trans hk (by decide)
    have hsum : s.tracker.offset + k < wordCount := by
      rw [hcursor]
      exact Nat.lt_trans (Nat.add_lt_add_left hk 1) (by decide)
    exact (hpeek [.advance 1] k hk').2.1 hsum
  obtain ⟨i, -, hi, hwrapped, -⟩ := (hpeek [.advance 1] maxWord (by decide)).2.2 (by decide)
  have hzero : i = 0 := hi.trans (by decide)
  refine ⟨?_, ?_, ?_, (hposition 5 (by decide)).1 (.inl (by decide)), ?_⟩
  · rw [hsmall 0 (by decide), hcursor]
    rfl
  · rw [hsmall 1 (by decide), hcursor]
    rfl
  · rw [hwrapped, hzero]
    rfl
  · exact ((hposition maxWord (by decide)).2 rfl (by decide)).2

/-- Not every look-ahead shows the byte at the exact sum, or nothing if that is past the end. -/
theorem not_peek_exact : ¬ ∀ (text : Bytes) (qs : List ByteSource.Request), ∀ k < wordCount,
    let s := ByteSource.after (Slice.ofText text) qs
    (s.peek k).1 = text[s.tracker.offset + k]? := by
  intro h
  have hpeek := h [97, 98] [.advance 1] maxWord (by decide)
  revert hpeek
  decide

end Munch

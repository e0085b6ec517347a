import Munch.Program.Listing
import Munch.Proofs.Built

set_option autoImplicit false

/-! # Programs can be read back

The text of a program is a line for each instruction, and a line is words with spaces between them:
a name and decimal numerals. Each level of the reader undoes one level of the writer: numerals are
read back (`Text.readNumeral_toDigits`), words and lines are separated where they were joined
(`Text.words_join`, `Text.lines_join`), and an instruction is read from the words of its line
(`Program.readInst_line`). So the instructions of any program are read back
(`Program.readInsts_serialize`). The reader accepts them as a program if they are a valid one
(`Program.Valid.read_serialize`), and refuses them if control falls off their end
(`Program.FallsOff.read_serialize`). Every program that is generated, made deterministic or read is
one or the other (`Program.read_serialize_of_built`). -/

namespace Munch

namespace Text

/-! ## Numerals -/

theorem le_ofDigitChars (cs : List Char) (acc : Nat) : acc ≤ Nat.ofDigitChars 10 cs acc := by
  induction cs generalizing acc with
  | nil => exact Nat.le_refl acc
  | cons c cs ih =>
    rw [Nat.ofDigitChars_cons]
    exact Nat.le_trans (by omega) (ih _)

/-- Digits are read as the number that they stand for. It does not shrink with a digit, so it is
    within the limit all along if it is in the end. -/
theorem readDigits_eq_ok {limit acc : Nat} {cs : List Char} (hdigits : ∀ c ∈ cs, c.isDigit = true)
    (hlimit : Nat.ofDigitChars 10 cs acc ≤ limit) :
    readDigits limit acc cs = .ok (Nat.ofDigitChars 10 cs acc) := by
  induction cs generalizing acc with
  | nil => rfl
  | cons c cs ih =>
    rw [Nat.ofDigitChars_cons, Nat.mul_comm] at hlimit ⊢
    have hle : acc * 10 + (c.toNat - 48) ≤ limit := Nat.le_trans (le_ofDigitChars cs _) hlimit
    rw [readDigits, hdigits c List.mem_cons_self, if_neg (by decide), if_neg (Nat.not_lt.mpr hle)]
    exact ih (fun d hd => hdigits d (List.mem_cons_of_mem c hd)) hlimit

theorem isDigit_of_mem_toDigits {n : Nat} {c : Char} (hc : c ∈ Nat.toDigits 10 n) :
    c.isDigit = true :=
  Nat.isDigit_of_mem_toDigits (by decide) (by decide) hc

/-- A number within the limit is read back from its decimal digits. -/
theorem readNumeral_toDigits {limit n : Nat} (h : n ≤ limit) :
    readNumeral limit (Nat.toDigits 10 n) = .ok n := by
  have hplus : '+' ∉ Nat.toDigits 10 n :=
    fun hmem => absurd (isDigit_of_mem_toDigits hmem) (by decide)
  unfold readNumeral
  split
  · next hnil => exact absurd hnil Nat.toDigits_ne_nil
  · next hsign => exact absurd (hsign ▸ List.mem_cons_self) hplus
  · next hsign => exact absurd (hsign ▸ List.mem_cons_self) hplus
  · rw [readDigits_eq_ok (fun c => isDigit_of_mem_toDigits)
      (by rwa [Nat.ofDigitChars_ten_toDigits]), Nat.ofDigitChars_ten_toDigits]

/-! ## Words -/

/-- Characters that make a word. -/
def IsWord (w : List Char) : Prop := w ≠ [] ∧ ∀ c ∈ w, isBlank c = false

theorem IsWord.newline_not_mem {w : List Char} (hw : IsWord w) : '\n' ∉ w := fun hmem => by
  have hblank := hw.2 _ hmem
  exact absurd hblank (by decide)

theorem isBlank_of_isDigit {c : Char} (h : c.isDigit = true) : isBlank c = false := by
  simp only [Char.isDigit, Bool.and_eq_true, decide_eq_true_eq, ge_iff_le,
    UInt32.le_iff_toNat_le] at h
  have hlo : 48 ≤ c.toNat := h.1
  have hhi : c.toNat ≤ 57 := h.2
  simp only [isBlank, blankRanges, List.any_eq_false, List.mem_cons,
    Bool.and_eq_true, decide_eq_true_eq]
  rintro r (rfl | rfl | rfl | rfl | rfl | rfl | rfl | rfl | rfl | rfl | hr)
  all_goals first | omega | exact absurd hr List.not_mem_nil

theorem isWord_toDigits (n : Nat) : IsWord (Nat.toDigits 10 n) :=
  ⟨Nat.toDigits_ne_nil, fun _ hc => isBlank_of_isDigit (isDigit_of_mem_toDigits hc)⟩

/-- A word is the first one of a text if a blank follows it or nothing. -/
theorem words_append {w rest : List Char} (hw : IsWord w)
    (hrest : ∀ c ∈ rest.head?, isBlank c = true) : words (w ++ rest) = w :: words rest := by
  obtain ⟨hne, hw⟩ := hw
  induction w with
  | nil => exact absurd rfl hne
  | cons c w ih =>
    obtain ⟨hc, hw⟩ := List.forall_mem_cons.mp hw
    rw [List.cons_append, words.eq_def]
    simp only [hc, Bool.false_eq_true, if_false]
    cases w with
    | nil =>
      cases rest with
      | nil => rfl
      | cons d rest =>
        have hd : isBlank d = true := hrest d rfl
        rw [List.nil_append]
        cases words (d :: rest) with
        | nil => rfl
        | cons w ws => exact if_pos hd
    | cons d w =>
      have hd : ¬ isBlank d = true := by simp [hw d List.mem_cons_self]
      rw [ih (List.cons_ne_nil d w) hw]
      exact if_neg hd

/-- Words with spaces between them are found again. -/
theorem words_join {w : List Char} {ws : List (List Char)} (hw : IsWord w)
    (hws : ∀ v ∈ ws, IsWord v) : words (w ++ ws.flatMap (' ' :: ·)) = w :: ws := by
  have hspace : isBlank ' ' = true := by decide
  induction ws generalizing w with
  | nil =>
    rw [List.flatMap_nil, words_append hw (by simp)]
    rfl
  | cons v ws ih =>
    obtain ⟨hv, hws⟩ := List.forall_mem_cons.mp hws
    rw [List.flatMap_cons, List.cons_append, words_append hw (by simpa using hspace), words.eq_def]
    simp only [hspace, if_true]
    rw [ih hv hws]

/-! ## Lines -/

theorem lines_append {l rest : List Char} (hl : '\n' ∉ l) :
    lines (l ++ '\n' :: rest) = l :: lines rest := by
  induction l with
  | nil => rfl
  | cons c l ih =>
    obtain ⟨hc, hl⟩ := not_or.mp (mt List.mem_cons.mpr hl)
    rw [List.cons_append, lines, if_neg (Ne.symm hc), ih hl]

/-- Lines with line feeds behind them are found again, and an empty line behind the last one. -/
theorem lines_join {ls : List (List Char)} (hls : ∀ l ∈ ls, '\n' ∉ l) :
    lines (ls.flatMap (· ++ ['\n'])) = ls ++ [[]] := by
  induction ls with
  | nil => rfl
  | cons l ls ih =>
    obtain ⟨hl, hls⟩ := List.forall_mem_cons.mp hls
    rw [List.flatMap_cons, List.append_assoc, List.singleton_append, lines_append hl,
      ih hls, List.cons_append]

end Text

/-! ## Instructions -/

namespace Op

theorem isWord_name (i : Inst) : Text.IsWord i.name.toList := by
  cases i <;> exact ⟨by simp [name], by simp [name]; decide⟩

/-- The words of an instruction are its name and its operands. -/
theorem toList_line (i : Inst) :
    i.line.toList = i.name.toList ++ (i.operands.map (Nat.toDigits 10)).flatMap (' ' :: ·) := by
  rw [line, String.toList_append, String.toList_join, List.flatMap_map, List.flatMap_map]
  simp only [String.toList_append, Nat.toString_eq_ofList_toDigits, String.toList_ofList]
  rfl

theorem words_line (i : Inst) :
    Text.words i.line.toList = i.name.toList :: i.operands.map (Nat.toDigits 10) := by
  rw [toList_line]
  refine Text.words_join i.isWord_name fun w hw => ?_
  obtain ⟨n, -, rfl⟩ := List.mem_map.mp hw
  exact Text.isWord_toDigits n

theorem newline_not_mem_line (i : Inst) : '\n' ∉ i.line.toList := by
  rw [toList_line]
  intro hmem
  rcases List.mem_append.mp hmem with hmem | hmem
  · exact i.isWord_name.newline_not_mem hmem
  · obtain ⟨w, hw, hmem⟩ := List.mem_flatMap.mp hmem
    obtain ⟨n, -, rfl⟩ := List.mem_map.mp hw
    rcases List.mem_cons.mp hmem with heq | hmem
    · exact absurd heq (by decide)
    · exact (Text.isWord_toDigits n).newline_not_mem hmem

end Op

namespace Program

variable {p : Program}

theorem readOperands_toDigits {line limit : Nat} {op : String} {ns : List Nat}
    (h : ∀ n ∈ ns, n ≤ limit) :
    readOperands line op ns.length limit (ns.map (Nat.toDigits 10)) = .ok ns := by
  rw [readOperands, List.length_map, if_neg (not_not_intro rfl), List.mapM_map]
  refine (mapM_eq_ok_map (g := id) fun n hn => ?_).trans (congrArg Except.ok ns.map_id)
  simp only [Function.comp, Text.readNumeral_toDigits (h n hn)]
  rfl

theorem readRange_toDigits (line : Nat) (op : String) (r : ByteRange) :
    readRange line op ([r.lo.toNat, r.hi.toNat].map (Nat.toDigits 10)) = .ok r := by
  have hbounds : ∀ n ∈ [r.lo.toNat, r.hi.toNat], n ≤ 255 := by
    have := r.lo.toNat_lt
    have := r.hi.toNat_lt
    simp only [List.mem_cons, List.not_mem_nil, or_false, forall_eq_or_imp, forall_eq]
    omega
  have hoperands : readOperands line op 2 255 ([r.lo.toNat, r.hi.toNat].map (Nat.toDigits 10)) =
      _ :=
    readOperands_toDigits hbounds
  rw [readRange, hoperands]
  simp only [bind, Except.bind, UInt8.ofNat_toNat, dif_pos r.lo_le_hi]
  rfl

/-- An instruction is read from the words of its line, if its operands are words of 64 bits. -/
theorem readInst_line {line : Nat} {i : Inst} (h : ∀ n ∈ i.operands, n ≤ maxWord) :
    readInst line i.name (i.operands.map (Nat.toDigits 10)) = .ok i := by
  cases i with
  | consume r =>
    rw [Op.name, Op.operands, readInst, if_pos rfl, readRange_toDigits]
    rfl
  | branch r =>
    rw [Op.name, Op.operands, readInst, if_neg (by decide), if_pos rfl, readRange_toDigits]
    rfl
  | split x y =>
    have hoperands : readOperands line "SPLIT" 2 maxWord ([x, y].map (Nat.toDigits 10)) = _ :=
      readOperands_toDigits h
    rw [Op.name, Op.operands, readInst, if_neg (by decide), if_neg (by decide),
      if_pos rfl, hoperands]
    rfl
  | jump x =>
    have hoperands : readOperands line "JMP" 1 maxWord ([x].map (Nat.toDigits 10)) = _ :=
      readOperands_toDigits h
    rw [Op.name, Op.operands, readInst, if_neg (by decide), if_neg (by decide),
      if_neg (by decide), if_pos rfl, hoperands]
    rfl
  | accept id =>
    have hoperands : readOperands line "MATCH" 1 maxWord ([id].map (Nat.toDigits 10)) = _ :=
      readOperands_toDigits h
    rw [Op.name, Op.operands, readInst, if_neg (by decide), if_neg (by decide), if_neg (by decide),
      if_neg (by decide), if_pos rfl, hoperands]
    rfl
  | fail => rfl

/-! ## Programs -/

theorem toList_serialize (p : Program) :
    p.serialize.toList = (p.insts.toList.map fun i => i.line.toList).flatMap (· ++ ['\n']) := by
  rw [serialize, String.toList_join, List.flatMap_map, List.flatMap_map]
  simp only [String.toList_append]
  rfl

/-- The lines of the text of a program are its instructions. -/
theorem instructionLines_serialize (p : Program) : instructionLines p.serialize =
    p.insts.toList.zipIdx.map fun e =>
      (e.2 + 1, e.1.name.toList, e.1.operands.map (Nat.toDigits 10)) := by
  have hlines : ∀ l ∈ p.insts.toList.map fun i => i.line.toList, '\n' ∉ l := fun l hl => by
    obtain ⟨i, -, rfl⟩ := List.mem_map.mp hl
    exact i.newline_not_mem_line
  rw [instructionLines, toList_serialize, Text.lines_join hlines, List.zipIdx_append,
    List.filterMap_append, List.zipIdx_map, List.filterMap_map]
  -- The empty line behind the last line feed is blank.
  refine (List.append_nil _).trans ?_
  rw [← List.filterMap_eq_map]
  congr 1
  funext e
  simp only [Function.comp, Prod.map, Op.words_line]
  rfl

/-- All operands of a program are words of 64 bits. -/
def Encodable (p : Program) : Prop := ∀ i ∈ p.insts, ∀ n ∈ i.operands, n ≤ maxWord

instance (p : Program) : Decidable p.Encodable :=
  inferInstanceAs (Decidable (∀ i ∈ p.insts, ∀ n ∈ i.operands, n ≤ maxWord))

/-- The instructions of a program are read back from its text. -/
theorem readInsts_serialize (hp : p.Encodable) :
    readInsts p.serialize = .ok (p.insts.toList.zipIdx.map fun e => (e.2 + 1, e.1)) := by
  rw [readInsts, instructionLines_serialize, List.mapM_map]
  refine mapM_eq_ok_map fun e he => ?_
  have hmem : e.1 ∈ p.insts := Array.mem_toList_iff.mp (List.fst_mem_of_mem_zipIdx he)
  simp only [Function.comp, String.ofList_toList, readInst_line (hp e.1 hmem)]
  rfl

/-- A valid program is read back from its text. -/
theorem Valid.read_serialize (hp : p.Valid) (hwords : p.Encodable) :
    Program.read p.serialize = .ok p := by
  refine read_eq_ok_iff.mpr ⟨hp, _, readInsts_serialize hwords, ?_⟩
  rw [List.map_map]
  exact List.zipIdx_map_fst 0 _

/-- A program is refused if control falls off its end. -/
theorem FallsOff.read_serialize (hp : p.FallsOff) (hwords : p.Encodable) :
    Program.read p.serialize = .error .fallsOffEnd := by
  obtain ⟨i, hi, hfalls⟩ := hp
  have hprogram : (⟨((p.insts.toList.zipIdx.map fun e => (e.2 + 1, e.1)).map (·.2)).toArray⟩ :
      Program) = p := by
    rw [List.map_map]
    exact congrArg (fun insts : List Inst => (⟨insts.toArray⟩ : Program)) (List.zipIdx_map_fst 0 _)
  obtain ⟨line, hlast⟩ : ∃ line, (p.insts.toList.zipIdx.map fun e => (e.2 + 1, e.1)).getLast? =
      some (line, i) := by
    rw [List.getLast?_map, List.getLast?_zipIdx, Array.getLast?_toList, hi]
    exact ⟨_, rfl⟩
  unfold Program.read
  simp only [readInsts_serialize hwords, bind, Except.bind, hprogram, hlast, hfalls, if_true]
  rfl

/-- Reading the text of a program gives the same program back, however it came about, unless control
    falls off its end. If it does, the program is made of `accept`s alone, and its text is refused.
    Control does not fall off the end of a program that was read, of that of a pattern set, and of a
    deterministic one that was made of one that was not. -/
theorem read_serialize_of_built (hp : p.Built) (hwords : p.Encodable) :
    (¬ p.FallsOff → Program.read p.serialize = .ok p) ∧
      (p.FallsOff → (∀ i ∈ p.insts, ∃ n, i = .accept n) ∧
        Program.read p.serialize = .error .fallsOffEnd) ∧
      ((∃ text, Program.read text = .ok p) ∨
        (∃ re : Regex, re.IsPatternSet ∧ Program.ofRegex re = .ok p) ∨
        (∃ q : Program, q.isDeterministic = false ∧ p = q.toDeterministic) → ¬ p.FallsOff) := by
  refine ⟨fun hfalls => (hp.valid hfalls).read_serialize hwords,
    fun hfalls => ⟨hp.accepts hfalls, hfalls.read_serialize hwords⟩, ?_⟩
  rintro (⟨text, hread⟩ | ⟨re, hre, hgenerated⟩ | ⟨q, hdet, rfl⟩)
  · exact (valid_of_read hread).not_fallsOff
  · exact (valid_of_isPatternSet hre hgenerated).not_fallsOff
  · exact (valid_toDeterministic fun hd => absurd hd (by simp [hdet])).not_fallsOff

/-- A text with signs, leading zeros and an empty line, of a program with the largest pattern
    number, and the text that is written for it. -/
theorem read_serialize_of_built_largest_number :
    let p : Program := ⟨#[.split 1 3, .consume .full, .jump 0, .accept maxWord]⟩
    Program.read "SPLIT +1 3\n\n CHAR 000 255\nJMP 0\nMATCH 18446744073709551615" = .ok p ∧
      p.Encodable ∧
      p.serialize = "SPLIT 1 3\nCHAR 0 255\nJMP 0\nMATCH 18446744073709551615\n" ∧
      Program.read p.serialize = .ok p := by
  intro p
  have hread : Program.read "SPLIT +1 3\n\n CHAR 000 255\nJMP 0\nMATCH 18446744073709551615" =
      .ok p := by decide +kernel
  have hwords : p.Encodable := by decide
  have hsame := (read_serialize_of_built (.read hread) hwords).1 (valid_of_read hread).not_fallsOff
  exact ⟨hread, hwords, by decide +kernel, hsame⟩

/-- Not every deterministic program is read back from its text: one that was generated for a pattern
    inside of a pattern is its own deterministic program, and control falls off its end. -/
theorem not_read_serialize_toDeterministic :
    ¬ ∀ p : Program, p.Built → p.toDeterministic.Encodable →
    Program.read p.toDeterministic.serialize = .ok p.toDeterministic := by
  intro h
  have hself : Program.toDeterministic ⟨#[.accept 0, .accept 1]⟩ = ⟨#[.accept 0, .accept 1]⟩ :=
    if_pos (by decide +kernel)
  have hread := h _ (.generated ofRegex_pattern_pattern_finish)
  rw [hself] at hread
  have hrefused : Program.read (serialize ⟨#[.accept 0, .accept 1]⟩) = .error .fallsOffEnd := by
    decide +kernel
  rw [hrefused] at hread
  cases hread (by decide)

end Program

end Munch

import Munch.Program.Listing
import Munch.Proofs.RoundTrip

set_option autoImplicit false

/-! # Texts of programs

What a text says is told here without reading it. A numeral is one or more decimal digits, with or
without a plus sign (`Text.Numeral`), words are what blanks separate (`Text.words_eq_splitOnP`), and
lines are what line feeds separate (`Text.lines_eq_splitOn`). A line spells an instruction if its
words are the name of the instruction and numerals of its operands (`Op.SpelledBy`), and a text
spells numbered instructions if its lines that are not blank, counted with the blank ones, do
(`Program.Spells`).

The reader reads exactly that: an instruction from the words that spell it
(`Program.readInst_eq_ok_iff`), and the instructions from a text that spells them
(`Program.readInsts_eq_ok_iff`). -/

namespace Munch

/-- Steps that succeed for each member of a list relate the members to the results. -/
theorem mapM_eq_ok_iff {ε α β : Type} {f : α → Except ε β} {xs : List α} {ys : List β} :
    xs.mapM f = .ok ys ↔ List.Forall₂ (fun x y => f x = .ok y) xs ys := by
  induction xs generalizing ys with
  | nil =>
    rw [List.mapM_nil, List.forall₂_nil_left_iff]
    exact ⟨fun h => (Except.ok.inj h).symm, fun h => congrArg Except.ok h.symm⟩
  | cons x xs ih =>
    rw [List.mapM_cons, List.forall₂_cons_left_iff]
    cases hx : f x with
    | error e => simp [bind, Except.bind]
    | ok y =>
      simp only [← ih]
      cases hxs : xs.mapM f with
      | error e => simp [bind, Except.bind]
      | ok zs => simp [bind, Except.bind, pure, Except.pure, eq_comm]

namespace Text

/-! ## Numerals -/

/-- A word that says a number: decimal digits, with or without a plus sign. -/
def Numeral (w : List Char) (n : Nat) : Prop :=
  ∃ digits, (w = digits ∨ w = '+' :: digits) ∧ digits ≠ [] ∧ (∀ c ∈ digits, c.isDigit = true) ∧
    Nat.ofDigitChars 10 digits 0 = n

theorem readDigits_eq_ok_iff {limit acc n : Nat} {cs : List Char} (hacc : acc ≤ limit) :
    readDigits limit acc cs = .ok n ↔
      ((∀ c ∈ cs, c.isDigit = true) ∧ Nat.ofDigitChars 10 cs acc = n) ∧ n ≤ limit := by
  constructor
  · intro h
    induction cs generalizing acc with
    | nil =>
      obtain rfl := Except.ok.inj h
      exact ⟨⟨List.forall_mem_nil _, rfl⟩, hacc⟩
    | cons c cs ih =>
      rw [readDigits] at h
      split at h
      · cases h
      · next hdigit =>
        split at h
        · cases h
        · next hle =>
          obtain ⟨⟨hdigits, hvalue⟩, hn⟩ := ih (Nat.le_of_not_lt hle) h
          refine ⟨⟨List.forall_mem_cons.mpr ⟨by simpa using hdigit, hdigits⟩, ?_⟩, hn⟩
          rwa [Nat.ofDigitChars_cons, Nat.mul_comm]
  · rintro ⟨⟨hdigits, rfl⟩, hn⟩
    exact readDigits_eq_ok hdigits hn

/-- The reader reads the numerals of the numbers up to a limit. -/
theorem readNumeral_eq_ok_iff {limit n : Nat} {w : List Char} :
    readNumeral limit w = .ok n ↔ Numeral w n ∧ n ≤ limit := by
  have hplus : ∀ {cs : List Char}, ¬ ∀ c ∈ '+' :: cs, c.isDigit = true :=
    fun h => absurd (h '+' List.mem_cons_self) (by decide)
  unfold readNumeral
  split
  · constructor
    · exact nofun
    · rintro ⟨⟨digits, rfl | h, hne, -⟩, -⟩
      · exact absurd rfl hne
      · cases h
  · constructor
    · exact nofun
    -- A sign alone is no numeral: it is no digit, and no digits follow it.
    · rintro ⟨⟨digits, rfl | h, hne, hdigits, -⟩, -⟩
      · exact absurd hdigits hplus
      · exact absurd (List.cons.inj h).2.symm hne
  · next rest hrest =>
    rw [readDigits_eq_ok_iff (Nat.zero_le limit)]
    constructor
    · rintro ⟨⟨hdigits, hvalue⟩, hn⟩
      exact ⟨⟨rest, .inr rfl, fun hnil => hrest (by rw [hnil]), hdigits, hvalue⟩, hn⟩
    · rintro ⟨⟨digits, rfl | h, -, hdigits, hvalue⟩, hn⟩
      · exact absurd hdigits hplus
      · obtain rfl := (List.cons.inj h).2
        exact ⟨⟨hdigits, hvalue⟩, hn⟩
  · next hnil _ hsign =>
    rw [readDigits_eq_ok_iff (Nat.zero_le limit)]
    constructor
    · rintro ⟨⟨hdigits, hvalue⟩, hn⟩
      exact ⟨⟨w, .inl rfl, hnil, hdigits, hvalue⟩, hn⟩
    · rintro ⟨⟨digits, rfl | rfl, -, hdigits, hvalue⟩, hn⟩
      · exact ⟨⟨hdigits, hvalue⟩, hn⟩
      · exact absurd rfl (hsign digits)

/-! ## Words and lines -/

/-- Lines are what line feeds separate. -/
theorem lines_eq_splitOn (cs : List Char) : lines cs = cs.splitOn '\n' := by
  induction cs with
  | nil => rfl
  | cons c cs ih =>
    rw [lines, ih, List.splitOn, List.splitOn, List.splitOnP_cons_eq_if_modifyHead]
    by_cases hc : c = '\n'
    · simp [hc]
    · rw [if_neg hc, if_neg (by simpa using hc)]
      cases h : cs.splitOnP (· == '\n') with
      | nil => exact absurd h (List.splitOnP_ne_nil _ cs)
      | cons l ls => rfl

/-- Words are what blanks separate, where it is not empty. -/
theorem words_eq_splitOnP (cs : List Char) : words cs = (cs.splitOnP isBlank).filter (· ≠ []) := by
  induction cs with
  | nil => rfl
  | cons c cs ih =>
    rw [words.eq_def, List.splitOnP_cons_eq_if_modifyHead]
    by_cases hc : isBlank c = true
    · simp [hc, ih]
    simp only [hc, Bool.false_eq_true, if_false]
    cases cs with
    | nil => rfl
    | cons d cs =>
      rw [ih, List.splitOnP_cons_eq_if_modifyHead]
      by_cases hd : isBlank d = true
      -- The word ends with `c`.
      · simp only [hd, if_true, List.modifyHead_cons]
        rw [List.filter_cons_of_neg (by simp), List.filter_cons_of_pos (by simp)]
        cases (cs.splitOnP isBlank).filter (· ≠ []) with
        | nil => rfl
        | cons w ws => exact if_pos hd
      · simp only [hd, Bool.false_eq_true, if_false]
        cases h : cs.splitOnP isBlank with
        | nil => exact absurd h (List.splitOnP_ne_nil _ cs)
        | cons w ws => simp [hd]

/-- There are words in a text if it is not blank. -/
theorem words_eq_nil_iff {cs : List Char} : words cs = [] ↔ ∀ c ∈ cs, isBlank c = true := by
  induction cs with
  | nil => exact ⟨fun _ => List.forall_mem_nil _, fun _ => rfl⟩
  | cons c cs ih =>
    rw [List.forall_mem_cons, words.eq_def]
    by_cases hc : isBlank c = true
    · simp only [hc, if_true, ih, true_and]
    · simp only [hc, Bool.false_eq_true, if_false, false_and, iff_false]
      split
      · split <;> exact List.cons_ne_nil _ _
      · exact List.cons_ne_nil _ _

end Text

/-! ## Instructions -/

/-- The words of a line say the name of an instruction and its operands, which are words of 64
    bits. -/
def Op.SpelledBy (i : Inst) (line : List Char) : Prop :=
  ∃ args, (line.splitOnP Text.isBlank).filter (· ≠ []) = i.name.toList :: args ∧
    List.Forall₂ Text.Numeral args i.operands ∧ ∀ n ∈ i.operands, n ≤ maxWord

namespace Program

variable {line count limit n : Nat} {op : String} {args : List (List Char)} {ns : List Nat}
    {r : ByteRange} {i : Inst}

theorem map_eq_ok_iff {ε α β : Type} {m : Except ε α} {f : α → β} {b : β} :
    (do return f (← m)) = Except.ok b ↔ ∃ a, m = .ok a ∧ f a = b := by
  cases m <;> simp [bind, Except.bind, pure, Except.pure]

theorem mapError_eq_ok_iff {ε ε' α : Type} {m : Except ε α} {f : ε → ε'} {a : α} :
    m.mapError f = .ok a ↔ m = .ok a := by
  cases m <;> simp [Except.mapError]

theorem forall₂_and_right {α β : Type} {R : α → β → Prop} {P : β → Prop}
    {xs : List α} {ys : List β} :
    List.Forall₂ (fun x y => R x y ∧ P y) xs ys ↔ List.Forall₂ R xs ys ∧ ∀ y ∈ ys, P y := by
  constructor
  · intro h
    induction h with
    | nil => exact ⟨.nil, List.forall_mem_nil _⟩
    | cons h _ ih => exact ⟨.cons h.1 ih.1, List.forall_mem_cons.mpr ⟨h.2, ih.2⟩⟩
  · rintro ⟨h, hP⟩
    induction h with
    | nil => exact .nil
    | cons h _ ih =>
      obtain ⟨hy, hP⟩ := List.forall_mem_cons.mp hP
      exact .cons ⟨h, hy⟩ (ih hP)

theorem readOperands_eq_ok_iff : readOperands line op count limit args = .ok ns ↔
    args.length = count ∧ List.Forall₂ Text.Numeral args ns ∧ ∀ n ∈ ns, n ≤ limit := by
  unfold readOperands
  split
  · next hcount => exact ⟨nofun, fun h => absurd h.1 hcount⟩
  · next hcount =>
    simp only [mapM_eq_ok_iff, mapError_eq_ok_iff, Text.readNumeral_eq_ok_iff, forall₂_and_right]
    rw [and_iff_right (not_not.mp hcount)]

/-- As many operands are read as are asked for. -/
theorem length_of_readOperands (h : readOperands line op count limit args = .ok ns) :
    ns.length = count := by
  obtain ⟨hcount, hargs, -⟩ := readOperands_eq_ok_iff.mp h
  exact hargs.length_eq.symm.trans hcount

theorem le_255_of_mem_range (n : Nat) (hn : n ∈ [r.lo.toNat, r.hi.toNat]) : n ≤ 255 := by
  have := r.lo.toNat_lt
  have := r.hi.toNat_lt
  simp only [List.mem_cons, List.not_mem_nil, or_false] at hn
  omega

theorem readRange_eq_ok_iff : readRange line op args = .ok r ↔
    List.Forall₂ Text.Numeral args [r.lo.toNat, r.hi.toNat] := by
  constructor
  · intro h
    unfold readRange at h
    cases hoperands : readOperands line op 2 255 args with
    | error e => simp [hoperands, bind, Except.bind] at h
    | ok ns =>
      obtain ⟨lo, hi, rfl⟩ := List.length_eq_two.mp (length_of_readOperands hoperands)
      obtain ⟨-, hargs, hle⟩ := readOperands_eq_ok_iff.mp hoperands
      simp only [hoperands, bind, Except.bind] at h
      split at h
      · obtain rfl := Except.ok.inj h
        have hlo := hle lo (by simp)
        have hhi := hle hi (by simp)
        simpa [UInt8.toNat_ofNat_of_lt' (Nat.lt_succ_of_le hlo),
          UInt8.toNat_ofNat_of_lt' (Nat.lt_succ_of_le hhi)] using hargs
      · cases h
  · intro h
    have hoperands : readOperands line op 2 255 args = .ok [r.lo.toNat, r.hi.toNat] :=
      readOperands_eq_ok_iff.mpr ⟨h.length_eq, h, le_255_of_mem_range⟩
    rw [readRange, hoperands]
    simp only [bind, Except.bind, UInt8.ofNat_toNat, dif_pos r.lo_le_hi]
    rfl

theorem le_maxWord_of_mem_range (n : Nat) (hn : n ∈ [r.lo.toNat, r.hi.toNat]) : n ≤ maxWord :=
  Nat.le_trans (le_255_of_mem_range n hn) (by decide)

/-- What is made of operands that are read. -/
theorem of_readOperands_bind {f : List Nat → Except ReadError Inst}
    (h : (readOperands line op count maxWord args >>= f) = .ok i) : ∃ ns,
      ns.length = count ∧ f ns = .ok i ∧ List.Forall₂ Text.Numeral args ns ∧
      ∀ n ∈ ns, n ≤ maxWord := by
  cases hoperands : readOperands line op count maxWord args with
  | error e =>
    rw [hoperands] at h
    cases h
  | ok ns =>
    rw [hoperands] at h
    exact ⟨ns, length_of_readOperands hoperands, h, (readOperands_eq_ok_iff.mp hoperands).2⟩

/-- Words that are read as an instruction say its name first, then its operands. -/
theorem of_readInst_eq_ok (h : readInst line op args = .ok i) :
    op = i.name ∧ List.Forall₂ Text.Numeral args i.operands ∧ ∀ n ∈ i.operands, n ≤ maxWord := by
  rw [readInst] at h
  split at h
  · next hop =>
    obtain ⟨r, hr, rfl⟩ := map_eq_ok_iff.mp h
    exact ⟨hop, readRange_eq_ok_iff.mp hr, le_maxWord_of_mem_range⟩
  split at h
  · next hop =>
    obtain ⟨r, hr, rfl⟩ := map_eq_ok_iff.mp h
    exact ⟨hop, readRange_eq_ok_iff.mp hr, le_maxWord_of_mem_range⟩
  split at h
  · next hop =>
    obtain ⟨ns, hlength, hns, hargs⟩ := of_readOperands_bind h
    obtain ⟨x, y, rfl⟩ := List.length_eq_two.mp hlength
    obtain rfl := Except.ok.inj hns
    exact ⟨hop, hargs⟩
  split at h
  · next hop =>
    obtain ⟨ns, hlength, hns, hargs⟩ := of_readOperands_bind h
    obtain ⟨x, rfl⟩ := List.length_eq_one_iff.mp hlength
    obtain rfl := Except.ok.inj hns
    exact ⟨hop, hargs⟩
  split at h
  · next hop =>
    obtain ⟨ns, hlength, hns, hargs⟩ := of_readOperands_bind h
    obtain ⟨x, rfl⟩ := List.length_eq_one_iff.mp hlength
    obtain rfl := Except.ok.inj hns
    exact ⟨hop, hargs⟩
  split at h
  · next hop =>
    obtain ⟨ns, hlength, hns, hargs⟩ := of_readOperands_bind h
    obtain rfl := List.length_eq_zero_iff.mp hlength
    obtain rfl := Except.ok.inj hns
    exact ⟨hop, hargs⟩
  · cases h

/-- The words of an instruction are read as that instruction. -/
theorem readInst_name (hargs : List.Forall₂ Text.Numeral args i.operands)
    (hle : ∀ n ∈ i.operands, n ≤ maxWord) : readInst line i.name args = .ok i := by
  have hoperands : ∀ op, readOperands line op i.operands.length maxWord args = .ok i.operands :=
    fun op => readOperands_eq_ok_iff.mpr ⟨hargs.length_eq, hargs, hle⟩
  cases i with
  | consume r =>
    rw [Op.name, readInst, if_pos rfl, readRange_eq_ok_iff.mpr hargs]
    rfl
  | branch r =>
    rw [Op.name, readInst, if_neg (by decide), if_pos rfl, readRange_eq_ok_iff.mpr hargs]
    rfl
  | split x y =>
    have hoperands : readOperands line "SPLIT" 2 maxWord args = .ok [x, y] := hoperands _
    rw [Op.name, readInst, if_neg (by decide), if_neg (by decide), if_pos rfl, hoperands]
    rfl
  | jump x =>
    have hoperands : readOperands line "JMP" 1 maxWord args = .ok [x] := hoperands _
    rw [Op.name, readInst, if_neg (by decide), if_neg (by decide), if_neg (by decide),
      if_pos rfl, hoperands]
    rfl
  | accept id =>
    have hoperands : readOperands line "MATCH" 1 maxWord args = .ok [id] := hoperands _
    rw [Op.name, readInst, if_neg (by decide), if_neg (by decide),
      if_neg (by decide), if_neg (by decide), if_pos rfl, hoperands]
    rfl
  | fail =>
    have hoperands : readOperands line "FAIL" 0 maxWord args = .ok [] := hoperands _
    rw [Op.name, readInst, if_neg (by decide), if_neg (by decide),
      if_neg (by decide), if_neg (by decide), if_neg (by decide), if_pos rfl, hoperands]
    rfl

/-- An instruction is read from the words that say its name and its operands. -/
theorem readInst_eq_ok_iff : readInst line op args = .ok i ↔
    op = i.name ∧ List.Forall₂ Text.Numeral args i.operands ∧ ∀ n ∈ i.operands, n ≤ maxWord := by
  refine ⟨of_readInst_eq_ok, ?_⟩
  rintro ⟨rfl, hargs, hle⟩
  exact readInst_name hargs hle

/-! ## Texts -/

/-- The lines of a text, each with its number from one, without those that are blank. -/
def writtenLines (s : String) : List (Nat × List Char) :=
  ((s.toList.splitOn '\n').zipIdx.map fun e => (e.2 + 1, e.1)).filter fun e =>
    e.2.any (!Text.isBlank ·)

/-- The lines of a text that are not blank spell instructions, each of which is given with the
    number of its line. -/
def Spells (s : String) (lines : List (Nat × Inst)) : Prop :=
  List.Forall₂ (fun written line => written.1 = line.1 ∧ line.2.SpelledBy written.2)
    (writtenLines s) lines

variable {s : String} {lines : List (Nat × Inst)}

/-- Read the instruction on a line. -/
def readLine (written : Nat × List Char) : Except ReadError (Nat × Inst) := do
  let words := Text.words written.2
  return (written.1, ← readInst written.1 (String.ofList (words.headD [])) words.tail)

theorem readLine_eq_ok_iff {written : Nat × List Char} {e : Nat × Inst} :
    readLine written = .ok e ↔ written.1 = e.1 ∧ e.2.SpelledBy written.2 := by
  obtain ⟨k, text⟩ := written
  obtain ⟨line, i⟩ := e
  rw [readLine, map_eq_ok_iff]
  simp only [readInst_eq_ok_iff, Prod.mk.injEq, Op.SpelledBy, ← Text.words_eq_splitOnP]
  constructor
  · rintro ⟨i, ⟨hop, hargs⟩, rfl, rfl⟩
    refine ⟨rfl, _, ?_, hargs⟩
    cases hwords : Text.words text with
    | nil =>
      rw [hwords] at hop
      exact absurd (congrArg String.toList hop.symm) (by simpa using i.isWord_name.1)
    | cons op args =>
      rw [hwords] at hop
      rw [← hop]
      simp
  · rintro ⟨rfl, args, hwords, hargs⟩
    refine ⟨i, ⟨?_, ?_⟩, rfl, rfl⟩
    · simp [hwords]
    · rwa [hwords]

/-- Leaving out the lines without words is leaving out those that are blank. -/
theorem filterMap_words {f : List Char × Nat → Option (Nat × List Char × List (List Char))}
    (hnil : ∀ e, Text.words e.1 = [] → f e = none)
    (hcons : ∀ e op args, Text.words e.1 = op :: args → f e = some (e.2 + 1, op, args))
    (ls : List (List Char × Nat)) :
    ls.filterMap f =
      ((ls.map fun e => (e.2 + 1, e.1)).filter fun e => e.2.any (!Text.isBlank ·)).map fun e =>
        (e.1, (Text.words e.2).headD [], (Text.words e.2).tail) := by
  induction ls with
  | nil => rfl
  | cons e ls ih =>
    cases hwords : Text.words e.1 with
    | nil =>
      have hblank : e.1.any (!Text.isBlank ·) = false := by
        simpa using Text.words_eq_nil_iff.mp hwords
      rw [List.filterMap_cons_none (hnil e hwords), List.map_cons,
        List.filter_cons_of_neg (by simp [hblank]), ih]
    | cons op args =>
      have hblank : e.1.any (!Text.isBlank ·) = true := by
        by_contra hnone
        have hnil := Text.words_eq_nil_iff.mpr (by simpa using hnone)
        rw [hwords] at hnil
        cases hnil
      rw [List.filterMap_cons_some (hcons e op args hwords), List.map_cons,
        List.filter_cons_of_pos (by simp [hblank]), List.map_cons, ih, hwords]
      rfl

theorem readInsts_eq (s : String) : readInsts s = (writtenLines s).mapM readLine := by
  have hwritten : instructionLines s = _ := filterMap_words (fun e h => by simp only [h])
    (fun e op args h => by simp only [h]) (Text.lines s.toList).zipIdx
  rw [readInsts, hwritten, List.mapM_map, Text.lines_eq_splitOn]
  rfl

/-- A text is read as the instructions that it spells. -/
theorem readInsts_eq_ok_iff : readInsts s = .ok lines ↔ Spells s lines := by
  rw [readInsts_eq, mapM_eq_ok_iff, Spells]
  simp only [readLine_eq_ok_iff]

end Program

end Munch

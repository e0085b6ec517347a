import Munch.Proofs.Nullability
import Munch.Proofs.Places

set_option autoImplicit false

/-! # Words over positions

An expression can be read as one over its own positions: every leaf is a letter of its own, also the
end mark of a pattern (`Regex.words`). What the sets of a labelled expression are for is said by
these words: which letters they begin with, which letters they end with, and which letters stand
next to each other in them. -/

namespace Munch

open Computability

/-! ## Letters of the words of a language -/

section Letters

variable {α : Type} (L : Language α)

/-- Some word begins with a letter. -/
def Begins (q : α) : Prop := ∃ v, q :: v ∈ L

/-- Some word ends with a letter. -/
def Ends (p : α) : Prop := ∃ u, u ++ [p] ∈ L

/-- In some word, one letter stands right before another one. -/
def Meets (p q : α) : Prop := ∃ u v, u ++ p :: q :: v ∈ L

variable {L} {M : Language α} {p q : α}

theorem begins_add_iff : Begins (L + M) q ↔ Begins L q ∨ Begins M q := by
  simp only [Begins, Language.mem_add, exists_or]

theorem ends_add_iff : Ends (L + M) p ↔ Ends L p ∨ Ends M p := by
  simp only [Ends, Language.mem_add, exists_or]

theorem meets_add_iff : Meets (L + M) p q ↔ Meets L p q ∨ Meets M p q := by
  simp only [Meets, Language.mem_add, exists_or]

theorem not_begins_one : ¬ Begins (1 : Language α) q := fun ⟨_, h⟩ => nomatch h

theorem not_ends_one : ¬ Ends (1 : Language α) p :=
  fun ⟨u, h⟩ => List.append_ne_nil_of_right_ne_nil u (List.cons_ne_nil p []) h

theorem not_meets_one : ¬ Meets (1 : Language α) p q :=
  fun ⟨u, v, h⟩ => List.append_ne_nil_of_right_ne_nil u (List.cons_ne_nil p (q :: v)) h

theorem mem_letter {s : α} {w : List α} : w ∈ ({[s]} : Language α) ↔ w = [s] := Iff.rfl

theorem exists_mem_letter {s : α} : ∃ w, w ∈ ({[s]} : Language α) := ⟨[s], rfl⟩

theorem nil_notMem_letter {s : α} : [] ∉ ({[s]} : Language α) := fun h => nomatch h

theorem begins_letter_iff {s : α} : Begins {[s]} q ↔ q = s := by
  simp only [Begins, mem_letter, List.cons.injEq, exists_and_left, exists_eq, and_true]

theorem ends_letter_iff {s : α} : Ends {[s]} p ↔ p = s := by
  simp only [Ends, mem_letter, List.append_eq_singleton_iff]
  simp

theorem not_meets_letter {s : α} : ¬ Meets {[s]} p q := by
  rintro ⟨u, v, h⟩
  have := congrArg List.length (mem_letter.mp h)
  simp only [List.length_append, List.length_cons, List.length_nil] at this
  omega

/-! ### Words one after the other -/

theorem begins_of_mul (h : Begins (L * M) q) : Begins L q ∨ [] ∈ L ∧ Begins M q := by
  obtain ⟨v, hv⟩ := h
  obtain ⟨a, ha, b, hb, hab⟩ := Language.mem_mul.mp hv
  cases a with
  | nil => exact .inr ⟨ha, v, (show b = q :: v from hab) ▸ hb⟩
  | cons x a =>
    obtain ⟨rfl, -⟩ := List.cons.inj hab
    exact .inl ⟨a, ha⟩

theorem ends_of_mul (h : Ends (L * M) p) : Ends L p ∧ [] ∈ M ∨ Ends M p := by
  obtain ⟨u, hu⟩ := h
  obtain ⟨a, ha, b, hb, hab⟩ := Language.mem_mul.mp hu
  rcases List.eq_nil_or_concat b with rfl | ⟨b, x, rfl⟩
  · exact .inl ⟨⟨u, (show a = u ++ [p] by simpa using hab) ▸ ha⟩, hb⟩
  · rw [List.concat_eq_append, ← List.append_assoc] at hab
    obtain ⟨-, hx⟩ := List.append_inj' hab rfl
    exact .inr ⟨b, by simpa [List.singleton_inj.mp hx] using hb⟩

/-- Two neighbours in a word of a concatenation are in its first part, in its second part, or one of
    them in each part. -/
theorem meets_of_mul (h : Meets (L * M) p q) :
    Meets L p q ∨ (Ends L p ∧ Begins M q) ∨ Meets M p q := by
  obtain ⟨u, v, huv⟩ := h
  obtain ⟨a, ha, b, hb, hab⟩ := Language.mem_mul.mp huv
  rcases List.append_eq_append_iff.mp hab with ⟨x, rfl, rfl⟩ | ⟨x, rfl, hx⟩
  · exact .inr (.inr ⟨x, v, hb⟩)
  · match x with
    | [] => exact .inr (.inr ⟨[], v, (show p :: q :: v = b from hx) ▸ hb⟩)
    | [y] =>
      obtain ⟨rfl, rfl⟩ := List.cons.inj hx
      exact .inr (.inl ⟨⟨u, ha⟩, v, hb⟩)
    | y :: z :: x =>
      obtain ⟨hy, hx⟩ := List.cons.inj hx
      obtain ⟨hz, -⟩ := List.cons.inj hx
      rw [← hy, ← hz] at ha
      exact .inl ⟨u, x, ha⟩

theorem begins_mul_iff (hM : ∃ w, w ∈ M) : Begins (L * M) q ↔ Begins L q ∨ [] ∈ L ∧ Begins M q := by
  refine ⟨begins_of_mul, ?_⟩
  rintro (⟨v, hv⟩ | ⟨hnil, v, hv⟩)
  · obtain ⟨w, hw⟩ := hM
    exact ⟨v ++ w, Language.append_mem_mul hv hw⟩
  · exact ⟨v, Language.append_mem_mul hnil hv⟩

theorem ends_mul_iff (hL : ∃ w, w ∈ L) : Ends (L * M) p ↔ Ends L p ∧ [] ∈ M ∨ Ends M p := by
  refine ⟨ends_of_mul, ?_⟩
  rintro (⟨⟨u, hu⟩, hnil⟩ | ⟨u, hu⟩)
  · exact ⟨u, by simpa using Language.append_mem_mul hu hnil⟩
  · obtain ⟨w, hw⟩ := hL
    exact ⟨w ++ u, by simpa using Language.append_mem_mul hw hu⟩

theorem meets_mul_iff (hL : ∃ w, w ∈ L) (hM : ∃ w, w ∈ M) :
    Meets (L * M) p q ↔ Meets L p q ∨ (Ends L p ∧ Begins M q) ∨ Meets M p q := by
  refine ⟨meets_of_mul, ?_⟩
  obtain ⟨w, hw⟩ := hL
  obtain ⟨x, hx⟩ := hM
  rintro (⟨u, v, h⟩ | ⟨⟨u, hu⟩, v, hv⟩ | ⟨u, v, h⟩)
  · exact ⟨u, v ++ x, by simpa using Language.append_mem_mul h hx⟩
  · exact ⟨u, v, by simpa using Language.append_mem_mul hu hv⟩
  · exact ⟨w ++ u, v, by simpa using Language.append_mem_mul hw h⟩

/-! ### Any number of words -/

theorem exists_mem_pow {w : List α} (h : w ∈ L∗) : ∃ n, w ∈ L ^ n := by
  rwa [Language.kstar_eq_iSup_pow, Language.mem_iSup] at h

theorem begins_of_pow (n : ℕ) (h : Begins (L ^ n) q) : Begins L q := by
  induction n with
  | zero => exact absurd h not_begins_one
  | succ n ih =>
    rw [pow_succ'] at h
    exact (begins_of_mul h).elim id fun h => ih h.2

theorem ends_of_pow (n : ℕ) (h : Ends (L ^ n) p) : Ends L p := by
  induction n with
  | zero => exact absurd h not_ends_one
  | succ n ih =>
    rw [pow_succ'] at h
    exact (ends_of_mul h).elim And.left ih

theorem meets_of_pow (n : ℕ) (h : Meets (L ^ n) p q) : Meets L p q ∨ Ends L p ∧ Begins L q := by
  induction n with
  | zero => exact absurd h not_meets_one
  | succ n ih =>
    rw [pow_succ'] at h
    rcases meets_of_mul h with h | ⟨hp, hq⟩ | h
    · exact .inl h
    · exact .inr ⟨hp, begins_of_pow n hq⟩
    · exact ih h

theorem begins_kstar_iff : Begins L∗ q ↔ Begins L q := by
  constructor
  · rintro ⟨v, hv⟩
    obtain ⟨n, hn⟩ := exists_mem_pow hv
    exact begins_of_pow n ⟨v, hn⟩
  · rintro ⟨v, hv⟩
    exact ⟨v, le_kstar (a := L) hv⟩

theorem ends_kstar_iff : Ends L∗ p ↔ Ends L p := by
  constructor
  · rintro ⟨u, hu⟩
    obtain ⟨n, hn⟩ := exists_mem_pow hu
    exact ends_of_pow n ⟨u, hn⟩
  · rintro ⟨u, hu⟩
    exact ⟨u, le_kstar (a := L) hu⟩

/-- Where one word of a language comes right after another one, the last letter of the one meets the
    first letter of the other. -/
theorem meets_kstar_iff : Meets L∗ p q ↔ Meets L p q ∨ Ends L p ∧ Begins L q := by
  constructor
  · rintro ⟨u, v, huv⟩
    obtain ⟨n, hn⟩ := exists_mem_pow huv
    exact meets_of_pow n ⟨u, v, hn⟩
  · rintro (⟨u, v, huv⟩ | ⟨⟨u, hu⟩, v, hv⟩)
    · exact ⟨u, v, le_kstar (a := L) huv⟩
    · have huv : u ++ [p] ++ q :: v ∈ L * L∗ := Language.append_mem_mul hu (le_kstar (a := L) hv)
      rw [List.append_assoc] at huv
      exact ⟨u, v, mul_kstar_le_kstar (a := L) huv⟩

end Letters

/-! ## Expressions over their positions -/

namespace Regex

mutual

/-- The words of an expression over its own positions, which are numbered from `s`. -/
def words (s : Nat) : Regex → Language Nat
  | .byte _ | .range _ | .finish => {[s]}
  | .oneOf c => ({w | ∃ q, s ≤ q ∧ q < s + c.set.ranges.length ∧ w = [q]} : Set (List Nat))
  | .cat items => wordsAll s items
  | .alt a b | .either a b => words s a + words (s + a.width) b
  | .star r => (words s r)∗
  | .plus r => words s r * (words s r)∗
  | .maybe r => 1 + words s r
  | .pattern r => words s r

/-- The words of expressions one after the other. -/
def wordsAll (s : Nat) : List Regex → Language Nat
  | [] => 1
  | r :: rest => words s r * wordsAll (s + r.width) rest

end

/-- The words of a language begin and end with the letters that a match of an expression begins and
    ends with, and have the adjacent ones as neighbours. -/
structure Spells (L : Language Nat) (s : Nat) (r : Regex) : Prop where
  nonempty : ∃ w, w ∈ L
  nil_mem : [] ∈ L ↔ r.nullable = true
  begins : ∀ q, Begins L q ↔ r.First s q
  ends : ∀ p, Ends L p ↔ r.Last s p
  meets : ∀ p q, Meets L p q ↔ r.Adjacent s p q

namespace Spells

variable {L M : Language Nat} {s : Nat} {r : Regex}

theorem letter (hnullable : r.nullable = false) (hfirst : ∀ q, r.First s q ↔ q = s)
    (hlast : ∀ p, r.Last s p ↔ p = s) (hadjacent : ∀ p q, ¬ r.Adjacent s p q) :
    Spells {[s]} s r where
  nonempty := exists_mem_letter
  nil_mem := iff_of_false nil_notMem_letter (by simp [hnullable])
  begins := fun q => begins_letter_iff.trans (hfirst q).symm
  ends := fun p => ends_letter_iff.trans (hlast p).symm
  meets := fun p q => iff_of_false not_meets_letter (hadjacent p q)

theorem nil : Spells 1 s (.cat []) where
  nonempty := ⟨[], Language.nil_mem_one⟩
  nil_mem := iff_of_true Language.nil_mem_one rfl
  begins := fun _ => iff_of_false not_begins_one id
  ends := fun _ => iff_of_false not_ends_one id
  meets := fun _ _ => iff_of_false not_meets_one id

theorem cons {rest : List Regex} (h : Spells L s r) (hrest : Spells M (s + r.width) (.cat rest)) :
    Spells (L * M) s (.cat (r :: rest)) where
  nonempty := by
    obtain ⟨w, hw⟩ := h.nonempty
    obtain ⟨x, hx⟩ := hrest.nonempty
    exact ⟨w ++ x, Language.append_mem_mul hw hx⟩
  nil_mem := by
    rw [nil_mem_mul_iff, h.nil_mem, hrest.nil_mem]
    exact Bool.and_eq_true_iff.symm
  begins := by
    intro q
    rw [begins_mul_iff hrest.nonempty, h.begins, h.nil_mem, hrest.begins]
    rfl
  ends := by
    intro p
    rw [ends_mul_iff h.nonempty, h.ends, hrest.nil_mem, hrest.ends]
    rfl
  meets := by
    intro p q
    rw [meets_mul_iff h.nonempty hrest.nonempty, h.meets, h.ends, hrest.begins, hrest.meets]
    rfl

theorem alt {a b : Regex} (ha : Spells L s a) (hb : Spells M (s + a.width) b) :
    Spells (L + M) s (.alt a b) where
  nonempty := ha.nonempty.imp fun _ hw => .inl hw
  nil_mem := by
    rw [Language.mem_add, ha.nil_mem, hb.nil_mem]
    exact (Bool.or_eq_true ..).to_iff.symm
  begins := by
    intro q
    rw [begins_add_iff, ha.begins, hb.begins]
    rfl
  ends := by
    intro p
    rw [ends_add_iff, ha.ends, hb.ends]
    rfl
  meets := by
    intro p q
    rw [meets_add_iff, ha.meets, hb.meets]
    rfl

theorem star (h : Spells L s r) : Spells L∗ s (.star r) where
  nonempty := ⟨[], Language.nil_mem_kstar L⟩
  nil_mem := iff_of_true (Language.nil_mem_kstar L) rfl
  begins := fun q => begins_kstar_iff.trans (h.begins q)
  ends := fun p => ends_kstar_iff.trans (h.ends p)
  meets := by
    intro p q
    rw [meets_kstar_iff, h.meets, h.ends, h.begins]
    rfl

/-- A second round that begins, ends or meets anything does so within a round, or where two rounds
    meet. -/
theorem plus (h : Spells L s r) : Spells (L * L∗) s (.plus r) where
  nonempty := by
    obtain ⟨w, hw⟩ := h.nonempty
    exact ⟨w ++ [], Language.append_mem_mul hw (Language.nil_mem_kstar L)⟩
  nil_mem := by
    rw [nil_mem_mul_iff, and_iff_left (Language.nil_mem_kstar L), h.nil_mem]
    rfl
  begins := by
    intro q
    rw [begins_mul_iff ⟨[], Language.nil_mem_kstar L⟩, begins_kstar_iff,
      or_iff_left_of_imp And.right, h.begins]
    rfl
  ends := by
    intro p
    rw [ends_mul_iff h.nonempty, ends_kstar_iff, or_iff_right_of_imp And.left, h.ends]
    rfl
  meets := by
    intro p q
    rw [meets_mul_iff h.nonempty ⟨[], Language.nil_mem_kstar L⟩, begins_kstar_iff,
      meets_kstar_iff, h.meets, h.ends, h.begins]
    exact (or_congr_right (or_iff_right_of_imp .inr)).trans (or_iff_right_of_imp .inl)

theorem maybe (h : Spells L s r) : Spells (1 + L) s (.maybe r) where
  nonempty := ⟨[], .inl Language.nil_mem_one⟩
  nil_mem := iff_of_true (.inl Language.nil_mem_one) rfl
  begins := by
    intro q
    rw [begins_add_iff, or_iff_right not_begins_one, h.begins]
    rfl
  ends := by
    intro p
    rw [ends_add_iff, or_iff_right not_ends_one, h.ends]
    rfl
  meets := by
    intro p q
    rw [meets_add_iff, or_iff_right not_meets_one, h.meets]
    rfl

end Spells

/-- A body over its positions has the letters and neighbours that its matches go through. -/
theorem Plain.spells {r : Regex} (h : r.Plain) : ∀ s, Spells (r.words s) s r := by
  induction h with
  | byte b => exact fun s => .letter rfl (fun _ => Iff.rfl) (fun _ => Iff.rfl) fun _ _ => id
  | range r => exact fun s => .letter rfl (fun _ => Iff.rfl) (fun _ => Iff.rfl) fun _ _ => id
  | @cat items hitems ih =>
    clear hitems
    intro s
    rw [words]
    induction items generalizing s with
    | nil => exact .nil
    | cons r rest ihrest =>
      exact .cons (ih r List.mem_cons_self s)
        (ihrest (fun t ht => ih t (List.mem_cons_of_mem r ht)) _)
  | alt _ _ iha ihb => exact fun s => .alt (iha s) (ihb _)
  | star _ ih => exact fun s => .star (ih s)
  | plus _ ih => exact fun s => .plus (ih s)
  | maybe _ ih => exact fun s => .maybe (ih s)

/-! ## Sets of patterns -/

/-- The letters that end the patterns of an anchored set, whose positions are numbered from `s`. -/
def endMarks (s : Nat) : Regex → List Nat
  | .pattern r => [s + r.width - 1]
  | .either a b => endMarks s a ++ endMarks (s + a.width) b
  | _ => []

namespace Patterns

variable {re : Regex} {rs : List Regex}

theorem length_endMarks (h : Patterns re rs) : ∀ s, (re.endMarks s).length = rs.length := by
  induction h with
  | pattern _ => exact fun s => rfl
  | either _ _ iha ihb =>
    intro s
    rw [endMarks, List.length_append, List.length_append, iha, ihb]

theorem words_pattern (s : Nat) (r : Regex) :
    (Regex.pattern (.cat [r, .finish])).words s = r.words s * {[s + r.width]} := by
  simp only [words, wordsAll, mul_one]

theorem begins_words_iff (h : Patterns re rs) : ∀ s q, Begins (re.words s) q ↔ re.First s q := by
  induction h with
  | @pattern r hr =>
    intro s q
    have hspells := hr.spells s
    rw [words_pattern, begins_mul_iff exists_mem_letter, hspells.begins,
      hspells.nil_mem, begins_letter_iff]
    simp [First, FirstAll]
  | either _ _ iha ihb =>
    intro s q
    rw [words, begins_add_iff, iha, ihb]
    rfl

theorem meets_words_iff (h : Patterns re rs) :
    ∀ s p q, Meets (re.words s) p q ↔ re.Adjacent s p q := by
  induction h with
  | @pattern r hr =>
    intro s p q
    have hspells := hr.spells s
    rw [words_pattern, meets_mul_iff hspells.nonempty exists_mem_letter,
      hspells.meets, hspells.ends, begins_letter_iff, or_iff_left not_meets_letter]
    simp [Adjacent, AdjacentAll, First, FirstAll, Last]
  | either _ _ iha ihb =>
    intro s p q
    rw [words, meets_add_iff, iha, ihb]
    rfl

/-- A word ends with an end mark, even if a match of the pattern can end before it: the mark is a
    letter, too. -/
theorem ends_words_iff (h : Patterns re rs) : ∀ s p, Ends (re.words s) p ↔ p ∈ re.endMarks s := by
  induction h with
  | @pattern r hr =>
    intro s p
    rw [words_pattern, ends_mul_iff (hr.spells s).nonempty, ends_letter_iff,
      or_iff_right fun h => nil_notMem_letter h.2]
    simp [endMarks, width, widthAll]
  | either _ _ iha ihb =>
    intro s p
    rw [words, ends_add_iff, iha, ihb, endMarks, List.mem_append]

end Patterns

/-! ## End marks -/

/-- No position of a body ends a pattern. -/
theorem Plain.snd_eq_none {r : Regex} (h : r.Plain) :
    ∀ owner next, ∀ v ∈ r.views owner next, v.2 = none := by
  induction h with
  | byte b => simp [views]
  | range r => simp [views]
  | @cat items hitems ih =>
    clear hitems
    intro owner next
    rw [views]
    induction items generalizing next with
    | nil => simp [viewsAll]
    | cons r rest ihrest =>
      intro v hv
      rcases List.mem_append.mp hv with hv | hv
      · exact ih r List.mem_cons_self owner next v hv
      · exact ihrest (fun t ht => ih t (List.mem_cons_of_mem r ht)) _ v hv
  | alt _ _ iha ihb =>
    intro owner next v hv
    rcases List.mem_append.mp hv with hv | hv
    · exact iha owner next v hv
    · exact ihb owner _ v hv
  | star _ ih => exact ih
  | plus _ ih => exact ih
  | maybe _ ih => exact ih

/-- The position and the pattern of a numbered position that ends a pattern. -/
def mark? (x : (Option ByteRange × Option Nat) × Nat) : Option (Nat × Nat) :=
  x.1.2.map fun id => (x.2, id)

/-- The positions that end patterns are the end marks, each the one of the pattern with the next
    number. -/
theorem Patterns.filterMap_mark? {re : Regex} {rs : List Regex} (h : Patterns re rs) :
    ∀ owner s next,
    ((re.views owner next).zipIdx s).filterMap mark? = (re.endMarks s).zipIdx next := by
  induction h with
  | @pattern r hr =>
    intro owner s next
    have hbody : ((r.views (some next) (next + 1)).zipIdx s).filterMap mark? = [] := by
      refine List.filterMap_eq_nil_iff.mpr fun x hx => ?_
      have hnone := hr.snd_eq_none (some next) (next + 1) x.1 (List.fst_mem_of_mem_zipIdx hx)
      rw [mark?, hnone, Option.map_none]
    simp only [views, viewsAll, List.append_nil, List.zipIdx_append, List.filterMap_append,
      hbody, List.nil_append, length_views]
    simp [mark?, endMarks, width, widthAll]
  | @either a b as bs ha _ iha ihb =>
    intro owner s next
    rw [views, List.zipIdx_append, List.filterMap_append, length_views, iha, ihb,
      endMarks, List.zipIdx_append, ha.length_endMarks, patternCount_of_patterns ha]

end Regex

namespace Labelled

open Regex

variable {re : Regex} {rs : List Regex}

/-- The position that ends the pattern `id` is the end mark with this number. -/
theorem pattern?_eq_some_iff (h : Patterns re.desugar.anchor rs) {p id : Nat} :
    (ofRegex re).pattern? p = some id ↔ (re.desugar.anchor.endMarks 0)[id]? = some p := by
  rw [pattern?_ofRegex, ← List.mem_zipIdx_iff_getElem? (x := (p, id)), ← h.filterMap_mark? none 0 0]
  simp [mark?, List.mem_zipIdx_iff_getElem?, Option.bind_eq_some_iff]

/-- A pattern that only one position ends has its end there. -/
theorem endOf_eq {l : Labelled} {id m : Nat} (h : ∀ p, l.pattern? p = some id ↔ p = m) :
    l.endOf id = m := by
  have hm : l.pattern? m = some id := (h m).mpr rfl
  have hlt : m < l.positionCount := by
    obtain ⟨pl, hpl, _⟩ := Option.bind_eq_some_iff.mp hm
    exact (List.getElem?_eq_some_iff.mp hpl).1
  have hmem : m ∈ (List.range l.positionCount).filter fun p => l.pattern? p == some id :=
    List.mem_filter.mpr ⟨List.mem_range.mpr hlt, by simp [hm]⟩
  obtain ⟨x, hx⟩ : ∃ x, ((List.range l.positionCount).filter fun p =>
      l.pattern? p == some id).getLast? = some x :=
    ⟨_, List.getLast?_eq_some_getLast (List.ne_nil_of_mem hmem)⟩
  have hfound := (List.mem_filter.mp (List.mem_of_getLast? hx)).2
  rw [endOf, hx, Option.getD_some]
  exact (h x).mp (by simpa using hfound)

/-- The ends of the patterns of a set are their end marks. -/
theorem ends_eq_endMarks (h : Patterns re.desugar.anchor rs) :
    (ofRegex re).ends = re.desugar.anchor.endMarks 0 := by
  have hlength : (ofRegex re).patterns = (re.desugar.anchor.endMarks 0).length := by
    rw [patterns_ofRegex, patternCount_of_patterns h, h.length_endMarks]
  refine List.ext_getElem (by simp [ends, hlength]) fun id _ hid => ?_
  simp only [ends, List.getElem_map, List.getElem_range]
  refine endOf_eq fun p => ?_
  rw [pattern?_eq_some_iff h, List.getElem?_eq_getElem hid, Option.some.injEq, eq_comm]

/-- The sets of a labelled set of patterns are what the words over its positions say: a position
    follows another one if it stands right after it in some word, the start is what words begin
    with, and the ends are what they end with. Passing optional subtrees by adds nothing to the
    pairs of positions that meet at the nodes. -/
theorem sets_ofRegex_iff_words (h : re.IsPatternSet) :
    let l := ofRegex re
    let L := re.desugar.anchor.words 0
    (∀ p q, q ∈ l.follow[p]?.getD [] ↔ ∃ u v, u ++ p :: q :: v ∈ L) ∧
      (∀ q, q ∈ l.start ↔ ∃ v, q :: v ∈ L) ∧
      (∀ p, p ∈ l.ends ↔ ∃ u, u ++ [p] ∈ L) ∧
      l.follow = gather l.positionCount l.met := by
  intro l L
  have hpatterns := patterns_anchor h
  refine ⟨fun p q => ?_, fun q => ?_, fun p => ?_, follow_eq_gather re⟩
  · exact (mem_follow re).trans (hpatterns.meets_words_iff 0 p q).symm
  · exact (mem_start re).trans (hpatterns.begins_words_iff 0 q).symm
  · rw [ends_eq_endMarks hpatterns]
    exact (hpatterns.ends_words_iff 0 p).symm

/-- In `a?(b?)+c`, an `a` can come right before the `c`, past a loop that is skipped, and a `b`
    right before a `b`, but nothing comes after the `c` but the end mark. -/
theorem sets_ofRegex_iff_words_plus_maybe :
    let re : Regex :=
      .either (.cat [.maybe (.byte 97), .plus (.maybe (.byte 98)), .byte 99]) (.star (.byte 100))
    let L := re.desugar.anchor.words 0
    re.IsPatternSet ∧ (∃ u v, u ++ 0 :: 2 :: v ∈ L) ∧ (∃ u v, u ++ 1 :: 1 :: v ∈ L) ∧
      (∀ q, (∃ u v, u ++ 2 :: q :: v ∈ L) → q = 3) ∧ (∃ v, 5 :: v ∈ L) ∧
      ∀ p, (∃ u, u ++ [p] ∈ L) ↔ p = 3 ∨ p = 5 := by
  intro re L
  have h : re.IsPatternSet := by decide
  obtain ⟨hfollow, hstart, hends, _⟩ := sets_ofRegex_iff_words h
  have hsets : (ofRegex re).follow = [[1, 2], [1, 2], [3], [], [4, 5], []] := by decide
  refine ⟨h, (hfollow 0 2).mp ?_, (hfollow 1 1).mp ?_, fun q hq => ?_,
    (hstart 5).mp (by decide), fun p => ?_⟩
  · simp [hsets]
  · simp [hsets]
  · simpa [hsets] using (hfollow 2 q).mpr hq
  · rw [← hends, show (ofRegex re).ends = [3, 5] by decide]
    simp

end Labelled

end Munch

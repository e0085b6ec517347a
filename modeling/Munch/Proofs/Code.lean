import Mathlib.Tactic.Common
import Munch.Program.Draft
import Munch.Proofs.PatternSet

set_option autoImplicit false

/-! # The code of an expression

`Code p base stop r` says that the instructions of `p` from `base` up to `stop` are the code of the
plain expression `r`: wherever control leaves this code, it does so at `stop`. `PatternsCode` says
the same of an anchored set of patterns. These relations say once what is generated; every theorem
about generated programs goes by induction on them.

The main statement is `exists_ofRegex_eq_ok`: a program is generated for every pattern set, it is
the code of the set's normal form, and it is deterministic only if it is a single `accept`, which
then is followed by `fail`. -/

namespace Munch

/-! ## Instructions in a row -/

namespace Program

/-- A program has a list of instructions from an offset on. -/
def Holds (p : Program) (base : Nat) (code : List Inst) : Prop :=
  ∀ i inst, code[i]? = some inst → p.insts[base + i]? = some inst

variable {p : Program} {base : Nat}

@[simp] theorem holds_nil : p.Holds base [] := by
  intro i inst h
  simp at h

@[simp] theorem holds_cons {i : Inst} {code : List Inst} :
    p.Holds base (i :: code) ↔ p.insts[base]? = some i ∧ p.Holds (base + 1) code := by
  constructor
  · intro h
    refine ⟨h 0 i rfl, fun j inst hj => ?_⟩
    rw [Nat.add_right_comm, Nat.add_assoc]
    exact h (j + 1) inst hj
  · intro ⟨h, hrest⟩ j inst hj
    cases j with
    | zero => simpa using hj ▸ h
    | succ j =>
      rw [Nat.add_comm j 1, ← Nat.add_assoc]
      exact hrest j inst hj

@[simp] theorem holds_append {a b : List Inst} :
    p.Holds base (a ++ b) ↔ p.Holds base a ∧ p.Holds (base + a.length) b := by
  induction a generalizing base with
  | nil => simp
  | cons i a ih =>
    have hlen : base + (i :: a).length = base + 1 + a.length := by simp; omega
    rw [List.cons_append, holds_cons, holds_cons, ih, hlen, and_assoc]

theorem holds_toList (p : Program) : p.Holds 0 p.insts.toList := by
  intro i inst h
  simpa using h

end Program

namespace Draft

/-- The instructions of a draft whose open operands lead to an offset. -/
def resolve (target : Nat) (d : Draft) : List Inst := d.map (Op.map (·.getD target))

variable {t u : Nat}

@[simp] theorem length_resolve (d : Draft) : (resolve t d).length = d.length := by simp [resolve]

@[simp] theorem length_close (d : Draft) : (close t d).length = d.length := by simp [close]

@[simp] theorem resolve_nil : resolve t [] = [] := rfl

@[simp] theorem resolve_cons (i : Op (Option Nat)) (d : Draft) :
    resolve t (i :: d) = i.map (·.getD t) :: resolve t d := rfl

@[simp] theorem resolve_append (d e : Draft) :
    resolve t (d ++ e) = resolve t d ++ resolve t e := by simp [resolve]

/-- A closed operand stays as it is. -/
@[simp] theorem resolve_close (d : Draft) : resolve t (close u d) = resolve u d := by
  simp only [resolve, close, List.map_map]
  refine List.map_congr_left fun i _ => ?_
  cases i <;> simp [Op.map]

@[simp] theorem openCount_close (d : Draft) : openCount (close t d) = 0 := by
  rw [openCount, List.count_eq_zero]
  intro h
  obtain ⟨i, hi, ho⟩ := List.mem_flatMap.mp h
  obtain ⟨j, _, rfl⟩ := List.mem_map.mp hi
  cases j <;> simp [Op.map, Op.targets] at ho

@[simp] theorem openCount_append (d e : Draft) :
    openCount (d ++ e) = openCount d + openCount e := by simp [openCount]

@[simp] theorem openCount_cons (i : Op (Option Nat)) (d : Draft) :
    openCount (i :: d) = i.targets.count none + openCount d := by simp [openCount]

@[simp] theorem openCount_nil : openCount [] = 0 := rfl

/-! ## Classes -/

theorem ofRegex_ofRange (base id : Nat) (r : ByteRange) :
    ofRegex base id (Regex.ofRange r) = [.consume r] := by
  unfold Regex.ofRange
  split
  · next h =>
    have hlh : r.lo = r.hi := by simpa [ByteRange.isSingle] using h
    have hr : ByteRange.single r.lo = r := by
      obtain ⟨lo, hi, hle⟩ := r
      simp only at hlh
      subst hlh
      rfl
    rw [ofRegex, hr]
  · rw [ofRegex]

theorem patternCount_altRanges (rs : List ByteRange) : ∀ r,
    (Regex.altRanges r rs).patternCount = 0 := by
  have hrange : ∀ r : ByteRange, (Regex.ofRange r).patternCount = 0 := by
    intro r
    unfold Regex.ofRange
    split <;> rfl
  induction rs with
  | nil => exact hrange
  | cons s rest ih => intro r; simp [Regex.altRanges, Regex.patternCount, hrange, ih]

theorem ofRegex_altRanges (rs : List ByteRange) : ∀ (base id : Nat) (r : ByteRange),
    ofRegex base id (Regex.altRanges r rs) = ofRanges base r rs := by
  induction rs with
  | nil => exact ofRegex_ofRange
  | cons s rest ih =>
    intro base id r
    simp only [Regex.altRanges, ofRegex, ofRanges, ofRegex_ofRange, ih]

theorem patternCount_desugar (r : Regex) : r.desugar.patternCount = r.patternCount := by
  induction r with
  | oneOf c =>
    obtain ⟨r, rest, _, heq⟩ := Regex.exists_spelledOut_eq c
    rw [Regex.desugar, heq, patternCount_altRanges, Regex.patternCount]
  | cat items ih =>
    rw [Regex.desugar, Regex.patternCount, Regex.patternCount]
    induction items with
    | nil => rfl
    | cons r rest ihrest =>
      rw [Regex.desugarAll, Regex.patternCountAll, Regex.patternCountAll, ih r (by simp),
        ihrest fun s hs => ih s (by simp [hs])]
  | _ => simp_all [Regex.desugar, Regex.patternCount]

theorem ofSequence_desugarAll {items : List Regex}
    (h : ∀ r ∈ items, ∀ base id, ofRegex base id r.desugar = ofRegex base id r) :
    ∀ base id, ofSequence base id (Regex.desugarAll items) = ofSequence base id items := by
  induction items with
  | nil => intro base id; rfl
  | cons r rest ih =>
    intro base id
    have hr := h r (by simp)
    have hrest := ih fun s hs => h s (by simp [hs])
    cases rest with
    | nil => simp [Regex.desugarAll, ofSequence, hr]
    | cons s rest =>
      simp only [Regex.desugarAll, ofSequence, hr, patternCount_desugar] at hrest ⊢
      rw [hrest]

/-- A class has the code of the alternation that it stands for. -/
theorem ofRegex_desugar (r : Regex) : ∀ base id,
    ofRegex base id r.desugar = ofRegex base id r := by
  induction r with
  | oneOf c =>
    intro base id
    obtain ⟨r, rest, hranges, heq⟩ := Regex.exists_spelledOut_eq c
    rw [Regex.desugar, heq, ofRegex_altRanges, ofRegex]
    split
    next hranges' _ =>
      obtain ⟨rfl, rfl⟩ := List.cons.inj (hranges.symm.trans hranges')
      rfl
  | cat items ih =>
    intro base id
    rw [Regex.desugar, ofRegex, ofRegex, ofSequence_desugarAll ih]
  | _ => intro base id; simp_all [Regex.desugar, ofRegex, patternCount_desugar]

end Draft

/-! ## Code of plain expressions -/

open Regex (Plain Patterns)

/-- From `base` up to `stop`, a program has the code of a plain expression. -/
inductive Code (p : Program) : Nat → Nat → Regex → Prop
  | byte {base : Nat} {b : UInt8} (h : p.insts[base]? = some (.consume (.single b))) :
    Code p base (base + 1) (.byte b)
  | range {base : Nat} {r : ByteRange} (h : p.insts[base]? = some (.consume r)) :
    Code p base (base + 1) (.range r)
  | nil {base : Nat} : Code p base base (.cat [])
  | cons {base mid stop : Nat} {r : Regex} {rest : List Regex} (hr : Code p base mid r)
    (hrest : Code p mid stop (.cat rest)) : Code p base stop (.cat (r :: rest))
  | alt {base next stop : Nat} {a b : Regex}
    (hsplit : p.insts[base]? = some (.split (base + 1) (next + 1)))
    (ha : Code p (base + 1) next a) (hjump : p.insts[next]? = some (.jump stop))
    (hb : Code p (next + 1) stop b) : Code p base stop (.alt a b)
  | star {base back : Nat} {r : Regex}
    (hsplit : p.insts[base]? = some (.split (base + 1) (back + 1)))
    (hr : Code p (base + 1) back r) (hjump : p.insts[back]? = some (.jump base)) :
    Code p base (back + 1) (.star r)
  | plus {base back : Nat} {r : Regex} (hr : Code p base back r)
    (hsplit : p.insts[back]? = some (.split base (back + 1))) : Code p base (back + 1) (.plus r)
  | maybe {base stop : Nat} {r : Regex}
    (hsplit : p.insts[base]? = some (.split (base + 1) stop)) (hr : Code p (base + 1) stop r) :
    Code p base stop (.maybe r)

namespace Code

variable {p : Program} {base stop : Nat} {r : Regex}

theorem base_le_stop (h : Code p base stop r) : base ≤ stop := by
  induction h <;> omega

/-- The code of an expression consumes, or goes on elsewhere. -/
theorem inst_cases (h : Code p base stop r) {a : Nat} (hbase : base ≤ a) (hstop : a < stop) :
    (∃ s, p.insts[a]? = some (.consume s)) ∨ (∃ x y, p.insts[a]? = some (.split x y)) ∨
      ∃ x, p.insts[a]? = some (.jump x) := by
  induction h generalizing a with
  | @byte base b h =>
    obtain rfl : a = base := by omega
    exact .inl ⟨_, h⟩
  | @range base r h =>
    obtain rfl : a = base := by omega
    exact .inl ⟨_, h⟩
  | nil => omega
  | @cons base mid stop r rest hr hrest ihr ihrest =>
    by_cases h : a < mid
    · exact ihr hbase h
    · exact ihrest (Nat.le_of_not_lt h) hstop
  | @alt base next stop l r hsplit hl hjump hr ihl ihr =>
    -- The offset is that of the split, in the first side, that of the jump, or in the second side.
    rcases (by omega : a = base ∨ (base + 1 ≤ a ∧ a < next) ∨ a = next ∨ next + 1 ≤ a) with
      rfl | ⟨h, h'⟩ | rfl | h
    · exact .inr (.inl ⟨_, _, hsplit⟩)
    · exact ihl h h'
    · exact .inr (.inr ⟨_, hjump⟩)
    · exact ihr h hstop
  | @star base back r hsplit hr hjump ih =>
    rcases (by omega : a = base ∨ (base + 1 ≤ a ∧ a < back) ∨ a = back) with rfl | ⟨h, h'⟩ | rfl
    · exact .inr (.inl ⟨_, _, hsplit⟩)
    · exact ih h h'
    · exact .inr (.inr ⟨_, hjump⟩)
  | @plus base back r hr hsplit ih =>
    rcases (by omega : a < back ∨ a = back) with h | rfl
    · exact ih hbase h
    · exact .inr (.inl ⟨_, _, hsplit⟩)
  | @maybe base stop r hsplit hr ih =>
    rcases (by omega : a = base ∨ base + 1 ≤ a) with rfl | h
    · exact .inr (.inl ⟨_, _, hsplit⟩)
    · exact ih h hstop

/-- The code of an expression goes on at `stop` at most. -/
theorem targets_le (h : Code p base stop r) {a x : Nat} {i : Inst}
    (hbase : base ≤ a) (hstop : a < stop) (hi : p.insts[a]? = some i) (hx : x ∈ i.targets) :
    x ≤ stop := by
  induction h with
  | @byte base b h =>
    obtain rfl : a = base := by omega
    obtain rfl := Option.some.inj (hi.symm.trans h)
    simp [Op.targets] at hx
  | @range base r h =>
    obtain rfl : a = base := by omega
    obtain rfl := Option.some.inj (hi.symm.trans h)
    simp [Op.targets] at hx
  | nil => omega
  | @cons base mid stop r rest hr hrest ihr ihrest =>
    by_cases h : a < mid
    · exact Nat.le_trans (ihr hbase h) hrest.base_le_stop
    · exact ihrest (Nat.le_of_not_lt h) hstop
  | @alt base next stop l r hsplit hl hjump hr ihl ihr =>
    have hle := hl.base_le_stop
    have hle' := hr.base_le_stop
    rcases (by omega : a = base ∨ (base + 1 ≤ a ∧ a < next) ∨ a = next ∨ next + 1 ≤ a) with
      rfl | ⟨h, h'⟩ | rfl | h
    · obtain rfl := Option.some.inj (hi.symm.trans hsplit)
      rcases List.mem_pair.mp hx with rfl | rfl <;> omega
    · have := ihl h h'
      omega
    · obtain rfl := Option.some.inj (hi.symm.trans hjump)
      exact Nat.le_of_eq (List.mem_singleton.mp hx)
    · exact ihr h hstop
  | @star base back r hsplit hr hjump ih =>
    have hle := hr.base_le_stop
    rcases (by omega : a = base ∨ (base + 1 ≤ a ∧ a < back) ∨ a = back) with rfl | ⟨h, h'⟩ | rfl
    · obtain rfl := Option.some.inj (hi.symm.trans hsplit)
      rcases List.mem_pair.mp hx with rfl | rfl <;> omega
    · exact Nat.le_succ_of_le (ih h h')
    · obtain rfl := Option.some.inj (hi.symm.trans hjump)
      obtain rfl := List.mem_singleton.mp hx
      omega
  | @plus base back r hr hsplit ih =>
    have hle := hr.base_le_stop
    rcases (by omega : a < back ∨ a = back) with h | rfl
    · exact Nat.le_succ_of_le (ih hbase h)
    · obtain rfl := Option.some.inj (hi.symm.trans hsplit)
      rcases List.mem_pair.mp hx with rfl | rfl <;> omega
  | @maybe base stop r hsplit hr ih =>
    have hle := hr.base_le_stop
    rcases (by omega : a = base ∨ base + 1 ≤ a) with rfl | h
    · obtain rfl := Option.some.inj (hi.symm.trans hsplit)
      rcases List.mem_pair.mp hx with rfl | rfl <;> omega
    · exact ih h hstop

/-- Code that is not empty needs several threads. -/
theorem exists_threaded (h : Code p base stop r) (hlt : base < stop) :
    ∃ pc < stop, ∃ i, p.insts[pc]? = some i ∧ i.isThreaded = true := by
  induction h with
  | byte h => exact ⟨_, hlt, _, h, rfl⟩
  | range h => exact ⟨_, hlt, _, h, rfl⟩
  | nil => exact absurd hlt (Nat.lt_irrefl _)
  | cons hr hrest ihr ihrest =>
    have := hrest.base_le_stop
    rcases Nat.lt_or_ge _ _ with h | h
    · obtain ⟨pc, hpc, hi⟩ := ihr h
      exact ⟨pc, by omega, hi⟩
    · exact ihrest (by omega)
  | alt hsplit => exact ⟨_, hlt, _, hsplit, rfl⟩
  | star hsplit => exact ⟨_, hlt, _, hsplit, rfl⟩
  | plus hr hsplit => exact ⟨_, Nat.lt_succ_self _, _, hsplit, rfl⟩
  | maybe hsplit => exact ⟨_, hlt, _, hsplit, rfl⟩

end Code

/-- A draft is code for its expression, if its open operands lead to its end. -/
def DraftsCode (p : Program) (r : Regex) : Prop :=
  ∀ base id stop, stop = base + (Draft.ofRegex base id r).length →
    p.Holds base (Draft.resolve stop (Draft.ofRegex base id r)) → Code p base stop r

theorem code_ofSequence {p : Program} {items : List Regex} (h : ∀ r ∈ items, DraftsCode p r) :
    ∀ base id stop, stop = base + (Draft.ofSequence base id items).length →
      p.Holds base (Draft.resolve stop (Draft.ofSequence base id items)) →
      Code p base stop (.cat items) := by
  induction items with
  | nil =>
    intro base id stop hstop _
    simp only [Draft.ofSequence, List.length_nil, Nat.add_zero] at hstop
    exact hstop ▸ .nil
  | cons r rest ih =>
    intro base id stop hstop hholds
    have hr := h r (by simp)
    cases rest with
    | nil => exact .cons (hr base id stop hstop hholds) .nil
    | cons s rest =>
      simp only [Draft.ofSequence, Draft.resolve_append, Draft.resolve_close, Program.holds_append,
        Draft.length_resolve, List.length_append, Draft.length_close] at hstop hholds
      exact .cons (hr base id _ rfl hholds.1)
        (ih (fun s hs => h s (by simp [hs])) _ _ stop (by omega) hholds.2)

/-- What is generated for a plain expression is its code. -/
theorem draftsCode {p : Program} {r : Regex} (h : Plain r) : DraftsCode p r := by
  induction h with
  | byte b =>
    intro base id stop hstop hholds
    simp only [Draft.ofRegex, Draft.resolve_cons, Program.holds_cons] at hholds
    exact hstop ▸ .byte hholds.1
  | range s =>
    intro base id stop hstop hholds
    simp only [Draft.ofRegex, Draft.resolve_cons, Program.holds_cons] at hholds
    exact hstop ▸ .range hholds.1
  | cat _ ih => exact code_ofSequence ih
  | alt _ _ iha ihb =>
    intro base id stop hstop hholds
    simp only [Draft.ofRegex, Draft.choice, Draft.resolve_cons, Draft.resolve_append,
      Draft.resolve_close, Program.holds_cons, Program.holds_append, Draft.length_resolve,
      List.length_cons, List.length_append, Draft.length_close, Op.map, Option.getD_some,
      Option.getD_none] at hstop hholds
    obtain ⟨hsplit, ha, hjump, hb⟩ := hholds
    exact .alt hsplit (iha _ _ _ rfl ha) hjump (ihb _ _ stop (by omega) hb)
  | @star r _ ih =>
    intro base id stop hstop hholds
    simp only [Draft.ofRegex, Draft.resolve_cons, Draft.resolve_append, Draft.resolve_close,
      Program.holds_cons, Program.holds_append, Draft.length_resolve, List.length_cons,
      List.length_append, Draft.length_close, Op.map, Option.getD_some, Option.getD_none,
      Draft.resolve_nil, List.length_nil] at hstop hholds
    obtain ⟨hsplit, hr, hjump, _⟩ := hholds
    obtain rfl : stop = base + 1 + (Draft.ofRegex (base + 1) id r).length + 1 := by omega
    exact .star hsplit (ih _ _ _ rfl hr) hjump
  | @plus r _ ih =>
    intro base id stop hstop hholds
    simp only [Draft.ofRegex, Draft.resolve_cons, Draft.resolve_append, Draft.resolve_close,
      Program.holds_cons, Program.holds_append, Draft.length_resolve, List.length_cons,
      List.length_append, Draft.length_close, Op.map, Option.getD_some, Option.getD_none,
      Draft.resolve_nil, List.length_nil] at hstop hholds
    obtain ⟨hr, hsplit, _⟩ := hholds
    obtain rfl : stop = base + (Draft.ofRegex base id r).length + 1 := by omega
    exact .plus (ih _ _ _ rfl hr) hsplit
  | maybe _ ih =>
    intro base id stop hstop hholds
    simp only [Draft.ofRegex, Draft.resolve_cons, Program.holds_cons, List.length_cons, Op.map,
      Option.getD_some, Option.getD_none] at hstop hholds
    exact .maybe hholds.1 (ih _ _ stop (by omega) hholds.2)

/-! ## Code of pattern sets -/

/-- From `base` up to `stop`, a program has the code of an anchored set of patterns with some
    bodies, numbered from `id`. -/
inductive PatternsCode (p : Program) : Nat → Nat → Nat → Regex → List Regex → Prop
  | pattern {base mid id : Nat} {r : Regex} (hr : Code p base mid r)
    (haccept : p.insts[mid]? = some (.accept id)) :
    PatternsCode p base (mid + 1) id (.pattern (.cat [r, .finish])) [r]
  | either {base next stop id : Nat} {a b : Regex} {as bs : List Regex}
    (hsplit : p.insts[base]? = some (.split (base + 1) next))
    (ha : PatternsCode p (base + 1) next id a as)
    (hb : PatternsCode p next stop (id + as.length) b bs) :
    PatternsCode p base stop id (.either a b) (as ++ bs)

namespace PatternsCode

variable {p : Program} {base stop id : Nat} {re : Regex} {rs : List Regex}

theorem base_lt_stop (h : PatternsCode p base stop id re rs) : base < stop := by
  induction h with
  | pattern hr => exact Nat.lt_succ_of_le hr.base_le_stop
  | either => omega

/-- The code of a pattern set consumes and goes on, goes on elsewhere, or accepts. -/
theorem inst_cases (h : PatternsCode p base stop id re rs) {a : Nat} (hbase : base ≤ a)
    (hstop : a < stop) :
    (∃ s, p.insts[a]? = some (.consume s) ∧ a + 1 < stop) ∨
      (∃ x y, p.insts[a]? = some (.split x y)) ∨ (∃ x, p.insts[a]? = some (.jump x)) ∨
        ∃ k, p.insts[a]? = some (.accept k) := by
  induction h with
  | @pattern base mid id r hr haccept =>
    rcases (by omega : a < mid ∨ a = mid) with h | rfl
    · rcases hr.inst_cases hbase h with ⟨s, hs⟩ | hsplit | hjump
      · exact .inl ⟨s, hs, by omega⟩
      · exact .inr (.inl hsplit)
      · exact .inr (.inr (.inl hjump))
    · exact .inr (.inr (.inr ⟨_, haccept⟩))
  | @either base next stop id a' b as bs hsplit ha hb iha ihb =>
    have hlt := hb.base_lt_stop
    rcases (by omega : a = base ∨ (base + 1 ≤ a ∧ a < next) ∨ next ≤ a) with rfl | ⟨h, h'⟩ | h
    · exact .inr (.inl ⟨_, _, hsplit⟩)
    · rcases iha h h' with ⟨s, hs, _⟩ | hrest
      · exact .inl ⟨s, hs, by omega⟩
      · exact .inr hrest
    · exact ihb h hstop

/-- The code of a pattern set goes on inside. -/
theorem targets_lt (h : PatternsCode p base stop id re rs) {a x : Nat} {i : Inst} (hbase : base ≤ a)
    (hstop : a < stop) (hi : p.insts[a]? = some i) (hx : x ∈ i.targets) : x < stop := by
  induction h with
  | @pattern base mid id r hr haccept =>
    rcases (by omega : a < mid ∨ a = mid) with h | rfl
    · exact Nat.lt_succ_of_le (hr.targets_le hbase h hi hx)
    · obtain rfl := Option.some.inj (hi.symm.trans haccept)
      simp [Op.targets] at hx
  | @either base next stop id a' b as bs hsplit ha hb iha ihb =>
    have hlt := ha.base_lt_stop
    have hlt' := hb.base_lt_stop
    rcases (by omega : a = base ∨ (base + 1 ≤ a ∧ a < next) ∨ next ≤ a) with rfl | ⟨h, h'⟩ | h
    · obtain rfl := Option.some.inj (hi.symm.trans hsplit)
      rcases List.mem_pair.mp hx with rfl | rfl <;> omega
    · exact Nat.lt_trans (iha h h') hlt'
    · exact ihb h hstop

/-- The code of a pattern set is a single `accept`, or it needs several threads. -/
theorem exists_threaded (h : PatternsCode p base stop id re rs) (hlt : base + 1 < stop) :
    ∃ pc < stop, ∃ i, p.insts[pc]? = some i ∧ i.isThreaded = true := by
  cases h with
  | pattern hr =>
    obtain ⟨pc, hpc, hi⟩ := hr.exists_threaded (by omega)
    exact ⟨pc, by omega, hi⟩
  | either hsplit => exact ⟨base, by omega, _, hsplit, rfl⟩

end PatternsCode

/-! ## What is generated for a pattern set -/

namespace Regex

theorem patternCountAll_eq_zero {items : List Regex} (h : ∀ r ∈ items, r.patternCount = 0) :
    patternCountAll items = 0 := by
  induction items with
  | nil => rfl
  | cons r rest ih => rw [patternCountAll, h r (by simp), ih fun s hs => h s (by simp [hs])]

theorem patternCount_of_plain {r : Regex} (h : r.Plain) : r.patternCount = 0 := by
  induction h with
  | cat _ ih => rw [patternCount, patternCountAll_eq_zero ih]
  | _ => simp_all [patternCount]

theorem patternCount_of_patterns {re : Regex} {rs : List Regex} (h : Patterns re rs) :
    re.patternCount = rs.length := by
  induction h with
  | pattern h =>
    simp [patternCount, patternCountAll, patternCount_of_plain h]
  | either _ _ iha ihb => simp [patternCount, iha, ihb]

end Regex

namespace Draft

variable {re : Regex} {rs : List Regex}

theorem ofRegex_pattern {r : Regex} (h : Plain r) (base id : Nat) :
    ofRegex base id (.pattern (.cat [r, .finish])) =
      close (base + (ofRegex base id r).length) (ofRegex base id r) ++ [.accept id] := by
  have hcount : (Regex.cat [r, .finish]).patternCount = 0 := by
    simp [Regex.patternCount, Regex.patternCountAll, Regex.patternCount_of_plain h]
  have hclose : ∀ t u (d : Draft), close t (close u d) = close u d := by
    intro t u d
    simp only [close, List.map_map]
    refine List.map_congr_left fun i _ => ?_
    cases i <;> simp [Op.map]
  simp [ofRegex, ofSequence, hcount, hclose]

/-- What is generated for a pattern set has no open operands, and ends with an `accept`. -/
theorem closed_of_patterns (h : Patterns re rs) : ∀ base id,
    (ofRegex base id re).openCount = 0 ∧
      ∃ n, (ofRegex base id re).getLast? = some (.accept n) := by
  induction h with
  | pattern h =>
    intro base id
    rw [ofRegex_pattern h]
    exact ⟨by simp [Op.targets], id, by simp⟩
  | either _ _ iha ihb =>
    intro base id
    simp only [ofRegex]
    obtain ⟨ha, _⟩ := iha (base + 1) id
    obtain ⟨hb, n, hlast⟩ := ihb _ _
    refine ⟨?_, n, ?_⟩
    · rw [openCount_cons, openCount_append, ha, hb]
      simp [Op.targets]
    · rw [List.getLast?_cons, List.getLast?_append, hlast]
      simp

/-- What is generated for a pattern set is its code. -/
theorem patternsCode_of_holds {p : Program} (h : Patterns re rs) : ∀ base id t,
    p.Holds base (resolve t (ofRegex base id re)) →
      PatternsCode p base (base + (ofRegex base id re).length) id re rs := by
  induction h with
  | @pattern r h =>
    intro base id t hholds
    rw [ofRegex_pattern h] at hholds ⊢
    simp only [resolve_append, resolve_close, Program.holds_append, length_resolve, resolve_cons,
      Program.holds_cons, Op.map, List.length_append, length_close,
      List.length_singleton] at hholds ⊢
    exact .pattern (draftsCode h base id _ rfl hholds.1) hholds.2.1
  | @either a b as bs ha hb iha ihb =>
    intro base id t hholds
    have hcount := Regex.patternCount_of_patterns ha
    simp only [ofRegex, resolve_append, Program.holds_append, length_resolve, resolve_cons,
      Program.holds_cons, Op.map, Option.getD_some, List.length_append, List.length_cons,
      hcount] at hholds ⊢
    obtain ⟨hsplit, hleft, hright⟩ := hholds
    have hright := ihb _ _ t hright
    rw [show base + ((ofRegex (base + 1) id a).length +
        (ofRegex (base + 1 + (ofRegex (base + 1) id a).length) (id + as.length) b).length + 1) =
      base + 1 + (ofRegex (base + 1) id a).length +
        (ofRegex (base + 1 + (ofRegex (base + 1) id a).length) (id + as.length) b).length by omega]
    exact .either hsplit (iha _ _ t hleft) hright

end Draft

namespace Program

/-- The program of a pattern set that only matches the empty text, and needs no code for that. -/
def loneAccept : Program := ⟨#[.accept 0, .fail]⟩

/-- The code of a pattern set is a whole program: nothing but a `fail` after a single `accept` is
    added to it, and any other program needs several threads. -/
def IsCodeOf (p : Program) (re : Regex) (rs : List Regex) : Prop :=
  (PatternsCode p 0 p.size 0 re rs ∧ p.isDeterministic = false) ∨
    (PatternsCode p 0 1 0 re rs ∧ p = loneAccept)

theorem ofPatterns_desugar (re : Regex) : Draft.ofPatterns re.desugar = Draft.ofPatterns re := by
  rw [Draft.ofPatterns, Draft.ofRegex_desugar, Draft.ofPatterns]

theorem isDeterministic_eq_false {p : Program} {pc : Nat} {i : Inst}
    (h : p.insts[pc]? = some i) (hi : i.isThreaded = true) : p.isDeterministic = false := by
  rw [isDeterministic, Bool.not_eq_false', Array.any_eq_true]
  obtain ⟨hlt, hget⟩ := Array.getElem?_eq_some_iff.mp h
  exact ⟨pc, hlt, hget ▸ hi⟩

theorem ofDraft_eq_ok {d : Draft} (hopen : d.openCount = 0) {n : Nat}
    (hlast : d.getLast? = some (.accept n)) : ofDraft d = .ok ⟨(Draft.resolve 0 d).toArray⟩ := by
  have hfalls : d.fallsOff = false := by simp [Draft.fallsOff, hlast, Op.fallsThrough]
  rw [ofDraft, if_pos ⟨hopen, hfalls⟩]
  rfl

/-- A draft that is a single `accept` accepts the first pattern. -/
theorem eq_zero_of_ofRegex_eq_accept {re : Regex} {rs : List Regex} (h : Patterns re rs) {id : Nat}
    (hd : Draft.ofRegex 0 0 re = [.accept id]) : id = 0 := by
  cases h with
  | pattern h =>
    rw [Draft.ofRegex_pattern h] at hd
    simpa using (congrArg List.getLast? hd).symm
  | either => simp [Draft.ofRegex] at hd

/-- A program is generated for every pattern set, and it is the code of its normal form. -/
theorem exists_ofRegex_eq_ok {re : Regex} (h : re.IsPatternSet) :
    ∃ p, Program.ofRegex re = .ok p ∧
      p.IsCodeOf re.desugar.anchor (re.bodies.map Regex.desugar) := by
  have hpatterns := Regex.patterns_anchor h
  obtain ⟨hopen, n, hlast⟩ := Draft.closed_of_patterns hpatterns 0 0
  rw [Program.ofRegex, ← ofPatterns_desugar, Regex.anchor_desugar]
  generalize re.desugar.anchor = re' at *
  generalize re.bodies.map Regex.desugar = rs at *
  unfold Draft.ofPatterns
  split
  -- A lone `accept` needs no threads, and a program without threads has to end with `fail`.
  · next id hdraft =>
    obtain rfl := eq_zero_of_ofRegex_eq_accept hpatterns hdraft
    have hcode : PatternsCode loneAccept 0 (0 + 1) 0 re' rs := by
      have := Draft.patternsCode_of_holds (p := loneAccept) hpatterns 0 0 0
      rw [hdraft] at this
      exact this (by simp [Op.map, loneAccept])
    exact ⟨loneAccept, rfl, .inr ⟨hcode, rfl⟩⟩
  · next hdraft =>
    let p : Program := ⟨(Draft.resolve 0 (Draft.ofRegex 0 0 re')).toArray⟩
    have hsize : p.size = 0 + (Draft.ofRegex 0 0 re').length := by simp [p, size]
    have hcode : PatternsCode p 0 p.size 0 re' rs := by
      rw [hsize]
      exact Draft.patternsCode_of_holds hpatterns 0 0 0 (by simpa [p] using holds_toList p)
    -- Code of more than one instruction has one that needs threads, so no `fail` is added.
    have hlt : 0 + 1 < p.size := by
      have hpos := hcode.base_lt_stop
      by_contra hle
      obtain ⟨i, hi⟩ := List.length_eq_one_iff.mp (by omega : (Draft.ofRegex 0 0 re').length = 1)
      rw [hi] at hlast hdraft
      obtain rfl := Option.some.inj hlast
      exact hdraft n rfl
    obtain ⟨pc, _, i, hpc, hi⟩ := hcode.exists_threaded hlt
    exact ⟨p, ofDraft_eq_ok hopen hlast, .inl ⟨hcode, isDeterministic_eq_false hpc hi⟩⟩

end Program

end Munch

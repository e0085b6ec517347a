import Munch.Byte.Range

set_option autoImplicit false

/-! # Sets of bytes

A `ByteSet` is an ascending list of ranges with a gap of at least one byte between neighbours. The
gap is part of the type, so a set of bytes can be written in one way only. Ranges are added by
putting them with those of the set, sorting all of them, and joining those that touch
(`ByteRange.normalize`). A byte is looked up by halving the list (`ByteRange.search`), which is
right because the list is ascending (`ByteRange.search_iff`). Every operation keeps the gaps, and
is characterised by membership: `mem_insertRange`, `mem_union`, `mem_complement`. -/

namespace Munch

namespace ByteRange

/-- There is at least one byte between the end of `r` and the start of `s`. -/
def Before (r s : ByteRange) : Prop := r.hi.toNat + 1 < s.lo.toNat

instance (r s : ByteRange) : Decidable (Before r s) :=
  inferInstanceAs (Decidable (r.hi.toNat + 1 < s.lo.toNat))

theorem toNat_lo_le_hi (r : ByteRange) : r.lo.toNat ≤ r.hi.toNat :=
  UInt8.le_iff_toNat_le.mp r.lo_le_hi

theorem hull_lo_toNat (r s : ByteRange) : (hull r s).lo.toNat = min r.lo.toNat s.lo.toNat := by
  simp only [hull, UInt8.le_iff_toNat_le]
  split <;> omega

/-- The order of ranges by their lower bounds, and where these are equal by their upper bounds. -/
def atMost (r s : ByteRange) : Bool := r.lo < s.lo || (r.lo == s.lo && r.hi ≤ s.hi)

/-- Join a range with those that it touches of the ranges after it in an ascending list, and go on
with the first one that it does not touch. -/
def joinFrom (r : ByteRange) : List ByteRange → List ByteRange
  | [] => [r]
  | s :: rest => if Before r s then r :: joinFrom s rest else joinFrom (hull r s) rest

/-- The ascending list of separated ranges with the bytes of some ranges: they are sorted, and those
that touch are joined. -/
def normalize (rs : List ByteRange) : List ByteRange :=
  match rs.mergeSort atMost with
  | [] => []
  | r :: rest => joinFrom r rest

/-- No range of a list starts before those in front of it. -/
def Ascending (l : List ByteRange) : Prop := l.Pairwise fun r s => r.lo.toNat ≤ s.lo.toNat

theorem atMost_iff {r s : ByteRange} : atMost r s = true ↔
    r.lo.toNat < s.lo.toNat ∨ (r.lo.toNat = s.lo.toNat ∧ r.hi.toNat ≤ s.hi.toNat) := by
  simp [atMost, UInt8.lt_iff_toNat_lt, UInt8.le_iff_toNat_le, ← UInt8.toNat_inj]

theorem ascending_mergeSort (rs : List ByteRange) : Ascending (rs.mergeSort atMost) := by
  have htrans : ∀ r s t : ByteRange,
      atMost r s = true → atMost s t = true → atMost r t = true := by
    intro r s t
    simp only [atMost_iff]
    omega
  have htotal : ∀ r s : ByteRange, (atMost r s || atMost s r) = true := by
    intro r s
    rw [Bool.or_eq_true, atMost_iff, atMost_iff]
    omega
  refine (List.pairwise_mergeSort htrans htotal rs).imp fun {r s} h => ?_
  rw [atMost_iff] at h
  omega

/-- Joining the first two ranges of an ascending list leaves it ascending. -/
theorem ascending_hull {r s : ByteRange} {l : List ByteRange} (h : Ascending (r :: s :: l)) :
    Ascending (hull r s :: l) := by
  obtain ⟨hr, hl⟩ := List.pairwise_cons.mp h
  refine List.pairwise_cons.mpr ⟨fun t ht => ?_, hl.of_cons⟩
  have := hr t (List.mem_cons_of_mem s ht)
  rw [hull_lo_toNat]
  omega

theorem lo_le_of_mem_joinFrom {l : List ByteRange} : ∀ {r : ByteRange}, Ascending (r :: l) →
    ∀ t ∈ joinFrom r l, r.lo.toNat ≤ t.lo.toNat := by
  induction l with
  | nil => simp [joinFrom]
  | cons s rest ih =>
    intro r h t ht
    have hrs := List.rel_of_pairwise_cons h List.mem_cons_self
    rw [joinFrom] at ht
    split at ht
    · rcases List.mem_cons.mp ht with rfl | ht
      · exact Nat.le_refl _
      · exact Nat.le_trans hrs (ih h.of_cons t ht)
    · have := ih (ascending_hull h) t ht
      rw [hull_lo_toNat] at this
      omega

/-- Joining the ranges of an ascending list separates them. -/
theorem pairwise_joinFrom {l : List ByteRange} : ∀ {r : ByteRange}, Ascending (r :: l) →
    (joinFrom r l).Pairwise Before := by
  induction l with
  | nil => simp [joinFrom]
  | cons s rest ih =>
    intro r h
    rw [joinFrom]
    split
    · next hrs =>
      refine List.pairwise_cons.mpr ⟨fun t ht => ?_, ih h.of_cons⟩
      exact Nat.lt_of_lt_of_le hrs (lo_le_of_mem_joinFrom h.of_cons t ht)
    · exact ih (ascending_hull h)

/-- Normal lists of ranges are separated. -/
theorem pairwise_normalize (rs : List ByteRange) : (normalize rs).Pairwise Before := by
  have hsorted := ascending_mergeSort rs
  unfold normalize
  split
  · exact .nil
  · next r rest heq => exact pairwise_joinFrom (heq ▸ hsorted)

/-- The bytes of a list of ranges. -/
def Covers (l : List ByteRange) (b : UInt8) : Prop := ∃ r ∈ l, b ∈ r

@[simp] theorem covers_nil (b : UInt8) : ¬ Covers [] b := by simp [Covers]

@[simp] theorem covers_cons {r : ByteRange} {l : List ByteRange} {b : UInt8} :
    Covers (r :: l) b ↔ b ∈ r ∨ Covers l b := by simp [Covers]

@[simp] theorem covers_append {l m : List ByteRange} {b : UInt8} :
    Covers (l ++ m) b ↔ Covers l b ∨ Covers m b := by
  induction l with
  | nil => simp
  | cons r rest ih => simp [ih, or_assoc]

theorem covers_joinFrom {b : UInt8} {l : List ByteRange} : ∀ {r : ByteRange},
    Ascending (r :: l) → (Covers (joinFrom r l) b ↔ Covers (r :: l) b) := by
  induction l with
  | nil => simp [joinFrom]
  | cons s rest ih =>
    intro r h
    have hrs := List.rel_of_pairwise_cons h List.mem_cons_self
    have hs := s.toNat_lo_le_hi
    rw [joinFrom]
    split
    · rw [covers_cons, ih h.of_cons, covers_cons, covers_cons, covers_cons]
    · next hbefore =>
      simp only [Before] at hbefore
      rw [ih (ascending_hull h), covers_cons, mem_hull (by omega) (by omega), covers_cons,
        covers_cons, or_assoc]

/-- Normalizing a list of ranges keeps its bytes. -/
theorem covers_normalize {b : UInt8} (rs : List ByteRange) :
    Covers (normalize rs) b ↔ Covers rs b := by
  have hsorted := ascending_mergeSort rs
  have hsame : Covers (rs.mergeSort atMost) b ↔ Covers rs b := by
    simp only [Covers, (List.mergeSort_perm rs atMost).mem_iff]
  rw [← hsame]
  unfold normalize
  split
  · next heq => rw [heq]
  · next r rest heq => rw [covers_joinFrom (heq ▸ hsorted), heq]

/-- Whether a byte is in one of some ascending ranges. Of two or more ranges, the lower bound of the
middle one rules out those on one side of it. -/
def search (b : UInt8) (l : List ByteRange) : Bool :=
  if _ : l.length ≤ 1 then l.any (·.contains b)
  else
    match _h : l.drop (l.length / 2) with
    | [] => false
    | m :: upper =>
      if b < m.lo then search b (l.take (l.length - l.length / 2))
      else search b (m :: upper)
termination_by l.length
decreasing_by
  · rw [List.length_take]
    omega
  · rw [← _h, List.length_drop]
    omega

/-- In an ascending list of separated ranges, the search finds the bytes of the list. -/
theorem search_iff {b : UInt8} {l : List ByteRange} (h : l.Pairwise Before) :
    search b l = true ↔ Covers l b := by
  fun_induction search b l with
  | case1 l hlength => simp [Covers]
  | case2 l hlength hdrop =>
    have := congrArg List.length hdrop
    rw [List.length_drop, List.length_nil] at this
    omega
  | case3 l hlength m upper hdrop hlow ih =>
    rw [ih (h.sublist (List.take_sublist _ _))]
    have hsplit : l = l.take (l.length / 2) ++ m :: upper := by
      rw [← hdrop, List.take_append_drop]
    -- The byte is below the middle, so it is in no range from there on.
    have hupper : ¬ Covers (m :: upper) b := by
      rintro ⟨r, hr, hb⟩
      have hm : m.lo.toNat ≤ r.lo.toNat := by
        rcases List.mem_cons.mp hr with rfl | hr
        · exact Nat.le_refl _
        · have hafter := List.rel_of_pairwise_cons (List.pairwise_append.mp (hsplit ▸ h)).2.1 hr
          have := m.toNat_lo_le_hi
          simp only [Before] at hafter
          omega
      rw [mem_iff_toNat] at hb
      rw [UInt8.lt_iff_toNat_lt] at hlow
      omega
    constructor
    · exact fun ⟨r, hr, hb⟩ => ⟨r, List.mem_of_mem_take hr, hb⟩
    · intro hcovers
      rw [hsplit, covers_append, or_iff_left hupper] at hcovers
      obtain ⟨r, hr, hb⟩ := hcovers
      exact ⟨r, List.take_subset_take_left l (by omega) hr, hb⟩
  | case4 l hlength m upper hdrop hhigh ih =>
    have hsplit : l = l.take (l.length / 2) ++ m :: upper := by
      rw [← hdrop, List.take_append_drop]
    obtain ⟨_, hrest, hbefore⟩ := List.pairwise_append.mp (hsplit ▸ h)
    rw [ih hrest, hsplit, covers_append, or_iff_right]
    -- The byte is not below the middle, so it is behind all ranges before it.
    rintro ⟨r, hr, hb⟩
    have hrm := hbefore r hr m List.mem_cons_self
    simp only [Before] at hrm
    rw [mem_iff_toNat] at hb
    rw [UInt8.lt_iff_toNat_lt] at hhigh
    omega

/-- The ranges of the bytes from `next` on that an ascending list of ranges leaves out. -/
def gapsFrom (next : Nat) : List ByteRange → List ByteRange
  | [] => (upTo next 256).toList
  | r :: rest => (upTo next r.lo.toNat).toList ++ gapsFrom (r.hi.toNat + 1) rest

theorem mem_upTo {start stop : Nat} {r : ByteRange} (h : upTo start stop = some r) :
    start < stop ∧ r.lo.toNat = start ∧ r.hi.toNat + 1 = stop := by
  unfold upTo at h
  split at h
  · obtain rfl := Option.some.inj h
    refine ⟨by omega, ?_, ?_⟩ <;> simp only [UInt8.toNat_ofNat'] <;> omega
  · simp at h

theorem le_lo_of_mem_gapsFrom {l : List ByteRange} : ∀ {next : Nat},
    (∀ r ∈ l, next ≤ r.lo.toNat) → l.Pairwise Before →
    ∀ g ∈ gapsFrom next l, next ≤ g.lo.toNat := by
  induction l with
  | nil =>
    intro next _ _ g hg
    simp only [gapsFrom, Option.mem_toList] at hg
    have := mem_upTo hg
    omega
  | cons r rest ih =>
    intro next hl hp g hg
    have hr := hl r (by simp)
    have hp := List.pairwise_cons.mp hp
    simp only [gapsFrom, List.mem_append, Option.mem_toList] at hg
    rcases hg with hg | hg
    · have := mem_upTo hg
      omega
    · have hle : ∀ s ∈ rest, r.hi.toNat + 1 ≤ s.lo.toNat := by
        intro s hs
        have := hp.1 s hs
        simp only [Before] at this
        omega
      have := ih hle hp.2 g hg
      have := r.toNat_lo_le_hi
      omega

/-- The gaps of a canonical list are themselves apart. -/
theorem pairwise_gapsFrom {l : List ByteRange} : ∀ {next : Nat},
    l.Pairwise Before → (gapsFrom next l).Pairwise Before := by
  induction l with
  | nil =>
    intro next _
    simp only [gapsFrom]
    cases upTo next 256 <;> simp
  | cons r rest ih =>
    intro next hp
    have hp := List.pairwise_cons.mp hp
    have hle : ∀ s ∈ rest, r.hi.toNat + 1 ≤ s.lo.toNat := by
      intro s hs
      have := hp.1 s hs
      simp only [Before] at this
      omega
    simp only [gapsFrom]
    refine List.pairwise_append.mpr ⟨?_, ih hp.2, ?_⟩
    · cases upTo next r.lo.toNat <;> simp
    · intro g hg h hh
      have hg := mem_upTo (Option.mem_toList.mp hg)
      have hh := le_lo_of_mem_gapsFrom hle hp.2 h hh
      have := r.toNat_lo_le_hi
      simp only [Before]
      omega

theorem covers_upTo {start stop : Nat} {b : UInt8} (h : stop ≤ 256) :
    Covers (upTo start stop).toList b ↔ start ≤ b.toNat ∧ b.toNat < stop := by
  unfold Covers
  cases hr : upTo start stop with
  | none =>
    simp only [upTo, dite_eq_right_iff, reduceCtorEq, imp_false, not_and, Nat.not_le] at hr
    simp
    omega
  | some r =>
    have := mem_upTo hr
    simp only [Option.toList_some, List.mem_singleton, exists_eq_left, mem_iff_toNat]
    omega

/-- The gaps from `next` on hold the bytes from `next` on that no range of the list holds. -/
theorem covers_gapsFrom {b : UInt8} {l : List ByteRange} : ∀ {next : Nat},
    (∀ r ∈ l, next ≤ r.lo.toNat) → l.Pairwise Before →
    (Covers (gapsFrom next l) b ↔ next ≤ b.toNat ∧ ¬ Covers l b) := by
  induction l with
  | nil =>
    intro next _ _
    have := b.toNat_lt
    simp only [gapsFrom, covers_upTo (Nat.le_refl 256)]
    simp [Covers]
    omega
  | cons r rest ih =>
    intro next hl hp
    have hr := hl r (by simp)
    have hp := List.pairwise_cons.mp hp
    have hle : ∀ s ∈ rest, r.hi.toNat + 1 ≤ s.lo.toNat := by
      intro s hs
      have := hp.1 s hs
      simp only [Before] at this
      omega
    have hlow : Covers rest b → r.hi.toNat + 1 ≤ b.toNat := by
      rintro ⟨s, hs, hb⟩
      have := hle s hs
      rw [mem_iff_toNat] at hb
      omega
    have := r.lo.toNat_lt
    have := r.toNat_lo_le_hi
    rw [gapsFrom, covers_append, covers_cons, covers_upTo (by omega), ih hle hp.2, mem_iff_toNat]
    grind

end ByteRange

/-- A set of bytes, as ascending ranges that do not touch. -/
structure ByteSet where
  ranges : List ByteRange
  canonical : ranges.Pairwise ByteRange.Before
deriving DecidableEq

namespace ByteSet

open ByteRange (Covers Before normalize search gapsFrom)

instance : Membership UInt8 ByteSet := ⟨fun s b => Covers s.ranges b⟩

theorem mem_iff_covers {b : UInt8} {s : ByteSet} : b ∈ s ↔ Covers s.ranges b := Iff.rfl

/-- The set without bytes. -/
def empty : ByteSet := ⟨[], List.Pairwise.nil⟩

/-- The set of all bytes. -/
def full : ByteSet := ⟨[ByteRange.full], List.pairwise_singleton _ _⟩

/-- Whether the set has no bytes. -/
def isEmpty (s : ByteSet) : Bool := s.ranges.isEmpty

/-- Whether the set has all bytes. -/
def isFull (s : ByteSet) : Bool := s.ranges == [ByteRange.full]

/-- The number of ranges of the set. -/
def size (s : ByteSet) : Nat := s.ranges.length

/-- The only range of the set, if it has exactly one. -/
def single? (s : ByteSet) : Option ByteRange :=
  match s.ranges with
  | [r] => some r
  | _ => none

/-- Whether a byte is in the set. -/
def contains (s : ByteSet) (b : UInt8) : Bool := search b s.ranges

/-- The set of the bytes of some ranges. -/
def ofRanges (rs : List ByteRange) : ByteSet := ⟨normalize rs, ByteRange.pairwise_normalize rs⟩

/-- The set with the bytes of a list of ranges added. -/
def insertRanges (s : ByteSet) (rs : List ByteRange) : ByteSet := ofRanges (s.ranges ++ rs)

/-- The set with the bytes of a range added. -/
def insertRange (s : ByteSet) (r : ByteRange) : ByteSet := s.insertRanges [r]

/-- The set with the bytes between two bounds added, in whichever order they are given. -/
def insert (s : ByteSet) (a b : UInt8) : ByteSet := s.insertRange (ByteRange.between a b)

/-- The set with the bytes between each pair of bounds added. -/
def insertPairs (s : ByteSet) (ps : List (UInt8 × UInt8)) : ByteSet :=
  s.insertRanges (ps.map fun p => ByteRange.between p.1 p.2)

/-- The bytes between the bounds of some pair of a list. -/
def ofPairs (ps : List (UInt8 × UInt8)) : ByteSet := empty.insertPairs ps

/-- The bytes of either set. -/
def union (s t : ByteSet) : ByteSet := s.insertRanges t.ranges

/-- The bytes not in the set. -/
def complement (s : ByteSet) : ByteSet :=
  ⟨gapsFrom 0 s.ranges, ByteRange.pairwise_gapsFrom s.canonical⟩

/-- The order of two lists of ranges: by the first bounds in which they differ, a list before its
extensions. -/
def compareRanges : List ByteRange → List ByteRange → Ordering
  | [], [] => .eq
  | [], _ :: _ => .lt
  | _ :: _, [] => .gt
  | r :: rs, s :: ss =>
    ((compare r.lo s.lo).then (compare r.hi s.hi)).then (compareRanges rs ss)

/-- The lexicographic order of the lists of ranges of two sets. -/
def order (s t : ByteSet) : Ordering := compareRanges s.ranges t.ranges

/-- The text of a set: its ranges in braces. -/
def describe (s : ByteSet) : String :=
  "\x7b" ++ ", ".intercalate (s.ranges.map ByteRange.describe) ++ "\x7d"

@[simp] theorem contains_iff {s : ByteSet} {b : UInt8} : s.contains b = true ↔ b ∈ s :=
  ByteRange.search_iff s.canonical

@[simp] theorem not_mem_empty (b : UInt8) : ¬ b ∈ empty := by simp [mem_iff_covers, empty]

@[simp] theorem mem_full (b : UInt8) : b ∈ full := by simp [mem_iff_covers, full]

@[simp] theorem mem_insertRanges {s : ByteSet} {rs : List ByteRange} {b : UInt8} :
    b ∈ s.insertRanges rs ↔ Covers rs b ∨ b ∈ s :=
  (ByteRange.covers_normalize _).trans (ByteRange.covers_append.trans or_comm)

@[simp] theorem mem_insertRange {s : ByteSet} {r : ByteRange} {b : UInt8} :
    b ∈ s.insertRange r ↔ b ∈ r ∨ b ∈ s := by
  simp [insertRange]

@[simp] theorem mem_union {s t : ByteSet} {b : UInt8} : b ∈ s.union t ↔ b ∈ t ∨ b ∈ s :=
  mem_insertRanges

@[simp] theorem mem_complement {s : ByteSet} {b : UInt8} : b ∈ s.complement ↔ ¬ b ∈ s := by
  have h : Covers (gapsFrom 0 s.ranges) b ↔ 0 ≤ b.toNat ∧ ¬ Covers s.ranges b :=
    ByteRange.covers_gapsFrom (fun _ _ => Nat.zero_le _) s.canonical
  rw [mem_iff_covers, mem_iff_covers]
  exact h.trans (and_iff_right (Nat.zero_le _))

end ByteSet

end Munch

import Munch.Proofs.Adjacent
import Munch.Proofs.Run

set_option autoImplicit false

/-! # Sites of a program

The sites of a program are the offsets at which it consumes or accepts, in ascending order. In the
code of an expression they are the positions of the expression: the `rank` of a site, which is the
number of sites before it, is the number of its position. What threads reach without consuming is
then a matter of first, last and adjacent positions (`Code.passes_iff`, `Code.passes_succ_iff`). -/

namespace Munch

namespace Program

variable {p : Program} {a b t n : Nat}

/-! ## Ranks -/

/-- The number of sites before an offset. -/
def rank (p : Program) (a : Nat) : Nat := (List.range a).countP p.isKernelInst

theorem rank_succ (p : Program) (a : Nat) :
    p.rank (a + 1) = p.rank a + if p.isKernelInst a then 1 else 0 := by
  rw [rank, List.range_succ, List.countP_append, List.countP_singleton]
  rfl

theorem rank_succ_of_site (h : p.isKernelInst a = true) : p.rank (a + 1) = p.rank a + 1 := by
  rw [rank_succ, if_pos h]

theorem rank_succ_of_not_site (h : p.isKernelInst a = false) : p.rank (a + 1) = p.rank a := by
  rw [rank_succ, if_neg (by simp [h]), Nat.add_zero]

theorem rank_le (h : a ≤ b) : p.rank a ≤ p.rank b := by
  induction h with
  | refl => exact Nat.le_refl _
  | step _ ih => exact Nat.le_trans ih (by rw [rank_succ]; exact Nat.le_add_right _ _)

theorem rank_lt (ha : p.isKernelInst a = true) (h : a < b) : p.rank a < p.rank b :=
  calc p.rank a < p.rank (a + 1) := by rw [rank_succ_of_site ha]; exact Nat.lt_succ_self _
    _ ≤ p.rank b := rank_le h

/-- Sites of equal rank are equal. -/
theorem eq_of_rank_eq (ha : p.isKernelInst a = true) (hb : p.isKernelInst b = true)
    (h : p.rank a = p.rank b) : a = b := by
  rcases Nat.lt_trichotomy a b with hlt | heq | hlt
  · exact absurd h (Nat.ne_of_lt (rank_lt ha hlt))
  · exact heq
  · exact absurd h.symm (Nat.ne_of_lt (rank_lt hb hlt))

theorem isKernelInst_consume {r : ByteRange} (h : p.insts[a]? = some (.consume r)) :
    p.isKernelInst a = true := by simp [isKernelInst, h]

theorem isKernelInst_accept {k : Nat} (h : p.insts[a]? = some (.accept k)) :
    p.isKernelInst a = true := by simp [isKernelInst, h]

theorem rank_split {x y : Nat} (h : p.insts[a]? = some (.split x y)) :
    p.rank (a + 1) = p.rank a := rank_succ_of_not_site (by simp [isKernelInst, h])

theorem rank_jump {x : Nat} (h : p.insts[a]? = some (.jump x)) : p.rank (a + 1) = p.rank a :=
  rank_succ_of_not_site (by simp [isKernelInst, h])

/-! ## Passing without consuming -/

/-- A thread can go from one offset to another without consuming. -/
def Passes (p : Program) (a b : Nat) : Prop := ∃ n, p.Run n a [] b

theorem Passes.refl (p : Program) (a : Nat) : p.Passes a a := ⟨0, .refl a⟩

theorem Passes.trans {c : Nat} (h : p.Passes a b) (h' : p.Passes b c) : p.Passes a c := by
  obtain ⟨n, hn⟩ := h
  obtain ⟨m, hm⟩ := h'
  exact ⟨n + m, hn.trans hm⟩

theorem passes_split {x y : Nat} (h : p.insts[a]? = some (.split x y))
    (ht : p.isKernelInst t = true) : p.Passes a t ↔ p.Passes x t ∨ p.Passes y t := by
  constructor
  · intro ⟨n, hrun⟩
    obtain ⟨m, rfl, hrun | hrun⟩ := hrun.of_split h ht
    · exact .inl ⟨m, hrun⟩
    · exact .inr ⟨m, hrun⟩
  · rintro (⟨n, hrun⟩ | ⟨n, hrun⟩)
    · exact ⟨n + 1, .left h hrun⟩
    · exact ⟨n + 1, .right h hrun⟩

theorem passes_jump {x : Nat} (h : p.insts[a]? = some (.jump x))
    (ht : p.isKernelInst t = true) : p.Passes a t ↔ p.Passes x t := by
  constructor
  · intro ⟨n, hrun⟩
    obtain ⟨m, rfl, hrest⟩ := hrun.of_jump h ht
    exact ⟨m, hrest⟩
  · intro ⟨n, hrun⟩
    exact ⟨n + 1, .jump h hrun⟩

/-- A thread at a site stays there. -/
theorem Run.eq_of_site (hrun : p.Run n a [] t) (ha : p.isKernelInst a = true) : t = a := by
  cases hrun with
  | refl => rfl
  | left h => simp [isKernelInst, h] at ha
  | right h => simp [isKernelInst, h] at ha
  | jump h => simp [isKernelInst, h] at ha

theorem passes_of_site (ha : p.isKernelInst a = true) : p.Passes a t ↔ t = a := by
  constructor
  · intro ⟨n, hrun⟩
    exact hrun.eq_of_site ha
  · rintro rfl
    exact .refl p t

end Program

open Regex (First FirstAll Last Adjacent AdjacentAll)

/-! ## Code of expressions -/

namespace Code

variable {p : Program} {base stop : Nat} {r : Regex}

theorem rank_stop (h : Code p base stop r) : p.rank stop = p.rank base + r.width := by
  induction h with
  | byte h | range h => exact Program.rank_succ_of_site (Program.isKernelInst_consume h)
  | nil => rfl
  | cons _ _ ihr ihrest =>
    simp only [Regex.width, Regex.widthAll] at ihrest ⊢
    omega
  | alt hsplit _ hjump _ iha ihb =>
    rw [Program.rank_split hsplit] at iha
    rw [Program.rank_jump hjump] at ihb
    simp only [Regex.width]
    omega
  | star hsplit _ hjump ih =>
    rw [Program.rank_split hsplit] at ih
    rw [Program.rank_jump hjump, ih]
    rfl
  | plus _ hsplit ih =>
    rw [Program.rank_split hsplit, ih]
    rfl
  | maybe hsplit _ ih =>
    rw [Program.rank_split hsplit] at ih
    exact ih

/-- A site in the code of an expression is one of its positions. -/
theorem within_rank (h : Code p base stop r) {a : Nat} (ha : p.isKernelInst a = true)
    (hbase : base ≤ a) (hstop : a < stop) : r.Within (p.rank base) (p.rank a) :=
  ⟨Program.rank_le hbase, h.rank_stop ▸ Program.rank_lt ha hstop⟩

/-- Code of an expression that matches the empty text can be passed through. -/
theorem passes_of_nullable (h : Code p base stop r) (hnull : r.nullable = true) :
    p.Passes base stop := by
  induction h with
  | byte | range => exact absurd hnull (by simp [Regex.nullable])
  | nil => exact .refl p _
  | cons _ _ ihr ihrest =>
    obtain ⟨hr, hrest⟩ := Bool.and_eq_true_iff.mp hnull
    exact (ihr hr).trans (ihrest hrest)
  | alt hsplit _ hjump _ iha ihb =>
    rcases Bool.or_eq_true_iff.mp hnull with hnull | hnull
    · obtain ⟨n, hn⟩ := (iha hnull).trans ⟨1, .jump hjump (.refl _)⟩
      exact ⟨n + 1, .left hsplit hn⟩
    · obtain ⟨n, hn⟩ := ihb hnull
      exact ⟨n + 1, .right hsplit hn⟩
  | star hsplit => exact ⟨1, .right hsplit (.refl _)⟩
  | plus _ hsplit ih => exact (ih hnull).trans ⟨1, .right hsplit (.refl _)⟩
  | maybe hsplit => exact ⟨1, .right hsplit (.refl _)⟩

variable {t : Nat}

/-- A thread at the start of the code of an expression can go to its first positions. -/
theorem passes_of_first (h : Code p base stop r) (ht : p.isKernelInst t = true)
    (hfirst : r.First (p.rank base) (p.rank t)) : p.Passes base t := by
  induction h with
  | byte h | range h =>
    have hsite := Program.isKernelInst_consume h
    exact (Program.passes_of_site hsite).mpr (Program.eq_of_rank_eq ht hsite hfirst)
  | nil => exact False.elim hfirst
  | cons hr hrest ihr ihrest =>
    rcases hfirst with hfirst | ⟨hnull, hfirst⟩
    · exact ihr hfirst
    · rw [← hr.rank_stop] at hfirst
      exact (hr.passes_of_nullable hnull).trans (ihrest hfirst)
  | alt hsplit ha hjump _ iha ihb =>
    have hrank := Program.rank_split hsplit
    have hrank' := Program.rank_jump hjump
    rw [Program.passes_split hsplit ht]
    rcases hfirst with hfirst | hfirst
    · exact .inl (iha (hrank ▸ hfirst))
    · rw [← hrank, ← ha.rank_stop, ← hrank'] at hfirst
      exact .inr (ihb hfirst)
  | star hsplit _ _ ih =>
    have hrank := Program.rank_split hsplit
    exact (Program.passes_split hsplit ht).mpr (.inl (ih (hrank ▸ hfirst)))
  | plus _ _ ih => exact ih hfirst
  | maybe hsplit _ ih =>
    have hrank := Program.rank_split hsplit
    exact (Program.passes_split hsplit ht).mpr (.inl (ih (hrank ▸ hfirst)))

/-- A thread at the start of the code of an expression goes to a first position, or passes through
    the code of an expression that matches the empty text. -/
theorem first_of_run (h : Code p base stop r) (ht : p.isKernelInst t = true) {n : Nat}
    (hrun : p.Run n base [] t) :
    r.First (p.rank base) (p.rank t) ∨ (r.nullable = true ∧ ∃ m ≤ n, p.Run m stop [] t) := by
  induction h generalizing n with
  | byte h | range h =>
    have hsite := Program.isKernelInst_consume h
    exact .inl (congrArg p.rank (hrun.eq_of_site hsite))
  | nil => exact .inr ⟨rfl, n, Nat.le_refl n, hrun⟩
  | cons hr _ ihr ihrest =>
    rcases ihr hrun with hfirst | ⟨hnull, m, hm, hmid⟩
    · exact .inl (.inl hfirst)
    · rcases ihrest hmid with hfirst | ⟨hnull', m', hm', hexit⟩
      · rw [hr.rank_stop] at hfirst
        exact .inl (.inr ⟨hnull, hfirst⟩)
      · exact .inr ⟨Bool.and_eq_true_iff.mpr ⟨hnull, hnull'⟩, m', by omega, hexit⟩
  | alt hsplit ha hjump _ iha ihb =>
    have hrank := Program.rank_split hsplit
    have hrank' := Program.rank_jump hjump
    obtain ⟨n, rfl, hleft | hright⟩ := hrun.of_split hsplit ht
    · rcases iha hleft with hfirst | ⟨hnull, m, hm, hend⟩
      · exact .inl (.inl (hrank ▸ hfirst))
      · obtain ⟨m, rfl, hexit⟩ := hend.of_jump hjump ht
        exact .inr ⟨Bool.or_eq_true_iff.mpr (.inl hnull), m, by omega, hexit⟩
    · rcases ihb hright with hfirst | ⟨hnull, m, hm, hexit⟩
      · rw [hrank', ha.rank_stop, hrank] at hfirst
        exact .inl (.inr hfirst)
      · exact .inr ⟨Bool.or_eq_true_iff.mpr (.inr hnull), m, by omega, hexit⟩
  | star hsplit _ hjump ih =>
    have hrank := Program.rank_split hsplit
    induction n using Nat.strong_induction_on with
    | _ n ihn =>
    obtain ⟨n, rfl, hround | hexit⟩ := hrun.of_split hsplit ht
    -- If a round consumes nothing, the run comes back to the split, and less of it is left.
    · rcases ih hround with hfirst | ⟨_, m, hm, hend⟩
      · exact .inl (hrank ▸ hfirst)
      · obtain ⟨m, rfl, hagain⟩ := hend.of_jump hjump ht
        rcases ihn m (by omega) hagain with hfirst | ⟨hnull, m', hm', hexit⟩
        · exact .inl hfirst
        · exact .inr ⟨hnull, m', by omega, hexit⟩
    · exact .inr ⟨rfl, n, Nat.le_succ n, hexit⟩
  | plus _ hsplit ih =>
    induction n using Nat.strong_induction_on with
    | _ n ihn =>
    rcases ih hrun with hfirst | ⟨hnull, m, hm, hend⟩
    · exact .inl hfirst
    · obtain ⟨m, rfl, hagain | hexit⟩ := hend.of_split hsplit ht
      · rcases ihn m (by omega) hagain with hfirst | ⟨hnull, m', hm', hexit⟩
        · exact .inl hfirst
        · exact .inr ⟨hnull, m', by omega, hexit⟩
      · exact .inr ⟨hnull, m, by omega, hexit⟩
  | maybe hsplit _ ih =>
    have hrank := Program.rank_split hsplit
    obtain ⟨n, rfl, htaken | hexit⟩ := hrun.of_split hsplit ht
    · rcases ih htaken with hfirst | ⟨_, m, hm, hexit⟩
      · exact .inl (hrank ▸ hfirst)
      · exact .inr ⟨rfl, m, by omega, hexit⟩
    · exact .inr ⟨rfl, n, Nat.le_succ n, hexit⟩

/-- What a thread at the start of the code of an expression can reach. -/
theorem passes_iff (h : Code p base stop r) (ht : p.isKernelInst t = true) :
    p.Passes base t ↔
      r.First (p.rank base) (p.rank t) ∨ (r.nullable = true ∧ p.Passes stop t) := by
  constructor
  · intro ⟨n, hrun⟩
    rcases h.first_of_run ht hrun with hfirst | ⟨hnull, m, _, hexit⟩
    · exact .inl hfirst
    · exact .inr ⟨hnull, m, hexit⟩
  · rintro (hfirst | ⟨hnull, hexit⟩)
    · exact h.passes_of_first ht hfirst
    · exact (h.passes_of_nullable hnull).trans hexit

/-- After a position, a thread goes to an adjacent one, or leaves the code if the position is a last
    one. -/
theorem passes_succ_iff (h : Code p base stop r) (ht : p.isKernelInst t = true) {a : Nat}
    (ha : p.isKernelInst a = true) (hbase : base ≤ a) (hstop : a < stop) :
    p.Passes (a + 1) t ↔ r.Adjacent (p.rank base) (p.rank a) (p.rank t) ∨
      (r.Last (p.rank base) (p.rank a) ∧ p.Passes stop t) := by
  induction h with
  | @byte base b h =>
    obtain rfl : a = base := by omega
    simp [Adjacent, Last]
  | @range base r h =>
    obtain rfl : a = base := by omega
    simp [Adjacent, Last]
  | nil => omega
  | @cons base mid stop r rest hr hrest ihr ihrest =>
    have hrank := hr.rank_stop
    rcases Nat.lt_or_ge a mid with hmid | hmid
    · have hin := hr.within_rank ha hbase hmid
      have hnext := hrest.passes_iff ht
      rw [hrank] at hnext
      -- From a last position of the head, the thread goes on to the rest, or passes through it.
      rw [ihr hbase hmid, hnext, Regex.adjacent_cat_from_head hin, Regex.last_cat_head hin]
      simp only [and_or_left, or_assoc, and_assoc]
    · have hin := hrest.within_rank ha hmid hstop
      rw [hrank] at hin
      rw [ihrest hmid hstop, hrank, Regex.adjacent_cat_from_tail hin, Regex.last_cat_tail hin]
  | @alt base next stop l r hsplit hl hjump hr ihl ihr =>
    have hrank := Program.rank_split hsplit
    have hrank' := Program.rank_jump hjump
    have hmid := hl.rank_stop
    rw [hrank] at hmid ihl
    rw [hrank', hmid] at ihr
    have hne : a ≠ base := by
      rintro rfl
      simp [Program.isKernelInst, hsplit] at ha
    have hne' : a ≠ next := by
      rintro rfl
      simp [Program.isKernelInst, hjump] at ha
    -- The position is in one of the sides, and nothing in the other one is adjacent to it.
    rcases Nat.lt_or_ge a next with hnext | hnext
    · have hin := hl.within_rank ha (by omega) hnext
      rw [hrank] at hin
      rw [ihl (by omega) hnext, Program.passes_jump hjump ht,
        Regex.adjacent_alt_from_left hin, Regex.last_alt_left hin]
    · have hin := hr.within_rank ha (by omega) hstop
      rw [hrank', hmid] at hin
      rw [ihr (by omega) hstop, Regex.adjacent_alt_from_right hin, Regex.last_alt_right hin]
  | @star base back r hsplit hr hjump ih =>
    have hne : a ≠ base := by
      rintro rfl
      simp [Program.isKernelInst, hsplit] at ha
    have hne' : a ≠ back := by
      rintro rfl
      simp [Program.isKernelInst, hjump] at ha
    rw [Program.rank_split hsplit] at ih
    -- After the body control is back at the split, so it goes to a first position or leaves.
    rw [ih (by omega) (by omega), Program.passes_jump hjump ht,
      (Code.star hsplit hr hjump).passes_iff ht]
    simp only [Adjacent, Last, First, Regex.nullable, true_and, and_or_left, or_assoc]
  | @plus base back r hr hsplit ih =>
    have hne : a ≠ back := by
      rintro rfl
      simp [Program.isKernelInst, hsplit] at ha
    rw [ih hbase (by omega), Program.passes_split hsplit ht, (Code.plus hr hsplit).passes_iff ht]
    simp only [Adjacent, Last, First, and_or_left, or_assoc]
    exact or_congr_right (or_congr_right (or_iff_right_of_imp fun h => ⟨h.1, h.2.2⟩))
  | @maybe base stop r hsplit hr ih =>
    have hne : a ≠ base := by
      rintro rfl
      simp [Program.isKernelInst, hsplit] at ha
    rw [Program.rank_split hsplit] at ih
    exact ih (by omega) hstop

end Code

/-! ## Code of pattern sets -/

namespace PatternsCode

variable {p : Program} {base stop id t : Nat} {re : Regex} {rs : List Regex}

theorem rank_stop (h : PatternsCode p base stop id re rs) :
    p.rank stop = p.rank base + re.width := by
  induction h with
  | pattern hr haccept =>
    rw [Program.rank_succ_of_site (Program.isKernelInst_accept haccept), hr.rank_stop]
    rfl
  | either hsplit _ _ iha ihb =>
    rw [Program.rank_split hsplit] at iha
    simp only [Regex.width]
    omega

theorem within_rank (h : PatternsCode p base stop id re rs) {a : Nat}
    (ha : p.isKernelInst a = true) (hbase : base ≤ a) (hstop : a < stop) :
    re.Within (p.rank base) (p.rank a) :=
  ⟨Program.rank_le hbase, h.rank_stop ▸ Program.rank_lt ha hstop⟩

/-- A thread at the start of the code of a pattern set can go to its first positions. -/
theorem passes_iff (h : PatternsCode p base stop id re rs) (ht : p.isKernelInst t = true) :
    p.Passes base t ↔ re.First (p.rank base) (p.rank t) := by
  induction h with
  | @pattern base mid id r hr haccept =>
    have hsite := Program.isKernelInst_accept haccept
    have hend : t = mid ↔ p.rank t = p.rank base + r.width := by
      rw [← hr.rank_stop]
      exact ⟨congrArg p.rank, Program.eq_of_rank_eq ht hsite⟩
    rw [hr.passes_iff ht, Program.passes_of_site hsite, hend]
    simp [First, FirstAll]
  | either hsplit ha _ iha ihb =>
    rw [ha.rank_stop] at ihb
    rw [Program.rank_split hsplit] at iha ihb
    rw [Program.passes_split hsplit ht, iha, ihb]
    rfl

/-- After a position, a thread goes to an adjacent one. -/
theorem passes_succ_iff (h : PatternsCode p base stop id re rs) (ht : p.isKernelInst t = true)
    {a : Nat} {r : ByteRange} (ha : p.insts[a]? = some (.consume r)) (hbase : base ≤ a)
    (hstop : a < stop) :
    p.Passes (a + 1) t ↔ re.Adjacent (p.rank base) (p.rank a) (p.rank t) := by
  induction h with
  | @pattern base mid id r hr haccept =>
    have hne : a ≠ mid := by
      rintro rfl
      cases ha.symm.trans haccept
    have haccept := Program.isKernelInst_accept haccept
    have hend : t = mid ↔ p.rank t = p.rank base + r.width := by
      rw [← hr.rank_stop]
      exact ⟨congrArg p.rank, Program.eq_of_rank_eq ht haccept⟩
    have hsite := Program.isKernelInst_consume ha
    rw [hr.passes_succ_iff ht hsite hbase (by omega), Program.passes_of_site haccept, hend]
    simp [Adjacent, AdjacentAll, FirstAll, First]
  | @either base next stop id l r as bs hsplit hl hr ihl ihr =>
    have hsite := Program.isKernelInst_consume ha
    have hrank := Program.rank_split hsplit
    have hmid := hl.rank_stop
    have hne : a ≠ base := by
      rintro rfl
      cases ha.symm.trans hsplit
    rw [hrank] at hmid ihl
    rw [hmid] at ihr
    show _ ↔ (Regex.alt l r).Adjacent (p.rank base) (p.rank a) (p.rank t)
    rcases Nat.lt_or_ge a next with hnext | hnext
    · have hin := hl.within_rank hsite (by omega) hnext
      rw [hrank] at hin
      rw [ihl (by omega) hnext, Regex.adjacent_alt_from_left hin]
    · have hin := hr.within_rank hsite hnext hstop
      rw [hmid] at hin
      rw [ihr hnext hstop, Regex.adjacent_alt_from_right hin]

end PatternsCode

end Munch

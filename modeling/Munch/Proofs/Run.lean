import Munch.Proofs.Closure
import Munch.Proofs.Code

set_option autoImplicit false

/-! # Runs of threaded programs

`Program.Run p n a w b` says that a thread of `p` can go from offset `a` to offset `b` in `n` steps,
consuming the text `w`. The code of an expression consumes exactly the words of the expression on
its way from its start to its end (`Code.exists_run`, `Code.run_split`), and the code of a pattern
set accepts exactly the words of each pattern (`PatternsCode.run_iff`).

A run that leaves some code may come back to it, so `Code.run_split` looks for the first time that
the code is left. That the run up to there is shorter is what the loops go by induction on. -/

namespace Munch

open Computability

namespace Program

/-- A thread of a program goes from one offset to another, in a number of steps, and consumes a
    text on its way. -/
inductive Run (p : Program) : Nat → Nat → Bytes → Nat → Prop
  | refl (a : Nat) : Run p 0 a [] a
  | left {n a x y b : Nat} {w : Bytes} (h : p.insts[a]? = some (.split x y))
    (hrun : Run p n x w b) : Run p (n + 1) a w b
  | right {n a x y b : Nat} {w : Bytes} (h : p.insts[a]? = some (.split x y))
    (hrun : Run p n y w b) : Run p (n + 1) a w b
  | jump {n a x b : Nat} {w : Bytes} (h : p.insts[a]? = some (.jump x))
    (hrun : Run p n x w b) : Run p (n + 1) a w b
  | consume {n a b : Nat} {r : ByteRange} {c : UInt8} {w : Bytes}
    (h : p.insts[a]? = some (.consume r)) (hc : c ∈ r) (hrun : Run p n (a + 1) w b) :
    Run p (n + 1) a (c :: w) b

variable {p : Program} {n m a b c t k : Nat} {v w : Bytes}

theorem Run.trans (h : p.Run n a v b) (h' : p.Run m b w c) : p.Run (n + m) a (v ++ w) c := by
  induction h with
  | refl => simpa using h'
  | left hi _ ih => exact Nat.succ_add_eq_add_succ _ m ▸ .left hi (ih h')
  | right hi _ ih => exact Nat.succ_add_eq_add_succ _ m ▸ .right hi (ih h')
  | jump hi _ ih => exact Nat.succ_add_eq_add_succ _ m ▸ .jump hi (ih h')
  | consume hi hc _ ih => exact Nat.succ_add_eq_add_succ _ m ▸ .consume hi hc (ih h')

theorem pattern?_eq_some_iff : p.pattern? t = some k ↔ p.insts[t]? = some (.accept k) := by
  unfold pattern?
  split
  · next h => simp [h]
  · next h =>
    constructor
    · simp
    · intro heq
      exact absurd heq (h k)

theorem isKernelInst_of_pattern? (h : p.pattern? t = some k) : p.isKernelInst t = true := by
  simp [isKernelInst, pattern?_eq_some_iff.mp h]

/-! ## First steps of runs -/

theorem Run.of_split {x y : Nat} (hrun : p.Run n a w t) (h : p.insts[a]? = some (.split x y))
    (ht : p.isKernelInst t = true) : ∃ m, n = m + 1 ∧ (p.Run m x w t ∨ p.Run m y w t) := by
  cases hrun with
  | refl => simp [isKernelInst, h] at ht
  | left h' hrun =>
    cases h.symm.trans h'
    exact ⟨_, rfl, .inl hrun⟩
  | right h' hrun =>
    cases h.symm.trans h'
    exact ⟨_, rfl, .inr hrun⟩
  | jump h' => cases h.symm.trans h'
  | consume h' => cases h.symm.trans h'

theorem Run.of_jump {x : Nat} (hrun : p.Run n a w t) (h : p.insts[a]? = some (.jump x))
    (ht : p.isKernelInst t = true) : ∃ m, n = m + 1 ∧ p.Run m x w t := by
  cases hrun with
  | refl => simp [isKernelInst, h] at ht
  | left h' => cases h.symm.trans h'
  | right h' => cases h.symm.trans h'
  | jump h' hrun =>
    cases h.symm.trans h'
    exact ⟨_, rfl, hrun⟩
  | consume h' => cases h.symm.trans h'

/-- A run from a `consume` is at its end, or it consumes the first byte. -/
theorem Run.of_consume {r : ByteRange} (hrun : p.Run n a w t)
    (h : p.insts[a]? = some (.consume r)) :
    (w = [] ∧ t = a) ∨ ∃ m, n = m + 1 ∧ ∃ c ∈ r, ∃ v, w = c :: v ∧ p.Run m (a + 1) v t := by
  cases hrun with
  | refl => exact .inl ⟨rfl, rfl⟩
  | left h' => cases h.symm.trans h'
  | right h' => cases h.symm.trans h'
  | jump h' => cases h.symm.trans h'
  | consume h' hc hrun =>
    cases h.symm.trans h'
    exact .inr ⟨_, rfl, _, hc, _, rfl, hrun⟩

/-- A run that accepts does not end at a `consume`. -/
theorem Run.of_consume_of_accept {r : ByteRange} (hrun : p.Run n a w t)
    (h : p.insts[a]? = some (.consume r)) (ht : p.pattern? t = some k) :
    ∃ m, n = m + 1 ∧ ∃ c ∈ r, ∃ v, w = c :: v ∧ p.Run m (a + 1) v t := by
  rcases hrun.of_consume h with ⟨_, rfl⟩ | hstep
  · simp [pattern?, h] at ht
  · exact hstep

/-- A thread that accepts has ended. -/
theorem Run.of_accept (hrun : p.Run n a w b) (h : p.insts[a]? = some (.accept k)) :
    w = [] ∧ b = a := by
  cases hrun with
  | refl => exact ⟨rfl, rfl⟩
  | left h' => cases h.symm.trans h'
  | right h' => cases h.symm.trans h'
  | jump h' => cases h.symm.trans h'
  | consume h' => cases h.symm.trans h'

end Program

/-! ## Code and words -/

namespace Code

variable {p : Program} {base stop : Nat} {r : Regex}

/-- Words of a starred expression are taken round by round. -/
theorem exists_run_kstar {l : Language UInt8} {a : Nat}
    (hround : ∀ u ∈ l, ∃ n, p.Run n a u a) {w : Bytes} (hw : w ∈ l∗) : ∃ n, p.Run n a w a := by
  obtain ⟨words, rfl, hwords⟩ := Language.mem_kstar.mp hw
  induction words with
  | nil => exact ⟨0, .refl a⟩
  | cons u words ih =>
    obtain ⟨n, hn⟩ := hround u (hwords u (by simp))
    have hrest : ∀ y ∈ words, y ∈ l := fun y hy => hwords y (by simp [hy])
    obtain ⟨m, hm⟩ := ih hrest (Language.join_mem_kstar hrest)
    exact ⟨n + m, hn.trans hm⟩

/-- The code of an expression can consume each of its words from start to end. -/
theorem exists_run (h : Code p base stop r) {w : Bytes} (hw : w ∈ r.language) :
    ∃ n, p.Run n base w stop := by
  induction h generalizing w with
  | byte h =>
    obtain rfl := Regex.mem_language_byte.mp hw
    exact ⟨1, .consume h (by simp) (.refl _)⟩
  | range h =>
    obtain ⟨c, hc, rfl⟩ := Regex.mem_language_range.mp hw
    exact ⟨1, .consume h hc (.refl _)⟩
  | nil =>
    obtain rfl := (Language.mem_one w).mp hw
    exact ⟨0, .refl _⟩
  | cons hr hrest ihr ihrest =>
    obtain ⟨u, hu, v, hv, rfl⟩ := Language.mem_mul.mp hw
    obtain ⟨n, hn⟩ := ihr hu
    obtain ⟨m, hm⟩ := ihrest hv
    exact ⟨n + m, hn.trans hm⟩
  | alt hsplit ha hjump hb iha ihb =>
    rcases (Language.mem_add _ _ w).mp hw with hw | hw
    · obtain ⟨n, hn⟩ := iha hw
      have := hn.trans (.jump hjump (.refl _))
      exact ⟨_, .left hsplit (by simpa using this)⟩
    · obtain ⟨n, hn⟩ := ihb hw
      exact ⟨_, .right hsplit hn⟩
  | star hsplit hr hjump ih =>
    -- A round goes through the body and jumps back to the split.
    obtain ⟨n, hn⟩ := exists_run_kstar (fun u hu => by
      obtain ⟨n, hn⟩ := ih hu
      have := hn.trans (.jump hjump (.refl _))
      exact ⟨_, .left hsplit (by simpa using this)⟩) hw
    have := hn.trans (.right hsplit (.refl _))
    exact ⟨_, by simpa using this⟩
  | @plus base back r hr hsplit ih =>
    obtain ⟨u, hu, v, hv, rfl⟩ := Language.mem_mul.mp hw
    obtain ⟨n, hn⟩ := ih hu
    -- The rounds after the first begin at the split behind the body.
    obtain ⟨m, hm⟩ : ∃ m, p.Run m back v back := by
      refine exists_run_kstar (fun u hu => ?_) hv
      obtain ⟨n, hn⟩ := ih hu
      exact ⟨_, .left hsplit hn⟩
    have := (hn.trans hm).trans (.right hsplit (.refl _))
    exact ⟨_, by simpa using this⟩
  | maybe hsplit hr ih =>
    rcases (Language.mem_add _ _ w).mp hw with hw | hw
    · obtain rfl := (Language.mem_one w).mp hw
      exact ⟨1, .right hsplit (.refl _)⟩
    · obtain ⟨n, hn⟩ := ih hw
      exact ⟨_, .left hsplit hn⟩

/-- A run from the start of the code of an expression that accepts leaves the code after a word of
    the expression. -/
theorem run_split (h : Code p base stop r) {n t k : Nat} {w : Bytes} (hrun : p.Run n base w t)
    (ht : p.pattern? t = some k) :
    ∃ u ∈ r.language, ∃ v, w = u ++ v ∧ ∃ m ≤ n, p.Run m stop v t := by
  have hk := Program.isKernelInst_of_pattern? ht
  induction h generalizing n w with
  | byte h =>
    obtain ⟨m, rfl, c, hc, v, rfl, hexit⟩ := hrun.of_consume_of_accept h ht
    obtain rfl := ByteRange.mem_single.mp hc
    exact ⟨[c], rfl, v, rfl, m, Nat.le_succ m, hexit⟩
  | range h =>
    obtain ⟨m, rfl, c, hc, v, rfl, hexit⟩ := hrun.of_consume_of_accept h ht
    exact ⟨[c], ⟨c, hc, rfl⟩, v, rfl, m, Nat.le_succ m, hexit⟩
  | nil => exact ⟨[], rfl, w, rfl, n, Nat.le_refl n, hrun⟩
  | cons hr hrest ihr ihrest =>
    obtain ⟨u, hu, v, rfl, m, hm, hmid⟩ := ihr hrun
    obtain ⟨u', hu', v', rfl, m', hm', hexit⟩ := ihrest hmid
    exact ⟨u ++ u', Language.append_mem_mul hu hu', v', by simp, m', hm'.trans hm, hexit⟩
  | alt hsplit ha hjump hb iha ihb =>
    obtain ⟨n, rfl, hleft | hright⟩ := hrun.of_split hsplit hk
    · obtain ⟨u, hu, v, rfl, m, hm, hend⟩ := iha hleft
      obtain ⟨m, rfl, hexit⟩ := hend.of_jump hjump hk
      exact ⟨u, .inl hu, v, rfl, m, by omega, hexit⟩
    · obtain ⟨u, hu, v, rfl, m, hm, hexit⟩ := ihb hright
      exact ⟨u, .inr hu, v, rfl, m, by omega, hexit⟩
  | @star base back r hsplit hr hjump ih =>
    -- The run after a round is shorter, although it starts at the same offset.
    induction n using Nat.strong_induction_on generalizing w with
    | _ n ihn =>
    obtain ⟨n, rfl, hround | hexit⟩ := hrun.of_split hsplit hk
    · obtain ⟨u, hu, v, rfl, m, hm, hend⟩ := ih hround
      obtain ⟨m, rfl, hagain⟩ := hend.of_jump hjump hk
      obtain ⟨u', hu', v', rfl, m', hm', hexit⟩ := ihn m (by omega) hagain
      have hmem : u ++ u' ∈ r.language∗ :=
        mul_kstar_le_kstar (a := r.language) (Language.append_mem_mul hu hu')
      exact ⟨u ++ u', hmem, v', by simp, m', by omega, hexit⟩
    · exact ⟨[], Language.nil_mem_kstar _, w, rfl, n, by omega, hexit⟩
  | @plus base back r hr hsplit ih =>
    induction n using Nat.strong_induction_on generalizing w with
    | _ n ihn =>
    obtain ⟨u, hu, v, rfl, m, hm, hend⟩ := ih hrun
    obtain ⟨m, rfl, hagain | hexit⟩ := hend.of_split hsplit hk
    · obtain ⟨u', hu', v', rfl, m', hm', hexit⟩ := ihn m (by omega) hagain
      have hmem : u' ∈ r.language∗ := mul_kstar_le_kstar (a := r.language) hu'
      exact ⟨u ++ u', Language.append_mem_mul hu hmem, v', by simp, m', by omega, hexit⟩
    · have hmem : u ++ [] ∈ r.language * r.language∗ :=
        Language.append_mem_mul hu (Language.nil_mem_kstar _)
      exact ⟨u ++ [], hmem, v, by simp, m, by omega, hexit⟩
  | maybe hsplit hr ih =>
    obtain ⟨n, rfl, htaken | hexit⟩ := hrun.of_split hsplit hk
    · obtain ⟨u, hu, v, rfl, m, hm, hexit⟩ := ih htaken
      exact ⟨u, .inr hu, v, rfl, m, by omega, hexit⟩
    · exact ⟨[], .inl rfl, w, rfl, n, by omega, hexit⟩

/-- From everywhere in the code of an expression, some text leads to its end. -/
theorem exists_run_stop (h : Code p base stop r) {a : Nat} (hbase : base ≤ a) (hstop : a ≤ stop) :
    ∃ n w, p.Run n a w stop := by
  induction h generalizing a with
  | @byte base b h =>
    rcases (by omega : a = base ∨ a = base + 1) with rfl | rfl
    · exact ⟨1, [b], .consume h (by simp) (.refl _)⟩
    · exact ⟨0, [], .refl _⟩
  | @range base r h =>
    rcases (by omega : a = base ∨ a = base + 1) with rfl | rfl
    · exact ⟨1, [r.lo], .consume h ⟨UInt8.le_refl _, r.lo_le_hi⟩ (.refl _)⟩
    · exact ⟨0, [], .refl _⟩
  | nil =>
    obtain rfl : a = _ := Nat.le_antisymm hstop hbase
    exact ⟨0, [], .refl _⟩
  | @cons base mid stop r rest hr hrest ihr ihrest =>
    have hle := hrest.base_le_stop
    rcases Nat.le_total a mid with h | h
    · obtain ⟨n, v, hn⟩ := ihr hbase h
      obtain ⟨m, w, hm⟩ := ihrest (Nat.le_refl mid) hle
      exact ⟨n + m, v ++ w, hn.trans hm⟩
    · exact ihrest h hstop
  | @alt base next stop l r hsplit hl hjump hr ihl ihr =>
    have hle := hl.base_le_stop
    -- The left side is entered at its start from the split, or anywhere inside it.
    have hleft : ∀ a, base + 1 ≤ a → a ≤ next → ∃ n w, p.Run n a w stop := by
      intro a hbase hnext
      obtain ⟨n, w, hn⟩ := ihl hbase hnext
      exact ⟨n + 1, w ++ [], hn.trans (.jump hjump (.refl _))⟩
    rcases (by omega : a = base ∨ (base + 1 ≤ a ∧ a ≤ next) ∨ next + 1 ≤ a) with rfl | ⟨h, h'⟩ | h
    · obtain ⟨n, w, hn⟩ := hleft (a + 1) (Nat.le_refl _) hle
      exact ⟨n + 1, w, .left hsplit hn⟩
    · exact hleft a h h'
    · exact ihr h hstop
  | @star base back r hsplit hr hjump ih =>
    rcases (by omega : a = base ∨ (base + 1 ≤ a ∧ a ≤ back) ∨ a = back + 1) with
      rfl | ⟨h, h'⟩ | rfl
    · exact ⟨1, [], .right hsplit (.refl _)⟩
    · obtain ⟨n, w, hn⟩ := ih h h'
      exact ⟨n + 2, w ++ [], hn.trans (.jump hjump (.right hsplit (.refl _)))⟩
    · exact ⟨0, [], .refl _⟩
  | @plus base back r hr hsplit ih =>
    rcases (by omega : a ≤ back ∨ a = back + 1) with h | rfl
    · obtain ⟨n, w, hn⟩ := ih hbase h
      exact ⟨n + 1, w ++ [], hn.trans (.right hsplit (.refl _))⟩
    · exact ⟨0, [], .refl _⟩
  | @maybe base stop r hsplit hr ih =>
    rcases (by omega : a = base ∨ base + 1 ≤ a) with rfl | h
    · exact ⟨1, [], .right hsplit (.refl _)⟩
    · exact ih h hstop

/-- The code of an expression does not accept. -/
theorem pattern?_eq_none (h : Code p base stop r) {a : Nat} (hbase : base ≤ a) (hstop : a < stop) :
    p.pattern? a = none := by
  rcases h.inst_cases hbase hstop with ⟨s, hs⟩ | ⟨x, y, hxy⟩ | ⟨x, hx⟩
  · simp [Program.pattern?, hs]
  · simp [Program.pattern?, hxy]
  · simp [Program.pattern?, hx]

end Code

/-! ## Pattern sets and their words -/

namespace PatternsCode

variable {p : Program} {base stop id : Nat} {re : Regex} {rs : List Regex}

/-- The code of a pattern set accepts a word under a number if the pattern of that number has the
    word. -/
theorem run_iff (h : PatternsCode p base stop id re rs) {w : Bytes} {k : Nat} :
    (∃ n t, p.Run n base w t ∧ p.pattern? t = some k) ↔
      ∃ i r, rs[i]? = some r ∧ k = id + i ∧ w ∈ r.language := by
  induction h with
  | @pattern base mid id r hr haccept =>
    constructor
    · intro ⟨n, t, hrun, ht⟩
      obtain ⟨u, hu, v, rfl, m, _, hend⟩ := hr.run_split hrun ht
      obtain ⟨rfl, rfl⟩ := hend.of_accept haccept
      rw [Program.pattern?_eq_some_iff, haccept] at ht
      obtain rfl : id = k := by simpa using ht
      exact ⟨0, r, rfl, rfl, by simpa using hu⟩
    · rintro ⟨i, r', hi, rfl, hw⟩
      obtain ⟨rfl, rfl⟩ : i = 0 ∧ r = r' := by
        cases i with
        | zero => simpa using hi
        | succ i => simp at hi
      obtain ⟨n, hn⟩ := hr.exists_run hw
      exact ⟨n, mid, hn, Program.pattern?_eq_some_iff.mpr haccept⟩
  | @either base next stop id a b as bs hsplit ha hb iha ihb =>
    constructor
    · intro ⟨n, t, hrun, ht⟩
      -- The patterns of the right side are numbered on from those of the left side.
      obtain ⟨m, rfl, hleft | hright⟩ := hrun.of_split hsplit (Program.isKernelInst_of_pattern? ht)
      · obtain ⟨i, r, hi, rfl, hw⟩ := iha.mp ⟨m, t, hleft, ht⟩
        have hlt := (List.getElem?_eq_some_iff.mp hi).1
        exact ⟨i, r, by rwa [List.getElem?_append_left hlt], rfl, hw⟩
      · obtain ⟨i, r, hi, rfl, hw⟩ := ihb.mp ⟨m, t, hright, ht⟩
        refine ⟨as.length + i, r, ?_, by omega, hw⟩
        rwa [List.getElem?_append_right (Nat.le_add_right _ _), Nat.add_sub_cancel_left]
    · rintro ⟨i, r, hi, rfl, hw⟩
      rcases Nat.lt_or_ge i as.length with hlt | hge
      · rw [List.getElem?_append_left hlt] at hi
        obtain ⟨n, t, hrun, ht⟩ := iha.mpr ⟨i, r, hi, rfl, hw⟩
        exact ⟨n + 1, t, .left hsplit hrun, ht⟩
      · rw [List.getElem?_append_right hge] at hi
        have hk : id + i = id + as.length + (i - as.length) := by omega
        obtain ⟨n, t, hrun, ht⟩ := ihb.mpr ⟨i - as.length, r, hi, hk, hw⟩
        exact ⟨n + 1, t, .right hsplit hrun, ht⟩

/-- From everywhere in the code of a pattern set, some text leads to an `accept`. -/
theorem exists_run_accept (h : PatternsCode p base stop id re rs) {a : Nat} (hbase : base ≤ a)
    (hstop : a < stop) : ∃ n w t k, p.Run n a w t ∧ p.pattern? t = some k := by
  induction h generalizing a with
  | @pattern base mid id r hr haccept =>
    obtain ⟨n, w, hn⟩ := hr.exists_run_stop hbase (Nat.le_of_lt_succ hstop)
    exact ⟨n, w, mid, id, hn, Program.pattern?_eq_some_iff.mpr haccept⟩
  | @either base next stop id a' b as bs hsplit ha hb iha ihb =>
    have hlt := ha.base_lt_stop
    rcases (by omega : a = base ∨ (base + 1 ≤ a ∧ a < next) ∨ next ≤ a) with rfl | ⟨h, h'⟩ | h
    · obtain ⟨n, w, t, k, hrun, ht⟩ := iha (Nat.le_refl (a + 1)) hlt
      exact ⟨n + 1, w, t, k, .left hsplit hrun, ht⟩
    · exact iha h h'
    · exact ihb h hstop

/-- The code of a pattern set has one `accept` for each pattern, in the order of the patterns. -/
theorem filterMap_pattern? (h : PatternsCode p base stop id re rs) :
    (List.range' base (stop - base)).filterMap p.pattern? = List.range' id rs.length := by
  induction h with
  | @pattern base mid id r hr haccept =>
    have hle := hr.base_le_stop
    have hnone : (List.range' base (mid - base)).filterMap p.pattern? = [] := by
      rw [List.filterMap_eq_nil_iff]
      intro a ha
      rw [List.mem_range'_1] at ha
      exact hr.pattern?_eq_none ha.1 (by omega)
    have hmid : base + (mid - base) = mid := by omega
    rw [Nat.succ_sub hle, List.range'_1_concat, List.filterMap_append, hnone, hmid]
    simp [Program.pattern?_eq_some_iff.mpr haccept]
  | @either base next stop id a b as bs hsplit ha hb iha ihb =>
    have hlt := ha.base_lt_stop
    have hlt' := hb.base_lt_stop
    have hnone : p.pattern? base = none := by simp [Program.pattern?, hsplit]
    rw [show stop - base = (next - (base + 1)) + (stop - next) + 1 by omega, List.range'_succ,
      List.filterMap_cons, hnone, ← List.range'_append_1, List.filterMap_append, iha,
      show base + 1 + (next - (base + 1)) = next by omega, ihb, List.length_append,
      List.range'_append_1]

end PatternsCode

namespace Program

variable {p : Program} {re : Regex} {rs : List Regex}

theorem IsCodeOf.exists_patternsCode (h : p.IsCodeOf re rs) :
    ∃ stop, PatternsCode p 0 stop 0 re rs ∧ ∀ a, p.isKernelInst a = true → a < stop := by
  have hsize : ∀ a, p.isKernelInst a = true → a < p.size := by
    intro a ha
    by_contra hge
    have : p.insts[a]? = none := Array.getElem?_eq_none (by simpa [size] using hge)
    simp [isKernelInst, this] at ha
  rcases h with ⟨h, _⟩ | ⟨h, rfl⟩
  · exact ⟨p.size, h, hsize⟩
  · refine ⟨1, h, fun a ha => ?_⟩
    have hlt : a < 2 := hsize a ha
    by_contra hge
    obtain rfl : a = 1 := by omega
    simp [isKernelInst, loneAccept] at ha

/-- The code of a pattern set accepts the words of each of its patterns. -/
theorem IsCodeOf.run_iff (h : p.IsCodeOf re rs) {w : Bytes} {k : Nat} :
    (∃ n t, p.Run n 0 w t ∧ p.pattern? t = some k) ↔ ∃ r, rs[k]? = some r ∧ w ∈ r.language := by
  obtain ⟨stop, hcode, _⟩ := h.exists_patternsCode
  rw [hcode.run_iff]
  simp

/-- What is generated for a pattern set accepts the words of each body under its number. -/
theorem IsCodeOf.run_iff_bodies {re : Regex}
    (h : p.IsCodeOf re.desugar.anchor (re.bodies.map Regex.desugar)) {w : Bytes} {k : Nat} :
    (∃ n t, p.Run n 0 w t ∧ p.pattern? t = some k) ↔
      ∃ body, re.bodies[k]? = some body ∧ w ∈ body.language := by
  rw [h.run_iff, List.getElem?_map]
  simp [Regex.language_desugar]

theorem IsCodeOf.exists_run_accept (h : p.IsCodeOf re rs) {a : Nat}
    (ha : p.isKernelInst a = true) : ∃ n w t k, p.Run n a w t ∧ p.pattern? t = some k := by
  obtain ⟨stop, hcode, hstop⟩ := h.exists_patternsCode
  exact hcode.exists_run_accept (Nat.zero_le a) (hstop a ha)

theorem accepts_map_snd (p : Program) :
    p.accepts.map (·.2) = (List.range p.size).filterMap p.pattern? := by
  rw [accepts, List.map_filterMap]
  simp

theorem pairwise_accepts (p : Program) : p.accepts.Pairwise fun a b => a.1 < b.1 := by
  rw [accepts, List.pairwise_filterMap]
  refine List.pairwise_lt_range.imp fun hlt x hx y hy => ?_
  obtain ⟨k, _, rfl⟩ := Option.map_eq_some_iff.mp hx
  obtain ⟨l, _, rfl⟩ := Option.map_eq_some_iff.mp hy
  exact hlt

/-- The patterns of a set are accepted one by one. -/
theorem IsCodeOf.accepts_eq (h : p.IsCodeOf re rs) :
    p.accepts.map (·.2) = List.range rs.length := by
  rw [accepts_map_snd, List.range_eq_range', List.range_eq_range']
  rcases h with ⟨h, _⟩ | ⟨h, rfl⟩
  · exact h.filterMap_pattern?
  · rw [← h.filterMap_pattern?]
    rfl

/-- The program of a pattern set accepts exactly the words of each body, under the number of the
    body, and has one `accept` for each body, with ascending numbers. -/
theorem ofRegex_accepts_iff {re : Regex} (h : re.IsPatternSet) :
    ∃ p, Program.ofRegex re = .ok p ∧
      (∀ k w, (∃ body, re.bodies[k]? = some body ∧ w ∈ body.language) ↔
        ∃ n pc, p.Run n 0 w pc ∧ p.pattern? pc = some k) ∧
      p.accepts.map (·.2) = List.range re.bodies.length ∧
      p.accepts.Pairwise fun a b => a.1 < b.1 := by
  obtain ⟨p, hp, hcode⟩ := exists_ofRegex_eq_ok h
  refine ⟨p, hp, fun k w => hcode.run_iff_bodies.symm, ?_, p.pairwise_accepts⟩
  rw [hcode.accepts_eq, List.length_map]

/-- Of two patterns, the second one accepts its byte. -/
theorem ofRegex_accepts_iff_star_or_maybe :
    (Regex.either (.star (.byte 97)) (.maybe (.byte 98))).IsPatternSet ∧
      ∃ p, Program.ofRegex (.either (.star (.byte 97)) (.maybe (.byte 98))) = .ok p ∧
        p.accepts.map (·.2) = [0, 1] ∧
        ∃ n pc, p.Run n 0 [98] pc ∧ p.pattern? pc = some 1 := by
  have h : (Regex.either (.star (.byte 97)) (.maybe (.byte 98))).IsPatternSet := by decide
  obtain ⟨p, hp, hrun, haccepts, _⟩ := ofRegex_accepts_iff h
  exact ⟨h, p, hp, haccepts, (hrun 1 [98]).mp ⟨_, rfl, .inr rfl⟩⟩

end Program

end Munch

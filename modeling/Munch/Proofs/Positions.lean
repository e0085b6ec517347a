import Munch.Proofs.Follow
import Munch.Proofs.Sites

set_option autoImplicit false

/-! # Positions and sites

The positions of a labelled pattern set and the sites of its program are the same thing, counted in
the same order: they consume the same bytes and accept the same patterns, and a position can follow
another one exactly if a thread goes from the one site to the other without consuming a byte in
between. `Pairs` collects these facts, and `exists_pairs` proves them of what is built for any
pattern set. The automata that are made from the two are compared on top of it. -/

namespace Munch

open Labelling Regex

/-! ## Lists over ranges of offsets -/

section Ranges

variable {α : Type} (f : Nat → Option α)

theorem filterMap_range'_append {a b c : Nat} (hab : a ≤ b) (hbc : b ≤ c) :
    (List.range' a (c - a)).filterMap f =
      (List.range' a (b - a)).filterMap f ++ (List.range' b (c - b)).filterMap f := by
  rw [← List.filterMap_append]
  congr 1
  rw [show c - a = b - a + (c - b) by omega, ← List.range'_append_1, show a + (b - a) = b by omega]

theorem filterMap_range'_single (a : Nat) :
    (List.range' a (a + 1 - a)).filterMap f = (f a).toList := by
  rw [Nat.add_sub_cancel_left, List.range'_one, List.filterMap_cons]
  cases f a <;> rfl

variable {f}

theorem filterMap_range'_skip {a b : Nat} (hab : a < b) (h : f a = none) :
    (List.range' a (b - a)).filterMap f = (List.range' (a + 1) (b - (a + 1))).filterMap f := by
  rw [filterMap_range'_append f (Nat.le_succ a) hab, filterMap_range'_single, h]
  rfl

/-- A member of a filtered range is found under the number of members before it. -/
theorem getElem?_filterMap_range {a n : Nat} {x : α} (ha : a < n) (h : f a = some x) :
    ((List.range n).filterMap f)[(List.range a).countP fun i => (f i).isSome]? = some x := by
  have hsplit := filterMap_range'_append f (Nat.zero_le a) (Nat.le_of_lt ha)
  have hcons := filterMap_range'_append f (Nat.le_succ a) ha
  rw [filterMap_range'_single, h] at hcons
  rw [hcons] at hsplit
  rw [List.range_eq_range', List.range_eq_range', ← List.length_filterMap_eq_countP]
  simp only [Nat.sub_zero] at hsplit
  rw [hsplit]
  simp

end Ranges

namespace Program

/-! ## Sites -/

/-- The offsets at which a program consumes or accepts. -/
def sites (p : Program) : IndexSet := IndexSet.collect p.size p.isKernelInst

/-- The bytes that an instruction consumes. -/
def span? (p : Program) (pc : Nat) : Option ByteRange :=
  match p.insts[pc]? with
  | some (.consume r) => some r
  | _ => none

/-- The bytes that a site consumes, or the pattern that it accepts. -/
def view? (p : Program) (pc : Nat) : Option (Option ByteRange × Option Nat) :=
  if p.isKernelInst pc then some (p.span? pc, p.pattern? pc) else none

variable {p : Program} {a b q : Nat}

theorem lt_size_of_isKernelInst (h : p.isKernelInst a = true) : a < p.size := by
  by_contra hge
  have : p.insts[a]? = none := Array.getElem?_eq_none (by simpa [size] using hge)
  simp [isKernelInst, this] at h

theorem isSome_view? (p : Program) (pc : Nat) : (p.view? pc).isSome = p.isKernelInst pc := by
  unfold view?
  split <;> simp_all

theorem length_sites (p : Program) : p.sites.length = p.rank p.size := by
  rw [rank, List.countP_eq_length_filter]
  rfl

/-- The sites are numbered by their ranks. -/
theorem getElem?_sites_iff : p.sites[q]? = some a ↔ p.isKernelInst a = true ∧ p.rank a = q := by
  have hsite : ∀ {a}, p.isKernelInst a = true → p.sites[p.rank a]? = some a := by
    intro a ha
    have hguard : Option.guard p.isKernelInst a = some a := by simp [Option.guard, ha]
    have hfind := getElem?_filterMap_range (lt_size_of_isKernelInst ha) hguard
    have hcount : (fun i => (Option.guard p.isKernelInst i).isSome) = p.isKernelInst := by
      funext i
      cases hi : p.isKernelInst i <;> simp [Option.guard, hi]
    rw [hcount, List.filterMap_eq_filter] at hfind
    exact hfind
  constructor
  · intro h
    have ha : p.isKernelInst a = true := by
      have hmem := List.mem_of_getElem? h
      exact (IndexSet.mem_collect.mp hmem).2
    refine ⟨ha, ?_⟩
    have hnodup : p.sites.Nodup := List.nodup_range.filter _
    obtain ⟨hq, hq'⟩ := List.getElem?_eq_some_iff.mp h
    obtain ⟨hr, hr'⟩ := List.getElem?_eq_some_iff.mp (hsite ha)
    exact (List.Nodup.getElem_inj_iff hnodup).mp (hr'.trans hq'.symm)
  · rintro ⟨ha, rfl⟩
    exact hsite ha

theorem view?_consume {r : ByteRange} (h : p.insts[a]? = some (.consume r)) :
    p.view? a = some (some r, none) := by simp [view?, isKernelInst, span?, pattern?, h]

theorem view?_accept {k : Nat} (h : p.insts[a]? = some (.accept k)) :
    p.view? a = some (none, some k) := by simp [view?, isKernelInst, span?, pattern?, h]

theorem view?_split {x y : Nat} (h : p.insts[a]? = some (.split x y)) : p.view? a = none := by
  simp [view?, isKernelInst, h]

theorem view?_jump {x : Nat} (h : p.insts[a]? = some (.jump x)) : p.view? a = none := by
  simp [view?, isKernelInst, h]

/-! ## Reaching and passing -/

/-- Threads reach what they can pass to. -/
theorem Passes.reach (h : p.Passes a b) : p.Reach a b := by
  obtain ⟨n, hrun⟩ := h
  generalize hw : ([] : Bytes) = w at hrun
  induction hrun with
  | refl => exact .refl p _
  | left h _ ih => exact .head (by simp [emptySteps, h]) (ih hw)
  | right h _ ih => exact .head (by simp [emptySteps, h]) (ih hw)
  | jump h _ ih => exact .head (by simp [emptySteps, h]) (ih hw)
  | consume => cases hw

/-- In a program that needs several threads, threads reach nothing else. -/
theorem reach_iff_passes (hdet : p.isDeterministic = false) : p.Reach a b ↔ p.Passes a b := by
  refine ⟨fun h => ?_, Passes.reach⟩
  induction h using Relation.ReflTransGen.head_induction_on with
  | refl => exact .refl p b
  | @head a c hac _ ih =>
    obtain ⟨n, hn⟩ := ih
    unfold emptySteps at hac
    split at hac
    · next x hi =>
      obtain rfl := List.mem_singleton.mp hac
      exact ⟨n + 1, .jump hi hn⟩
    · next x y hi =>
      rcases List.mem_pair.mp hac with rfl | rfl
      · exact ⟨n + 1, .left hi hn⟩
      · exact ⟨n + 1, .right hi hn⟩
    · simp [hdet] at hac
    · simp at hac

end Program

/-! ## Places -/

/-- The bytes that a place consumes, or the pattern that it ends. -/
def Place.view (pl : Place) : Option ByteRange × Option Nat := (pl.leaf.span?, pl.pattern?)

/-- The places of the labelled form of an expression are the sites of its code. -/
theorem Code.filterMap_view? {p : Program} {base stop : Nat} {r : Regex} (h : Code p base stop r) :
    ∀ owner m, (List.range' base (stop - base)).filterMap p.view? =
      (label owner m r).places.map Place.view ∧ (label owner m r).patterns = 0 := by
  induction h with
  | byte h | range h =>
    intro owner m
    rw [filterMap_range'_single, Program.view?_consume h]
    exact ⟨rfl, rfl⟩
  | nil => simp [label, labelAll, ofCat, ofOperands]
  | @cons base mid stop r rest hr hrest ihr ihrest =>
    intro owner m
    obtain ⟨hplaces, hpatterns⟩ := ihr owner m
    obtain ⟨hplaces', hpatterns'⟩ := ihrest owner (m.after (label owner m r))
    rw [filterMap_range'_append _ hr.base_le_stop hrest.base_le_stop, hplaces, hplaces']
    simp only [label, labelAll, ofCat, ofOperands] at hpatterns' ⊢
    simp [hpatterns, hpatterns']
  | @alt base next stop l r hsplit hl hjump hr ihl ihr =>
    intro owner m
    have hlt := hl.base_le_stop
    have hlt' := hr.base_le_stop
    obtain ⟨hplaces, hpatterns⟩ := ihl owner m
    obtain ⟨hplaces', hpatterns'⟩ := ihr owner (m.after (label owner m l))
    -- A split and a jump are no sites, so the sites of both sides are left, in their order.
    rw [filterMap_range'_skip (by omega) (Program.view?_split hsplit),
      filterMap_range'_append _ hlt (by omega), hplaces,
      filterMap_range'_skip (by omega) (Program.view?_jump hjump), hplaces']
    simp [label, ofChoice, ofOperands, hpatterns, hpatterns']
  | @star base back r hsplit hr hjump ih =>
    intro owner m
    have hlt := hr.base_le_stop
    obtain ⟨hplaces, hpatterns⟩ := ih owner m
    rw [filterMap_range'_skip (by omega) (Program.view?_split hsplit),
      filterMap_range'_append _ hlt (Nat.le_succ back), hplaces, filterMap_range'_single,
      Program.view?_jump hjump]
    simp [label, ofBody, ofOperands, hpatterns]
  | @plus base back r hr hsplit ih =>
    intro owner m
    obtain ⟨hplaces, hpatterns⟩ := ih owner m
    rw [filterMap_range'_append _ hr.base_le_stop (Nat.le_succ back), hplaces,
      filterMap_range'_single, Program.view?_split hsplit]
    simp [label, ofBody, ofOperands, hpatterns]
  | @maybe base stop r hsplit hr ih =>
    intro owner m
    have hlt := hr.base_le_stop
    obtain ⟨hplaces, hpatterns⟩ := ih owner m
    rw [filterMap_range'_skip (by omega) (Program.view?_split hsplit), hplaces]
    simp [label, ofBody, ofOperands, hpatterns]

/-- The places of a labelled pattern set are the sites of its code. -/
theorem PatternsCode.filterMap_view? {p : Program} {base stop id : Nat} {re : Regex}
    {rs : List Regex} (h : PatternsCode p base stop id re rs) : ∀ m : Mark, m.pattern = id →
    (List.range' base (stop - base)).filterMap p.view? =
      (label none m re).places.map Place.view ∧ (label none m re).patterns = rs.length := by
  induction h with
  | @pattern base mid id r hr haccept =>
    rintro m rfl
    obtain ⟨hplaces, hpatterns⟩ :=
      hr.filterMap_view? (some m.pattern) { m with pattern := m.pattern + 1 }
    rw [filterMap_range'_append _ hr.base_le_stop (Nat.le_succ mid), hplaces,
      filterMap_range'_single, Program.view?_accept haccept]
    simp [label, labelAll, ofBody, ofCat, ofOperands, ofLeaf, hpatterns, Place.view, Leaf.span?]
  | @either base next stop id l r as bs hsplit hl hr ihl ihr =>
    rintro m rfl
    have hlt := hl.base_lt_stop
    have hlt' := hr.base_lt_stop
    obtain ⟨hplaces, hpatterns⟩ := ihl m rfl
    obtain ⟨hplaces', hpatterns'⟩ :=
      ihr (m.after (label none m l)) (by simp [Mark.after, hpatterns])
    rw [filterMap_range'_skip (by omega) (Program.view?_split hsplit),
      filterMap_range'_append _ (Nat.le_of_lt hlt) (Nat.le_of_lt hlt'), hplaces, hplaces']
    simp [label, ofChoice, ofOperands, hpatterns, hpatterns']

/-! ## Pairs -/

/-- The positions of a labelled expression are the sites of a program, in the same order. -/
structure Pairs (l : Labelled) (p : Program) : Prop where
  length_sites : p.sites.length = l.positionCount
  ascending_start : l.start.Ascending
  start_lt : ∀ q ∈ l.start, q < l.positionCount
  span?_eq : ∀ q a, p.sites[q]? = some a → l.span? q = p.span? a
  pattern?_eq : ∀ q a, p.sites[q]? = some a → l.pattern? q = p.pattern? a
  mem_start : ∀ q a, p.sites[q]? = some a → (q ∈ l.start ↔ p.Reach 0 a)
  mem_follow : ∀ i q a b, p.sites[i]? = some a → (l.span? i).isSome = true →
    p.sites[q]? = some b → (q ∈ l.follow[i]?.getD [] ↔ p.Reach (a + 1) b)

namespace Pairs

variable {p : Program}

theorem span?_eq_of_view (l : Labelled) {q a : Nat}
    (h : (l.places.map Place.view)[q]? = some (p.span? a, p.pattern? a)) :
    l.span? q = p.span? a ∧ l.pattern? q = p.pattern? a := by
  rw [List.getElem?_map, Option.map_eq_some_iff] at h
  obtain ⟨pl, hpl, hview⟩ := h
  obtain ⟨hspan, hpattern⟩ := Prod.mk.inj hview
  exact ⟨by simpa [Labelled.span?, hpl] using hspan, by simpa [Labelled.pattern?,
    hpl] using hpattern⟩

variable {re : Regex} {rs : List Regex}

/-- A position is seen as its site, if all sites are in the code. -/
theorem eq_of_patternsCode {stop : Nat} (hcode : PatternsCode p 0 stop 0 re.desugar.anchor rs)
    (hsize : (List.range p.size).filterMap p.view? = (List.range stop).filterMap p.view?)
    {q a : Nat} (hq : p.sites[q]? = some a) : (Labelled.ofRegex re).span? q = p.span? a ∧
      (Labelled.ofRegex re).pattern? q = p.pattern? a := by
  obtain ⟨ha, rfl⟩ := Program.getElem?_sites_iff.mp hq
  have hview : p.view? a = some (p.span? a, p.pattern? a) := if_pos ha
  have hfind := getElem?_filterMap_range (Program.lt_size_of_isKernelInst ha) hview
  simp only [Program.isSome_view?] at hfind
  have hplaces := (hcode.filterMap_view? ⟨0, 0, 0⟩ rfl).1
  rw [Nat.sub_zero, ← List.range_eq_range'] at hplaces
  rw [hsize, hplaces] at hfind
  exact span?_eq_of_view _ hfind

theorem start_lt_positionCount (re : Regex) :
    ∀ q ∈ (Labelled.ofRegex re).start, q < (Labelled.ofRegex re).positionCount := by
  intro q hq
  rw [Labelled.positionCount_ofRegex]
  simpa using (within_of_first ((Labelled.mem_start re).mp hq)).2

/-- A program that needs several threads agrees with the positions. -/
theorem of_patternsCode (hcode : PatternsCode p 0 p.size 0 re.desugar.anchor rs)
    (hdet : p.isDeterministic = false) : Pairs (Labelled.ofRegex re) p where
  length_sites := by
    rw [Program.length_sites, hcode.rank_stop, Labelled.positionCount_ofRegex]
    exact Nat.zero_add _
  ascending_start := Labelled.ascending_start re
  start_lt := start_lt_positionCount re
  span?_eq := fun _ _ hq => (eq_of_patternsCode hcode rfl hq).1
  pattern?_eq := fun _ _ hq => (eq_of_patternsCode hcode rfl hq).2
  mem_start := by
    intro q a hq
    obtain ⟨ha, rfl⟩ := Program.getElem?_sites_iff.mp hq
    rw [Labelled.mem_start, Program.reach_iff_passes hdet, hcode.passes_iff ha]
    rfl
  mem_follow := by
    intro i q a b hi hspan hq
    rw [(eq_of_patternsCode hcode rfl hi).1] at hspan
    obtain ⟨ha, rfl⟩ := Program.getElem?_sites_iff.mp hi
    obtain ⟨hb, rfl⟩ := Program.getElem?_sites_iff.mp hq
    obtain ⟨r, hr⟩ : ∃ r, p.insts[a]? = some (.consume r) := by
      unfold Program.span? at hspan
      split at hspan
      · exact ⟨_, ‹_›⟩
      · simp at hspan
    rw [Labelled.mem_follow, Program.reach_iff_passes hdet,
      hcode.passes_succ_iff hb hr (Nat.zero_le a) (Program.lt_size_of_isKernelInst ha)]
    rfl

/-- The only site of a single `accept` agrees with the only position. The `fail` after it is no
    site. -/
theorem of_loneAccept (hcode : PatternsCode .loneAccept 0 1 0 re.desugar.anchor rs) :
    Pairs (Labelled.ofRegex re) .loneAccept := by
  have hsites : Program.loneAccept.sites = [0] := by decide
  have hzero : ∀ {q a : Nat}, Program.loneAccept.sites[q]? = some a → a = 0 := by
    intro q a hq
    simpa [hsites] using List.mem_of_getElem? hq
  constructor
  · have hrank := hcode.rank_stop
    rw [show Program.loneAccept.rank 0 = 0 from rfl, Nat.zero_add] at hrank
    rw [Program.length_sites, Labelled.positionCount_ofRegex, ← hrank]
    decide
  · exact Labelled.ascending_start re
  · exact start_lt_positionCount re
  · exact fun _ _ hq => (eq_of_patternsCode hcode rfl hq).1
  · exact fun _ _ hq => (eq_of_patternsCode hcode rfl hq).2
  · intro q a hq
    obtain rfl := hzero hq
    obtain ⟨ha, rfl⟩ := Program.getElem?_sites_iff.mp hq
    have hfirst := (hcode.passes_iff ha).mp (.refl _ 0)
    exact iff_of_true ((Labelled.mem_start re).mpr hfirst) (.refl _ 0)
  · intro i q a b hi hspan hq
    rw [(eq_of_patternsCode hcode rfl hi).1] at hspan
    obtain rfl := hzero hi
    exact absurd hspan (by decide)

/-- What is built for a pattern set agrees on its positions. -/
theorem of_isCodeOf (h : p.IsCodeOf re.desugar.anchor rs) : Pairs (Labelled.ofRegex re) p := by
  rcases h with ⟨hcode, hdet⟩ | ⟨hcode, rfl⟩
  · exact of_patternsCode hcode hdet
  · exact of_loneAccept hcode

end Pairs

/-- A program is generated for every pattern set, and its sites are the positions of the labelled
    expression. -/
theorem exists_pairs {re : Regex} (h : re.IsPatternSet) :
    ∃ p, Program.ofRegex re = .ok p ∧
      p.IsCodeOf re.desugar.anchor (re.bodies.map Regex.desugar) ∧
      Pairs (Labelled.ofRegex re) p := by
  obtain ⟨p, hp, hcode⟩ := Program.exists_ofRegex_eq_ok h
  exact ⟨p, hp, hcode, .of_isCodeOf hcode⟩

end Munch

import Mathlib.Algebra.Group.Nat.Defs
import Mathlib.Data.List.Perm.Subperm
import Munch.Proofs.Exploration

set_option autoImplicit false

/-! # Explorations by number

An exploration keeps the sets that it found in a list and refers to them by their numbers, which are
their places in the list. The numbers of the sets that were not visited yet wait in an agenda. A
round takes a number from the agenda, gives numbers to the sets that come after the set with this
number, and records what it works out for the set. A set that has a number keeps it (`Loop.intern`),
so no number enters the agenda twice.

Every round lowers the number of sets that can still be found and of numbers that wait, taken
together, by one (`Round.left_eq`). So the rounds come to an end, and then every number was taken
once (`EndsOnce`); if the oldest goes first, the numbers were taken in ascending order. The sets
that are found and visited on the way are those of `explore` (`exists_endsOnce`). -/

namespace Munch

theorem IndexSet.length_subsets (n : Nat) : (subsets n).length = 2 ^ n := by
  have hsublists : ∀ l, (sublists l).length = 2 ^ l.length := by
    intro l
    induction l with
    | nil => rfl
    | cons x rest ih =>
      rw [sublists, List.length_append, List.length_map, ih, List.length_cons,
        Nat.pow_succ, Nat.mul_two]
  rw [subsets, hsublists, List.length_range]

/-- The agenda after a number was found. -/
def Turn.put : Turn → Nat → List Nat → List Nat
  | .newestFirst, i, waiting => i :: waiting
  | .oldestFirst, i, waiting => waiting ++ [i]

/-- The agenda after some numbers were found, in order. -/
def Turn.putAll : Turn → List Nat → List Nat → List Nat
  | .newestFirst, new, waiting => new.reverse ++ waiting
  | .oldestFirst, new, waiting => waiting ++ new

namespace Exploration

/-- An exploration under way: the sets that were found, each under its number, the numbers that
    wait, and what was recorded for the numbers that were taken. -/
structure Loop (ρ : Type) where
  found : List IndexSet
  waiting : List Nat
  records : List (Nat × ρ)

namespace Loop

variable {ρ : Type}

/-- The loop before its first round. -/
def start (first : IndexSet) : Loop ρ := ⟨[first], [0], []⟩

/-- Give a set the next number, which then waits, unless the set has a number. -/
def intern (turn : Turn) (a : Loop ρ) (s : IndexSet) : Loop ρ :=
  if s ∈ a.found then a
  else { a with found := a.found ++ [s], waiting := turn.put a.found.length a.waiting }

/-- Give numbers to the sets that come after a set, and record what is worked out for it under its
    number. -/
def visit (turn : Turn) (next : IndexSet → List IndexSet) (work : List IndexSet → IndexSet → ρ)
    (a : Loop ρ) (i : Nat) (s : IndexSet) : Loop ρ :=
  let b := (next s).foldl (intern turn) a
  { b with records := b.records ++ [(i, work b.found s)] }

/-- The numbers that were taken, in order. -/
def taken (a : Loop ρ) : List Nat := a.records.map Prod.fst

/-- The number of the sets of numbers below `n` that can still be found, and of those that wait. -/
def left (n : Nat) (a : Loop ρ) : Nat := 2 ^ n - a.found.length + a.waiting.length

end Loop

open Loop

section Rounds

variable {ρ : Type}

/-- A round takes the first number that waits, if there is a set with this number, and visits the
    set. -/
inductive Round (turn : Turn) (next : IndexSet → List IndexSet)
    (work : List IndexSet → IndexSet → ρ) : Loop ρ → Loop ρ → Prop
  | take {found : List IndexSet} {i : Nat} {rest : List Nat}
      {records : List (Nat × ρ)} {s : IndexSet} (h : found[i]? = some s) :
      Round turn next work ⟨found, i :: rest, records⟩
      (visit turn next work ⟨found, rest, records⟩ i s)

/-- Rounds in a row, as many as the number says. -/
inductive Rounds (turn : Turn) (next : IndexSet → List IndexSet)
    (work : List IndexSet → IndexSet → ρ) : Nat → Loop ρ → Loop ρ → Prop
  | refl (a : Loop ρ) : Rounds turn next work 0 a a
  | head {k : Nat} {a b c : Loop ρ} (h : Round turn next work a b)
      (hrest : Rounds turn next work k b c) : Rounds turn next work (k + 1) a c

variable {turn : Turn} {next : IndexSet → List IndexSet}
  {work : List IndexSet → IndexSet → ρ} {a b c : Loop ρ} {n i k : Nat} {s : IndexSet}
    {new : List IndexSet}

/-- There is one way to go on. -/
theorem Round.unique (h : Round turn next work a b) (h' : Round turn next work a c) : b = c := by
  cases h with
  | take hs =>
    cases h' with
    | take hs' => rw [Option.some.inj (hs.symm.trans hs')]

/-- Rounds that come to an end have gone through all others from the same start. -/
theorem Rounds.exists_rest {m : Nat} (h : Rounds turn next work k a b)
    (h' : Rounds turn next work m a c) (hc : c.waiting = []) :
    ∃ d, m = k + d ∧ Rounds turn next work d b c := by
  induction h generalizing m with
  | refl => exact ⟨m, (Nat.zero_add m).symm, h'⟩
  | head hround hrest ih =>
    cases h' with
    | refl =>
      cases hround
      cases hc
    | head hround' hrest' =>
      obtain ⟨d, rfl, hd⟩ := ih (hround.unique hround' ▸ hrest')
      exact ⟨d, Nat.add_right_comm _ _ _, hd⟩

/-! ## Numbers -/

theorem found_foldl_intern (a : Loop ρ) (new : List IndexSet) :
    (new.foldl (intern turn) a).found = a.found ++ fresh a.found new := by
  induction new generalizing a with
  | nil => simp [fresh]
  | cons t rest ih =>
    rw [List.foldl_cons, ih, fresh]
    by_cases ht : t ∈ a.found
    · rw [if_pos (List.contains_iff_mem.mpr ht), intern, if_pos ht]
    · rw [if_neg (mt List.contains_iff_mem.mp ht), intern, if_neg ht, List.append_assoc]
      rfl

theorem records_foldl_intern (a : Loop ρ) (new : List IndexSet) :
    (new.foldl (intern turn) a).records = a.records := by
  induction new generalizing a with
  | nil => rfl
  | cons t rest ih =>
    rw [List.foldl_cons, ih, intern]
    split <;> rfl

theorem putAll_nil (turn : Turn) (waiting : List Nat) : turn.putAll [] waiting = waiting := by
  cases turn <;> simp [Turn.putAll]

theorem putAll_put (turn : Turn) (new waiting : List Nat) (i : Nat) :
    turn.putAll new (turn.put i waiting) = turn.putAll (i :: new) waiting := by
  cases turn <;> simp [Turn.putAll, Turn.put]

theorem perm_putAll (turn : Turn) (new waiting : List Nat) :
    (turn.putAll new waiting).Perm (waiting ++ new) := by
  cases turn with
  | newestFirst => exact ((List.reverse_perm new).append_right waiting).trans List.perm_append_comm
  | oldestFirst => exact .refl _

/-- The sets that have no number yet get the next ones. -/
theorem waiting_foldl_intern (a : Loop ρ) (new : List IndexSet) :
    (new.foldl (intern turn) a).waiting =
      turn.putAll (List.range' a.found.length (fresh a.found new).length) a.waiting := by
  induction new generalizing a with
  | nil => rw [List.foldl_nil, fresh, List.length_nil, List.range'_zero, putAll_nil]
  | cons t rest ih =>
    rw [List.foldl_cons, ih, fresh]
    by_cases ht : t ∈ a.found
    · rw [if_pos (List.contains_iff_mem.mpr ht), intern, if_pos ht]
    · rw [if_neg (mt List.contains_iff_mem.mp ht), intern, if_neg ht,
        putAll_put, List.length_append, List.length_singleton]
      rfl

/-- A round finds the sets after the one that it visits, and gives numbers to those that are new. -/
theorem visit_eq (a : Loop ρ) (i : Nat) (s : IndexSet) :
    let new := fresh a.found (next s)
    a.visit turn next work i s = ⟨a.found ++ new,
      turn.putAll (List.range' a.found.length new.length) a.waiting,
      a.records ++ [(i, work (a.found ++ new) s)]⟩ := by
  intro new
  simp only [visit, found_foldl_intern, waiting_foldl_intern, records_foldl_intern, new]

/-! ## What rounds keep -/

/-- The sets that were found have different numbers, and every number waits or was taken, once. -/
structure Numbered (n : Nat) (a : Loop ρ) : Prop where
  nodup : a.found.Nodup
  bounded : ∀ s ∈ a.found, s ∈ IndexSet.subsets n
  perm : (a.taken ++ a.waiting).Perm (List.range a.found.length)

theorem range_add (m k : Nat) : List.range (m + k) = List.range m ++ List.range' m k := by
  rw [List.range_eq_range', List.range_eq_range', ← List.range'_append_1, Nat.zero_add]

namespace Numbered

theorem start {first : IndexSet} (h : first ∈ IndexSet.subsets n) :
    Numbered n (Loop.start first : Loop ρ) where
  nodup := List.pairwise_singleton _ first
  bounded _ hs := List.mem_singleton.mp hs ▸ h
  perm := .refl _

theorem round (h : Numbered n a) (hround : Round turn next work a b)
    (hbounded : ∀ s, ∀ t ∈ next s, t ∈ IndexSet.subsets n) : Numbered n b := by
  cases hround with
  | @take found i rest records s hs =>
    rw [visit_eq]
    refine ⟨nodup_append_fresh h.nodup, fun t ht => ?_, ?_⟩
    · rcases List.mem_append.mp ht with ht | ht
      · exact h.bounded t ht
      · exact hbounded s t (mem_fresh.mp ht).1
    · let more := List.range' found.length (fresh found (next s)).length
      have hput := (perm_putAll turn more rest).append_left (records.map Prod.fst ++ [i])
      have hold : (records.map Prod.fst ++ i :: rest).Perm (List.range found.length) := h.perm
      have hmove : records.map Prod.fst ++ [i] ++ (rest ++ more) =
        records.map Prod.fst ++ i :: rest ++ more := by simp
      rw [List.length_append, range_add, taken, List.map_append]
      exact hput.trans (hmove ▸ hold.append_right more)

theorem length_le (h : Numbered n a) : a.found.length ≤ 2 ^ n := by
  rw [← IndexSet.length_subsets]
  exact (List.subperm_of_subset h.nodup h.bounded).length_le

end Numbered

theorem Round.left_eq (h : Round turn next work a b) (hb : Numbered n b) :
    b.left n + 1 = a.left n := by
  have hle := hb.length_le
  cases h with
  | @take found i rest records s hs =>
    rw [visit_eq] at hle ⊢
    have hput := (perm_putAll turn
      (List.range' found.length (fresh found (next s)).length) rest).length_eq
    simp only [left, hput, List.length_append, List.length_range', List.length_cons] at hle ⊢
    omega

/-- If the oldest number goes first, the numbers that were taken and those that wait follow each
    other. -/
theorem Round.taken_append_waiting (h : Round .oldestFirst next work a b)
    (ha : a.taken ++ a.waiting = List.range a.found.length) :
    b.taken ++ b.waiting = List.range b.found.length := by
  cases h with
  | @take found i rest records s hs =>
    have ha : records.map Prod.fst ++ i :: rest = List.range found.length := ha
    rw [visit_eq, List.length_append, range_add, ← ha]
    simp [taken, Turn.putAll]

/-- What is worked out for a set depends on the numbers of the sets that come after it, and on no
    others. -/
def Settled (next : IndexSet → List IndexSet) (work : List IndexSet → IndexSet → ρ) : Prop :=
  ∀ found more s, (∀ t ∈ next s, t ∈ found) → work (found ++ more) s = work found s

/-- Every record is about the set with its number, as if all sets had had their numbers then. -/
def Recorded (next : IndexSet → List IndexSet) (work : List IndexSet → IndexSet → ρ) (a : Loop ρ) :
    Prop :=
  ∀ i x, (i, x) ∈ a.records → ∃ s, a.found[i]? = some s ∧ x = work a.found s ∧
    ∀ t ∈ next s, t ∈ a.found

theorem Round.recorded (h : Round turn next work a b) (hwork : Settled next work)
    (ha : Recorded next work a) : Recorded next work b := by
  cases h with
  | @take found j rest records s hs =>
    rw [visit_eq]
    intro i x hx
    have hold : ∀ {k t}, found[k]? = some t → (found ++ fresh found (next s))[k]? = some t :=
        fun hk =>
      (List.getElem?_append_left (List.getElem?_eq_some_iff.mp hk).1).trans hk
    rcases List.mem_append.mp hx with hx | hx
    · obtain ⟨t, ht, hxt, hnext⟩ := ha i x hx
      exact ⟨t, hold ht, hxt.trans (hwork found _ t hnext).symm,
        fun u hu => List.mem_append_left _ (hnext u hu)⟩
    · obtain ⟨rfl, rfl⟩ := Prod.mk.inj (List.mem_singleton.mp hx)
      refine ⟨s, hold hs, rfl, fun t ht => List.mem_append.mpr ?_⟩
      by_cases hmem : t ∈ found
      · exact .inl hmem
      · exact .inr (mem_fresh.mpr ⟨ht, hmem⟩)

/-- What a round keeps, rounds keep. -/
theorem Rounds.keep {P : Loop ρ → Prop} (hstep : ∀ a b, Round turn next work a b → P a → P b)
    (h : Rounds turn next work k a b) (ha : P a) : P b := by
  induction h with
  | refl => exact ha
  | head hround _ ih => exact ih (hstep _ _ hround ha)

theorem Rounds.left_eq (h : Rounds turn next work k a b) (ha : Numbered n a)
    (hbounded : ∀ s, ∀ t ∈ next s, t ∈ IndexSet.subsets n) : b.left n + k = a.left n := by
  induction h with
  | refl => rfl
  | head hround _ ih =>
    have hb := ha.round hround hbounded
    rw [← Nat.add_assoc, ih hb, hround.left_eq hb]

/-! ## The whole exploration -/

theorem getElem?_append_of_eq_some {found more : List IndexSet} (h : found[i]? = some s) :
    (found ++ more)[i]? = some s :=
  (List.getElem?_append_left (List.getElem?_eq_some_iff.mp h).1).trans h

/-- The sets of the numbers that wait after a round. -/
theorem map_putAll (turn : Turn) {found rest new : List IndexSet} {waiting : List Nat}
    (h : waiting.map (found[·]?) = rest.map some) :
    (turn.putAll (List.range' found.length new.length) waiting).map ((found ++ new)[·]?) =
      (turn.enqueue new rest).map some := by
  have hnew : (List.range' found.length new.length).map ((found ++ new)[·]?) = new.map some := by
    refine List.ext_getElem (by simp) fun k hk _ => ?_
    have hk : k < new.length := by simpa using hk
    simp [hk]
  have hold : waiting.map ((found ++ new)[·]?) = rest.map some := by
    refine Eq.trans (List.map_congr_left fun i hi => ?_) h
    obtain ⟨s, -, hs⟩ := List.mem_map.mp (h ▸ List.mem_map_of_mem hi)
    exact (getElem?_append_of_eq_some hs.symm).trans hs
  cases turn with
  | newestFirst =>
    simp only [Turn.putAll, Turn.enqueue, List.map_append, List.map_reverse, hnew, hold]
  | oldestFirst => simp only [Turn.putAll, Turn.enqueue, List.map_append, hnew, hold]

/-- Rounds go through an agenda as an exploration does. -/
theorem exists_rounds_walk (turn : Turn) (work : List IndexSet → IndexSet → ρ)
    (bounded : ∀ s, ∀ t ∈ next s, t ∈ IndexSet.subsets n) (found waiting : List IndexSet) :
    let done := walk n turn next bounded found waiting
    ∀ (numbers : List Nat) (records : List (Nat × ρ)), numbers.map (found[·]?) = waiting.map some →
      ∃ b, Rounds turn next work done.visited.length ⟨found, numbers, records⟩ b ∧ b.waiting = [] ∧
        b.found = done.found ∧
        ∃ more, b.records = records ++ more ∧
        more.map (fun r => b.found[r.1]?) = done.visited.map some := by
  fun_induction walk n turn next bounded found waiting with
  | case1 found =>
    intro _ numbers records hnumbers
    obtain rfl := List.map_eq_nil_iff.mp hnumbers
    exact ⟨_, .refl _, rfl, rfl, [], (List.append_nil _).symm, rfl⟩
  | case2 found s rest new later ih =>
    intro _ numbers records hnumbers
    cases numbers with
    | nil => cases hnumbers
    | cons i numbers =>
      obtain ⟨hs, hnumbers⟩ := List.cons.inj hnumbers
      have hround : Round turn next work ⟨found, i :: numbers, records⟩ _ := .take hs
      rw [visit_eq] at hround
      obtain ⟨b, hrounds, hend, hfound, more, hrecords, hvisited⟩ :=
        ih _ _ (map_putAll turn hnumbers)
      refine ⟨b, .head hround hrounds, hend, hfound, (i, _) :: more,
        hrecords.trans (List.append_assoc _ _ _), ?_⟩
      -- The set keeps its number to the end.
      have hkeeps : b.found[i]? = some s := by
        obtain ⟨tail, htail⟩ : found ++ new <+: later.found := prefix_found_walk _ _
        rw [hfound, ← htail]
        exact getElem?_append_of_eq_some (getElem?_append_of_eq_some hs)
      rw [List.map_cons, List.map_cons, hvisited, hkeeps]

/-- A loop ends, and every set that it found was visited once: the sets have different numbers,
    every number was taken once, and with it was recorded what is worked out for its set. There are
    as many rounds as sets, not more than there are sets of numbers below `n`. Wherever the rounds
    come to, each of them has lowered what is left by one, and the rounds that remain lead to the
    same end. -/
structure EndsOnce (turn : Turn) (next : IndexSet → List IndexSet)
    (work : List IndexSet → IndexSet → ρ) (n : Nat) (first : IndexSet) (final : Loop ρ) : Prop where
  rounds : Rounds turn next work final.found.length (start first) final
  waiting_eq : final.waiting = []
  nodup : final.found.Nodup
  taken_perm : final.taken.Perm (List.range final.found.length)
  recorded : ∀ i x, (i, x) ∈ final.records → ∃ s, final.found[i]? = some s ∧ x = work final.found s
  length_le : final.found.length ≤ 2 ^ n
  left_eq : ∀ k a, Rounds turn next work k (start first) a → a.left n + k = 2 ^ n
  remains : ∀ k a, Rounds turn next work k (start first) a →
    ∃ d, final.found.length = k + d ∧ Rounds turn next work d a final

/-- The loop of an exploration ends, and finds and visits what the exploration does. -/
theorem exists_endsOnce (turn : Turn) (bounded : ∀ s, ∀ t ∈ next s, t ∈ IndexSet.subsets n)
    {first : IndexSet} (hfirst : first ∈ IndexSet.subsets n) (hwork : Settled next work) :
    let done := explore n turn next bounded first
    ∃ final : Loop ρ, EndsOnce turn next work n first final ∧ final.found = done.found ∧
      final.taken.map (final.found[·]?) = done.visited.map some := by
  intro done
  obtain ⟨final, hrounds, hend, hfound, more, hrecords, hvisited⟩ :=
    exists_rounds_walk turn work bounded [first] [first] [0] [] rfl
  rw [List.nil_append] at hrecords
  subst hrecords
  have hnumbered : Numbered n final :=
    hrounds.keep (fun _ _ h ha => ha.round h bounded) (.start hfirst)
  have hrecorded : Recorded next work final := hrounds.keep (fun _ _ h => h.recorded hwork) nofun
  have hperm := hnumbered.perm
  rw [hend, List.append_nil] at hperm
  have htaken : final.taken.map (final.found[·]?) = done.visited.map some := by
    rw [taken, List.map_map]
    exact hvisited
  have hlength : done.visited.length = final.found.length := by
    have hmap := congrArg List.length htaken
    have hrange := hperm.length_eq
    rwa [List.length_map, List.length_map, hrange, List.length_range, eq_comm] at hmap
  refine ⟨final, ⟨hlength ▸ hrounds, hend, hnumbered.nodup, hperm, fun i x hx => ?_,
    hnumbered.length_le,
    fun k a h => ?_, fun k a h => h.exists_rest (hlength ▸ hrounds) hend⟩, hfound, htaken⟩
  · obtain ⟨s, hs, hx, -⟩ := hrecorded i x hx
    exact ⟨s, hs, hx⟩
  · exact (h.left_eq (.start hfirst) bounded).trans (Nat.sub_add_cancel Nat.one_le_two_pow)

/-- If the oldest number goes first, the numbers are taken in ascending order. -/
theorem EndsOnce.taken_eq {first : IndexSet} {final : Loop ρ}
    (h : EndsOnce .oldestFirst next work n first final) :
    final.taken = List.range final.found.length := by
  have hall := h.rounds.keep (P := fun a => a.taken ++ a.waiting = List.range a.found.length)
    (fun _ _ h => h.taken_append_waiting) rfl
  rwa [h.waiting_eq, List.append_nil] at hall

end Rounds

end Exploration

end Munch

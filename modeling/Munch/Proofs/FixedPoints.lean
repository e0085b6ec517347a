import Munch.Proofs.Agenda
import Munch.Proofs.Blocks
import Munch.Proofs.TableEdges

set_option autoImplicit false

/-! # The fixed-point loops

Three loops run until nothing is new, and no counter tells when: the loop that builds the table of
an expression, the loop that builds the blocks of a deterministic program, and the rounds that
divide the states of a table.

The first two are explorations by number (`Exploration.EndsOnce`). The row of a set and the block of
a kernel depend only on the numbers of what comes after it (`Table.settled_rowAndPattern`,
`Program.settled_blockOf`), so what is worked out when a number is taken is what would be worked out
at the end. The loop of the table puts a row in its place as soon as it has it, whatever rows are
missing before it (`place`); after the last one none is missing (`placeAll_eq`).

A round of the division goes on from the blocks of the one before it and stops when their number did
not change (`Partition.Rounds`). A round never joins blocks, so their number grows in every round
but the last, and there are no more blocks than states (`Partition.Rounds.length_add_count_le`). -/

namespace Munch

open Exploration

/-! ## Entries put in their places -/

section Place

variable {α : Type} {filler : α}

/-- Put an entry in its place in an array, which is filled up first if it ends before the place. -/
def place (filler : α) (entries : Array α) (i : Nat) (x : α) : Array α :=
  (entries ++ Array.replicate (i + 1 - entries.size) filler).setIfInBounds i x

theorem size_place (entries : Array α) (i : Nat) (x : α) :
    (place filler entries i x).size = max entries.size (i + 1) := by
  rw [place, Array.size_setIfInBounds, Array.size_append, Array.size_replicate]
  omega

theorem getElem?_place_self (entries : Array α) (i : Nat) (x : α) :
    (place filler entries i x)[i]? = some x := by
  have hlt : i < (entries ++ Array.replicate (i + 1 - entries.size) filler).size := by
    rw [Array.size_append, Array.size_replicate]
    omega
  rw [place, Array.getElem?_setIfInBounds_self_of_lt hlt]

theorem getElem?_place_of_ne {entries : Array α} {i j : Nat} (hne : i ≠ j)
    (hj : j < entries.size) (x : α) : (place filler entries i x)[j]? = entries[j]? := by
  rw [place, Array.getElem?_setIfInBounds_ne hne, Array.getElem?_append_left hj]

/-- Put each entry of a list in the place that is given with it. -/
def placeAll (filler : α) (entries : Array α) (placed : List (Nat × α)) : Array α :=
  placed.foldl (fun entries e => place filler entries e.1 e.2) entries

theorem size_placeAll {n : Nat} {placed : List (Nat × α)} {entries : Array α}
    (h : ∀ e ∈ placed, e.1 < n) (hsize : entries.size ≤ n) :
    (placeAll filler entries placed).size ≤ n := by
  induction placed generalizing entries with
  | nil => exact hsize
  | cons e rest ih =>
    refine ih (fun e he => h e (List.mem_cons_of_mem _ he)) ?_
    rw [size_place]
    exact Nat.max_le.mpr ⟨hsize, h e List.mem_cons_self⟩

/-- An entry stays where it is while others are put in their places. -/
theorem getElem?_placeAll_of_not_mem {i : Nat} {placed : List (Nat × α)} {entries : Array α}
    (h : i ∉ placed.map Prod.fst) (hi : i < entries.size) :
    (placeAll filler entries placed)[i]? = entries[i]? := by
  induction placed generalizing entries with
  | nil => rfl
  | cons e rest ih =>
    rw [List.map_cons, List.mem_cons, not_or] at h
    refine (ih h.2 ?_).trans (getElem?_place_of_ne (Ne.symm h.1) hi _)
    rw [size_place]
    exact Nat.lt_of_lt_of_le hi (Nat.le_max_left _ _)

theorem getElem?_placeAll_of_mem {i : Nat} {x : α} {placed : List (Nat × α)} (entries : Array α)
    (hnodup : (placed.map Prod.fst).Nodup) (h : (i, x) ∈ placed) :
    (placeAll filler entries placed)[i]? = some x := by
  induction placed generalizing entries with
  | nil => cases h
  | cons e rest ih =>
    obtain ⟨hnew, hnodup⟩ := List.nodup_cons.mp hnodup
    rcases List.mem_cons.mp h with rfl | h
    · refine (getElem?_placeAll_of_not_mem hnew ?_).trans (getElem?_place_self _ _ _)
      rw [size_place]
      exact Nat.lt_of_lt_of_le (Nat.lt_succ_self i) (Nat.le_max_right _ _)
    · exact ih _ hnodup h

/-- Entries in any order end up in the order of their places, behind the filler in the first
    place. -/
theorem placeAll_eq {values : List α} {placed : List (Nat × α)}
    (hperm : (placed.map Prod.fst).Perm ((List.range values.length).map (· + 1)))
    (hvalues : ∀ i x, (i + 1, x) ∈ placed → values[i]? = some x) :
    placeAll filler #[filler] placed = (filler :: values).toArray := by
  have hnodup : (placed.map Prod.fst).Nodup :=
    hperm.nodup_iff.mpr (List.nodup_range.map fun _ _ h => Nat.succ.inj h)
  have hplaces : ∀ i, i ∈ placed.map Prod.fst ↔ ∃ k < values.length, k + 1 = i := fun i => by
    rw [hperm.mem_iff, List.mem_map]
    simp only [List.mem_range]
  have hget : ∀ i, i < values.length + 1 → (placeAll filler #[filler] placed)[i]? =
      (filler :: values)[i]? := by
    intro i hi
    cases i with
    | zero =>
      refine getElem?_placeAll_of_not_mem (fun h => ?_) Nat.one_pos
      obtain ⟨k, -, hk⟩ := (hplaces 0).mp h
      cases hk
    | succ i =>
      obtain ⟨e, he, hi'⟩ :=
        List.mem_map.mp ((hplaces (i + 1)).mpr ⟨i, Nat.lt_of_succ_lt_succ hi, rfl⟩)
      have he : (i + 1, e.2) ∈ placed := hi' ▸ he
      rw [getElem?_placeAll_of_mem _ hnodup he, List.getElem?_cons_succ, hvalues i e.2 he]
  -- Nothing is placed behind the values, so the two end together.
  have hsize : (placeAll filler #[filler] placed).size ≤ values.length + 1 := by
    refine size_placeAll (fun e he => ?_) (Nat.le_add_left 1 _)
    obtain ⟨k, hk, he⟩ := (hplaces e.1).mp (List.mem_map_of_mem he)
    omega
  refine Array.toList_inj.mp (List.ext_getElem? fun i => ?_)
  rw [Array.getElem?_toList]
  by_cases hi : i < values.length + 1
  · exact hget i hi
  · have hi := Nat.le_of_not_lt hi
    rw [Array.getElem?_eq_none (Nat.le_trans hsize hi),
      List.getElem?_eq_none (List.length_cons ▸ hi)]

end Place

/-! ## The table of an expression -/

namespace Table

variable {l : Labelled}

/-- What is worked out for a set when its number is taken: its row, and the pattern that it
    accepts. -/
def rowAndPattern (l : Labelled) (found : List IndexSet) (set : IndexSet) : Row × Option Nat :=
  (rowOf l l.follow found set, setAccept? l set)

theorem settled_rowAndPattern (l : Labelled) : Settled (nextSets l l.follow) (rowAndPattern l) := by
  intro found more set hnext
  have hstate : ∀ ps ∈ moverGroups l set,
      stateOf (found ++ more) (followAll l l.follow ps) =
        stateOf found (followAll l l.follow ps) := by
    intro ps hps
    by_cases hempty : followAll l l.follow ps = []
    · rw [stateOf_eq_error_iff.mpr hempty, stateOf_eq_error_iff.mpr hempty]
    · have hmem : followAll l l.follow ps ∈ found :=
        hnext _ (List.mem_filter.mpr ⟨List.mem_map_of_mem hps, by simpa using hempty⟩)
      rw [stateOf, stateOf, List.idxOf_append_of_mem hmem]
  have htargets : (moverGroups l set).map
      (fun ps => (ps, stateOf (found ++ more) (followAll l l.follow ps))) =
        (moverGroups l set).map fun ps => (ps, stateOf found (followAll l l.follow ps)) :=
    List.map_congr_left fun ps hps => congrArg (ps, ·) (hstate ps hps)
  rw [rowAndPattern, rowAndPattern, rowOf, rowOf]
  exact congrArg
    (fun targets => (Row.ofFn fun b => (List.lookup (movers l set b) targets).getD error,
      setAccept? l set)) htargets

/-- The loop that builds the table of an expression ends with every set of positions that it finds
    taken once. Set number `i` is state `i + 1`; its row and the pattern that it accepts, put in
    their place when the number is taken, make up the table, whose start state is the first set. -/
structure BuiltBy (re : Regex) (final : Loop (Row × Option Nat)) : Prop where
  ends : let l := Labelled.ofRegex re
    EndsOnce .newestFirst (nextSets l l.follow) (rowAndPattern l) l.positionCount l.start final
  visited : final.taken.map (final.found[·]?) = (sets (Labelled.ofRegex re)).visited.map some
  size_eq : (ofRegex re).size = final.found.length + 1
  start_eq : (ofRegex re).start = 1
  rows_eq : placeAll errorRow #[errorRow] (final.records.map fun r => (r.1 + 1, r.2.1)) =
    (ofRegex re).rows
  accepting_eq : placeAll none #[none] (final.records.map fun r => (r.1 + 1, r.2.2)) =
    (ofRegex re).accepting

/-- What is worked out for the numbers ends up in the order of the numbers. -/
theorem placeAll_records {ρ α : Type} {next : IndexSet → List IndexSet}
    {work : List IndexSet → IndexSet → ρ} {n : Nat} {turn : Turn} {first : IndexSet}
    {final : Loop ρ} (h : EndsOnce turn next work n first final) (filler : α) (f : ρ → α) :
      placeAll filler #[filler] (final.records.map fun r => (r.1 + 1, f r.2)) =
        (filler :: final.found.map fun s => f (work final.found s)).toArray := by
  refine placeAll_eq ?_ fun i x hx => ?_
  · have htaken : (final.records.map fun r => (r.1 + 1, f r.2)).map Prod.fst =
        final.taken.map (· + 1) := by
      rw [Loop.taken, List.map_map, List.map_map]
      rfl
    rw [htaken, List.length_map]
    exact h.taken_perm.map _
  · obtain ⟨r, hr, heq⟩ := List.mem_map.mp hx
    obtain ⟨hi, rfl⟩ := Prod.mk.inj heq
    obtain rfl := Nat.succ.inj hi
    obtain ⟨s, hs, hwork⟩ := h.recorded r.1 r.2 hr
    rw [List.getElem?_map, hs, hwork]
    rfl

theorem exists_builtBy (re : Regex) : ∃ final, BuiltBy re final := by
  have hstart : (Labelled.ofRegex re).start ∈ IndexSet.subsets
      (Labelled.ofRegex re).positionCount := by
    have hcollect : (Labelled.ofRegex re).start =
        IndexSet.collect (Labelled.ofRegex re).positionCount
        (Labelled.ofRegex re).start.contains := by
      refine IndexSet.ext (Labelled.ascending_start re) (IndexSet.ascending_collect _ _) fun q => ?_
      rw [IndexSet.mem_collect, List.contains_iff_mem]
      refine ⟨fun hq => ⟨?_, hq⟩, And.right⟩
      have hwithin := Regex.within_of_first ((Labelled.mem_start re).mp hq)
      rw [Labelled.positionCount_ofRegex, ← Nat.zero_add (Regex.width _)]
      exact hwithin.2
    rw [hcollect]
    exact IndexSet.mem_subsets _ _
  obtain ⟨final, hends, hfound, hvisited⟩ :=
    exists_endsOnce .newestFirst (nextSets_bounded _ _) hstart (settled_rowAndPattern _)
  have hfound : final.found = (sets (Labelled.ofRegex re)).found := hfound
  obtain ⟨q, hq⟩ := re.desugar.exists_first_anchor 0
  refine ⟨final, hends, hvisited, hfound ▸ size_ofLabelled _,
    start_ofLabelled (List.ne_nil_of_mem ((Labelled.mem_start re).mpr hq)), ?_, ?_⟩
  · exact (placeAll_records hends errorRow Prod.fst).trans (hfound ▸ rfl)
  · exact (placeAll_records hends none Prod.snd).trans (hfound ▸ rfl)

end Table

/-! ## The blocks of a program -/

namespace Program

theorem settled_blockOf (p : Program) : Settled p.nextKernels p.blockOf := by
  intro found more kernel hnext
  have hmoves : (p.kernelMoves kernel).map (fun m => (m.1, (found ++ more).idxOf m.2)) =
      (p.kernelMoves kernel).map fun m => (m.1, found.idxOf m.2) := by
    refine List.map_congr_left fun m hm => ?_
    rw [List.idxOf_append_of_mem (hnext m.2 (List.mem_map_of_mem hm))]
  rw [blockOf, blockOf, hmoves]

/-- The loop that builds the blocks of a program ends with every kernel that it finds taken once, in
    the order of the numbers, so that the blocks are made in the order in which they stand. The
    deterministic program is their code. -/
structure BuiltBy (p : Program) (final : Loop Block) : Prop where
  ends : EndsOnce .oldestFirst p.nextKernels p.blockOf p.size (p.kernelOf [0]) final
  taken_eq : final.taken = List.range final.found.length
  blocks_eq : final.records.map Prod.snd = p.kernelBlocks
  code_eq : p.isDeterministic = false → p.toDeterministic = ofBlocks (final.records.map Prod.snd)

theorem exists_builtBy (p : Program) : ∃ final, BuiltBy p final := by
  obtain ⟨final, hends, hfound, -⟩ :=
    exists_endsOnce .oldestFirst p.nextKernels_bounded
      (p.kernelOf_mem_subsets [0]) p.settled_blockOf
  have hfound : final.found = p.kernels.found := hfound
  have htaken := hends.taken_eq
  have hblocks : final.records.map Prod.snd = p.kernelBlocks := by
    refine List.ext_getElem? fun i => ?_
    have hnumber : (final.records[i]?).map Prod.fst = (List.range final.found.length)[i]? := by
      rw [← htaken, Loop.taken, List.getElem?_map]
    rw [List.getElem?_map, kernelBlocks, ← hfound, List.getElem?_map]
    cases hr : final.records[i]? with
    | none =>
      rw [hr, Option.map_none, eq_comm, List.getElem?_eq_none_iff, List.length_range] at hnumber
      rw [List.getElem?_eq_none hnumber]
      rfl
    | some r =>
      rw [hr, Option.map_some, eq_comm, List.getElem?_eq_some_iff] at hnumber
      obtain ⟨hlt, hi⟩ := hnumber
      rw [List.getElem_range] at hi
      obtain ⟨s, hs, hwork⟩ := hends.recorded r.1 r.2 (List.mem_of_getElem? hr)
      rw [← hi] at hs
      rw [hs, Option.map_some, Option.map_some, hwork]
  exact ⟨final, hends, htaken, hblocks, fun h => hblocks ▸ toDeterministic_eq_ofBlocks h⟩

end Program

/-! ## The rounds of a division -/

namespace Partition

variable {t : Table} {p q : Partition} {ps : List Partition}

/-- The divisions of one round after the other. The rounds stop if there are as many blocks as
    before. -/
inductive Rounds (t : Table) : Partition → List Partition → Prop
  | stop {p : Partition} (h : (p.refine t).count = p.count) : Rounds t p [p.refine t]
  | more {p : Partition} {ps : List Partition} (h : (p.refine t).count ≠ p.count)
      (hrest : Rounds t (p.refine t) ps) : Rounds t p (p.refine t :: ps)

/-- A round never joins blocks. -/
theorem Counts.le_count_refine (h : Counts t p) : p.count ≤ (p.refine t).count := by
  classical
  -- The block of a state is a part of its signature, and the blocks of the next division are the
  -- signatures.
  have himage : ((List.range t.size).map p.block).toFinset =
      ((List.range t.size).map (p.signature t)).toFinset.image Prod.fst := by
    ext b
    simp [signature]
  have hcount : (p.refine t).count = ((List.range t.size).map (p.signature t)).toFinset.card :=
    length_eraseDups _
  rw [h, hcount, length_eraseDups, himage]
  exact Finset.card_image_le

theorem Counts.lt_count_refine_iff (h : Counts t p) :
    p.count < (p.refine t).count ↔ (p.refine t).count ≠ p.count :=
  ⟨Nat.ne_of_gt, fun hne => Nat.lt_of_le_of_ne h.le_count_refine (Ne.symm hne)⟩

/-- The rounds end, in one way. -/
theorem rounds_iff (h : Counts t p) : Rounds t p ps ↔ ps = rounds t p := by
  fun_induction rounds t p generalizing ps with
  | case1 p hlt ih =>
    have hne := h.lt_count_refine_iff.mp hlt
    constructor
    · rintro (hstop | ⟨-, hrest⟩)
      · exact absurd hstop hne
      · rw [(ih (counts_refine t p)).mp hrest]
    · rintro rfl
      exact .more hne ((ih (counts_refine t p)).mpr rfl)
  | case2 p hlt =>
    have heq := not_not.mp (mt h.lt_count_refine_iff.mpr hlt)
    constructor
    · rintro (- | ⟨hmore, -⟩)
      · rfl
      · exact absurd heq hmore
    · rintro rfl
      exact .stop heq

theorem Rounds.length_add_count_le (h : Rounds t p ps) (hp : Counts t p) :
    ps.length + p.count ≤ t.size + 1 := by
  induction h with
  | @stop p h =>
    have hle := count_refine_le t p
    rw [List.length_singleton]
    omega
  | @more p ps h hrest ih =>
    have hlt := hp.lt_count_refine_iff.mpr h
    have hle := ih (counts_refine t p)
    rw [List.length_cons]
    omega

/-- Every round but the last makes more blocks than there were before it. -/
theorem Rounds.pairwise_count (h : Rounds t p ps) (hp : Counts t p) :
    (p :: ps.dropLast).Pairwise fun q r => q.count < r.count := by
  induction h with
  | stop => exact List.pairwise_singleton _ _
  | @more p ps h hrest ih =>
    have hlt := hp.lt_count_refine_iff.mpr h
    have hgrows := ih (counts_refine t p)
    have hne : ps ≠ [] := by cases hrest <;> exact List.cons_ne_nil _ _
    rw [List.dropLast_cons_of_ne_nil hne]
    refine List.pairwise_cons.mpr ⟨fun q hq => ?_, hgrows⟩
    rcases List.mem_cons.mp hq with rfl | hq
    · exact hlt
    · exact Nat.lt_trans hlt (List.rel_of_pairwise_cons hgrows hq)

/-- The last round leaves as many blocks as there were before it. -/
theorem Rounds.count_getLast? (h : Rounds t p ps) :
    (ps.getLast?).map count = ((p :: ps.dropLast).getLast?).map count := by
  induction h with
  | stop h => exact congrArg some h
  | @more p ps h hrest ih =>
    have hne : ps ≠ [] := by cases hrest <;> exact List.cons_ne_nil _ _
    rw [List.dropLast_cons_of_ne_nil hne, List.getLast?_cons_cons, ← ih,
      List.getLast?_cons_of_ne_nil hne]

theorem Rounds.counts (h : Rounds t p ps) (hq : q ∈ ps) : Counts t q := by
  induction h with
  | stop => exact List.mem_singleton.mp hq ▸ counts_refine t _
  | more _ _ ih =>
    rcases List.mem_cons.mp hq with rfl | hq
    · exact counts_refine t _
    · exact ih hq

/-- The rounds that divide the states of a table end, in one way, after no more rounds than there
    are states. Every round but the last makes more blocks than there were, and the last one makes
    no more; its division is the final one. -/
structure EndsWith (t : Table) (ps : List Partition) : Prop where
  rounds : Rounds t (initial t) ps
  unique : ∀ qs, Rounds t (initial t) qs → qs = ps
  length_le : ps.length ≤ t.size
  counts : ∀ q ∈ initial t :: ps, Counts t q
  grows : (initial t :: ps.dropLast).Pairwise fun q r => q.count < r.count
  stays : (ps.getLast?).map count = ((initial t :: ps.dropLast).getLast?).map count
  final_eq : ps.getLast? = some (final t)

theorem endsWith_rounds (ht : 0 < t.size) : EndsWith t (rounds t (initial t)) := by
  have hcounts := counts_initial t
  have hrounds : Rounds t (initial t) (rounds t (initial t)) := (rounds_iff hcounts).mpr rfl
  refine ⟨hrounds, fun qs => (rounds_iff hcounts).mp, ?_, ?_, hrounds.pairwise_count hcounts,
    hrounds.count_getLast?, ?_⟩
  · have hle := hrounds.length_add_count_le hcounts
    have hmem : (initial t).block 0 ∈ ((List.range t.size).map (initial t).block).eraseDups :=
      List.mem_eraseDups.mpr (List.mem_map_of_mem (List.mem_range.mpr ht))
    have hpos : 0 < (initial t).count := hcounts ▸ List.length_pos_of_mem hmem
    omega
  · intro q hq
    rcases List.mem_cons.mp hq with rfl | hq
    · exact hcounts
    · exact hrounds.counts hq
  · obtain ⟨q, hlast, -⟩ := exists_getLast?_rounds (initial t) hcounts
    rw [final, hlast]
    rfl

end Partition

/-! ## All three -/

/-- The loops end and take everything once: for every expression, the loop of its table takes each
    set of positions that it finds once, and each gets its own row; for every program, the loop of
    its blocks takes each kernel that it finds once, in the order of the numbers; and for every
    table, the rounds of the division of its states are no more than there are states, since all of
    them but the last make more blocks. -/
theorem fixed_point_loops_end (re : Regex) (p : Program) {t : Table} (ht : 0 < t.size) :
    (∃ final, Table.BuiltBy re final) ∧ (∃ final, Program.BuiltBy p final) ∧
    ∃ ps, Partition.EndsWith t ps :=
  ⟨Table.exists_builtBy re, p.exists_builtBy, _, Partition.endsWith_rounds ht⟩

/-- The loops for an expression of one byte, for a program that accepts at once, and for the table
    of the expression. -/
theorem fixed_point_loops_end_byte :
    let re := Regex.byte 97
    0 < (Table.ofRegex re).size ∧ (∃ final, Table.BuiltBy re final) ∧
      (∃ final, Program.BuiltBy Program.loneAccept final) ∧
      ∃ ps, Partition.EndsWith (Table.ofRegex re) ps :=
  have hsize : 0 < (Table.ofRegex (.byte 97)).size := (Table.wellFormed_ofLabelled _).size_pos
  ⟨hsize, fixed_point_loops_end (.byte 97) Program.loneAccept hsize⟩

end Munch

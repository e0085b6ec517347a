import Munch.Proofs.Merging
import Munch.Table.Minimize

set_option autoImplicit false

/-! # Minimal tables do the same

The division that the rounds end with divides no block any more: the last round found as many blocks
as there were before it, and a round never joins blocks, so it left every block as it was
(`block_eq_of_count_le`). Hence states of one block accept the same pattern and lead to the same
blocks (`stable_final`), and the blocks are merged states (`Stable.merges`). So the minimal table
finds the same matches (`Table.find_minimize`), and after every text it is where the table would be
(`Table.run_minimize_ofRegex`). -/

namespace Munch

/-! ## Counting different members -/

section Dups

variable {α β : Type} [BEq α] [LawfulBEq α] [BEq β] [LawfulBEq β]

theorem nodup_eraseDups (xs : List α) : xs.eraseDups.Nodup := by
  match xs with
  | [] => simp
  | a :: as =>
    rw [List.eraseDups_cons, List.nodup_cons, List.mem_eraseDups]
    exact ⟨by simp, nodup_eraseDups _⟩
termination_by xs.length
decreasing_by exact Nat.lt_succ_of_le (List.length_filter_le _ _)

theorem length_eraseDups [DecidableEq α] (xs : List α) :
    xs.eraseDups.length = xs.toFinset.card := by
  rw [← List.toFinset_card_of_nodup (nodup_eraseDups xs)]
  congr 1
  ext x
  simp

/-- If a function keeps the number of different members, it tells them apart. -/
theorem eq_of_length_eraseDups_le {f : α → β} {xs : List α}
    (h : xs.eraseDups.length ≤ (xs.map f).eraseDups.length) {a b : α} (ha : a ∈ xs) (hb : b ∈ xs)
    (hf : f a = f b) : a = b := by
  classical
  have himage : (xs.map f).toFinset = xs.toFinset.image f := by
    ext y
    simp
  rw [length_eraseDups, length_eraseDups, himage] at h
  have hcard : (xs.toFinset.image f).card = xs.toFinset.card :=
    Nat.le_antisymm Finset.card_image_le h
  exact Finset.injOn_of_card_image_eq hcard (by simpa using ha) (by simpa using hb) hf

theorem idxOf_inj_of_mem {xs : List α} {a b : α} (ha : a ∈ xs) (h : xs.idxOf a = xs.idxOf b) :
    a = b := by
  have hlt := List.idxOf_lt_length_of_mem ha
  have hb : b ∈ xs := List.idxOf_lt_length_iff.mp (h ▸ hlt)
  have hget := List.getElem_idxOf hlt
  have hget' := List.getElem_idxOf (List.idxOf_lt_length_of_mem hb)
  rw [← hget, ← hget']
  congr 1

theorem length_eraseDups_numberByFirst (xs : List α) :
    (numberByFirst xs).eraseDups.length = xs.eraseDups.length := by
  classical
  have himage : (numberByFirst xs).toFinset = xs.toFinset.image xs.eraseDups.idxOf := by
    ext y
    simp [numberByFirst]
  rw [length_eraseDups, length_eraseDups, himage]
  refine Finset.card_image_of_injOn fun a ha b _ h => ?_
  exact idxOf_inj_of_mem (List.mem_eraseDups.mpr (by simpa using ha)) h

end Dups

namespace Partition

variable {t : Table} {p q : Partition} {s s' : Nat}

/-- What the first division puts a state under. -/
def kind (t : Table) (s : Nat) : Nat :=
  if s = Table.error then 0
  else
    match t.accept? s with
    | none => 1
    | some id => id + 2

theorem block_initial (hs : s < t.size) : (initial t).block s = kind t s := by
  have hget : ((List.range t.size).map (kind t))[s]? = some (kind t s) := by simp [hs]
  show (((List.range t.size).map (kind t)).toArray[s]?).getD 0 = kind t s
  rw [List.getElem?_toArray, hget, Option.getD_some]

/-- The count of a division is the number of its blocks. -/
def Counts (t : Table) (p : Partition) : Prop :=
  p.count = ((List.range t.size).map p.block).eraseDups.length

/-- A division keeps apart what another one keeps apart. -/
def Refines (t : Table) (p q : Partition) : Prop :=
  ∀ s < t.size, ∀ s' < t.size, p.block s = p.block s' → q.block s = q.block s'

theorem signature_eq_iff : signature t p s = signature t p s' ↔
    p.block s = p.block s' ∧ ∀ b, p.block (t.next s b) = p.block (t.next s' b) := by
  have hrow : (t.row s).toList.map p.block = (t.row s').toList.map p.block ↔
      ∀ b, p.block (t.next s b) = p.block (t.next s' b) := by
    constructor
    · intro h b
      have hget := congrArg (·[b.toNat]?) h
      simpa [Table.next, Row.entry, Vector.get, b.toNat_lt] using hget
    · intro h
      refine List.ext_getElem (by simp) fun i hi _ => ?_
      have hi : i < 256 := by simpa using hi
      have hentry := h (UInt8.ofNat i)
      simp only [Table.next, Row.entry, UInt8.toNat_ofNat', Nat.mod_eq_of_lt hi] at hentry
      simpa [Vector.get] using hentry
  rw [signature, signature, Prod.mk.injEq, hrow]

theorem block_refine (hs : s < t.size) : (refine t p).block s =
    ((List.range t.size).map (signature t p)).eraseDups.idxOf (signature t p s) := by
  simp [refine, block, numberByFirst, hs]

theorem signature_mem (hs : s < t.size) :
    signature t p s ∈ (List.range t.size).map (signature t p) :=
  List.mem_map_of_mem (List.mem_range.mpr hs)

/-- A round keeps apart the states of different signatures. -/
theorem block_refine_eq_iff (hs : s < t.size) (hs' : s' < t.size) :
    (refine t p).block s = (refine t p).block s' ↔ signature t p s = signature t p s' := by
  rw [block_refine hs, block_refine hs']
  constructor
  · exact idxOf_inj_of_mem (List.mem_eraseDups.mpr (signature_mem hs))
  · intro h
    rw [h]

theorem map_block_refine : (List.range t.size).map (refine t p).block =
    numberByFirst ((List.range t.size).map (signature t p)) := by
  rw [numberByFirst, List.map_map]
  exact List.map_congr_left fun s hs => block_refine (List.mem_range.mp hs)

theorem counts_refine (t : Table) (p : Partition) : Counts t (refine t p) := by
  rw [Counts, map_block_refine, length_eraseDups_numberByFirst]
  rfl

theorem counts_initial (t : Table) : Counts t (initial t) := by
  have hmap : (List.range t.size).map (initial t).block = (List.range t.size).map (kind t) :=
    List.map_congr_left fun s hs => block_initial (List.mem_range.mp hs)
  rw [Counts, hmap]
  rfl

theorem refines_refine (t : Table) (p : Partition) : Refines t (refine t p) p := by
  intro s hs s' hs' h
  exact (signature_eq_iff.mp ((block_refine_eq_iff hs hs').mp h)).1

/-- A round that finds no more blocks than there were leaves every block as it is. -/
theorem block_eq_of_count_le (hp : Counts t p) (h : (refine t p).count ≤ p.count) (hs : s < t.size)
    (hs' : s' < t.size) (hblock : p.block s = p.block s') :
    (refine t p).block s = (refine t p).block s' := by
  rw [block_refine_eq_iff hs hs']
  have hmap : (List.range t.size).map p.block =
      ((List.range t.size).map (signature t p)).map Prod.fst := by
    rw [List.map_map]
    rfl
  rw [hp, hmap] at h
  exact eq_of_length_eraseDups_le h (signature_mem hs) (signature_mem hs') hblock

/-- The last division of the rounds is what a round made of a division, with no more blocks. -/
theorem exists_getLast?_rounds (p : Partition) (hp : Counts t p) :
    ∃ q, (rounds t p).getLast? = some (refine t q) ∧ Counts t q ∧ Refines t q p ∧
      (refine t q).count ≤ q.count := by
  fun_induction rounds t p with
  | case1 p hlt ih =>
    obtain ⟨q, hlast, hq, href, hle⟩ := ih (counts_refine t p)
    refine ⟨q, ?_, hq, fun s hs s' hs' h => ?_, hle⟩
    · rw [List.getLast?_cons, hlast]
      rfl
    · exact refines_refine t p s hs s' hs' (href s hs s' hs' h)
  | case2 p hlt =>
    exact ⟨p, rfl, hp, fun _ _ _ _ h => h, Nat.le_of_not_lt hlt⟩

/-- A division whose blocks a machine could have as its states. -/
structure Stable (t : Table) (p : Partition) : Prop where
  refines : Refines t p (initial t)
  next : ∀ s < t.size, ∀ s' < t.size, p.block s = p.block s' →
    ∀ b, p.block (t.next s b) = p.block (t.next s' b)
  block_lt : ∀ s < t.size, p.block s < p.count
  exists_block : ∀ j < p.count, ∃ s < t.size, p.block s = j
  block_error : p.block Table.error = 0
  size_blocks : p.blocks.size = t.size

/-- The division that no round divides any more is stable. -/
theorem stable_final (h : t.WellFormed) : Stable t (final t) := by
  obtain ⟨q, hlast, hq, href, hle⟩ := exists_getLast?_rounds (initial t) (counts_initial t)
  have hfinal : final t = refine t q := by rw [final, hlast]; rfl
  have hsame : ∀ s < t.size, ∀ s' < t.size,
      q.block s = q.block s' ↔ (refine t q).block s = (refine t q).block s' := fun s hs s' hs' =>
    ⟨block_eq_of_count_le hq hle hs hs', refines_refine t q s hs s' hs'⟩
  -- One more round changes nothing, so its signatures only tell apart what is apart already.
  rw [hfinal]
  constructor
  · intro s hs s' hs' hblock
    exact href s hs s' hs' ((hsame s hs s' hs').mpr hblock)
  · intro s hs s' hs' hblock b
    have hsig := (signature_eq_iff.mp ((block_refine_eq_iff hs hs').mp hblock)).2 b
    exact (hsame _ (h.next_lt s hs b) _ (h.next_lt s' hs' b)).mp hsig
  · intro s hs
    rw [block_refine hs]
    exact List.idxOf_lt_length_of_mem (List.mem_eraseDups.mpr (signature_mem hs))
  · intro j hj
    have hj : j < ((List.range t.size).map (signature t q)).eraseDups.length := hj
    have hmem := List.mem_eraseDups.mp (List.getElem_mem hj)
    obtain ⟨s, hs, hsig⟩ := List.mem_map.mp hmem
    refine ⟨s, List.mem_range.mp hs, ?_⟩
    rw [block_refine (List.mem_range.mp hs), hsig]
    exact List.Nodup.idxOf_getElem (nodup_eraseDups _) j hj
  -- Blocks are numbered in the order of their first states, and the error state is the first state.
  · obtain ⟨n, hn⟩ := Nat.exists_eq_succ_of_ne_zero (Nat.ne_of_gt h.size_pos)
    rw [block_refine h.size_pos, hn, List.range_succ_eq_map, List.map_cons, List.eraseDups_cons,
      List.idxOf_cons_self]
  · simp [refine, numberByFirst]

/-! ## Merging -/

section Merge

variable (h : t.WellFormed) (hp : Stable t p)

include h hp

/-- States of one block accept the same pattern. -/
theorem Stable.accept?_eq (hs : s < t.size) (hs' : s' < t.size) (hblock : p.block s = p.block s') :
    t.accept? s = t.accept? s' ∧ (s = Table.error ↔ s' = Table.error) := by
  have hkind := hp.refines s hs s' hs' hblock
  rw [block_initial hs, block_initial hs'] at hkind
  have herror := h.accept_error
  unfold kind at hkind
  by_cases hs0 : s = Table.error
  · by_cases hs0' : s' = Table.error
    · simp [hs0, hs0']
    · cases hacc : t.accept? s' <;> simp [hs0, hs0', hacc] at hkind
  · by_cases hs0' : s' = Table.error
    · cases hacc : t.accept? s <;> simp [hs0, hs0', hacc] at hkind
    · rw [if_neg hs0, if_neg hs0'] at hkind
      refine ⟨?_, iff_of_false hs0 hs0'⟩
      cases hacc : t.accept? s <;> cases hacc' : t.accept? s' <;> simp [hacc, hacc'] at hkind ⊢
      exact hkind

omit h in
/-- A block does what its first state does. -/
theorem Stable.exists_first (hs : s < t.size) : ∃ s' < t.size, p.block s' = p.block s ∧
    (p.merge t).row (p.block s) = (t.row s').map p.block ∧
    (p.merge t).accept? (p.block s) = t.accept? s' := by
  have hlt := hp.block_lt s hs
  have hblocks : p.blocks.toList[s]? = some (p.block s) := by
    have hs : s < p.blocks.size := hp.size_blocks ▸ hs
    simp [block, hs]
  have hmem : p.block s ∈ p.blocks.toList := List.mem_of_getElem? hblocks
  have hfirst := List.idxOf_lt_length_of_mem hmem
  refine ⟨p.blocks.toList.idxOf (p.block s), ?_, ?_, ?_, ?_⟩
  · rw [← hp.size_blocks]
    simpa using hfirst
  · have hget := List.getElem_idxOf hfirst
    rw [block, ← Array.getElem?_toList, List.getElem?_eq_getElem hfirst, hget, Option.getD_some]
  · simp [merge, Table.row, hlt]
  · simp [merge, Table.accept?, hlt]

/-- A block has the number of the error state only if it holds the error state. -/
theorem Stable.block_eq_error_iff (hs : s < t.size) :
    p.block s = Table.error ↔ s = Table.error := by
  constructor
  · intro hblock
    have hsame : p.block s = p.block Table.error := hblock.trans hp.block_error.symm
    exact (hp.accept?_eq h hs h.size_pos hsame).2.mpr rfl
  · rintro rfl
    exact hp.block_error

/-- The blocks of a division are merged states. -/
theorem Stable.merges : t.Merges (p.merge t) p.block where
  start := rfl
  lt := by
    intro s hs
    simpa [merge, Table.size] using hp.block_lt s hs
  onto := by
    intro j hj
    exact hp.exists_block j (by simpa [merge, Table.size] using hj)
  accept := by
    intro s hs
    obtain ⟨s', hs', hblock, _, haccept⟩ := hp.exists_first hs
    exact haccept.trans (hp.accept?_eq h hs' hs hblock).1
  next := by
    intro s hs b
    obtain ⟨s', hs', hblock, hrow, _⟩ := hp.exists_first hs
    rw [Table.next, hrow, ← hp.next s' hs' s hs hblock b]
    simp [Table.next, Row.entry, Vector.get]
  error_iff := fun s hs => hp.block_eq_error_iff h hs

end Merge

theorem counts_final (t : Table) : Counts t (final t) := by
  obtain ⟨q, hlast, _⟩ := exists_getLast?_rounds (initial t) (counts_initial t)
  have hfinal : final t = refine t q := by rw [final, hlast]; rfl
  rw [hfinal]
  exact counts_refine t q

/-- If there are as many blocks as states, no block holds two of them. -/
theorem Counts.block_inj (hp : Counts t p) (hcount : p.count = t.size) (hs : s < t.size)
    (hs' : s' < t.size) (hblock : p.block s = p.block s') : s = s' := by
  have hp : p.count = ((List.range t.size).map p.block).eraseDups.length := hp
  have hlen : (List.range t.size).eraseDups.length ≤
      ((List.range t.size).map p.block).eraseDups.length := by
    rw [← hp, hcount]
    simpa using length_eraseDups_le (List.range t.size)
  exact eq_of_length_eraseDups_le hlen (List.mem_range.mpr hs) (List.mem_range.mpr hs') hblock

end Partition

namespace Table

variable {t : Table}

/-- The states of a table are merged as the last division says. -/
theorem exists_merges_minimize (h : t.WellFormed) : ∃ f, t.Merges t.minimize f ∧
    (t.minimal = false → ∀ s < t.size, ∀ s' < t.size,
      f s = f s' ↔ (Partition.final t).block s = (Partition.final t).block s') := by
  have hstable := Partition.stable_final h
  have hsame : ∀ m, t.Merges { t with minimal := m } id := fun m =>
    ⟨rfl, fun _ hs => hs, fun j hj => ⟨j, hj, rfl⟩, fun _ _ => rfl,
      fun _ _ _ => rfl, fun _ _ => Iff.rfl⟩
  unfold minimize
  split
  · next hmin => exact ⟨id, hsame t.minimal, by simp [hmin]⟩
  · show ∃ f, t.Merges (if (Partition.final t).count = t.size then { t with minimal := true }
      else (Partition.final t).merge t) f ∧ _
    split
    -- No block has two states, so the table stays as it is.
    · next hcount =>
      refine ⟨id, hsame true, fun _ s hs s' hs' => ?_⟩
      constructor
      · exact congrArg _
      · exact (Partition.counts_final t).block_inj hcount hs hs'
    · exact ⟨_, hstable.merges h, fun _ _ _ _ _ => Iff.rfl⟩

/-- The minimal table finds the same matches. -/
theorem find_minimize (h : t.WellFormed) (text : Bytes) (tc : Nat) :
    t.minimize.find text tc = t.find text tc := by
  obtain ⟨f, hmerges, _⟩ := exists_merges_minimize h
  exact hmerges.find_eq h text tc

/-- After every text, the minimal table of an expression is in the error state exactly if the table
    of the expression is, and otherwise both accept the same pattern or none. Its states are what
    becomes of the states of the table when some of them are merged, never two that accept different
    patterns; the error state is still the first state, accepts nothing, and leads nowhere else. -/
theorem run_minimize_ofRegex (re : Regex) :
    let t := ofRegex re
    let m := t.minimize
    (∀ w, (m.run m.start w = error ↔ t.run t.start w = error) ∧
        (t.run t.start w ≠ error → m.accept? (m.run m.start w) = t.accept? (t.run t.start w))) ∧
      (m.WellFormed ∧ m.rows[error]? = some errorRow) ∧
      (∃ merged : Nat → Nat, t.Merges m merged ∧
        ∀ s < t.size, ∀ s' < t.size, merged s = merged s' → t.accept? s = t.accept? s') ∧
      m.size ≤ t.size := by
  intro t m
  have ht : t.WellFormed := wellFormed_ofLabelled _
  obtain ⟨f, hmerges, _⟩ := exists_merges_minimize ht
  have hm : m.WellFormed := hmerges.wellFormed ht
  refine ⟨fun w => ?_, ⟨hm, hm.getElem?_rows_error⟩, ⟨f, hmerges, fun s hs s' hs' heq => ?_⟩,
    hmerges.size_le⟩
  · have hlt := ht.run_lt ht.start_lt w
    have hrun : m.run m.start w = f (t.run t.start w) := hmerges.run_start ht w
    rw [hrun]
    exact ⟨hmerges.error_iff _ hlt, fun _ => hmerges.accept _ hlt⟩
  · rw [← hmerges.accept s hs, heq, hmerges.accept s' hs']

end Table

end Munch

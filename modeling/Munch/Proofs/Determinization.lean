import Mathlib.Order.Interval.Finset.Nat
import Munch.Proofs.Layout

set_option autoImplicit false

/-! # Two determinizations

A pattern set is made deterministic in two ways that have nothing in common: a table is built from
the sets of positions that can follow each other, and a deterministic program from the kernels of
the threads of a program. They come to the same (`Program.determinizations_agree`). The positions
are the sites of the program, position by position, and what follows a position is what the program
reaches after the site. So the states of the table and the blocks of the deterministic program are
two numberings of the same sets. -/

namespace Munch

namespace Table

variable {l : Labelled} {set set' : IndexSet}

/-- If there is a first position, no set that is found is empty. -/
theorem ne_nil_of_mem_sets (hstart : l.start ≠ []) (h : set ∈ (sets l).found) : set ≠ [] := by
  refine (mem_sets_iff.mp h).induct (P := (· ≠ [])) hstart fun s t b _ ht hnil => ?_
  by_cases hnone : followAll l l.follow (movers l s b) = []
  · rw [next?_setMachine_eq_none hnone] at ht
    simp at ht
  · rw [next?_setMachine_eq_some hnone, hnil] at ht
    exact hnone (Option.some.inj ht)

theorem nodup_sets (l : Labelled) : (sets l).found.Nodup := nodup_found _ _ _ _ _

/-- The state after the error state is that of the set that was found first, and so on. -/
theorem stateOf_eq_succ (hstart : l.start ≠ []) {i : Nat} (h : (sets l).found[i]? = some set) :
    stateOf (sets l).found set = i + 1 := by
  have hne := ne_nil_of_mem_sets hstart (List.mem_of_getElem? h)
  obtain ⟨hlt, rfl⟩ := List.getElem?_eq_some_iff.mp h
  rw [stateOf, if_neg (by simpa using hne), (nodup_sets l).idxOf_getElem]

theorem stateOf_injective (hstart : l.start ≠ []) (h : set ∈ (sets l).found)
    (h' : set' ∈ (sets l).found) (heq : stateOf (sets l).found set = stateOf (sets l).found set') :
    set = set' := by
  have hi := List.getElem?_idxOf h
  have hi' := List.getElem?_idxOf h'
  rw [stateOf_eq_succ hstart hi, stateOf_eq_succ hstart hi', Nat.succ_inj] at heq
  rw [heq, hi'] at hi
  exact (Option.some.inj hi).symm

/-- The states other than the error state are those that can be reached. -/
theorem reaches_ofLabelled_iff (hstart : l.start ≠ []) {s : Nat} :
    (ofLabelled l).machine.Reaches (ofLabelled l).start s ↔
      s ≠ error ∧ s < (ofLabelled l).size := by
  have hbisim := bisim_ofLabelled l
  have hinit : l.start ∈ (sets l).found ∧ (ofLabelled l).start = stateOf (sets l).found l.start :=
    ⟨start_mem_sets l, rfl⟩
  -- A state is reached as its set is, and the sets that were found are those that are reached.
  constructor
  · intro h
    obtain ⟨set, _, hset, rfl⟩ := hbisim.exists_reaches hinit h
    rw [Ne, stateOf_eq_error_iff, size_ofLabelled]
    exact ⟨ne_nil_of_mem_sets hstart hset, stateOf_lt hset⟩
  · intro ⟨hne, hlt⟩
    obtain ⟨i, rfl⟩ := Nat.exists_eq_succ_of_ne_zero hne
    rw [size_ofLabelled] at hlt
    have hget := List.getElem?_eq_getElem (Nat.lt_of_succ_lt_succ hlt)
    obtain ⟨s, hs, _, hstate⟩ :=
      hbisim.symm.exists_reaches hinit (mem_sets_iff.mp (List.mem_of_getElem? hget))
    obtain rfl := hstate.trans (stateOf_eq_succ hstart hget)
    exact hs

end Table

namespace Program

variable {p : Program} {l : Labelled} {re : Regex} {rs : List Regex}

theorem nodup_kernels (p : Program) : p.kernels.found.Nodup := nodup_found _ _ _ _ _

theorem eq_of_getElem?_found {kernel : IndexSet} {i j : Nat}
    (hi : p.kernels.found[i]? = some kernel) (hj : p.kernels.found[j]? = some kernel) : i = j :=
  (List.getElem?_inj (List.getElem?_eq_some_iff.mp hi).1 p.nodup_kernels).mp (hi.trans hj.symm)

/-- The blocks of a program are those that can be reached. -/
theorem reaches_kernelBlocks_iff {j : Nat} :
    (blockMachine p.kernelBlocks).Reaches 0 j ↔ j < p.kernelBlocks.length := by
  have hbisim := bisim_blockMachine p
  rw [kernelBlocks, List.length_map]
  constructor
  · intro h
    obtain ⟨kernel, _, hkernel⟩ := hbisim.exists_reaches p.getElem?_found_zero h
    exact (List.getElem?_eq_some_iff.mp hkernel).1
  · intro h
    have hget := List.getElem?_eq_getElem h
    obtain ⟨j', hj', hkernel⟩ := hbisim.symm.exists_reaches p.getElem?_found_zero
      (mem_kernels_iff.mp (List.mem_of_getElem? hget))
    exact eq_of_getElem?_found hkernel hget ▸ hj'

/-! ## States and blocks -/

/-- A state of a table and a block stand for the same set. -/
def Numbers (p : Program) (l : Labelled) (s j : Nat) : Prop :=
  ∃ kernel, (∃ set, (set ∈ (Table.sets l).found ∧ s = Table.stateOf (Table.sets l).found set) ∧
    p.Matches set kernel) ∧ p.kernels.found[j]? = some kernel

theorem bisim_numbers (hpairs : Pairs l p) (hcode : p.IsCodeOf re rs) :
    (Table.ofLabelled l).machine.Bisim (blockMachine p.kernelBlocks) (p.Numbers l) :=
  ((Table.bisim_ofLabelled l).trans (bisim_kernelMachine hpairs hcode)).trans
    (bisim_blockMachine p).symm

theorem numbers_start (hpairs : Pairs l p) : p.Numbers l (Table.ofLabelled l).start 0 :=
  ⟨p.kernelOf [0], ⟨l.start, ⟨Table.start_mem_sets l, rfl⟩, matches_start hpairs⟩,
    p.getElem?_found_zero⟩

theorem Numbers.block_unique (hstart : l.start ≠ []) {s j j' : Nat} (h : p.Numbers l s j)
    (h' : p.Numbers l s j') : j = j' := by
  obtain ⟨kernel, ⟨set, ⟨hset, hs⟩, hmatches⟩, hj⟩ := h
  obtain ⟨kernel', ⟨set', ⟨hset', hs'⟩, hmatches'⟩, hj'⟩ := h'
  obtain rfl := Table.stateOf_injective hstart hset hset' (hs.symm.trans hs')
  obtain rfl := hmatches.kernel_unique hmatches'
  exact eq_of_getElem?_found hj hj'

theorem Numbers.state_unique {s s' j : Nat} (h : p.Numbers l s j) (h' : p.Numbers l s' j) :
    s = s' := by
  obtain ⟨kernel, ⟨set, ⟨_, rfl⟩, hmatches⟩, hj⟩ := h
  obtain ⟨kernel', ⟨set', ⟨_, rfl⟩, hmatches'⟩, hj'⟩ := h'
  obtain rfl := Option.some.inj (hj.symm.trans hj')
  rw [hmatches.set_unique hmatches']

/-- In the code of a pattern set some site comes first, so there is a first position. -/
theorem start_ne_nil (hpairs : Pairs l p) (hcode : p.IsCodeOf re rs) : l.start ≠ [] := by
  obtain ⟨y, hy, hreach⟩ := hcode.exists_reach_zero
  have hsite : p.sites[p.rank y]? = some y := getElem?_sites_iff.mpr ⟨hy, rfl⟩
  exact List.ne_nil_of_mem ((hpairs.mem_start _ _ hsite).mpr hreach)

/-- The states of a table other than the error state are in bijection with the blocks of a
    program. -/
theorem exists_bijOn_blocks (hpairs : Pairs l p) (hcode : p.IsCodeOf re rs) : ∃ f : Nat → Nat,
    Set.BijOn f {s | s ≠ Table.error ∧ s < (Table.ofLabelled l).size}
      {j | j < p.kernelBlocks.length} ∧
    ∀ s, s ≠ Table.error ∧ s < (Table.ofLabelled l).size → p.Numbers l s (f s) := by
  have hstart := start_ne_nil hpairs hcode
  obtain ⟨f, hf⟩ := (bisim_numbers hpairs hcode).exists_bijOn (numbers_start hpairs)
    (fun _ _ _ => Numbers.block_unique hstart) (fun _ _ _ => Numbers.state_unique)
  simp only [Table.reaches_ofLabelled_iff hstart, reaches_kernelBlocks_iff] at hf
  exact ⟨f, hf⟩

/-- There are as many blocks as states other than the error state. -/
theorem length_kernelBlocks (hpairs : Pairs l p) (hcode : p.IsCodeOf re rs) :
    p.kernelBlocks.length = (Table.ofLabelled l).size - 1 := by
  obtain ⟨f, hbij, _⟩ := exists_bijOn_blocks hpairs hcode
  have hstates : {s | s ≠ Table.error ∧ s < (Table.ofLabelled l).size} =
      (Finset.Ico 1 (Table.ofLabelled l).size : Set Nat) := by
    ext s
    rw [Finset.coe_Ico, Set.mem_Ico, Nat.one_le_iff_ne_zero]
    rfl
  have hblocks : {j | j < p.kernelBlocks.length} =
      (Finset.range p.kernelBlocks.length : Set Nat) := by
    ext j
    rw [Finset.coe_range]
    rfl
  rw [hstates, hblocks] at hbij
  have hcard := hbij.finsetCard_eq
  rw [Nat.card_Ico, Finset.card_range] at hcard
  exact hcard.symm

/-- Where a block starts that stands for a state, the program goes on to the blocks that stand for
    the states that the table goes on to. -/
theorem Numbers.blockNext_eq (hpairs : Pairs l p) (hcode : p.IsCodeOf re rs) {s j : Nat}
    (h : p.Numbers l s j) {f : Nat → Nat} {b : UInt8}
    (hf : (Table.ofLabelled l).next s b ≠ Table.error →
      p.Numbers l ((Table.ofLabelled l).next s b) (f ((Table.ofLabelled l).next s b))) :
    (ofBlocks p.kernelBlocks).blockNext (blockOffset p.kernelBlocks j) b =
      some (if (Table.ofLabelled l).next s b = Table.error then none
        else some (blockOffset p.kernelBlocks (f ((Table.ofLabelled l).next s b)))) := by
  obtain ⟨kernel, _, hkernel⟩ := id h
  have hget := getElem?_kernelBlocks_iff.mpr ⟨kernel, hkernel, rfl⟩
  have hnext := (bisim_numbers hpairs hcode).next h b
  rw [next?_blockMachine hget] at hnext
  rw [blockNext_blockOffset hget]
  generalize (p.blockOf p.kernels.found kernel).edges.target? b = target at hnext
  by_cases herror : (Table.ofLabelled l).next s b = Table.error
  · rw [Table.next?_machine_eq_none herror] at hnext
    cases hnext with
    | none => rw [if_pos herror, Option.map_none]
  · rw [Table.next?_machine_eq_some herror] at hnext
    cases hnext with
    | some hj =>
      obtain rfl := (hf herror).block_unique (start_ne_nil hpairs hcode) hj
      rw [if_neg herror, Option.map_some]

/-- The states of a table other than the error state are in bijection with the places where the
    blocks of a program start, and a state and its block do the same. -/
theorem exists_bijOn_blockStarts (hpairs : Pairs l p) (hcode : p.IsCodeOf re rs) : ∃ f : Nat → Nat,
    Set.BijOn f {s | s ≠ Table.error ∧ s < (Table.ofLabelled l).size}
      (ofBlocks p.kernelBlocks).blockStarts ∧
    f (Table.ofLabelled l).start = 0 ∧
    ∀ s, s ≠ Table.error → s < (Table.ofLabelled l).size →
      (ofBlocks p.kernelBlocks).pattern? (f s) = (Table.ofLabelled l).accept? s ∧
      ∀ b, (ofBlocks p.kernelBlocks).blockNext (f s) b =
        some (if (Table.ofLabelled l).next s b = Table.error then none
          else some (f ((Table.ofLabelled l).next s b))) := by
  obtain ⟨f, hbij, hf⟩ := exists_bijOn_blocks hpairs hcode
  refine ⟨blockOffset p.kernelBlocks ∘ f, (bijOn_blockOffset _).comp hbij, ?_, ?_⟩
  · have hstart := start_ne_nil hpairs hcode
    have hinit := (Table.reaches_ofLabelled_iff hstart).mp (.refl _ _)
    have hzero := (hf _ hinit).block_unique hstart (numbers_start hpairs)
    rw [Function.comp_apply, hzero, blockOffset_zero]
  · intro s hne hs
    have hnumbers := hf s ⟨hne, hs⟩
    obtain ⟨kernel, _, hkernel⟩ := id hnumbers
    have hget := getElem?_kernelBlocks_iff.mpr ⟨kernel, hkernel, rfl⟩
    refine ⟨?_, fun b => ?_⟩
    · rw [Function.comp_apply, pattern?_blockOffset hget, ← accept?_blockMachine hget]
      exact ((bisim_numbers hpairs hcode).accept hnumbers).symm
    · refine hnumbers.blockNext_eq hpairs hcode fun herror => hf _ ⟨herror, ?_⟩
      exact (Table.wellFormed_ofLabelled _).next_lt s hs b

/-- A site that does not accept consumes. -/
theorem isSome_span?_of_pattern?_eq_none {a : Nat} (ha : p.isKernelInst a = true)
    (hnone : p.pattern? a = none) : (p.span? a).isSome = true := by
  unfold isKernelInst at ha
  unfold pattern? at hnone
  unfold span?
  split at ha
  · next r hr => simp [hr]
  · next k hk => simp [hk] at hnone
  · simp at ha

/-- The closure of an offset has what is reached from it. -/
theorem contains_close_empty {a x : Nat} (hx : x < p.size) :
    ((ThreadList.empty p.size).close p a).contains x = true ↔ p.Reach a x := by
  have hempty := ThreadList.closed_of_contains_eq_false (p := p) (ThreadList.contains_empty p.size)
  rw [ThreadList.contains_close (ThreadList.capacity_empty _) hempty, ThreadList.contains_empty]
  simp [hx]

/-- The positions of a pattern set are the sites of its program, in the same order: what follows a
    position, and what comes first, is what is reached without consuming. So the states of the table
    other than the error state are in bijection with the blocks of the deterministic program, which
    start at the same state, accept the same patterns and go on in the same way with every byte; and
    the deterministic program fails once for each of them. -/
theorem determinizations_agree (h : re.IsPatternSet) : ∃ p, Program.ofRegex re = .ok p ∧
    let l := Labelled.ofRegex re
    let t := Table.ofRegex re
    let d := p.toDeterministic
    p.sites.length = l.positionCount ∧
      (∀ q a : Nat, p.sites[q]? = some a → l.span? q = p.span? a ∧ l.pattern? q = p.pattern? a) ∧
      (∀ i q a b : Nat, p.sites[i]? = some a → p.sites[q]? = some b → l.pattern? i = none →
        (q ∈ l.follow[i]?.getD [] ↔
          ((ThreadList.empty p.size).close p (a + 1)).contains b = true)) ∧
      (∀ q a : Nat, p.sites[q]? = some a →
        (q ∈ l.start ↔ ((ThreadList.empty p.size).close p 0).contains a = true)) ∧
      (∃ f : Nat → Nat, Set.BijOn f {s | s ≠ Table.error ∧ s < t.size} d.blockStarts ∧
        f t.start = 0 ∧ ∀ s, s ≠ Table.error → s < t.size →
          d.pattern? (f s) = t.accept? s ∧ ∀ b, d.blockNext (f s) b =
            some (if t.next s b = Table.error then none else some (f (t.next s b)))) ∧
      d.insts.toList.count .fail = t.size - 1 := by
  obtain ⟨p, hp, hcode, hpairs⟩ := exists_pairs h
  have hlt : ∀ {q a : Nat}, p.sites[q]? = some a → a < p.size :=
    fun ha => lt_size_of_isKernelInst (getElem?_sites_iff.mp ha).1
  refine ⟨p, hp, hpairs.length_sites, fun q a ha => ⟨hpairs.span?_eq q a ha,
    hpairs.pattern?_eq q a ha⟩, ?_, ?_, ?_, ?_⟩
  · intro i q a b ha hb hi
    rw [contains_close_empty (hlt hb)]
    rw [hpairs.pattern?_eq i a ha] at hi
    refine hpairs.mem_follow i q a b ha ?_ hb
    rw [hpairs.span?_eq i a ha]
    exact isSome_span?_of_pattern?_eq_none (getElem?_sites_iff.mp ha).1 hi
  · intro q a ha
    rw [contains_close_empty (hlt ha)]
    exact hpairs.mem_start q a ha
  · rw [hcode.toDeterministic_eq]
    exact exists_bijOn_blockStarts hpairs hcode
  · rw [hcode.toDeterministic_eq, count_fail_ofBlocks]
    exact length_kernelBlocks hpairs hcode

/-- Two patterns have a site for each byte and one for each end. -/
theorem determinizations_agree_star_or_maybe :
    (Regex.either (.star (.byte 97)) (.maybe (.byte 98))).IsPatternSet ∧
      ∃ p, Program.ofRegex (.either (.star (.byte 97)) (.maybe (.byte 98))) = .ok p ∧
        p.sites.length = 4 ∧
        p.toDeterministic.insts.toList.count .fail =
          (Table.ofRegex (.either (.star (.byte 97)) (.maybe (.byte 98)))).size - 1 := by
  have h : (Regex.either (.star (.byte 97)) (.maybe (.byte 98))).IsPatternSet := by decide
  obtain ⟨p, hp, hsites, _, _, _, _, hfails⟩ := determinizations_agree h
  exact ⟨h, p, hp, hsites, hfails⟩

end Program

end Munch

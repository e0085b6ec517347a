import Mathlib.Logic.Relation
import Mathlib.Tactic.Common
import Munch.Program.Deterministic

set_option autoImplicit false

/-! # What is reached without consuming a byte

`Program.Reach` is the relation behind `ThreadList.close`: control passes from one offset to another
without consuming a byte. Closing a list that is closed already adds exactly what the new offset
reaches (`ThreadList.contains_close`), so the kernel of some offsets is what they reach, restricted
to the instructions that consume or accept (`Program.mem_kernelOf`).

The list itself is a duplicate-free list in the order of insertion as long as it is `WellFormed`:
`sparse` then knows the place of every offset in `dense`, and what it says of other offsets does not
count. -/

namespace Munch

/-! ## Lists of threads as lists -/

namespace ThreadList

/-- Every offset of the list has its place noted. -/
def WellFormed (l : ThreadList) : Prop :=
  ∀ i pc : Nat, l.dense[i]? = some pc → l.sparse[pc]? = some i

theorem wellFormed_empty (size : Nat) : (empty size).WellFormed := by
  intro i pc h
  simp [empty] at h

theorem wellFormed_clear (l : ThreadList) : l.clear.WellFormed := by
  intro i pc h
  simp [clear] at h

@[simp] theorem capacity_empty (size : Nat) : (empty size).capacity = size := by
  simp [empty, capacity]

@[simp] theorem contains_empty (size pc : Nat) : (empty size).contains pc = false := by
  simp only [contains, empty]
  split <;> simp

@[simp] theorem contains_clear (l : ThreadList) (pc : Nat) : l.clear.contains pc = false := by
  simp only [contains, clear]
  split <;> simp

theorem lt_capacity_of_contains {l : ThreadList} {pc : Nat} (h : l.contains pc = true) :
    pc < l.capacity := by
  unfold contains at h
  split at h
  · next i hi => exact (Array.getElem?_eq_some_iff.mp hi).1
  · simp at h

theorem contains_iff_mem {l : ThreadList} (h : l.WellFormed) {pc : Nat} :
    l.contains pc = true ↔ pc ∈ l.toList := by
  unfold contains toList
  rw [Array.mem_toList_iff, Array.mem_iff_getElem?]
  constructor
  · intro hc
    split at hc
    · next i _ => exact ⟨i, by simpa using hc⟩
    · simp at hc
  · intro ⟨i, hi⟩
    simp [h i pc hi, hi]

theorem toList_insert {l : ThreadList} {pc : Nat} (h : l.accepts pc = true) :
    (l.insert pc).toList = l.toList ++ [pc] := by
  obtain ⟨hc, hlt⟩ := accepts_iff.mp h
  have hlt : pc < l.sparse.size := hlt
  simp [insert, hc, hlt, toList]

theorem wellFormed_insert {l : ThreadList} (hl : l.WellFormed) (pc : Nat) :
    (l.insert pc).WellFormed := by
  cases hacc : l.accepts pc with
  | false => rwa [insert_of_not_accepts hacc]
  | true =>
    obtain ⟨hc, hlt⟩ := accepts_iff.mp hacc
    have hlt : pc < l.sparse.size := hlt
    have hnot : pc ∉ l.toList := by simp [← contains_iff_mem hl, hc]
    intro i q hq
    simp only [insert, hc, hlt, Bool.false_eq_true, if_false, dif_pos] at hq ⊢
    rw [Array.getElem?_push] at hq
    rw [Array.getElem?_set]
    split at hq
    · next hi =>
      obtain rfl := Option.some.inj hq
      simp [hi]
    · next hi =>
      have hne : pc ≠ q := by
        rintro rfl
        exact hnot (by simpa [toList, Array.mem_iff_getElem?] using ⟨i, hq⟩)
      rw [if_neg hne]
      exact hl i q hq

theorem get?_eq_getElem? (l : ThreadList) (k : Nat) : l.get? k = l.toList[k]? := by
  simp [get?, toList]

theorem isEmpty_iff {l : ThreadList} (h : l.WellFormed) :
    l.isEmpty = true ↔ ∀ pc, l.contains pc = false := by
  constructor
  · intro he pc
    have hnil : l.toList = [] := by simpa [isEmpty, toList] using he
    simpa [hnil] using not_congr (contains_iff_mem h)
  · intro hall
    have hnil : l.toList = [] := by
      refine List.eq_nil_iff_forall_not_mem.mpr fun pc hpc => ?_
      have := (contains_iff_mem h).mpr hpc
      simp [hall pc] at this
    simpa [isEmpty, toList] using hnil

end ThreadList

/-! ## The relation -/

namespace Program

/-- Control can pass from one offset to another without consuming a byte. -/
def Reach (p : Program) : Nat → Nat → Prop := Relation.ReflTransGen fun a b => b ∈ p.emptySteps a

variable {p : Program} {a b c : Nat}

theorem Reach.refl (p : Program) (a : Nat) : p.Reach a a := Relation.ReflTransGen.refl

theorem Reach.head (h : b ∈ p.emptySteps a) (hbc : p.Reach b c) : p.Reach a c :=
  Relation.ReflTransGen.head h hbc

theorem Reach.tail (hab : p.Reach a b) (h : c ∈ p.emptySteps b) : p.Reach a c :=
  Relation.ReflTransGen.tail hab h

theorem Reach.trans (hab : p.Reach a b) (hbc : p.Reach b c) : p.Reach a c :=
  Relation.ReflTransGen.trans hab hbc

theorem reach_iff : p.Reach a c ↔ a = c ∨ ∃ b ∈ p.emptySteps a, p.Reach b c := by
  constructor
  · intro h
    rcases Relation.ReflTransGen.cases_head h with h | ⟨b, hab, hbc⟩
    · exact .inl h
    · exact .inr ⟨b, hab, hbc⟩
  · rintro (rfl | ⟨b, hab, hbc⟩)
    · exact .refl p a
    · exact .head hab hbc

theorem emptySteps_of_size_le (h : p.size ≤ a) : p.emptySteps a = [] := by
  have : p.insts[a]? = none := Array.getElem?_eq_none h
  simp [emptySteps, this]

theorem reach_of_emptySteps_eq_nil (h : p.emptySteps a = []) : p.Reach a c ↔ a = c := by
  rw [reach_iff, h]
  simp

end Program

/-! ## Closing a list -/

namespace ThreadList

variable {p : Program} {l : ThreadList}

/-- What an offset of the list passes control to is in the list, or waits on a stack. -/
def ClosedUpTo (p : Program) (l : ThreadList) (stack : List Nat) : Prop :=
  ∀ a, l.contains a = true → ∀ b ∈ p.emptySteps a, b < l.capacity →
    l.contains b = true ∨ b ∈ stack

/-- The list holds with an offset all that the offset reaches. -/
def Closed (p : Program) (l : ThreadList) : Prop := l.ClosedUpTo p []

theorem closed_of_contains_eq_false (h : ∀ pc, l.contains pc = false) : l.Closed p := by
  intro a ha
  simp [h a] at ha

theorem ClosedUpTo.insert {pc : Nat} {rest : List Nat} (h : l.ClosedUpTo p (pc :: rest))
    (hacc : l.accepts pc = true) : (l.insert pc).ClosedUpTo p (p.emptySteps pc ++ rest) := by
  intro a ha b hb hlt
  rw [contains_insert hacc, Bool.or_eq_true, beq_iff_eq] at ha
  rw [capacity_insert] at hlt
  rw [contains_insert hacc, Bool.or_eq_true, beq_iff_eq, List.mem_append]
  rcases ha with rfl | ha
  · exact .inr (.inl hb)
  · rcases h a ha b hb hlt with hc | hmem
    · exact .inl (.inr hc)
    · rcases List.mem_cons.mp hmem with rfl | hmem
      · exact .inl (.inl rfl)
      · exact .inr (.inr hmem)

theorem ClosedUpTo.skip {pc : Nat} {rest : List Nat} (h : l.ClosedUpTo p (pc :: rest))
    (hacc : l.accepts pc = false) : l.ClosedUpTo p rest := by
  intro a ha b hb hlt
  rcases h a ha b hb hlt with hc | hmem
  · exact .inl hc
  · rcases List.mem_cons.mp hmem with rfl | hmem
    · left
      simpa [accepts, hlt] using hacc
    · exact .inr hmem

/-- A path that starts in the list stays in it until it comes to an offset that waits. -/
theorem ClosedUpTo.reach {stack : List Nat} (hcap : l.capacity = p.size)
    (h : l.ClosedUpTo p stack) {a x : Nat} (ha : l.contains a = true) (hr : p.Reach a x)
    (hx : x < p.size) : l.contains x = true ∨ ∃ s ∈ stack, p.Reach s x := by
  induction hr using Relation.ReflTransGen.head_induction_on with
  | refl => exact .inl ha
  | @head a b hab hbx ih =>
    by_cases hlt : b < l.capacity
    · rcases h a ha b hab hlt with hc | hmem
      · exact ih hc
      · exact .inr ⟨b, hmem, hbx⟩
    · have hnil := Program.emptySteps_of_size_le (p := p) (a := b) (by omega)
      have := (Program.reach_of_emptySteps_eq_nil hnil).mp hbx
      omega

/-- Closing adds what the stack reaches, and nothing else. -/
theorem contains_closeAll {stack : List Nat} (hcap : l.capacity = p.size)
    (h : l.ClosedUpTo p stack) (x : Nat) :
    (closeAll p l stack).contains x = true ↔
      l.contains x = true ∨ (x < p.size ∧ ∃ s ∈ stack, p.Reach s x) := by
  fun_induction closeAll p l stack with
  | case1 l => simp
  | case2 l pc rest hacc ih =>
    rw [ih (by rw [capacity_insert, hcap]) (h.insert hacc), contains_insert hacc,
      Bool.or_eq_true, beq_iff_eq]
    have hlt : pc < p.size := hcap ▸ (accepts_iff.mp hacc).2
    constructor
    · rintro ((rfl | hc) | ⟨hx, s, hs, hr⟩)
      · exact .inr ⟨hlt, x, by simp, .refl p x⟩
      · exact .inl hc
      · rcases List.mem_append.mp hs with hs | hs
        · exact .inr ⟨hx, pc, by simp, .head hs hr⟩
        · exact .inr ⟨hx, s, by simp [hs], hr⟩
    · rintro (hc | ⟨hx, s, hs, hr⟩)
      · exact .inl (.inr hc)
      · rcases List.mem_cons.mp hs with rfl | hs
        -- The offset was taken: it is in the list now, and what comes after it is on the stack.
        · rcases Program.reach_iff.mp hr with rfl | ⟨b, hb, hr⟩
          · exact .inl (.inl rfl)
          · exact .inr ⟨hx, b, by simp [hb], hr⟩
        · exact .inr ⟨hx, s, by simp [hs], hr⟩
  | case3 l pc rest hacc ih =>
    have hacc : l.accepts pc = false := by simpa using hacc
    rw [ih hcap (h.skip hacc)]
    constructor
    · rintro (hc | ⟨hx, s, hs, hr⟩)
      · exact .inl hc
      · exact .inr ⟨hx, s, by simp [hs], hr⟩
    · rintro (hc | ⟨hx, s, hs, hr⟩)
      · exact .inl hc
      · rcases List.mem_cons.mp hs with rfl | hs
        · -- The offset was refused: it is in the list already, or past the program.
          by_cases hlt : s < p.size
          · have hc : l.contains s = true := by simpa [accepts, hcap, hlt] using hacc
            exact ((h.skip hacc).reach hcap hc hr hx).imp_right fun hs => ⟨hx, hs⟩
          · have hnil := Program.emptySteps_of_size_le (p := p) (a := s) (by omega)
            have := (Program.reach_of_emptySteps_eq_nil hnil).mp hr
            omega
        · exact .inr ⟨hx, s, hs, hr⟩

@[simp] theorem capacity_closeAll (p : Program) (l : ThreadList) (stack : List Nat) :
    (closeAll p l stack).capacity = l.capacity := by
  fun_induction closeAll p l stack with
  | case1 => rfl
  | case2 l pc rest _ ih => rw [ih, capacity_insert]
  | case3 l pc rest _ ih => exact ih

theorem wellFormed_closeAll (h : l.WellFormed) (stack : List Nat) :
    (closeAll p l stack).WellFormed := by
  fun_induction closeAll p l stack with
  | case1 => exact h
  | case2 l pc rest _ ih => exact ih (wellFormed_insert h pc)
  | case3 l pc rest _ ih => exact ih h

/-- Closing a list adds at its end. -/
theorem toList_prefix_closeAll (p : Program) (l : ThreadList) (stack : List Nat) :
    l.toList <+: (closeAll p l stack).toList := by
  fun_induction closeAll p l stack with
  | case1 => exact List.prefix_rfl
  | case2 l pc rest hacc ih =>
    rw [toList_insert hacc] at ih
    exact (List.prefix_append _ _).trans ih
  | case3 l pc rest _ ih => exact ih

@[simp] theorem capacity_close (p : Program) (l : ThreadList) (pc : Nat) :
    (close p l pc).capacity = l.capacity := capacity_closeAll p l [pc]

theorem wellFormed_close (h : l.WellFormed) (pc : Nat) : (close p l pc).WellFormed :=
  wellFormed_closeAll h [pc]

/-- Closing a closed list with an offset adds what the offset reaches. -/
theorem contains_close (hcap : l.capacity = p.size) (h : l.Closed p) (pc x : Nat) :
    (close p l pc).contains x = true ↔
      l.contains x = true ∨ (x < p.size ∧ p.Reach pc x) := by
  have hup : l.ClosedUpTo p [pc] := fun a ha b hb hlt => .inl <| by simpa using h a ha b hb hlt
  rw [close, contains_closeAll hcap hup]
  simp

theorem closed_close (hcap : l.capacity = p.size) (h : l.Closed p) (pc : Nat) :
    (close p l pc).Closed p := by
  intro a ha b hb hlt
  rw [capacity_close, hcap] at hlt
  rw [contains_close hcap h] at ha ⊢
  left
  rcases ha with ha | ⟨_, hr⟩
  · left
    simpa using h a ha b hb (hcap ▸ hlt)
  · exact .inr ⟨hlt, hr.tail hb⟩

/-- Closing a closed list with several offsets adds what they reach. -/
theorem contains_foldl_close (pcs : List Nat) (x : Nat) : ∀ {l : ThreadList},
    l.capacity = p.size → l.Closed p →
    ((pcs.foldl (close p) l).contains x = true ↔
      l.contains x = true ∨ (x < p.size ∧ ∃ s ∈ pcs, p.Reach s x)) := by
  induction pcs with
  | nil => simp
  | cons pc rest ih =>
    intro l hcap h
    rw [List.foldl_cons, ih (by rw [capacity_close, hcap]) (closed_close hcap h pc),
      contains_close hcap h]
    simp only [List.mem_cons, exists_eq_or_imp, and_or_left, or_assoc]

end ThreadList

/-! ## Kernels -/

namespace Program

variable {p : Program}

/-- The kernel of some offsets is what they reach, as far as it consumes or accepts. -/
theorem mem_kernelOf {pcs : List Nat} {pc : Nat} :
    pc ∈ p.kernelOf pcs ↔ (∃ s ∈ pcs, p.Reach s pc) ∧ p.isKernelInst pc = true := by
  have hlt : p.isKernelInst pc = true → pc < p.size := by
    intro h
    by_contra hge
    have : p.insts[pc]? = none := Array.getElem?_eq_none (by simpa [size] using hge)
    simp [isKernelInst, this] at h
  have hempty := ThreadList.closed_of_contains_eq_false (p := p)
    (ThreadList.contains_empty p.size)
  rw [kernelOf, IndexSet.mem_collect, Bool.and_eq_true,
    ThreadList.contains_foldl_close pcs pc (ThreadList.capacity_empty _) hempty]
  simp only [ThreadList.contains_empty, Bool.false_eq_true, false_or]
  constructor
  · intro ⟨_, ⟨_, hr⟩, hk⟩
    exact ⟨hr, hk⟩
  · intro ⟨hr, hk⟩
    exact ⟨hlt hk, ⟨hlt hk, hr⟩, hk⟩

end Program

end Munch

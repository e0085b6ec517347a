import Munch.Proofs.Built

set_option autoImplicit false

/-! # The worklist behind a closure

Closing a list of threads takes offsets from a stack, one a turn. An offset that is in the list is
dropped, and any other is inserted and replaced by the offsets that control passes to from it
(`Worklist.Turn`). An offset that was listed earlier, in the same closure or in one before, need not
be followed again because the list is closed: whatever it passes control to is listed or waits on
the stack. The offsets without a place in the list, counted twice, and the stack together get fewer
with every turn (`Worklist.Turn.measure_lt`), so the turns come to an end
(`Worklist.Turns.le_measure`).

What all of this comes to is said for every program that can be built (`Program.close_of_built`).
Control falls off the end of such a program only if it is made of `accept`s alone. The closure then
runs to the end of the program and inserts an offset that the list has no place for. -/

namespace Munch

/-! ## Steps of control -/

namespace Program

variable {p : Program} {a b x : Nat}

/-- Control passes on without consuming a byte: from a `jump` to its operand, from a `split` to
    either operand, and in a deterministic program from an `accept` to the next instruction. -/
inductive FreeStep (p : Program) : Nat → Nat → Prop
  | jump {a x : Nat} (h : p.insts[a]? = some (.jump x)) : FreeStep p a x
  | left {a x y : Nat} (h : p.insts[a]? = some (.split x y)) : FreeStep p a x
  | right {a x y : Nat} (h : p.insts[a]? = some (.split x y)) : FreeStep p a y
  | accept {a id : Nat} (h : p.insts[a]? = some (.accept id)) (hdet : p.isDeterministic = true) :
    FreeStep p a (a + 1)

theorem mem_emptySteps_iff : b ∈ p.emptySteps a ↔ p.FreeStep a b := by
  constructor
  · intro h
    unfold emptySteps at h
    split at h
    · next x hi => exact List.mem_singleton.mp h ▸ .jump hi
    · next x y hi =>
      rcases List.mem_pair.mp h with rfl | rfl
      · exact .left hi
      · exact .right hi
    · next id hi =>
      split at h
      · next hdet => exact List.mem_singleton.mp h ▸ .accept hi hdet
      · cases h
    · cases h
  · intro h
    unfold emptySteps
    cases h with
    | jump hi | left hi | right hi => simp [hi]
    | accept hi hdet => simp [hi, hdet]

theorem reach_iff_freeStep : p.Reach a x ↔ Relation.ReflTransGen p.FreeStep a x := by
  have hstep : (fun a b => b ∈ p.emptySteps a) = p.FreeStep :=
    funext₂ fun _ _ => propext mem_emptySteps_iff
  rw [Reach, hstep]

theorem length_emptySteps_le (p : Program) (a : Nat) : (p.emptySteps a).length ≤ 2 := by
  unfold emptySteps
  split
  · exact Nat.le_succ 1
  · exact Nat.le_refl 2
  · split
    · exact Nat.le_succ 1
    · exact Nat.zero_le 2
  · exact Nat.zero_le 2

theorem Valid.lt_of_reach (hp : p.Valid) (ha : a < p.size) (h : p.Reach a x) : x < p.size := by
  cases Relation.ReflTransGen.cases_tail h with
  | inl heq => exact heq ▸ ha
  | inr hlast =>
    obtain ⟨b, _, hx⟩ := hlast
    exact hp.emptySteps_lt hx

end Program

/-! ## Lists of threads -/

namespace ThreadList

variable {size pc : Nat} {l : ThreadList} {p : Program}

/-- The lists of threads that there are for a size: an empty one, and what becomes of one when an
    offset is inserted or all of them are dropped. -/
inductive Made (size : Nat) : ThreadList → Prop
  | empty : Made size (.empty size)
  | insert {l : ThreadList} (h : Made size l) (pc : Nat) : Made size (l.insert pc)
  | clear {l : ThreadList} (h : Made size l) : Made size l.clear

theorem Made.capacity_eq (h : Made size l) : l.capacity = size := by
  induction h with
  | empty => exact capacity_empty size
  | insert _ pc ih => exact (capacity_insert _ pc).trans ih
  | clear _ ih => exact ih

theorem Made.wellFormed (h : Made size l) : l.WellFormed := by
  induction h with
  | empty => exact wellFormed_empty size
  | insert _ pc ih => exact wellFormed_insert ih pc
  | clear => exact wellFormed_clear _

/-- A list that was closed is one that was made, so it can be closed again. -/
theorem Made.closeAll (h : Made size l) (stack : List Nat) : Made size (l.closeAll p stack) := by
  fun_induction ThreadList.closeAll p l stack with
  | case1 => exact h
  | case2 l pc rest _ ih => exact ih (h.insert pc)
  | case3 l pc rest _ ih => exact ih h

/-- The place of an offset is noted, so there is only one. -/
theorem WellFormed.nodup (h : l.WellFormed) : l.toList.Nodup := by
  refine List.nodup_iff_getElem?_ne_getElem?.mpr fun i j hij hj heq => ?_
  have hat : ∀ k, l.toList[k]? = l.dense[k]? := fun k => Array.getElem?_toList
  have hjpc := List.getElem?_eq_getElem hj
  have hi := h i _ ((hat i).symm.trans (heq.trans hjpc))
  have hplace := h j _ ((hat j).symm.trans hjpc)
  have hsame : i = j := Option.some.inj (hi.symm.trans hplace)
  omega

theorem WellFormed.size_le (h : l.WellFormed) : l.size ≤ l.capacity := by
  have hsub : l.toList ⊆ List.range l.capacity := fun pc hpc =>
    List.mem_range.mpr (lt_capacity_of_contains ((contains_iff_mem h).mpr hpc))
  have hlength := (List.subperm_of_subset h.nodup hsub).length_le
  rwa [List.length_range] at hlength

/-- The list holds with an offset all that control passes to from it without consuming a byte. -/
def ClosedUnder (p : Program) (l : ThreadList) : Prop :=
  ∀ a ∈ l.toList, ∀ b, p.FreeStep a b → b ∈ l.toList

theorem size_insert (h : l.accepts pc = true) : (l.insert pc).size = l.size + 1 := by
  have hlength := congrArg List.length (toList_insert h)
  rwa [List.length_append] at hlength

end ThreadList

/-! ## Turns -/

/-- Where a closure stands: the list as far as it has grown, and the offsets that wait. -/
structure Worklist where
  list : ThreadList
  stack : List Nat

namespace Worklist

variable {p : Program} {l l' : ThreadList} {w w' : Worklist} {stack : List Nat} {n : Nat}

/-- A turn takes an offset from the stack. If it is listed, it is dropped. If not, and if the list
    has a place for it, it is inserted, its instruction is read, and what control passes to from it
    is put on the stack. -/
inductive Turn (p : Program) : Worklist → Worklist → Prop
  | skip {l : ThreadList} {pc : Nat} {rest : List Nat} (h : l.contains pc = true) :
    Turn p ⟨l, pc :: rest⟩ ⟨l, rest⟩
  | take {l : ThreadList} {pc : Nat} {rest : List Nat} {i : Inst} (h : l.accepts pc = true)
      (hi : p.insts[pc]? = some i) : Turn p ⟨l, pc :: rest⟩ ⟨l.insert pc, p.emptySteps pc ++ rest⟩

/-- Turns in a row, as many as the number says. -/
inductive Turns (p : Program) : Nat → Worklist → Worklist → Prop
  | refl (w : Worklist) : Turns p 0 w w
  | head {n : Nat} {u v w : Worklist} (h : Turn p u v) (hrest : Turns p n v w) : Turns p (n + 1) u w

/-- What gets less with every turn. An offset that is inserted puts two others on the stack at
    most. -/
def measure (w : Worklist) : Nat := 2 * (w.list.capacity - w.list.size) + w.stack.length

theorem Turn.wellFormed (h : Turn p w w') (hw : w.list.WellFormed) : w'.list.WellFormed := by
  cases h with
  | skip => exact hw
  | take => exact ThreadList.wellFormed_insert hw _

theorem Turn.measure_lt (h : Turn p w w') (hw : w.list.WellFormed) : w'.measure < w.measure := by
  cases h with
  | skip => exact Nat.add_lt_add_left (Nat.lt_succ_self _) _
  | @take l pc rest i hacc _ =>
    have hsteps := p.length_emptySteps_le pc
    have hsize := ThreadList.size_insert hacc
    have hle := (ThreadList.wellFormed_insert hw pc).size_le
    simp only [measure, hsize, ThreadList.capacity_insert, List.length_append,
      List.length_cons] at hle ⊢
    omega

theorem Turns.le_measure (h : Turns p n w w') (hw : w.list.WellFormed) :
    n + w'.measure ≤ w.measure := by
  induction h with
  | refl => exact Nat.le_of_eq (Nat.zero_add _)
  | head hturn _ ih =>
    have hlt := hturn.measure_lt hw
    have hle := ih (hturn.wellFormed hw)
    omega

/-- A closure that is not trapped takes turns until the stack is empty. -/
theorem exists_turns (h : Checked.closeAll p l stack = .ok l') :
    ∃ n, Turns p n ⟨l, stack⟩ ⟨l', []⟩ := by
  fun_induction Checked.closeAll p l stack with
  | case1 l =>
    obtain rfl := Except.ok.inj h
    exact ⟨0, .refl _⟩
  | case2 l pc rest hc ih =>
    obtain ⟨n, hturns⟩ := ih h
    exact ⟨n + 1, .head (.skip hc) hturns⟩
  | case3 | case4 => cases h
  | case5 l pc rest hc hcap i hi ih =>
    obtain ⟨n, hturns⟩ := ih h
    have hacc : l.accepts pc = true := ThreadList.accepts_iff.mpr (by simp_all)
    have hinst : p.insts[pc]? = some i := by
      unfold Checked.fetch at hi
      split at hi
      · next hj => exact Except.ok.inj hi ▸ hj
      · cases hi
    exact ⟨n + 1, .head (.take hacc hinst) hturns⟩

end Worklist

/-! ## Control that falls off -/

namespace Program

variable {p : Program} {l : ThreadList} {pc : Nat}

/-- In a program of `accept`s, control passes from every offset to the next. -/
theorem freeStep_succ (haccepts : ∀ i ∈ p.insts, ∃ n, i = .accept n) (hpc : pc < p.size) :
    p.FreeStep pc (pc + 1) := by
  obtain ⟨n, hn⟩ := exists_accept haccepts hpc
  exact .accept hn (isDeterministic_of_accepts haccepts)

/-- Only the empty list is closed there. -/
theorem toList_eq_nil_of_accepts (haccepts : ∀ i ∈ p.insts, ∃ n, i = .accept n) (hl : l.Made p.size)
    (hclosed : l.ClosedUnder p) : l.toList = [] := by
  have hlt : ∀ a ∈ l.toList, a < p.size := fun a ha =>
    hl.capacity_eq ▸ ThreadList.lt_capacity_of_contains
      ((ThreadList.contains_iff_mem hl.wellFormed).mpr ha)
  refine List.eq_nil_iff_forall_not_mem.mpr fun a ha => ?_
  have hall : ∀ k, a + k ∈ l.toList := by
    intro k
    induction k with
    | zero => exact ha
    | succ k ih => exact hclosed _ ih _ (freeStep_succ haccepts (hlt _ ih))
  exact absurd (hlt _ (hall p.size)) (by omega)

/-! ## What a closure comes to -/

/-- A list is what closing another one with an offset comes to: the turns are bounded, the offsets
    that were listed stay where they were, no offset is listed twice, and what the list holds is
    what was listed and what control passes to from the offset without consuming a byte. The list is
    one for the program again, and closed. -/
structure ClosesTo (p : Program) (l : ThreadList) (pc : Nat) (l' : ThreadList) : Prop where
  turns : ∃ n ≤ 2 * (p.size - l.size) + 1, Worklist.Turns p n ⟨l, [pc]⟩ ⟨l', []⟩
  made : l'.Made p.size
  keeps : l.toList <+: l'.toList
  nodup : l'.toList.Nodup
  closed : l'.ClosedUnder p
  mem_iff : ∀ x, x ∈ l'.toList ↔ x ∈ l.toList ∨ Relation.ReflTransGen p.FreeStep pc x

/-- Closing a closed list of a valid program is not trapped, and comes to what it should. -/
theorem Valid.closesTo (hp : p.Valid) (hl : l.Made p.size) (hclosed : l.ClosedUnder p)
    (hpc : pc < p.size) :
    Checked.close p l pc = .ok (l.close p pc) ∧ p.ClosesTo l pc (l.close p pc) := by
  have hcap := hl.capacity_eq
  have hwf := hl.wellFormed
  have hl' : (l.close p pc).Made p.size := hl.closeAll [pc]
  have hwf' := hl'.wellFormed
  have hclose := Checked.close_eq_ok hp hcap hpc
  have hstays : l.Closed p := fun a ha b hb _ => by
    rw [ThreadList.contains_iff_mem hwf] at ha
    exact .inl ((ThreadList.contains_iff_mem hwf).mpr (hclosed a ha b (mem_emptySteps_iff.mp hb)))
  have hmem : ∀ x, x ∈ (l.close p pc).toList ↔
      x ∈ l.toList ∨ Relation.ReflTransGen p.FreeStep pc x := by
    intro x
    rw [← ThreadList.contains_iff_mem hwf', ThreadList.contains_close hcap hstays,
      ThreadList.contains_iff_mem hwf, ← reach_iff_freeStep]
    exact or_congr_right ⟨And.right, fun h => ⟨hp.lt_of_reach hpc h, h⟩⟩
  refine ⟨hclose, ?_, hl', ThreadList.toList_prefix_closeAll p l [pc], hwf'.nodup,
    fun a ha b hb => ?_, hmem⟩
  · obtain ⟨n, hturns⟩ := Worklist.exists_turns hclose
    have hle := hturns.le_measure hwf
    refine ⟨n, (Nat.le_of_add_right_le hle).trans (Nat.le_of_eq ?_), hturns⟩
    show 2 * (l.capacity - l.size) + 1 = _
    rw [hcap]
  · rcases (hmem a).mp ha with ha | ha
    · exact (hmem b).mpr (.inl (hclosed a ha b hb))
    · exact (hmem b).mpr (.inr (ha.tail hb))

/-- For every program that can be read, generated or made deterministic, every list of threads of
    its size that holds with an offset what control passes to from it, and every offset of the
    program: if control does not fall off the end of the program, closing the list with the offset
    comes to what it should. If control falls off, the program is made of `accept`s alone, the list
    is empty, and closing it is trapped at the end of the program. -/
theorem close_of_built (hp : p.Built) (hl : l.Made p.size) (hclosed : l.ClosedUnder p)
    (hpc : pc < p.size) :
    (¬ p.FallsOff → Checked.close p l pc = .ok (l.close p pc) ∧ p.ClosesTo l pc (l.close p pc)) ∧
    (p.FallsOff → (∀ i ∈ p.insts, ∃ n, i = .accept n) ∧ l.toList = [] ∧
      Checked.close p l pc = .error (.noPlace p.size)) := by
  rcases hp.valid_or_accepts with hvalid | haccepts
  · exact ⟨fun _ => hvalid.closesTo hl hclosed hpc, fun h => absurd h hvalid.not_fallsOff⟩
  · have hnil := toList_eq_nil_of_accepts haccepts hl hclosed
    have hnone : ∀ q, l.contains q = false := fun q => by
      rw [Bool.eq_false_iff, ne_eq, ThreadList.contains_iff_mem hl.wellFormed, hnil]
      exact List.not_mem_nil
    have htrap := closeAll_eq_error haccepts [] (Nat.add_sub_of_le hpc.le) hl.capacity_eq fun q _ =>
      hnone q
    exact ⟨fun h => absurd (fallsOff_of_accepts haccepts hpc) h, fun _ => ⟨haccepts, hnil, htrap⟩⟩

/-- A thread goes round a loop and past it: the list that held the last instruction holds all of
    them. -/
theorem close_of_built_loop :
    let p : Program := ⟨#[.split 1 3, .consume (.single 97), .jump 0, .accept 0]⟩
    let l := (ThreadList.empty 4).insert 3
    Program.read "SPLIT 1 3\nCHAR 97 97\nJMP 0\nMATCH 0" = .ok p ∧
      Checked.close p l 2 = .ok (l.close p 2) ∧ p.ClosesTo l 2 (l.close p 2) ∧
      (l.close p 2).toList = [3, 2, 0, 1] := by
  intro p l
  have hread : Program.read "SPLIT 1 3\nCHAR 97 97\nJMP 0\nMATCH 0" = .ok p := by decide +kernel
  have hclosed : l.ClosedUnder p := by
    intro a ha b hb
    have hlist : l.toList = [3] := by decide
    obtain rfl := List.mem_singleton.mp (hlist ▸ ha)
    have hsteps : p.emptySteps 3 = [] := by cbv
    exact absurd (mem_emptySteps_iff.mpr hb) (hsteps ▸ List.not_mem_nil)
  have hpc : 2 < p.size := by decide
  obtain ⟨hclose, hcloses⟩ :=
    (close_of_built (.read hread) (.insert .empty 3) hclosed hpc).1
      (valid_of_read hread).not_fallsOff
  exact ⟨hread, hclose, hcloses, by cbv⟩

/-- Not every closure of a closed list returns: control falls off the end of a program that was
    generated for a pattern inside of a pattern. -/
theorem not_close_returns : ¬ ∀ (p : Program) (l : ThreadList) (pc : Nat), p.Built → l.Made p.size →
    l.ClosedUnder p → pc < p.size → ∃ l', Checked.close p l pc = .ok l' := by
  intro h
  obtain ⟨l', hl'⟩ := h ⟨#[.accept 0, .accept 1]⟩ (.empty 2) 0
    (.generated ofRegex_pattern_pattern_finish) .empty nofun (by decide)
  have htrap : Checked.close ⟨#[.accept 0, .accept 1]⟩ (.empty 2) 0 = .error (.noPlace 2) := by cbv
  rw [htrap] at hl'
  cases hl'

end Program

end Munch

import Mathlib.Logic.Relation
import Munch.Program.Reader
import Munch.Proofs.Code

set_option autoImplicit false

/-! # Loops without consuming

The reader looks for an offset that a deterministic program can come back to without consuming a
byte. From an offset there is one way to go on at most, so an offset that is met twice on the way
from some offset is one that control comes back to (`Program.circles_of_emptyLoop`), and if control
comes back to some offset, following it from there meets it again (`Program.emptyLoop_eq_none_iff`).

The search of the reader does not follow control from an offset again that it has followed it from
before. It marks the offsets of its path, and when it comes to an end, they stay marked as done for
the paths that start later. From an offset that is done, control does not come to a loop
(`Program.Safe`), so the search stops there without missing one. Where control stays in a program,
the search stays in it as well, and it finds the same offset as if it followed every path from its
start (`Program.Contained.search_eq`). -/

namespace Munch

namespace Program

variable {p : Program} {pc q next : Nat} {path path' done : List Nat} {i last : Inst}

/-! ## Following every path from its start -/

/-- The first offset met twice when a deterministic program runs on from `pc`, after the offsets of
    a path, without consuming a byte. -/
def revisit (p : Program) (path : List Nat) (pc : Nat) : Option Nat :=
  if _ : pc ∈ path then some pc
  else if _ : pc < p.size then
    match p.emptyNext pc with
    | none => none
    | some next => revisit p (pc :: path) next
  else none
termination_by IndexSet.missing p.size path
decreasing_by exact IndexSet.missing_cons_lt ‹_› ‹_›

/-- The first offset that is met twice on the way from some offset of a deterministic program,
    without consuming a byte. -/
def emptyLoop (p : Program) : Option Nat := (List.range p.size).findSome? (p.revisit [])

theorem not_mem_of_revisit_eq_none (h : p.revisit path pc = none) : pc ∉ path := by
  intro hmem
  rw [revisit, dif_pos hmem] at h
  cases h

/-- A search for loops that finds none goes on without finding one. -/
theorem revisit_emptyNext (h : p.revisit path pc = none) (hpc : pc < p.size)
    (hnext : p.emptyNext pc = some next) : p.revisit (pc :: path) next = none := by
  have hmem := not_mem_of_revisit_eq_none h
  rw [revisit, dif_neg hmem, dif_pos hpc] at h
  simpa only [hnext] using h

theorem revisit_nil_of_emptyLoop (h : p.emptyLoop = none) (hpc : pc < p.size) :
    p.revisit [] pc = none :=
  List.findSome?_eq_none_iff.mp h pc (List.mem_range.mpr hpc)

/-- Control passes from an offset of a deterministic program to another one without consuming a
    byte. -/
inductive EmptyStep (p : Program) : Nat → Nat → Prop where
  | accept {pc id : Nat} (h : p.insts[pc]? = some (.accept id)) : EmptyStep p pc (pc + 1)
  | jump {pc x : Nat} (h : p.insts[pc]? = some (.jump x)) : EmptyStep p pc x
  | branch {pc : Nat} {r : ByteRange} (h : p.insts[pc]? = some (.branch r)) :
      EmptyStep p pc (pc + 2)

/-- Control can come back to an offset without consuming a byte, in one or more steps. -/
def Circles (p : Program) (pc : Nat) : Prop := Relation.TransGen p.EmptyStep pc pc

theorem emptyNext_eq_some_iff {next : Nat} : p.emptyNext pc = some next ↔ p.EmptyStep pc next := by
  unfold emptyNext
  constructor
  · intro h
    split at h
    · next id hi => exact Option.some.inj h ▸ .accept hi
    · next x hi => exact Option.some.inj h ▸ .jump hi
    · next r hi => exact Option.some.inj h ▸ .branch hi
    · cases h
  · rintro (hi | hi | hi)
    all_goals rw [hi]

theorem EmptyStep.lt_size {next : Nat} (h : p.EmptyStep pc next) : pc < p.size := by
  rcases h with hi | hi | hi
  all_goals exact (Array.getElem?_eq_some_iff.mp hi).1

/-- What a search for loops finds is on a loop, if all offsets of its path lead to where it is. -/
theorem circles_of_revisit (hpath : ∀ a ∈ path, Relation.TransGen p.EmptyStep a pc)
    (h : p.revisit path pc = some q) : p.Circles q := by
  fun_induction revisit p path pc with
  | case1 path pc hmem =>
    obtain rfl := Option.some.inj h
    exact hpath pc hmem
  | case2 path pc _ _ hnext => cases h
  | case3 path pc _ _ next hnext ih =>
    refine ih (fun a ha => ?_) h
    rcases List.mem_cons.mp ha with rfl | ha
    · exact .single (emptyNext_eq_some_iff.mp hnext)
    · exact (hpath a ha).tail (emptyNext_eq_some_iff.mp hnext)
  | case4 path pc => cases h

theorem circles_of_emptyLoop (h : p.emptyLoop = some q) : p.Circles q := by
  obtain ⟨pc, -, hpc⟩ := List.exists_of_findSome?_eq_some h
  exact circles_of_revisit (fun a ha => absurd ha List.not_mem_nil) hpc

/-- Where a search for loops finds none, control does not come to the path that was followed
    before. -/
theorem not_mem_of_reflTransGen (hq : Relation.ReflTransGen p.EmptyStep pc q)
    (h : p.revisit path pc = none) : q ∉ path := by
  induction hq using Relation.ReflTransGen.head_induction_on generalizing path with
  | refl => exact not_mem_of_revisit_eq_none h
  | head hstep _ ih =>
    have hnext := revisit_emptyNext h hstep.lt_size (emptyNext_eq_some_iff.mpr hstep)
    exact fun hmem => ih hnext (List.mem_cons_of_mem _ hmem)

/-- The reader finds no loop exactly if control cannot come back to any offset without consuming a
    byte. -/
theorem emptyLoop_eq_none_iff : p.emptyLoop = none ↔ ∀ pc, ¬ p.Circles pc := by
  constructor
  · intro h pc hcircles
    obtain ⟨next, hstep, hback⟩ := Relation.TransGen.head'_iff.mp hcircles
    have hnone := revisit_nil_of_emptyLoop h hstep.lt_size
    have hnext := revisit_emptyNext hnone hstep.lt_size (emptyNext_eq_some_iff.mpr hstep)
    exact not_mem_of_reflTransGen hback hnext List.mem_cons_self
  · intro h
    cases hloop : p.emptyLoop with
    | none => rfl
    | some pc => exact absurd (circles_of_emptyLoop hloop) (h pc)

/-! ## Searching with marks -/

/-- Control does not come to a loop from an offset. -/
def Safe (p : Program) (pc : Nat) : Prop :=
  ∀ q, Relation.ReflTransGen p.EmptyStep pc q → ¬ p.Circles q

theorem EmptyStep.eq {next next' : Nat} (h : p.EmptyStep pc next) (h' : p.EmptyStep pc next') :
    next = next' :=
  Option.some.inj ((emptyNext_eq_some_iff.mpr h).symm.trans (emptyNext_eq_some_iff.mpr h'))

/-- An offset is safe if the next one is. -/
theorem safe_of_next (h : ∀ next, p.EmptyStep pc next → p.Safe next) : p.Safe pc := by
  intro q hq hcircles
  rcases Relation.ReflTransGen.cases_head hq with rfl | ⟨next, hstep, hq⟩
  -- On a loop, the next offset is on the loop as well.
  · obtain ⟨next, hstep, hback⟩ := Relation.TransGen.head'_iff.mp hcircles
    exact h next hstep next .refl (Relation.TransGen.tail' hback hstep)
  · exact h next hstep q hq hcircles

/-- What a search for loops finds can be come to. -/
theorem reflTransGen_of_revisit (h : p.revisit path pc = some q) :
    Relation.ReflTransGen p.EmptyStep pc q := by
  fun_induction revisit p path pc with
  | case1 path pc => exact Option.some.inj h ▸ .refl
  | case2 => cases h
  | case3 path pc _ _ next hnext ih => exact .head (emptyNext_eq_some_iff.mp hnext) (ih h)
  | case4 => cases h

theorem Safe.revisit_eq_none (h : p.Safe pc) : p.revisit [] pc = none := by
  cases hfound : p.revisit [] pc with
  | none => rfl
  | some q =>
    have hcircles := circles_of_revisit (fun a ha => absurd ha List.not_mem_nil) hfound
    exact absurd hcircles (h q (reflTransGen_of_revisit hfound))

/-- The offsets of a path that has ended are safe. -/
theorem safe_of_follow (hdone : ∀ d ∈ done, p.Safe d) (h : p.follow done path pc = .ended path') :
    p.Safe pc ∧ ∀ a ∈ path', a ∈ path ∨ p.Safe a := by
  fun_induction follow p done path pc with
  | case1 path pc _ hmem =>
    obtain rfl := Trail.ended.inj h
    exact ⟨hdone pc hmem, fun a ha => .inl ha⟩
  | case2 => cases h
  | case3 path pc _ _ _ hnext =>
    obtain rfl := Trail.ended.inj h
    have hsafe : p.Safe pc := safe_of_next fun next hstep => by
      rw [emptyNext_eq_some_iff.mpr hstep] at hnext
      cases hnext
    refine ⟨hsafe, fun a ha => ?_⟩
    rcases List.mem_cons.mp ha with rfl | ha
    · exact .inr hsafe
    · exact .inl ha
  | case4 path pc _ _ _ next hnext ih =>
    obtain ⟨hsafe, hpath⟩ := ih h
    have hpc : p.Safe pc :=
      safe_of_next fun next' hstep => (emptyNext_eq_some_iff.mp hnext).eq hstep ▸ hsafe
    refine ⟨hpc, fun a ha => ?_⟩
    rcases hpath a ha with ha | ha
    · rcases List.mem_cons.mp ha with rfl | ha
      · exact .inr hpc
      · exact .inl ha
    · exact .inr ha
  | case5 => cases h

/-- A path that comes back to itself does so where it would without marks. -/
theorem revisit_of_follow (h : p.follow done path pc = .closed q) : p.revisit path pc = some q := by
  fun_induction follow p done path pc with
  | case1 => cases h
  | case2 path pc _ _ hmem =>
    obtain rfl := Trail.closed.inj h
    rw [revisit, dif_pos hmem]
  | case3 => cases h
  | case4 path pc hlt _ hmem next hnext ih =>
    rw [revisit, dif_neg hmem, dif_pos hlt]
    simp only [hnext]
    exact ih h
  | case5 => cases h

/-- What the search of the reader finds is on a loop. -/
theorem circles_of_search {starts : List Nat} (h : p.search done starts = some (some q)) :
    p.Circles q := by
  induction starts generalizing done with
  | nil => cases h
  | cons start starts ih =>
    rw [search] at h
    split at h
    · exact ih h
    · next pc hfollow =>
      obtain rfl := Option.some.inj (Option.some.inj h)
      exact circles_of_revisit (fun a ha => absurd ha List.not_mem_nil) (revisit_of_follow hfollow)
    · cases h

theorem circles_of_findLoop (h : p.findLoop = some q) : p.Circles q := by
  unfold findLoop at h
  exact circles_of_search (Option.join_eq_some_iff.mp h)

/-! ## Programs that control stays in -/

theorem succ_lt_of_fallsThrough {deterministic : Bool} (hlast : p.insts.back? = some last)
    (hfalls : last.fallsThrough deterministic = false) (hi : p.insts[pc]? = some i)
    (h : i.fallsThrough deterministic = true) : pc + 1 < p.size := by
  have hlt : pc < p.insts.size := (Array.getElem?_eq_some_iff.mp hi).1
  rcases Nat.lt_or_eq_of_le (Nat.succ_le_of_lt hlt) with hsucc | heq
  · exact hsucc
  · rw [Array.back?_eq_getElem?, ← heq, Nat.succ_sub_one, hi] at hlast
    obtain rfl := Option.some.inj hlast
    rw [h] at hfalls
    cases hfalls

/-- Control does not leave a program: the last instruction does not pass it on, jumps lead to
    instructions, and a `branch` is followed by a `jump` and by something to skip to. -/
structure Contained (p : Program) : Prop where
  size_pos : 0 < p.size
  last : ∀ i, p.insts.back? = some i → i.fallsThrough p.isDeterministic = false
  target_lt : ∀ (pc : Nat) i, p.insts[pc]? = some i → ∀ x ∈ i.targets, x < p.size
  branch : ∀ (pc : Nat) r, p.insts[pc]? = some (.branch r) →
    (∃ x, p.insts[pc + 1]? = some (.jump x)) ∧ pc + 2 < p.size

/-- Where control stays in a program, it goes on to an instruction. -/
theorem Contained.lt_size_of_emptyStep (hp : p.Contained)
    (hdet : p.isDeterministic = true) {next : Nat} (h : p.EmptyStep pc next) : next < p.size := by
  have hlast : ∀ i, p.insts[pc]? = some i → i.fallsThrough p.isDeterministic = true →
      pc + 1 < p.size := by
    obtain ⟨last, hback⟩ : ∃ last, p.insts.back? = some last :=
      ⟨_, Array.back?_eq_getElem?.trans
        (Array.getElem?_eq_getElem (Nat.sub_one_lt_of_lt hp.size_pos))⟩
    exact fun i hi => succ_lt_of_fallsThrough hback (hp.last last hback) hi
  rcases h with hi | hi | hi
  · exact hlast _ hi hdet
  · exact hp.target_lt _ _ hi _ (List.mem_singleton_self _)
  · exact (hp.branch _ _ hi).2

theorem Contained.follow_ne_outside (hp : p.Contained) (hdet : p.isDeterministic = true)
    (hpc : pc < p.size) : p.follow done path pc ≠ .outside := by
  fun_induction follow p done path pc with
  | case4 path pc _ _ _ next hnext ih =>
    exact ih (hp.lt_size_of_emptyStep hdet (emptyNext_eq_some_iff.mp hnext))
  | case5 path pc hge => exact absurd hpc hge
  | _ => exact nofun

theorem Contained.search_eq_findSome? (hp : p.Contained)
    (hdet : p.isDeterministic = true) {starts : List Nat} (hstarts : ∀ pc ∈ starts, pc < p.size)
    (hdone : ∀ d ∈ done, p.Safe d) :
    p.search done starts = some (starts.findSome? (p.revisit [])) := by
  induction starts generalizing done with
  | nil => rfl
  | cons start starts ih =>
    obtain ⟨hstart, hstarts⟩ := List.forall_mem_cons.mp hstarts
    rw [search]
    cases hfollow : p.follow done [] start with
    | ended path =>
      obtain ⟨hsafe, hpath⟩ := safe_of_follow hdone hfollow
      rw [List.findSome?_cons, hsafe.revisit_eq_none]
      refine ih hstarts fun d hd => ?_
      rcases List.mem_append.mp hd with hd | hd
      · exact (hpath d hd).resolve_left List.not_mem_nil
      · exact hdone d hd
    | closed pc => rw [List.findSome?_cons, revisit_of_follow hfollow]
    | outside => exact absurd hfollow (hp.follow_ne_outside hdet hstart)

/-- Where control stays in a program that needs no threads, the search with marks stays in it and
    finds what is found by following every path from its start. -/
theorem Contained.search_eq (hp : p.Contained) (hdet : p.isDeterministic = true) :
    p.search [] (List.range p.size) = some p.emptyLoop :=
  hp.search_eq_findSome? hdet (fun _ => List.mem_range.mp) (List.forall_mem_nil _)

theorem Contained.findLoop_eq (hp : p.Contained) (hdet : p.isDeterministic = true) :
    p.findLoop = p.emptyLoop := by
  rw [findLoop, hp.search_eq hdet]
  rfl

end Program

end Munch

import Munch.Proofs.Generated

set_option autoImplicit false

/-! # Generating code with holes

A draft says what code is generated for an expression. Here is how it is generated: instructions are
put at the end of the code one after the other, and a jump operand whose target is not placed yet is
a hole, which is passed on until the target is placed and it can be filled (`Regex.emit`). A hole
that is filled has to name a jump operand, and generation does not go on if it does not.

Every hole that is filled names an operand, so generation always goes on to the end. Every
expression is generated as its draft says, and the holes that it leaves are the open operands of its
draft, each of them once (`yields_emit`). -/

namespace Munch

/-- A jump operand that waits for its target: the first one or the second one of the instruction at
    an offset. -/
inductive Hole where
  | first (pc : Nat)
  | second (pc : Nat)
deriving DecidableEq

/-- What has been generated, and the number of the next pattern. -/
structure Emission where
  code : Draft
  nextId : Nat

/-- A step of a generator, which does not go on if it meets a hole that names no jump operand. -/
abbrev Emit := StateT Emission Option

namespace Hole

/-- The offset of the instruction that a hole is in. -/
def pc : Hole → Nat
  | first pc | second pc => pc

/-- An instruction with the operand that a hole names led to an offset, if the instruction has
    it. -/
def lead? (target : Nat) : Hole → Op (Option Nat) → Option (Op (Option Nat))
  | first _, .split _ y => some (.split (some target) y)
  | first _, .jump _ => some (.jump (some target))
  | second _, .split x _ => some (.split x (some target))
  | _, _ => none

/-- Code with one hole after the other led to an offset. -/
def fillAll (target : Nat) : List Hole → Draft → Option Draft
  | [], d => some d
  | h :: holes, d =>
    match d[h.pc]? with
    | none => none
    | some i =>
      match h.lead? target i with
      | none => none
      | some j => fillAll target holes (d.set h.pc j)

/-- The holes of an instruction: its operands that are open. -/
def ofOp (pc : Nat) : Op (Option Nat) → List Hole
  | .split x y => (if x = none then [first pc] else []) ++ (if y = none then [second pc] else [])
  | .jump x => if x = none then [first pc] else []
  | _ => []

/-- The holes of a draft that is placed at an offset. -/
def ofDraft (base : Nat) : Draft → List Hole
  | [] => []
  | i :: d => ofOp base i ++ ofDraft (base + 1) d

end Hole

namespace Emit

/-- The offset of the next instruction. -/
def here : Emit Nat := return (← get).code.length

/-- Put an instruction at the end. -/
def put (i : Op (Option Nat)) : Emit Nat := do
  let pc ← here
  modify fun g => { g with code := g.code ++ [i] }
  return pc

/-- Let holes lead to the next instruction. -/
def fill (holes : List Hole) : Emit Unit := do
  let g ← get
  let code ← Hole.fillAll g.code.length holes g.code
  set { g with code := code }

/-- The number of the next pattern, which then is taken. -/
def takeId : Emit Nat := do
  let id := (← get).nextId
  modify fun g => { g with nextId := g.nextId + 1 }
  return id

/-- Generate code that consumes a byte of a range. -/
def consume (r : ByteRange) : Emit (List Hole) := do
  let _ ← put (.consume r)
  return []

/-- Generate a choice between two sides. -/
def choice (left right : Emit (List Hole)) : Emit (List Hole) := do
  let split ← put (.split (some ((← here) + 1)) none)
  fill (← left)
  let jump ← put (.jump none)
  fill [.second split]
  return (← right) ++ [.first jump]

end Emit

open Emit in
/-- Generate the alternation of one or more ranges. -/
def emitRanges (r : ByteRange) : List ByteRange → Emit (List Hole)
  | [] => consume r
  | s :: rest => choice (consume r) (emitRanges s rest)

namespace Regex

open Emit

mutual

/-- Generate the code of an expression, and return the operands that have to lead to what comes
    after it. -/
def emit : Regex → Emit (List Hole)
  | .byte b => consume (.single b)
  | .range r => consume r
  | .oneOf c =>
    match c.set.ranges, c.nonempty with
    | r :: rest, _ => emitRanges r rest
  | .finish => return []
  | .cat items => emitAll [] items
  | .alt a b => choice (emit a) (emit b)
  | .star r => do
    let split ← put (.split (some ((← here) + 1)) none)
    fill (← emit r)
    let _ ← put (.jump (some split))
    return [.second split]
  | .plus r => do
    let start ← here
    fill (← emit r)
    let split ← put (.split (some start) none)
    return [.second split]
  | .maybe r => do
    let split ← put (.split (some ((← here) + 1)) none)
    return (← emit r) ++ [.second split]
  | .pattern r => do
    fill (← emit r)
    let _ ← put (.accept (← takeId))
    return []
  | .either a b => do
    let split ← put (.split (some ((← here) + 1)) none)
    let holes ← emit a
    fill [.second split]
    return holes ++ (← emit b)

/-- Generate the code of expressions one after the other, the first of which the given holes lead
    to. -/
def emitAll (holes : List Hole) : List Regex → Emit (List Hole)
  | [] => return holes
  | r :: rest => do
    fill holes
    emitAll (← emit r) rest

end

end Regex

/-! ## Filling holes -/

namespace Hole

variable {h : Hole} {holes : List Hole} {base target : Nat} {code d e : Draft} {i : Op (Option Nat)}

@[simp] theorem ofDraft_nil : ofDraft base [] = [] := rfl

@[simp] theorem ofDraft_cons : ofDraft base (i :: d) = ofOp base i ++ ofDraft (base + 1) d := rfl

@[simp] theorem ofDraft_append :
    ofDraft base (d ++ e) = ofDraft base d ++ ofDraft (base + d.length) e := by
  induction d generalizing base with
  | nil => rfl
  | cons i d ih => simp [ih, Nat.add_right_comm, Nat.add_assoc]

theorem length_ofOp : (ofOp base i).length = i.targets.count none := by
  cases i with
  | split x y => cases x <;> cases y <;> simp [ofOp, Op.targets]
  | jump x => cases x <;> simp [ofOp, Op.targets]
  | _ => rfl

/-- A draft has as many holes as open operands. -/
theorem length_ofDraft : (ofDraft base d).length = d.openCount := by
  induction d generalizing base with
  | nil => rfl
  | cons i d ih => rw [ofDraft_cons, List.length_append, length_ofOp, ih, Draft.openCount_cons]

theorem ofDraft_eq_nil_iff : ofDraft base d = [] ↔ d.openCount = 0 := by
  rw [← List.length_eq_zero_iff, length_ofDraft]

@[simp] theorem ofDraft_close : ofDraft base (d.close target) = [] :=
  ofDraft_eq_nil_iff.mpr (Draft.openCount_close d)

theorem pc_of_mem_ofOp (hh : h ∈ ofOp base i) : h.pc = base := by
  cases i with
  | split x y =>
    rcases List.mem_append.mp hh with hh | hh
    all_goals
      split at hh
      · obtain rfl := List.mem_singleton.mp hh
        rfl
      · cases hh
  | jump x =>
    simp only [ofOp] at hh
    split at hh
    · obtain rfl := List.mem_singleton.mp hh
      rfl
    · cases hh
  | _ => cases hh

theorem mem_ofDraft : h ∈ ofDraft base d ↔ ∃ k i, d[k]? = some i ∧ h ∈ ofOp (base + k) i := by
  induction d generalizing base with
  | nil => simp
  | cons j d ih =>
    rw [ofDraft_cons, List.mem_append, ih]
    constructor
    · rintro (hh | ⟨k, i, hi, hh⟩)
      · exact ⟨0, j, rfl, hh⟩
      · exact ⟨k + 1, i, hi, by rwa [Nat.add_right_comm] at hh⟩
    · rintro ⟨k, i, hi, hh⟩
      cases k with
      | zero =>
        obtain rfl := Option.some.inj hi
        exact .inl hh
      | succ k => exact .inr ⟨k, i, hi, by rwa [Nat.add_right_comm]⟩

/-- An instruction with those of its operands that are among some holes led to an offset. -/
def leadOp (target : Nat) (holes : List Hole) (pc : Nat) : Op (Option Nat) → Op (Option Nat)
  | .split x y =>
    .split (if first pc ∈ holes then some target else x)
      (if second pc ∈ holes then some target else y)
  | .jump x => .jump (if first pc ∈ holes then some target else x)
  | i => i

@[simp] theorem leadOp_nil (pc : Nat) (i : Op (Option Nat)) : leadOp target [] pc i = i := by
  cases i <;> simp [leadOp]

theorem leadOp_cons (pc : Nat) (i : Op (Option Nat)) :
    leadOp target (h :: holes) pc i = leadOp target holes pc (leadOp target [h] pc i) := by
  have hor : ∀ (g : Hole) (x : Option Nat), (if g ∈ h :: holes then some target else x) =
      if g ∈ holes then some target else if g ∈ [h] then some target else x := by
    intro g x
    by_cases hg : g ∈ holes <;> simp [hg]
  cases i <;> simp only [leadOp, hor]

theorem leadOp_eq_self {pc : Nat} (hpc : ∀ h ∈ holes, h.pc ≠ pc) :
    leadOp target holes pc i = i := by
  have hfirst : first pc ∉ holes := fun hmem => hpc _ hmem rfl
  have hsecond : second pc ∉ holes := fun hmem => hpc _ hmem rfl
  cases i <;> simp [leadOp, hfirst, hsecond]

theorem eq_leadOp_of_lead? {j : Op (Option Nat)} (hj : h.lead? target i = some j) :
    j = leadOp target [h] h.pc i := by
  cases h with
  | first pc =>
    cases i with
    | split x y => simp [← Option.some.inj hj, leadOp, Hole.pc]
    | jump x => simp [← Option.some.inj hj, leadOp, Hole.pc]
    | _ => cases hj
  | second pc =>
    cases i with
    | split x y => simp [← Option.some.inj hj, leadOp, Hole.pc]
    | _ => cases hj

theorem isSome_lead?_leadOp (t u : Nat) (pc : Nat) :
    (h.lead? t (leadOp target holes pc i)).isSome = (h.lead? u i).isSome := by
  cases h <;> cases i <;> rfl

/-- A hole names a jump operand, open or not. -/
def Names (d : Draft) (h : Hole) : Prop := ∃ i, d[h.pc]? = some i ∧ (h.lead? 0 i).isSome

theorem names_mapIdx (hh : Names d h) : Names (d.mapIdx (leadOp target holes)) h := by
  obtain ⟨i, hi, hlead⟩ := hh
  exact ⟨_, by rw [List.getElem?_mapIdx, hi, Option.map_some], by rwa [isSome_lead?_leadOp 0 0]⟩

/-- The holes of a draft name operands. -/
theorem names_of_mem_ofDraft (hh : h ∈ ofDraft code.length d) : Names (code ++ d) h := by
  obtain ⟨k, i, hi, hop⟩ := mem_ofDraft.mp hh
  refine ⟨i, ?_, ?_⟩
  · rw [pc_of_mem_ofOp hop, List.getElem?_append_right (Nat.le_add_right _ _),
      Nat.add_sub_cancel_left, hi]
  · cases i with
    | split x y =>
      rcases List.mem_append.mp hop with hop | hop
      all_goals
        split at hop
        · obtain rfl := List.mem_singleton.mp hop
          rfl
        · cases hop
    | jump x =>
      simp only [ofOp] at hop
      split at hop
      · obtain rfl := List.mem_singleton.mp hop
        rfl
      · cases hop
    | _ => cases hop

/-- Holes that name operands are filled, in whatever order. -/
theorem fillAll_eq (hnames : ∀ h ∈ holes, Names d h) :
    fillAll target holes d = some (d.mapIdx (leadOp target holes)) := by
  induction holes generalizing d with
  | nil =>
    have hid : d.mapIdx (leadOp target []) = d := List.ext_getElem? fun k => by
      rw [List.getElem?_mapIdx]
      cases d[k]? <;> simp
    rw [fillAll, hid]
  | cons h holes ih =>
    obtain ⟨i, hi, hlead⟩ := hnames h List.mem_cons_self
    have hany : (h.lead? target (leadOp 0 [] 0 i)).isSome = (h.lead? 0 i).isSome :=
      isSome_lead?_leadOp target 0 0
    rw [leadOp_nil] at hany
    obtain ⟨j, hj⟩ := Option.isSome_iff_exists.mp (hany.trans hlead)
    -- To fill one hole is to lead the operand at its offset, and to leave the others.
    have hset : d.set h.pc j = d.mapIdx (leadOp target [h]) := by
      refine List.ext_getElem? fun k => ?_
      rw [List.getElem?_mapIdx]
      by_cases hk : h.pc = k
      · subst hk
        rw [List.getElem?_set_self (List.getElem?_eq_some_iff.mp hi).1, hi, Option.map_some,
          eq_leadOp_of_lead? hj]
      · rw [List.getElem?_set_ne hk]
        cases d[k]? with
        | none => rfl
        | some i => rw [Option.map_some, leadOp_eq_self (by simpa using hk)]
    simp only [fillAll, hi, hj]
    rw [hset, ih fun g hg => names_mapIdx (hnames g (List.mem_cons_of_mem h hg)),
      List.mapIdx_mapIdx]
    simp only [Function.comp_def, ← leadOp_cons]

theorem leadOp_eq_map {pc : Nat} (hholes : ∀ h : Hole, h.pc = pc → (h ∈ holes ↔ h ∈ ofOp pc i)) :
    leadOp target holes pc i = i.map fun o => some (o.getD target) := by
  have hfirst := hholes (first pc) rfl
  have hsecond := hholes (second pc) rfl
  cases i with
  | split x y => cases x <;> cases y <;> simp_all [leadOp, ofOp, Op.map]
  | jump x => cases x <;> simp_all [leadOp, ofOp, Op.map]
  | _ => rfl

/-- Filling the holes of a draft behind other code closes it. -/
theorem fillAll_ofDraft (target : Nat) (hholes : holes.Perm (ofDraft code.length d)) :
    fillAll target holes (code ++ d) = some (code ++ d.close target) := by
  rw [fillAll_eq fun h hh => names_of_mem_ofDraft (hholes.mem_iff.mp hh), List.mapIdx_append]
  congr 2
  · refine List.ext_getElem? fun k => ?_
    rw [List.getElem?_mapIdx]
    cases hk : code[k]? with
    | none => rfl
    | some i =>
      refine congrArg some (leadOp_eq_self fun h hh => ?_)
      obtain ⟨m, _, _, hop⟩ := mem_ofDraft.mp (hholes.mem_iff.mp hh)
      have hlt := (List.getElem?_eq_some_iff.mp hk).1
      rw [pc_of_mem_ofOp hop]
      omega
  · refine List.ext_getElem? fun k => ?_
    rw [List.getElem?_mapIdx, Draft.close, List.getElem?_map]
    cases hk : d[k]? with
    | none => rfl
    | some i =>
      refine congrArg some (leadOp_eq_map fun h hpc => ?_)
      rw [hholes.mem_iff, mem_ofDraft]
      constructor
      · rintro ⟨m, j, hj, hop⟩
        obtain rfl : m = k := by
          rw [pc_of_mem_ofOp hop] at hpc
          omega
        obtain rfl := Option.some.inj (hj.symm.trans hk)
        rwa [Nat.add_comm]
      · exact fun hop => ⟨k, i, hk, by rwa [Nat.add_comm]⟩

/-- The second operand of a `split` can be filled wherever it stands. -/
theorem fillAll_second (x y : Option Nat) :
    fillAll target [.second code.length] (code ++ .split x y :: d) =
      some (code ++ .split x (some target) :: d) := by
  simp [fillAll, lead?, Hole.pc]

end Hole

/-! ## Steps of generators -/

namespace Emit

variable {α β : Type} {m : Emit α} {f : α → Emit β} {g g' : Emission} {a : α}
    {code : Draft} {id : Nat}

/-- What comes after a step goes on from where the step has come to. -/
theorem bind_eq (h : m g = some (a, g')) : (m >>= f) g = f a g' := by
  show (m g).bind (fun r => f r.1 r.2) = _
  rw [h, Option.bind_some]

theorem here_eq : here ⟨code, id⟩ = some (code.length, ⟨code, id⟩) := rfl

theorem put_eq (i : Op (Option Nat)) : put i ⟨code, id⟩ = some (code.length, ⟨code ++ [i], id⟩) :=
  rfl

theorem takeId_eq : takeId ⟨code, id⟩ = some (id, ⟨code, id + 1⟩) := rfl

theorem fill_eq {holes : List Hole} {filled : Draft}
    (h : Hole.fillAll code.length holes code = some filled) :
    fill holes ⟨code, id⟩ = some ((), ⟨filled, id⟩) := by
  have hlift : (liftM (Hole.fillAll code.length holes code) : Emit Draft) ⟨code, id⟩ =
      some (filled, ⟨code, id⟩) := by
    rw [h]
    rfl
  exact bind_eq (f := fun filled => set (⟨filled, id⟩ : Emission)) hlift

/-- A `split` has its second operand filled when the code behind it is there. -/
theorem fill_second_eq (f : Unit → Emit β) (x y : Option Nat) (d : Draft) :
    (fill [.second code.length] >>= f) ⟨code ++ .split x y :: d, id⟩ =
      f () ⟨code ++ .split x (some (code.length + 1 + d.length)) :: d, id⟩ := by
  have hlength : (code ++ .split x y :: d).length = code.length + 1 + d.length := by
    rw [List.length_append, List.length_cons]
    omega
  rw [bind_eq (fill_eq (Hole.fillAll_second x y)), hlength]

/-- A generator puts a draft at the end, with `count` patterns in it, and leaves the open operands
    of the draft. -/
def Yields (m : Emit (List Hole)) (draft : Nat → Nat → Draft) (count : Nat) : Prop :=
  ∀ code base id, code.length = base → ∃ holes,
    m ⟨code, id⟩ = some (holes, ⟨code ++ draft base id, id + count⟩) ∧
      holes.Perm (Hole.ofDraft base (draft base id))

namespace Yields

variable {m left right : Emit (List Hole)} {draft a b : Nat → Nat → Draft} {count k n base : Nat}

/-- When the holes of a generator are filled, its draft is closed. -/
theorem fill_eq (h : Yields m draft count) (hbase : code.length = base) (f : Unit → Emit β) :
    (m >>= fun holes => fill holes >>= f) ⟨code, id⟩ =
      f () ⟨code ++ (draft base id).close (base + (draft base id).length), id + count⟩ := by
  obtain ⟨holes, hm, hholes⟩ := h code base id hbase
  rw [← hbase] at hm hholes ⊢
  have hfill := Hole.fillAll_ofDraft (code ++ draft code.length id).length hholes
  rw [bind_eq hm, bind_eq (Emit.fill_eq hfill), List.length_append]

/-- The hole of an instruction that was put before is passed on with those of a generator. -/
theorem append_eq (h : Yields m draft count) (hbase : code.length = base) (others : List Hole) :
    ∃ holes, (m >>= fun holes => pure (holes ++ others)) ⟨code, id⟩ =
      some (holes, ⟨code ++ draft base id, id + count⟩) ∧
    holes.Perm (Hole.ofDraft base (draft base id) ++ others) := by
  obtain ⟨holes, hm, hholes⟩ := h code base id hbase
  exact ⟨holes ++ others, bind_eq hm, hholes.append_right others⟩

theorem nothing : Yields (return []) (fun _ _ => []) 0 :=
  fun _ _ _ _ => ⟨[], by rw [List.append_nil]; rfl, .nil⟩

theorem consume (r : ByteRange) : Yields (consume r) (fun _ _ => [.consume r]) 0 :=
  fun _ _ _ _ => ⟨[], rfl, .nil⟩

theorem choice (hleft : Yields left a k) (hright : Yields right b n) :
    Yields (choice left right) (fun base id => Draft.choice base (a · id) (b · (id + k)))
    (k + n) := by
  rintro code base id rfl
  rw [Emit.choice, bind_eq here_eq, bind_eq (put_eq _),
    hleft.fill_eq (show (code ++ [_]).length = code.length + 1 from List.length_append),
    bind_eq (put_eq _)]
  generalize hfirst : a (code.length + 1) id = first
  simp only [List.append_assoc, List.cons_append, List.nil_append]
  rw [fill_second_eq]
  simp only [List.length_append, List.length_cons, List.length_nil, Draft.length_close]
  have hbase (x : Nat) : (code ++ Op.split (some (code.length + 1)) (some x) ::
      (first.close (code.length + 1 + first.length) ++ [Op.jump none])).length =
        code.length + 1 + first.length + 1 := by simp; omega
  refine (hright.append_eq (hbase _) _).imp fun holes h => ⟨h.1.trans ?_, h.2.trans ?_⟩
  · simp [Draft.choice, hfirst, Nat.add_assoc]
  · have hpc : code.length + (first.length + 1) = code.length + 1 + first.length := by omega
    simp only [Draft.choice, hfirst, hpc, Hole.ofDraft_cons, Hole.ofDraft_append,
      Hole.ofDraft_close, Hole.ofOp,
      Draft.length_close, reduceCtorEq, if_false, if_true, List.nil_append, List.append_nil]
    exact List.perm_append_singleton _ _

end Yields

end Emit

/-! ## Expressions -/

open Emit

theorem yields_emitRanges (rs : List ByteRange) : ∀ r,
    Yields (emitRanges r rs) (fun base _ => Draft.ofRanges base r rs) 0 := by
  induction rs with
  | nil => exact fun r => .consume r
  | cons s rest ih => exact fun r => (Yields.consume r).choice (ih s)

namespace Draft

/-- A draft with expressions behind it, which close it. -/
def followedBy (base id : Nat) (d : Draft) : List Regex → Draft
  | [] => d
  | items => d.close (base + d.length) ++ ofSequence (base + d.length) id items

theorem ofSequence_cons (base id : Nat) (r : Regex) (rest : List Regex) :
    ofSequence base id (r :: rest) =
      followedBy base (id + r.patternCount) (ofRegex base id r) rest := by
  cases rest <;> rfl

end Draft

theorem yields_emitAll {items : List Regex}
    (h : ∀ r ∈ items, Yields r.emit (Draft.ofRegex · · r) r.patternCount)
    (code d : Draft) (base id : Nat) (holes : List Hole) (hbase : code.length = base)
      (hholes : holes.Perm (Hole.ofDraft base d)) : ∃ holes',
      Regex.emitAll holes items ⟨code ++ d, id⟩ =
        some (holes', ⟨code ++ d.followedBy base id items, id + Regex.patternCountAll items⟩) ∧
      holes'.Perm (Hole.ofDraft base (d.followedBy base id items)) := by
  induction items generalizing code d base id holes with
  | nil => exact ⟨holes, rfl, hholes⟩
  | cons r rest ih =>
    subst hbase
    have hfill := Hole.fillAll_ofDraft (code ++ d).length hholes
    rw [List.length_append] at hfill
    have hlength : (code ++ d.close (code.length + d.length)).length = code.length + d.length := by
      rw [List.length_append, Draft.length_close]
    obtain ⟨holes₁, hrun₁, hholes₁⟩ := h r List.mem_cons_self _ _ id hlength
    obtain ⟨holes₂, hrun₂, hholes₂⟩ := ih (fun s hs => h s (List.mem_cons_of_mem r hs)) _ _ _
      (id + r.patternCount) holes₁ hlength hholes₁
    rw [← Draft.ofSequence_cons] at hrun₂ hholes₂
    refine ⟨holes₂, ?_, ?_⟩
    · rw [Regex.emitAll, bind_eq (fill_eq (by rw [List.length_append]; exact hfill)),
        bind_eq hrun₁, hrun₂]
      rw [Regex.patternCountAll, List.append_assoc, Nat.add_assoc]
      rfl
    · rw [Draft.followedBy, Hole.ofDraft_append, Hole.ofDraft_close,
        List.nil_append, Draft.length_close]
      · exact hholes₂
      · simp

/-- Expressions are generated as their drafts say, and the holes that are left are the open
    operands. -/
theorem yields_emit (r : Regex) : Yields r.emit (Draft.ofRegex · · r) r.patternCount := by
  induction r with
  | byte b => exact .consume (.single b)
  | range r => exact .consume r
  | oneOf c =>
    obtain ⟨⟨ranges, _⟩, hne⟩ := c
    cases ranges with
    | nil => exact absurd rfl hne
    | cons r rest => exact yields_emitRanges rest r
  | finish => exact .nothing
  | cat items ih =>
    intro code base id hbase
    have hrun := yields_emitAll ih code [] base id [] hbase .nil
    rw [List.append_nil] at hrun
    cases items with
    | nil => exact hrun
    | cons r rest => exact hrun
  | alt a b iha ihb => exact iha.choice ihb
  | star r ih =>
    rintro code base id rfl
    -- The body leads to the jump behind it, so only the second operand of the split stays open.
    refine ⟨[.second code.length], ?_, ?_⟩
    · rw [Regex.emit, bind_eq here_eq, bind_eq (put_eq _),
        ih.fill_eq (show (code ++ [_]).length = code.length + 1 from List.length_append),
        bind_eq (put_eq _)]
      simp only [Draft.ofRegex, List.append_assoc, List.cons_append, List.nil_append]
      rfl
    · simp [Draft.ofRegex, Hole.ofOp]
  | plus r ih =>
    rintro code base id rfl
    -- The split stands behind the body.
    refine ⟨[.second (code.length + (Draft.ofRegex code.length id r).length)], ?_, ?_⟩
    · rw [Regex.emit, bind_eq here_eq, ih.fill_eq rfl, bind_eq (put_eq _),
        List.length_append, Draft.length_close]
      simp only [Draft.ofRegex, List.append_assoc]
      rfl
    · simp [Draft.ofRegex, Hole.ofOp]
  | maybe r ih =>
    rintro code base id rfl
    rw [Regex.emit, bind_eq here_eq, bind_eq (put_eq _)]
    refine (ih.append_eq (show (code ++ [_]).length =
      code.length + 1 from List.length_append) _).imp fun holes h => ⟨h.1.trans ?_, h.2.trans ?_⟩
    · simp only [Draft.ofRegex, List.append_assoc, List.cons_append, List.nil_append]
      rfl
    · simp [Draft.ofRegex, Hole.ofOp]
  | pattern r ih =>
    rintro code base id rfl
    refine ⟨[], ?_, ?_⟩
    · rw [Regex.emit, ih.fill_eq rfl, bind_eq takeId_eq, bind_eq (put_eq _)]
      simp only [Draft.ofRegex, List.append_assoc]
      rfl
    · simp [Draft.ofRegex, Hole.ofOp]
  | either a b iha ihb =>
    rintro code base id rfl
    have hsplit : (code ++ [Op.split (some (code.length + 1)) none]).length = code.length + 1 :=
      List.length_append
    obtain ⟨holes₁, hrun₁, hholes₁⟩ := iha _ _ id hsplit
    have hbase (x : Nat) : (code ++ Op.split (some (code.length + 1)) (some x) ::
        Draft.ofRegex (code.length + 1) id a).length =
          code.length + 1 + (Draft.ofRegex (code.length + 1) id a).length := by simp; omega
    obtain ⟨holes₂, hrun₂, hholes₂⟩ := ihb _ _ (id + a.patternCount) (hbase _)
    refine ⟨holes₁ ++ holes₂, ?_, ?_⟩
    · rw [Regex.emit, bind_eq here_eq, bind_eq (put_eq _), bind_eq hrun₁]
      simp only [List.append_assoc, List.cons_append, List.nil_append]
      -- Where the second side starts is known only after the first one was generated.
      rw [fill_second_eq, bind_eq hrun₂]
      simp only [Draft.ofRegex, Regex.patternCount, List.append_assoc,
        List.cons_append, Nat.add_assoc]
      rfl
    · simpa [Draft.ofRegex, Hole.ofOp] using hholes₁.append hholes₂

end Munch

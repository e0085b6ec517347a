import Munch.Proofs.Holes

set_option autoImplicit false

/-! # Generation leaves no hole

The program of an expression is what is generated for it when its roots are marked
(`Program.generate`), and it is the program of its draft (`Program.generate_eq`). An expression with
its roots marked leaves no hole. Where no pattern stands inside of another one, its code is a single
`accept` or it needs threads (`Draft.single_or_threaded_anchor`), so the program that is generated
is valid (`Program.generate_connected`). -/

namespace Munch

/-! ## Patterns and their number -/

namespace Regex

/-- The expressions that a set joins, each without its root. -/
def members : Regex → List Regex
  | .either a b => members a ++ members b
  | .pattern r => [r]
  | r => [r]

/-- No pattern stands inside of a pattern. -/
def Unnested (re : Regex) : Prop := ∀ r ∈ re.members, r.patternCount = 0

instance (re : Regex) : Decidable re.Unnested :=
  inferInstanceAs (Decidable (∀ r ∈ re.members, r.patternCount = 0))

theorem patternCount_of_isBody (r : Regex) : r.isBody = true → r.patternCount = 0 := by
  induction r with
  | cat items ih =>
    exact fun h => patternCountAll_eq_zero fun r hr => ih r hr (allBodies_iff.mp h r hr)
  | alt a b iha ihb =>
    intro h
    obtain ⟨ha, hb⟩ := Bool.and_eq_true_iff.mp h
    rw [patternCount, iha ha, ihb hb]
  | star r ih => exact ih
  | plus r ih => exact ih
  | maybe r ih => exact ih
  | pattern => exact fun h => absurd h Bool.false_ne_true
  | either => exact fun h => absurd h Bool.false_ne_true
  | _ => exact fun _ => rfl

theorem members_of_isBody {r : Regex} (h : r.isBody = true) : r.members = [r] := by
  cases r <;> simp_all [isBody, members]

/-- In a pattern set no pattern stands inside of another one. -/
theorem IsPatternSet.unnested {re : Regex} (h : re.IsPatternSet) : re.Unnested := by
  refine h.induct (fun r hr => ?_) (fun r hr => ?_) fun a b ha hb => ?_
  · rw [Unnested, members_of_isBody hr]
    exact List.forall_mem_singleton.mpr (patternCount_of_isBody r hr)
  · refine List.forall_mem_singleton.mpr ?_
    simp [patternCount, patternCountAll, patternCount_of_isBody r hr]
  · exact List.forall_mem_append.mpr ⟨ha, hb⟩

theorem patternCount_terminate (r : Regex) : r.terminate.patternCount = r.patternCount := by
  unfold terminate
  split
  · rfl
  · split
    · rfl
    · simp [patternCount, patternCountAll]
  · simp [patternCount, patternCountAll]

end Regex

namespace Draft

variable {d e : Draft} {i : Op (Option Nat)}

/-- The number of `accept`s in a draft. -/
def acceptCount (d : Draft) : Nat := d.countP fun i => i matches .accept _

@[simp] theorem acceptCount_nil : acceptCount [] = 0 := rfl

@[simp] theorem acceptCount_cons :
    acceptCount (i :: d) = acceptCount d + if i matches .accept _ then 1 else 0 :=
  List.countP_cons

@[simp] theorem acceptCount_append : acceptCount (d ++ e) = acceptCount d + acceptCount e :=
  List.countP_append

@[simp] theorem acceptCount_close (t : Nat) : acceptCount (close t d) = acceptCount d := by
  rw [acceptCount, close, List.countP_map, acceptCount]
  exact List.countP_congr fun i _ => by cases i <;> rfl

theorem acceptCount_ofRanges (rs : List ByteRange) :
    ∀ base r, acceptCount (ofRanges base r rs) = 0 := by
  induction rs with
  | nil => exact fun base r => rfl
  | cons s rest ih => exact fun base r => by simp [ofRanges, choice, ih]

/-- A draft has an `accept` for each pattern. -/
theorem acceptCount_ofRegex (r : Regex) :
    ∀ base id, acceptCount (ofRegex base id r) = r.patternCount := by
  induction r with
  | oneOf c =>
    intro base id
    rw [ofRegex]
    split
    exact acceptCount_ofRanges _ base _
  | cat items ih =>
    rw [Regex.patternCount]
    induction items with
    | nil => exact fun base id => rfl
    | cons r rest ihrest =>
      intro base id
      have hr := ih r List.mem_cons_self
      have hrest := ihrest fun s hs => ih s (List.mem_cons_of_mem r hs)
      cases rest with
      | nil => exact hr base id
      | cons s rest =>
        have hnext := hrest (base + (ofRegex base id r).length) (id + r.patternCount)
        rw [Regex.patternCountAll, ← hr base id, ← hnext]
        simp [ofRegex, ofSequence]
  | alt a b iha ihb => simp [ofRegex, choice, iha, ihb, Regex.patternCount]
  | either a b iha ihb => simp [ofRegex, iha, ihb, Regex.patternCount]
  | star r ih => simp [ofRegex, ih, Regex.patternCount]
  | plus r ih => simp [ofRegex, ih, Regex.patternCount]
  | maybe r ih => simp [ofRegex, ih, Regex.patternCount]
  | pattern r ih => simp [ofRegex, ih, Regex.patternCount]
  | _ => exact fun base id => rfl

/-- The code of an expression that has no pattern in it is empty or needs threads. -/
theorem eq_nil_or_threaded {r : Regex} (h : r.patternCount = 0) (base id : Nat) :
    ofRegex base id r = [] ∨ ∃ i ∈ ofRegex base id r, i.isThreaded = true := by
  rcases threadedOrAccepts_ofRegex r base id with hthreaded | haccepts
  · exact .inr hthreaded
  · refine .inl (List.eq_nil_iff_forall_not_mem.mpr fun i hi => ?_)
    obtain ⟨n, rfl⟩ := haccepts i hi
    have hpos : 0 < acceptCount (ofRegex base id r) := List.countP_pos_iff.mpr ⟨_, hi, rfl⟩
    rw [acceptCount_ofRegex, h] at hpos
    exact Nat.lt_irrefl 0 hpos

theorem single_or_threaded_pattern {r : Regex} (h : r.patternCount = 0) :
    ofRegex 0 0 (.pattern r) = [.accept 0] ∨ ∃ i ∈ ofRegex 0 0 (.pattern r),
    i.isThreaded = true := by
  rw [ofRegex, h]
  rcases eq_nil_or_threaded h 0 0 with hnil | ⟨i, hi, hthreaded⟩
  · exact .inl (by rw [hnil]; rfl)
  · exact .inr ⟨_, List.mem_append_left _ (List.mem_map_of_mem hi),
      (Op.isThreaded_map _ i).trans hthreaded⟩

/-- The draft of a set in which no pattern stands inside of another one is a single `accept` or
    needs threads. -/
theorem single_or_threaded_anchor {re : Regex} (h : re.Unnested) :
    ofRegex 0 0 re.anchor = [.accept 0] ∨ ∃ i ∈ ofRegex 0 0 re.anchor, i.isThreaded = true := by
  cases re with
  | either a b => exact .inr ⟨_, List.mem_cons_self, rfl⟩
  | _ =>
    exact single_or_threaded_pattern ((Regex.patternCount_terminate _).trans
      (h _ List.mem_cons_self))

/-- The draft of any expression with its roots marked has no open operand. -/
theorem openCount_anchor (re : Regex) : ∀ base id, (ofRegex base id re.anchor).openCount = 0 := by
  induction re with
  | either a b iha ihb =>
    intro base id
    simp [Regex.anchor, ofRegex, iha, ihb, Op.targets]
  | _ =>
    intro base id
    simp [Regex.anchor, ofRegex, Op.targets]

end Draft

/-! ## Programs -/

namespace Program

/-- Code with a `fail` behind it if it is a single `accept`. -/
def endSingle : Draft → Draft
  | [.accept id] => [.accept id, .fail]
  | code => code

/-- Generate the program of a pattern or a set of patterns. There is no result if a hole names no
    jump operand. -/
def generate (re : Regex) : Option (Except DraftError Program) := do
  let (holes, g) ← re.anchor.emit ⟨[], 0⟩
  let code := endSingle g.code
  if holes.isEmpty ∧ code.fallsOff = false then
    return .ok ⟨(code.map (Op.map fun o => o.getD 0)).toArray⟩
  else return .error (.unconnected (holes.length + code.fallsOff.toNat))

variable {re : Regex}

/-- Generation goes on to the end of every expression with its roots marked, and leaves no hole. -/
theorem emit_anchor (re : Regex) : re.anchor.emit ⟨[], 0⟩ =
    some ([], ⟨Draft.ofRegex 0 0 re.anchor, re.anchor.patternCount⟩) := by
  obtain ⟨holes, hrun, hholes⟩ := yields_emit re.anchor [] 0 0 rfl
  rw [Hole.ofDraft_eq_nil_iff.mpr (Draft.openCount_anchor re 0 0)] at hholes
  rw [hrun, hholes.eq_nil, List.nil_append, Nat.zero_add]

theorem endSingle_ofRegex (re : Regex) :
    endSingle (Draft.ofRegex 0 0 re.anchor) = Draft.ofPatterns re.anchor := by
  rw [Draft.ofPatterns]
  rfl

theorem openCount_ofPatterns (re : Regex) : (Draft.ofPatterns re.anchor).openCount = 0 := by
  unfold Draft.ofPatterns
  split
  · rfl
  · exact Draft.openCount_anchor re 0 0

/-- What is generated is the program of the draft. -/
theorem generate_eq (re : Regex) : generate re = some (Program.ofRegex re) := by
  rw [generate, emit_anchor, Program.ofRegex, ofDraft, openCount_ofPatterns]
  simp only [Option.bind_eq_bind, Option.bind_some, endSingle_ofRegex]
  cases h : (Draft.ofPatterns re.anchor).fallsOff <;> simp

/-- The code of a draft without open operands is the draft. -/
theorem map_some_of_openCount {d : Draft} (h : d.openCount = 0) :
    (d.map (Op.map fun o => o.getD 0)).map (Op.map some) = d := by
  rw [Draft.openCount, List.count_eq_zero] at h
  rw [List.map_map]
  refine (List.map_congr_left fun i hi => ?_).trans d.map_id
  have hsome : ∀ o ∈ i.targets, some (o.getD 0) = o := by
    intro o ho
    cases o with
    | none => exact absurd (List.mem_flatMap.mpr ⟨i, hi, ho⟩) h
    | some x => rfl
  cases i with
  | split x y =>
    exact congrArg₂ Op.split (hsome x (by simp [Op.targets])) (hsome y (by simp [Op.targets]))
  | jump x => exact congrArg Op.jump (hsome x (by simp [Op.targets]))
  | _ => rfl

/-- A program is generated for every expression. -/
theorem ofRegex_eq_ok (re : Regex) : Program.ofRegex re =
    .ok ⟨((Draft.ofPatterns re.anchor).map (Op.map fun o => o.getD 0)).toArray⟩ := by
  have hfalls : (Draft.ofPatterns re.anchor).fallsOff = false := by
    obtain ⟨code, n, hcode, -⟩ := Draft.exists_ofRegex_anchor re 0 0
    unfold Draft.ofPatterns
    split
    · rfl
    · simp [hcode, Draft.fallsOff, Op.fallsThrough]
  rw [Program.ofRegex, ofDraft, if_pos ⟨openCount_ofPatterns re, hfalls⟩]

/-- The program of a set in which no pattern stands inside of another one needs threads, or it is a
    single `accept`. -/
theorem threaded_or_loneAccept {p : Program} (h : re.Unnested) (hp : Program.ofRegex re = .ok p) :
    p.isDeterministic = false ∨ p = loneAccept := by
  rw [ofRegex_eq_ok, ← endSingle_ofRegex] at hp
  obtain rfl := Except.ok.inj hp
  rcases Draft.single_or_threaded_anchor h with hsingle | ⟨i, hi, hthreaded⟩
  · exact .inr (by rw [hsingle]; rfl)
  · refine .inl ?_
    have hend : endSingle (Draft.ofRegex 0 0 re.anchor) = Draft.ofRegex 0 0 re.anchor := by
      unfold endSingle
      split
      · next hsingle =>
        rw [hsingle] at hi
        obtain rfl := List.mem_singleton.mp hi
        cases hthreaded
      · rfl
    rw [hend, isDeterministic, Bool.not_eq_false', Array.any_eq_true']
    exact ⟨_, List.mem_toArray.mpr (List.mem_map_of_mem hi),
      (Op.isThreaded_map _ i).trans hthreaded⟩

/-- Generation does not fail for a set in which no pattern stands inside of another one, as is the
    case in every pattern set. Every hole that is filled on the way names a jump operand, and none
    is left: the operands of the program are the targets that were set. The program is valid, and it
    needs threads unless it is a single `accept` and a `fail`. -/
theorem generate_connected (h : re.Unnested) : ∃ code id p,
    re.anchor.emit ⟨[], 0⟩ = some ([], ⟨code, id⟩) ∧ generate re = some (.ok p) ∧
      Program.ofRegex re = .ok p ∧ p.insts.toList.map (Op.map some) = endSingle code ∧ p.Valid ∧
      (p.isDeterministic = true ↔ p = ⟨#[.accept 0, .fail]⟩) := by
  have hp := ofRegex_eq_ok re
  refine ⟨_, _, _, emit_anchor re, (generate_eq re).trans (congrArg some hp), hp, ?_, ?_, ?_⟩
  · rw [endSingle_ofRegex]
    exact map_some_of_openCount (openCount_ofPatterns re)
  · refine (valid_or_accepts_of_ofRegex hp).resolve_right fun haccepts => ?_
    rcases threaded_or_loneAccept h hp with hdet | hlone
    · rw [isDeterministic, Bool.not_eq_false', Array.any_eq_true'] at hdet
      obtain ⟨i, hi, hthreaded⟩ := hdet
      obtain ⟨n, rfl⟩ := haccepts i hi
      cases hthreaded
    · rw [hlone] at haccepts
      obtain ⟨n, hn⟩ := haccepts .fail (by simp [loneAccept])
      cases hn
  · constructor
    · intro hdet
      exact (threaded_or_loneAccept h hp).resolve_left (by simp [hdet])
    · intro hlone
      rw [hlone]
      simp [isDeterministic, Op.isThreaded]

/-- A pattern for the empty text and one that loops are generated without holes. -/
theorem generate_connected_either :
    let re := Regex.either (.cat []) (.star (.maybe (.byte 97)))
    let p : Program :=
  ⟨#[.split 1 2, .accept 0, .split 3 6, .split 4 5, .consume (.single 97), .jump 2, .accept 1]⟩
    re.Unnested ∧ generate re = some (.ok p) ∧ p.Valid := by
  intro re p
  have h : re.Unnested := by decide
  obtain ⟨code, id, q, -, hgenerate, hq, -, hvalid, -⟩ := generate_connected h
  have hp : Program.ofRegex re = .ok p := by rfl
  obtain rfl := Except.ok.inj (hp.symm.trans hq)
  exact ⟨h, hgenerate, hvalid⟩

end Program

end Munch

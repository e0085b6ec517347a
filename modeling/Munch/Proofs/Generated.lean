import Munch.Proofs.Validity

set_option autoImplicit false

/-! # Programs of any expressions

A program may be generated for an expression that is no pattern set: with end marks in the middle,
and with patterns inside of patterns. Its jumps still lead to its instructions, and it ends with an
`accept`. So it is valid, unless it is made of `accept`s alone: then it is taken for a deterministic
program, in which control passes the last of them (`Program.valid_or_accepts_of_ofRegex`). -/

namespace Munch

theorem Op.targets_map {τ σ : Type} (f : τ → σ) (i : Op τ) :
    (i.map f).targets = i.targets.map f := by
  cases i <;> rfl

theorem Op.isThreaded_map {τ σ : Type} (f : τ → σ) (i : Op τ) :
    (i.map f).isThreaded = i.isThreaded := by
  cases i <;> rfl

namespace Draft

variable {n m t : Nat} {d e : Draft} {i : Op (Option Nat)}

/-! ## Operands -/

/-- No instruction of a draft is a `branch`, and every operand that is not open leads to an offset
    up to `n`. -/
def Bounded (n : Nat) (d : Draft) : Prop :=
  ∀ i ∈ d, (∀ r, i ≠ .branch r) ∧ ∀ x, some x ∈ i.targets → x ≤ n

theorem bounded_nil : Bounded n [] := nofun

theorem bounded_cons : Bounded n (i :: d) ↔
    ((∀ r, i ≠ .branch r) ∧ ∀ x, some x ∈ i.targets → x ≤ n) ∧ Bounded n d := List.forall_mem_cons

theorem bounded_append : Bounded n (d ++ e) ↔ Bounded n d ∧ Bounded n e := List.forall_mem_append

theorem Bounded.mono (h : Bounded n d) (hle : n ≤ m) : Bounded m d :=
  fun i hi => ⟨(h i hi).1, fun x hx => Nat.le_trans ((h i hi).2 x hx) hle⟩

theorem Bounded.close (h : Bounded n d) (ht : t ≤ n) : Bounded n (close t d) := by
  intro i hi
  obtain ⟨j, hj, rfl⟩ := List.mem_map.mp hi
  refine ⟨fun r hr => ?_, fun x hx => ?_⟩
  · cases j with
    | branch r => exact (h _ hj).1 r rfl
    | _ => cases hr
  · rw [Op.targets_map] at hx
    obtain ⟨o, ho, heq⟩ := List.mem_map.mp hx
    obtain rfl := Option.some.inj heq
    cases o with
    | none => exact ht
    | some y => exact (h _ hj).2 y ho

theorem bounded_consume (r : ByteRange) : Bounded n [.consume r] :=
  bounded_cons.mpr ⟨⟨by simp, by simp [Op.targets]⟩, bounded_nil⟩

theorem bounded_choice {base : Nat} {left right : Nat → Draft}
    (hleft : ∀ base, Bounded (base + (left base).length) (left base))
    (hright : ∀ base, Bounded (base + (right base).length) (right base)) :
    Bounded (base + (choice base left right).length) (choice base left right) := by
  have hl := hleft (base + 1)
  have hr := hright (base + 1 + (left (base + 1)).length + 1)
  simp only [choice, List.length_cons, List.length_append, length_close,
    bounded_cons, bounded_append]
  refine ⟨⟨by simp, ?_⟩, (hl.mono (by omega)).close (by omega), ⟨by simp, ?_⟩, hr.mono (by omega)⟩
  · simp only [Op.targets, List.mem_cons, Option.some.injEq, List.not_mem_nil, or_false]
    omega
  · simp [Op.targets]

theorem bounded_ofRanges (rs : List ByteRange) : ∀ (base : Nat) (r : ByteRange),
    Bounded (base + (ofRanges base r rs).length) (ofRanges base r rs) := by
  induction rs with
  | nil => exact fun base r => bounded_consume r
  | cons s rest ih =>
    exact fun base r => bounded_choice (fun _ => bounded_consume r) fun next => ih next s

theorem bounded_ofSequence {items : List Regex}
    (h : ∀ r ∈ items, ∀ base id, Bounded (base + (ofRegex base id r).length) (ofRegex base id r)) :
    ∀ base id, Bounded (base + (ofSequence base id items).length) (ofSequence base id items) := by
  induction items with
  | nil => exact fun base id => bounded_nil
  | cons r rest ih =>
    intro base id
    have hr := h r List.mem_cons_self base id
    have hrest := ih fun s hs => h s (List.mem_cons_of_mem r hs)
    cases rest with
    | nil => exact hr
    | cons s rest =>
      have hs := hrest (base + (ofRegex base id r).length) (id + r.patternCount)
      simp only [ofSequence, List.length_append, length_close, bounded_append]
      exact ⟨(hr.mono (by omega)).close (by omega), hs.mono (by omega)⟩

/-- A draft leads to its own offsets and to its end. -/
theorem bounded_ofRegex (r : Regex) :
    ∀ base id, Bounded (base + (ofRegex base id r).length) (ofRegex base id r) := by
  induction r with
  | byte b => exact fun base id => bounded_consume _
  | range s => exact fun base id => bounded_consume s
  | oneOf c =>
    intro base id
    rw [ofRegex]
    split
    next r rest _ _ _ => exact bounded_ofRanges rest base r
  | finish => exact fun base id => bounded_nil
  | cat items ih => exact bounded_ofSequence ih
  | alt a b iha ihb =>
    exact fun base id => bounded_choice (fun base => iha base id) fun base => ihb base _
  | star r ih =>
    intro base id
    -- The body is closed at the jump behind it, which leads back to the split.
    have hr := ih (base + 1) id
    simp only [ofRegex, List.length_cons, List.length_append, length_close,
      List.length_nil, bounded_cons,
      bounded_append, Op.targets, List.mem_cons, Option.some.injEq, List.not_mem_nil, or_false]
    refine ⟨⟨by simp, ?_⟩, (hr.mono (by omega)).close (by omega), ⟨by simp, ?_⟩, bounded_nil⟩
    · simp
    · omega
  | plus r ih =>
    intro base id
    have hr := ih base id
    simp only [ofRegex, List.length_cons, List.length_append, length_close,
      List.length_nil, bounded_cons,
      bounded_append, Op.targets, List.mem_cons, Option.some.injEq, List.not_mem_nil, or_false]
    refine ⟨(hr.mono (by omega)).close (by omega), ⟨by simp, ?_⟩, bounded_nil⟩
    simp
  | maybe r ih =>
    intro base id
    have hr := ih (base + 1) id
    simp only [ofRegex, List.length_cons, bounded_cons, Op.targets,
      List.mem_cons, Option.some.injEq, List.not_mem_nil, or_false]
    refine ⟨⟨by simp, ?_⟩, hr.mono (by omega)⟩
    simp
  | pattern r ih =>
    intro base id
    have hr := ih base id
    simp only [ofRegex, List.length_append, length_close, List.length_cons,
      List.length_nil, bounded_append, bounded_cons, Op.targets]
    exact ⟨(hr.mono (by omega)).close (by omega), ⟨by simp, by simp⟩, bounded_nil⟩
  | either a b iha ihb =>
    intro base id
    have ha := iha (base + 1) id
    have hb := ihb (base + 1 + (ofRegex (base + 1) id a).length) (id + a.patternCount)
    simp only [ofRegex, List.length_cons, List.length_append, bounded_cons,
      bounded_append, Op.targets, List.mem_cons, Option.some.injEq, List.not_mem_nil, or_false]
    refine ⟨⟨by simp, ?_⟩, ha.mono (by omega), hb.mono (by omega)⟩
    omega

/-- A pattern ends with its `accept`, and leads to nothing behind it. -/
theorem exists_ofRegex_pattern (r : Regex) (base id : Nat) : ∃ code n,
    ofRegex base id (.pattern r) = code ++ [.accept n] ∧
    Bounded (base + code.length) (code ++ [.accept n]) := by
  refine ⟨_, _, rfl,
    bounded_append.mpr ⟨?_, bounded_cons.mpr ⟨⟨by simp, by simp [Op.targets]⟩, bounded_nil⟩⟩⟩
  rw [length_close]
  exact (bounded_ofRegex r base id).close (Nat.le_refl _)

/-- What is generated for an expression with its roots marked ends with an `accept`, and leads to
    nothing behind it. -/
theorem exists_ofRegex_anchor (re : Regex) : ∀ base id, ∃ code n,
    ofRegex base id re.anchor = code ++ [.accept n] ∧
    Bounded (base + code.length) (code ++ [.accept n]) := by
  induction re with
  | either a b _ ihb =>
    intro base id
    obtain ⟨code, n, hcode, hbounded⟩ :=
      ihb (base + 1 + (ofRegex (base + 1) id a.anchor).length) (id + a.anchor.patternCount)
    have ha := bounded_ofRegex a.anchor (base + 1) id
    refine ⟨.split (some (base + 1)) (some (base + 1 + (ofRegex (base + 1) id a.anchor).length)) ::
      (ofRegex (base + 1) id a.anchor ++ code), n, ?_, ?_⟩
    · simp only [Regex.anchor, ofRegex, hcode, List.cons_append, List.append_assoc]
    · rw [List.cons_append, List.append_assoc, bounded_cons, bounded_append,
        List.length_cons, List.length_append]
      refine ⟨⟨by simp, ?_⟩, ha.mono (by omega), hbounded.mono (by omega)⟩
      simp only [Op.targets, List.mem_cons, Option.some.injEq, List.not_mem_nil, or_false]
      omega
  | _ => exact exists_ofRegex_pattern _

/-! ## Threads -/

/-- A draft has an instruction that needs threads, or nothing but `accept`s. -/
def ThreadedOrAccepts (d : Draft) : Prop :=
  (∃ i ∈ d, i.isThreaded = true) ∨ ∀ i ∈ d, ∃ n, i = .accept n

theorem threadedOrAccepts_of_mem (hi : i ∈ d) (h : i.isThreaded = true) : ThreadedOrAccepts d :=
  .inl ⟨i, hi, h⟩

theorem ThreadedOrAccepts.append (hd : ThreadedOrAccepts d) (he : ThreadedOrAccepts e) :
    ThreadedOrAccepts (d ++ e) := by
  rcases hd with ⟨i, hi, h⟩ | hd
  · exact threadedOrAccepts_of_mem (List.mem_append_left e hi) h
  rcases he with ⟨i, hi, h⟩ | he
  · exact threadedOrAccepts_of_mem (List.mem_append_right d hi) h
  · exact .inr (List.forall_mem_append.mpr ⟨hd, he⟩)

theorem ThreadedOrAccepts.close (h : ThreadedOrAccepts d) (t : Nat) :
    ThreadedOrAccepts (close t d) := by
  rcases h with ⟨i, hi, h⟩ | h
  · exact threadedOrAccepts_of_mem (List.mem_map_of_mem hi) ((Op.isThreaded_map _ i).trans h)
  · refine .inr fun i hi => ?_
    obtain ⟨j, hj, rfl⟩ := List.mem_map.mp hi
    obtain ⟨n, rfl⟩ := h j hj
    exact ⟨n, rfl⟩

theorem threadedOrAccepts_ofRanges (base : Nat) (r : ByteRange) (rs : List ByteRange) :
    ThreadedOrAccepts (ofRanges base r rs) := by
  cases rs <;> exact threadedOrAccepts_of_mem List.mem_cons_self rfl

theorem threadedOrAccepts_ofRegex (r : Regex) :
    ∀ base id, ThreadedOrAccepts (ofRegex base id r) := by
  induction r with
  | oneOf c =>
    intro base id
    rw [ofRegex]
    split
    exact threadedOrAccepts_ofRanges base _ _
  | finish => exact fun base id => .inr (List.forall_mem_nil _)
  | cat items ih =>
    induction items with
    | nil => exact fun base id => .inr (List.forall_mem_nil _)
    | cons r rest ihrest =>
      intro base id
      have hr := ih r List.mem_cons_self base id
      have hrest := ihrest fun s hs => ih s (List.mem_cons_of_mem r hs)
      cases rest with
      | nil => exact hr
      | cons s rest => exact (hr.close _).append (hrest _ _)
  | plus r _ =>
    exact fun base id => threadedOrAccepts_of_mem (List.mem_append_right _ List.mem_cons_self) rfl
  | pattern r ih =>
    refine fun base id => ((ih base id).close _).append (.inr fun i hi => ?_)
    exact ⟨_, List.mem_singleton.mp hi⟩
  | _ => exact fun base id => threadedOrAccepts_of_mem List.mem_cons_self rfl

end Draft

namespace Program

variable {p : Program} {re : Regex}

/-- What stands last in a program that was generated does not pass control on. -/
theorem exists_last_of_ofRegex {re : Regex} (h : Program.ofRegex re = .ok p) :
    ∃ last, p.insts.back? = some last ∧ last.fallsThrough false = false := by
  rw [Program.ofRegex, ofDraft] at h
  split at h
  · next hconnected =>
    obtain rfl := Except.ok.inj h
    have hfalls := hconnected.2
    unfold Draft.fallsOff at hfalls
    cases hlast : (Draft.ofPatterns re.anchor).getLast? with
    | none =>
      rw [hlast] at hfalls
      cases hfalls
    | some i =>
      rw [hlast] at hfalls
      refine ⟨i.map fun o => o.getD 0, ?_, ?_⟩
      · rw [List.back?_toArray, List.getLast?_map, hlast, Option.map_some]
      · cases i <;> first | rfl | exact hfalls
  · cases h

/-- The program of a draft with a single `accept` gets a `fail`, and any other is the draft. -/
theorem eq_of_ofRegex (h : Program.ofRegex re = .ok p) :
    (∃ n, p = ⟨#[.accept n, .fail]⟩) ∨
    p = ⟨(Draft.resolve 0 (Draft.ofRegex 0 0 re.anchor)).toArray⟩ := by
  rw [Program.ofRegex, ofDraft] at h
  split at h
  · obtain rfl := Except.ok.inj h
    unfold Draft.ofPatterns
    split
    · next n _ => exact .inl ⟨n, rfl⟩
    · exact .inr rfl
  · cases h

/-- A program that is generated has no `branch`. -/
theorem branch_not_mem_of_ofRegex (h : Program.ofRegex re = .ok p) (r : ByteRange) :
    .branch r ∉ p.insts := by
  rcases eq_of_ofRegex h with ⟨n, rfl⟩ | rfl
  · simp
  · intro hr
    obtain ⟨j, hj, heq⟩ := List.mem_map.mp (List.mem_toArray.mp hr)
    cases j with
    | branch s => exact (Draft.bounded_ofRegex re.anchor 0 0 _ hj).1 s rfl
    | _ => cases heq

/-- A program that is generated needs threads, or it is a single `accept`, or it is made of
    `accept`s alone. -/
theorem threaded_or_accepts_of_ofRegex (h : Program.ofRegex re = .ok p) :
    (p.isDeterministic = false ∨ ∃ n, p = ⟨#[.accept n, .fail]⟩) ∨
    ∀ i ∈ p.insts, ∃ n, i = .accept n := by
  rcases eq_of_ofRegex h with hsingle | rfl
  · exact .inl (.inr hsingle)
  rcases Draft.threadedOrAccepts_ofRegex re.anchor 0 0 with ⟨j, hj, hthreaded⟩ | haccepts
  · refine .inl (.inl ?_)
    rw [isDeterministic, Bool.not_eq_false', Array.any_eq_true']
    exact ⟨_, List.mem_toArray.mpr (List.mem_map_of_mem hj),
      (Op.isThreaded_map _ j).trans hthreaded⟩
  · refine .inr fun i hi => ?_
    obtain ⟨j, hj, rfl⟩ := List.mem_map.mp (List.mem_toArray.mp hi)
    obtain ⟨n, rfl⟩ := haccepts j hj
    exact ⟨n, rfl⟩

/-- A program that is generated is valid, or it is made of `accept`s alone. -/
theorem valid_or_accepts_of_ofRegex (h : Program.ofRegex re = .ok p) :
    p.Valid ∨ ∀ i ∈ p.insts, ∃ n, i = .accept n := by
  obtain ⟨last, hlast, hfalls⟩ := exists_last_of_ofRegex h
  rcases threaded_or_accepts_of_ofRegex h with (hdet | ⟨n, rfl⟩) | haccepts
  · rcases eq_of_ofRegex h with ⟨n, rfl⟩ | rfl
    · exact .inl (valid_accept_fail n)
    obtain ⟨code, n, hcode, hbounded⟩ := Draft.exists_ofRegex_anchor re 0 0
    rw [hcode] at hlast hdet ⊢
    have hsize : (⟨(Draft.resolve 0 (code ++ [.accept n])).toArray⟩ : Program).size =
        code.length + 1 := by
      simp [size]
    refine .inl ⟨fun hi x hx => ?_, ⟨last, hlast, hdet.symm ▸ hfalls⟩, fun hi => ?_, fun h => ?_⟩
    · obtain ⟨j, hj, rfl⟩ := List.mem_map.mp (List.mem_toArray.mp (Array.mem_of_getElem? hi))
      rw [Op.targets_map] at hx
      obtain ⟨o, ho, rfl⟩ := List.mem_map.mp hx
      rw [hsize]
      cases o with
      | none => exact Nat.succ_pos _
      | some y =>
        have := (hbounded j hj).2 y ho
        rw [Option.getD_some]
        omega
    · rw [← hcode] at hi
      exact absurd (Array.mem_of_getElem? hi) (branch_not_mem_of_ofRegex h _)
    · rw [hdet] at h
      cases h
  · exact .inl (valid_accept_fail n)
  · exact .inr haccepts

theorem valid_of_ofRegex {i : Inst} (h : Program.ofRegex re = .ok p) (hi : i ∈ p.insts)
    (hne : ∀ n, i ≠ .accept n) : p.Valid := by
  refine (valid_or_accepts_of_ofRegex h).resolve_right fun haccepts => ?_
  obtain ⟨n, hn⟩ := haccepts i hi
  exact hne n hn

/-- A program that is made of `accept`s alone is taken for a deterministic one. -/
theorem isDeterministic_of_accepts (haccepts : ∀ i ∈ p.insts, ∃ n, i = .accept n) :
    p.isDeterministic = true := by
  rw [isDeterministic, Bool.not_eq_true', Array.any_eq_false']
  intro i hi
  obtain ⟨k, rfl⟩ := haccepts i hi
  simp [Op.isThreaded]

/-- A valid program that is generated needs threads, or it is a single `accept`. -/
theorem Valid.threaded_of_ofRegex (hvalid : p.Valid) (h : Program.ofRegex re = .ok p) :
    p.isDeterministic = false ∨ ∃ n, p = ⟨#[.accept n, .fail]⟩ := by
  refine (threaded_or_accepts_of_ofRegex h).resolve_right fun haccepts => ?_
  obtain ⟨last, hlast, hfalls⟩ := hvalid.last
  obtain ⟨n, rfl⟩ := haccepts last (Array.mem_of_back? hlast)
  rw [isDeterministic_of_accepts haccepts] at hfalls
  cases hfalls

end Program

end Munch

import Munch.Program.Direct
import Munch.Proofs.EmptyLoops

set_option autoImplicit false

/-! # Valid programs

Control does not leave a valid program: jumps lead to its instructions, the last instruction does
not pass control on, and a `branch` is followed by the `jump` that it can skip and by something to
skip to. A valid program that is deterministic cannot run for ever without consuming a byte either.
Programs that are read are valid (`Program.valid_of_read`), the reader accepts every valid program
(`Program.read_eq_ok_iff`), and the programs of pattern sets are valid (`Program.IsCodeOf.valid`).

If a valid deterministic program is run by following its one thread, the run ends at a `fail`, or at
a `branch` at the end of the input (`Program.Valid.returns_run`). For the run goes through the same
offsets as a search for loops, until it consumes a byte. -/

namespace Munch

/-- Steps that succeed for each member of a list give a list of their results. -/
theorem mapM_eq_ok {ε α β : Type} {f : α → Except ε β} {g : α → Option β} {xs : List α}
    (h : ∀ x ∈ xs, ∃ y, f x = .ok y ∧ g x = some y) : xs.mapM f = .ok (xs.filterMap g) := by
  induction xs with
  | nil => rfl
  | cons x xs ih =>
    obtain ⟨y, hf, hg⟩ := h x (List.mem_cons_self ..)
    rw [List.mapM_cons, hf, ih fun x hx => h x (List.mem_cons_of_mem _ hx),
      List.filterMap_cons_some hg]
    rfl

theorem mapM_eq_ok_map {ε α β : Type} {f : α → Except ε β} {g : α → β} {xs : List α}
    (h : ∀ x ∈ xs, f x = .ok (g x)) : xs.mapM f = .ok (xs.map g) := by
  rw [← List.filterMap_eq_map]
  exact mapM_eq_ok fun x hx => ⟨g x, h x hx, rfl⟩

namespace Program

/-- A program in which control cannot go wrong. -/
structure Valid (p : Program) : Prop where
  target_lt : ∀ {pc : Nat} {i : Inst}, p.insts[pc]? = some i → ∀ x ∈ i.targets, x < p.size
  last : ∃ i, p.insts.back? = some i ∧ i.fallsThrough p.isDeterministic = false
  branch : ∀ {pc : Nat} {r : ByteRange}, p.insts[pc]? = some (.branch r) →
    (∃ x, p.insts[pc + 1]? = some (.jump x)) ∧ pc + 2 < p.size
  emptyLoop_eq_none : p.isDeterministic = true → p.emptyLoop = none

variable {p : Program} {pc : Nat} {i : Inst}

theorem Valid.succ_lt (hp : p.Valid) (hi : p.insts[pc]? = some i)
    (h : i.fallsThrough p.isDeterministic = true) : pc + 1 < p.size := by
  obtain ⟨last, hlast, hfalls⟩ := hp.last
  exact succ_lt_of_fallsThrough hlast hfalls hi h

theorem Valid.size_pos (hp : p.Valid) : 0 < p.size := by
  obtain ⟨i, hi, _⟩ := hp.last
  rw [Array.back?_eq_getElem?] at hi
  have hlt : p.insts.size - 1 < p.insts.size := (Array.getElem?_eq_some_iff.mp hi).1
  exact Nat.zero_lt_of_lt hlt

theorem Valid.contained (hp : p.Valid) : p.Contained := by
  obtain ⟨last, hlast, hfalls⟩ := hp.last
  refine ⟨hp.size_pos, fun i hi => ?_, fun _ _ hi => hp.target_lt hi, fun _ _ hi => hp.branch hi⟩
  rwa [Option.some.inj (hi.symm.trans hlast)]

theorem Contained.valid (hp : p.Contained) (hloop : p.isDeterministic = true → p.emptyLoop = none) :
    p.Valid := by
  refine ⟨fun hi => hp.target_lt _ _ hi, ?_, fun hi => hp.branch _ _ hi, hloop⟩
  have hlt : p.insts.size - 1 < p.insts.size := Nat.sub_one_lt_of_lt hp.size_pos
  have hlast := Array.back?_eq_getElem?.trans (Array.getElem?_eq_getElem hlt)
  exact ⟨_, hlast, hp.last _ hlast⟩

theorem Valid.not_circles (hp : p.Valid) (hdet : p.isDeterministic = true) (pc : Nat) :
    ¬ p.Circles pc :=
  emptyLoop_eq_none_iff.mp (hp.emptyLoop_eq_none hdet) pc

/-- A program is valid if control does not leave it and does not go around in it without consuming a
    byte. -/
theorem valid_iff :
    p.Valid ↔ p.Contained ∧ (p.isDeterministic = true → ∀ pc, ¬ p.Circles pc) := by
  constructor
  · intro hp
    exact ⟨hp.contained, hp.not_circles⟩
  · rintro ⟨hp, hcircles⟩
    exact hp.valid fun hdet => emptyLoop_eq_none_iff.mpr (hcircles hdet)

end Program

/-! ## Runs of valid deterministic programs -/

/-- A run has come to where control ends, and did not go wrong before. -/
def Direct.Outcome.Returns (o : Outcome) : Prop := o.halt = .failed ∨ o.halt = .endOfInput

namespace Program

variable {p : Program}

/-- A run of a valid deterministic program returns, from where a search for loops finds none. -/
theorem Valid.returns_runFrom (hp : p.Valid) (hdet : p.isDeterministic = true)
    (tc : Nat) (rest : Bytes) (i : Nat) (path : List Nat) (pc : Nat)
    (best : Option (Nat × Nat)) (hpc : pc < p.size) (hloop : p.revisit path pc = none) :
    (Direct.runFrom p tc rest i path pc best).Returns := by
  have hnext : ∀ {path pc next}, pc < p.size → p.revisit path pc = none →
      p.emptyNext pc = some next → p.revisit (pc :: path) next = none :=
    fun hpc hloop hnext => revisit_emptyNext hloop hpc hnext
  fun_induction Direct.runFrom p tc rest i path pc best with
  | case1 rest i path pc best hmem => exact absurd hmem (not_mem_of_revisit_eq_none hloop)
  | case2 rest i path pc best _ _ id hinst ih =>
    exact ih (hp.succ_lt hinst hdet) (hnext hpc hloop (by rw [emptyNext, hinst]))
  | case3 i path pc best _ _ r hinst => exact .inr rfl
  -- A byte was consumed, and the search for loops starts again.
  | case4 i path pc best _ _ r hinst b rest _ ih =>
    have hlt := hp.succ_lt hinst rfl
    exact ih hlt (revisit_nil_of_emptyLoop (hp.emptyLoop_eq_none hdet) hlt)
  | case5 i path pc best _ _ r hinst b rest _ ih =>
    exact ih (hp.branch hinst).2 (hnext hpc hloop (by rw [emptyNext, hinst]))
  | case6 rest i path pc best _ _ x hinst ih =>
    exact ih (hp.target_lt hinst x (List.mem_singleton_self x))
      (hnext hpc hloop (by rw [emptyNext, hinst]))
  | case7 rest i path pc best => exact .inl rfl
  | case8 rest i path pc best _ _ haccept hbranch hjump hfail =>
    have hinst := Array.getElem?_eq_getElem hpc
    have hthreaded : p.insts[pc].isThreaded = true := by
      cases hcase : p.insts[pc] with
      | consume | split => rfl
      | accept id => exact absurd (hcase ▸ hinst) (haccept id)
      | branch r => exact absurd (hcase ▸ hinst) (hbranch r)
      | jump x => exact absurd (hcase ▸ hinst) (hjump x)
      | fail => exact absurd (hcase ▸ hinst) hfail
    rw [isDeterministic_eq_false hinst hthreaded] at hdet
    cases hdet
  | case9 rest i path pc best _ hge => exact absurd hpc hge

/-- A run of a valid deterministic program returns. -/
theorem Valid.returns_run (hp : p.Valid) (hdet : p.isDeterministic = true)
    (text : Bytes) (tc : Nat) : (Direct.run p text tc).Returns :=
  hp.returns_runFrom hdet tc _ tc [] 0 none hp.size_pos
    (revisit_nil_of_emptyLoop (hp.emptyLoop_eq_none hdet) hp.size_pos)

/-! ## Programs that are read -/

/-- What the reader checks of an instruction. -/
theorem of_checkInst {pc line : Nat} {i : Inst} (h : p.checkInst pc line i = .ok ()) :
    (∀ x ∈ i.targets, x < p.size) ∧
      ∀ r, i = .branch r → (∃ x, p.insts[pc + 1]? = some (.jump x)) ∧ pc + 2 < p.size := by
  unfold checkInst at h
  split at h
  · cases h
  · next htargets =>
    refine ⟨fun x hx => ?_, ?_⟩
    · simpa using List.find?_eq_none.mp htargets x hx
    · rintro r rfl
      simp only at h
      split at h
      · next x hjump =>
        split at h
        · cases h
        · next hlt => exact ⟨⟨x, hjump⟩, Nat.lt_of_not_le hlt⟩
      · cases h

theorem checkInst_of_checkInsts {read : List (Nat × Inst)} {base : Nat}
    (h : p.checkInsts base read = .ok ()) {k line : Nat} {i : Inst}
    (hk : read[k]? = some (line, i)) : p.checkInst (base + k) line i = .ok () := by
  induction read generalizing base k with
  | nil => simp at hk
  | cons e read ih =>
    obtain ⟨line', i'⟩ := e
    rw [checkInsts] at h
    cases hcheck : p.checkInst base line' i' with
    | error e => simp [hcheck, bind, Except.bind] at h
    | ok =>
      cases k with
      | zero =>
        obtain ⟨rfl, rfl⟩ : line' = line ∧ i' = i := by simpa using hk
        exact hcheck
      | succ k =>
        simp only [hcheck, bind, Except.bind] at h
        rw [Nat.add_comm k 1, ← Nat.add_assoc]
        exact ih h hk

/-- What the reader checks of a program. -/
theorem of_read {text : String} (h : Program.read text = .ok p) :
    ∃ read, readInsts text = .ok read ∧ p = ⟨(read.map (·.2)).toArray⟩ ∧
      (∃ e, read.getLast? = some e ∧ e.2.fallsThrough p.isDeterministic = false) ∧
      p.checkInsts 0 read = .ok () ∧ (p.isDeterministic = true → p.findLoop = none) := by
  unfold Program.read at h
  cases hread : readInsts text with
  | error e => simp [hread, bind, Except.bind] at h
  | ok read =>
    simp only [hread, bind, Except.bind] at h
    generalize hq : (⟨(read.map (·.2)).toArray⟩ : Program) = q at h
    cases hlast : read.getLast? with
    | none => simp [hlast, throw, throwThe, MonadExceptOf.throw] at h
    | some e =>
      simp only [hlast] at h
      by_cases hfalls : e.2.fallsThrough q.isDeterministic = true
      · simp [hfalls, throw, throwThe, MonadExceptOf.throw] at h
      · simp only [hfalls, Bool.false_eq_true, if_false] at h
        cases hchecks : q.checkInsts 0 read with
        | error e => simp [hchecks] at h
        | ok =>
          simp only [hchecks] at h
          have hloop : q = p ∧ (q.isDeterministic = true → q.findLoop = none) := by
            split at h
            · cases hloop : q.findLoop with
              | some pc => simp [hloop, throw, throwThe, MonadExceptOf.throw] at h
              | none =>
                simp only [hloop, pure, Except.pure] at h
                exact ⟨Except.ok.inj h, fun _ => rfl⟩
            · next hdet => exact ⟨Except.ok.inj h, fun hdet' => absurd hdet' hdet⟩
          obtain ⟨rfl, hloop⟩ := hloop
          exact ⟨read, rfl, hq.symm, ⟨e, hlast, by simpa using hfalls⟩, hchecks, hloop⟩

/-- Programs that are read are valid. -/
theorem valid_of_read {text : String} (h : Program.read text = .ok p) : p.Valid := by
  obtain ⟨read, _, hp, ⟨e, hlast, hfalls⟩, hchecks, hloop⟩ := of_read h
  have hcheck : ∀ {pc i}, p.insts[pc]? = some i → ∃ line, p.checkInst pc line i = .ok () := by
    intro pc i hi
    have hread : ∃ e, read[pc]? = some e ∧ e.2 = i := by
      rw [hp] at hi
      simpa using hi
    obtain ⟨⟨line, _⟩, hread, rfl⟩ := hread
    have := checkInst_of_checkInsts hchecks hread
    rw [Nat.zero_add] at this
    exact ⟨line, this⟩
  have hback : p.insts.back? = some e.2 := by
    rw [hp, List.back?_toArray, List.getLast?_map, hlast, Option.map_some]
  have hcontained : p.Contained := by
    refine ⟨Array.size_pos_of_mem (Array.mem_of_back? hback), fun i hi => ?_, fun pc i hi => ?_,
      fun pc r hi => ?_⟩
    · rwa [Option.some.inj (hi.symm.trans hback)]
    · obtain ⟨line, hline⟩ := hcheck hi
      exact (of_checkInst hline).1
    · obtain ⟨line, hline⟩ := hcheck hi
      exact (of_checkInst hline).2 r rfl
  exact hcontained.valid fun hdet => (hcontained.findLoop_eq hdet).symm.trans (hloop hdet)

theorem Valid.checkInst {pc line : Nat} {i : Inst} (hp : p.Valid) (hi : p.insts[pc]? = some i) :
    p.checkInst pc line i = .ok () := by
  have htargets : i.targets.find? (p.size ≤ ·) = none := by
    refine List.find?_eq_none.mpr fun x hx => ?_
    simpa using hp.target_lt hi x hx
  unfold Program.checkInst
  simp only [htargets]
  cases i with
  | branch r =>
    obtain ⟨⟨x, hjump⟩, hlt⟩ := hp.branch hi
    simp only [hjump, if_neg (Nat.not_le_of_lt hlt)]
  | consume | split | jump | accept | fail => rfl

theorem Valid.checkInsts {read : List (Nat × Inst)} {base : Nat} (hp : p.Valid)
    (hread : ∀ k e, read[k]? = some e → p.insts[base + k]? = some e.2) :
    p.checkInsts base read = .ok () := by
  induction read generalizing base with
  | nil => rfl
  | cons e read ih =>
    have hcheck : p.checkInst base e.1 e.2 = .ok () := hp.checkInst (hread 0 e rfl)
    rw [Program.checkInsts, hcheck]
    refine ih fun k e' hk => ?_
    rw [Nat.add_right_comm, Nat.add_assoc]
    exact hread (k + 1) e' hk

/-- A text is read as a program if its instructions are those of the program, and the program is
    valid. -/
theorem read_eq_ok_iff {text : String} : Program.read text = .ok p ↔
    p.Valid ∧ ∃ read, readInsts text = .ok read ∧ read.map (·.2) = p.insts.toList := by
  constructor
  · intro h
    obtain ⟨read, hread, hinsts, -⟩ := of_read h
    exact ⟨valid_of_read h, read, hread, by rw [hinsts]⟩
  · rintro ⟨hp, read, hread, hinsts⟩
    have hprogram : (⟨(read.map (·.2)).toArray⟩ : Program) = p := by
      rw [hinsts, Array.toArray_toList]
    obtain ⟨last, hlast, hfalls⟩ := hp.last
    rw [← hprogram, List.back?_toArray, List.getLast?_map, Option.map_eq_some_iff] at hlast
    obtain ⟨⟨line, last⟩, hlast, rfl⟩ := hlast
    have hchecks : p.checkInsts 0 read = .ok () := hp.checkInsts fun k e hk => by
      rw [Nat.zero_add, ← hprogram, List.getElem?_toArray, List.getElem?_map, hk, Option.map_some]
    unfold Program.read
    simp only [hread, bind, Except.bind, hprogram, hlast, hfalls, hchecks,
      Bool.false_eq_true, if_false]
    split
    · next hdet =>
      have hloop := (hp.contained.findLoop_eq hdet).trans (hp.emptyLoop_eq_none hdet)
      simp only [hloop, pure, Except.pure]
    · rfl

/-! ## Programs of pattern sets -/

/-- A program that finds the empty text only is valid. -/
theorem valid_accept_fail (n : Nat) : Valid ⟨#[.accept n, .fail]⟩ := by
  have hget : ∀ {pc : Nat} {i : Inst}, (#[.accept n, .fail] : Array Inst)[pc]? = some i →
      i = .accept n ∨ i = .fail := by
    intro pc i hi
    simpa using Array.mem_of_getElem? hi
  constructor
  · intro pc i hi x hx
    rcases hget hi with rfl | rfl
    · simp [Op.targets] at hx
    · simp [Op.targets] at hx
  · exact ⟨.fail, rfl, rfl⟩
  · intro pc r hi
    simpa using hget hi
  · intro _
    cbv

/-- Programs of pattern sets are valid. -/
theorem IsCodeOf.valid {re : Regex} {rs : List Regex} (h : p.IsCodeOf re rs) : p.Valid := by
  rcases h with ⟨hcode, hdet⟩ | ⟨_, rfl⟩
  · have hlt : ∀ {pc : Nat} {i : Inst}, p.insts[pc]? = some i → pc < p.size :=
      fun hi => (Array.getElem?_eq_some_iff.mp hi).1
    have hpos := hcode.base_lt_stop
    have hlast : p.size - 1 < p.size := by omega
    constructor
    · intro pc i hi x hx
      exact hcode.targets_lt (Nat.zero_le pc) (hlt hi) hi hx
    · rcases hcode.inst_cases (Nat.zero_le _) hlast with
        ⟨s, _, hge⟩ | ⟨x, y, hi⟩ | ⟨x, hi⟩ | ⟨k, hi⟩
      · omega
      · exact ⟨_, hi, rfl⟩
      · exact ⟨_, hi, rfl⟩
      · exact ⟨_, hi, hdet⟩
    · intro pc r hi
      have hcases := hcode.inst_cases (Nat.zero_le pc) (hlt hi)
      simp [hi] at hcases
    · intro hdet'
      rw [hdet] at hdet'
      cases hdet'
  · exact valid_accept_fail 0

theorem valid_of_isPatternSet {re : Regex} (hre : re.IsPatternSet)
    (hp : Program.ofRegex re = .ok p) : p.Valid := by
  obtain ⟨q, hq, hcode⟩ := exists_ofRegex_eq_ok hre
  obtain rfl : q = p := Except.ok.inj (hq.symm.trans hp)
  exact hcode.valid

end Program

end Munch

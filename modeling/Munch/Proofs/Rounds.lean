import Munch.Program.Simulation
import Munch.Proofs.Closure
import Munch.Proofs.Machine

set_option autoImplicit false

/-! # Rounds of a simulation

In a round, the threads before a byte are gone through, and those that a `branch` sends on at the
same byte join them. `Program.Pass` is what a thread can come to before the byte is consumed. A
round goes through exactly what its threads can pass to, in some order; it collects what is reached
after the byte, and records the least pattern that is accepted (`Simulation.runThreads_round`). -/

namespace Munch

namespace Program

variable {p : Program} {byte : Option UInt8} {a b c x : Nat}

/-- Before the next byte is consumed, control passes from one offset to another. -/
def PassStep (p : Program) (byte : Option UInt8) (a c : Nat) : Prop :=
  c ∈ p.emptySteps a ∨
    ∃ r b, p.insts[a]? = some (.branch r) ∧ byte = some b ∧ b ∉ r ∧ c = a + 2

/-- Before the next byte is consumed, a thread can come from one offset to another. -/
def Pass (p : Program) (byte : Option UInt8) : Nat → Nat → Prop :=
  Relation.ReflTransGen (p.PassStep byte)

/-- The instruction at an offset consumes a byte. -/
def Takes (p : Program) (b : UInt8) (a : Nat) : Prop :=
  ∃ r, (p.insts[a]? = some (.consume r) ∨ p.insts[a]? = some (.branch r)) ∧ b ∈ r

theorem Pass.refl (p : Program) (byte : Option UInt8) (a : Nat) : p.Pass byte a a :=
  Relation.ReflTransGen.refl

theorem Pass.trans (h : p.Pass byte a b) (h' : p.Pass byte b c) : p.Pass byte a c :=
  Relation.ReflTransGen.trans h h'

theorem pass_iff : p.Pass byte a c ↔ a = c ∨ ∃ b, p.PassStep byte a b ∧ p.Pass byte b c := by
  constructor
  · intro h
    rcases Relation.ReflTransGen.cases_head h with h | ⟨b, hab, hbc⟩
    · exact .inl h
    · exact .inr ⟨b, hab, hbc⟩
  · rintro (rfl | ⟨b, hab, hbc⟩)
    · exact .refl p byte a
    · exact .head hab hbc

/-- From where control passes to one offset only, a thread stays or goes on there. -/
theorem pass_iff_of_step (hstep : ∀ x, p.PassStep byte a x ↔ x = c) :
    p.Pass byte a x ↔ x = a ∨ p.Pass byte c x := by
  rw [pass_iff, eq_comm]
  simp only [hstep, exists_eq_left]

/-- From where control does not pass on, a thread comes to nothing else. -/
theorem pass_iff_of_stuck (hstep : ∀ x, ¬ p.PassStep byte a x) : p.Pass byte a x ↔ x = a := by
  rw [pass_iff, eq_comm]
  simp only [hstep, false_and, exists_false, or_false]

theorem Reach.pass (h : p.Reach a c) : p.Pass byte a c :=
  Relation.ReflTransGen.mono (fun _ _ hstep => Or.inl hstep) _ _ h

theorem getElem?_eq_none_of_size_le (h : p.size ≤ a) : p.insts[a]? = none :=
  Array.getElem?_eq_none h

theorem Takes.lt_size {d : Nat} {b : UInt8} (h : p.Takes b d) : d < p.size := by
  by_contra hge
  obtain ⟨r, hr, _⟩ := h
  rw [getElem?_eq_none_of_size_le (Nat.le_of_not_lt hge)] at hr
  simp at hr

/-- From past its end, a program passes to nothing. -/
theorem Pass.eq_of_size_le (h : p.Pass byte a c) (ha : p.size ≤ a) : c = a := by
  rcases pass_iff.mp h with rfl | ⟨b, hstep, _⟩
  · rfl
  · rcases hstep with hstep | ⟨r, _, hr, _⟩
    · rw [emptySteps_of_size_le ha] at hstep
      simp at hstep
    · rw [getElem?_eq_none_of_size_le ha] at hr
      simp at hr

end Program

namespace ThreadList

variable {p : Program} {l : ThreadList} {byte : Option UInt8}

/-- A list of threads of a program that holds with an offset all that the offset reaches. -/
structure Sound (p : Program) (l : ThreadList) : Prop where
  wellFormed : l.WellFormed
  capacity_eq : l.capacity = p.size
  closed : l.Closed p

theorem Sound.close (h : l.Sound p) (pc : Nat) : (l.close p pc).Sound p where
  wellFormed := wellFormed_close h.wellFormed pc
  capacity_eq := by rw [capacity_close, h.capacity_eq]
  closed := closed_close h.capacity_eq h.closed pc

theorem sound_clear (h : l.capacity = p.size) : l.clear.Sound p where
  wellFormed := wellFormed_clear l
  capacity_eq := h
  closed := closed_of_contains_eq_false (contains_clear l)

theorem Sound.mem_iff (h : l.Sound p) {x : Nat} : x ∈ l.toList ↔ l.contains x = true :=
  (contains_iff_mem h.wellFormed).symm

theorem Sound.contains_close (h : l.Sound p) (pc x : Nat) :
    (l.close p pc).contains x = true ↔ l.contains x = true ∨ (x < p.size ∧ p.Reach pc x) :=
  ThreadList.contains_close h.capacity_eq h.closed pc x

theorem Sound.lt_size (h : l.Sound p) {x : Nat} (hx : l.contains x = true) : x < p.size :=
  h.capacity_eq ▸ lt_capacity_of_contains hx

/-- A `branch` in the list that misses the next byte has sent its thread on. -/
def PassedAt (p : Program) (byte : Option UInt8) (l : ThreadList) (a : Nat) : Prop :=
  ∀ c, p.PassStep byte a c → c < p.size → l.contains c = true

/-- What was gone through already has sent its threads on. -/
def PassedUpTo (p : Program) (byte : Option UInt8) (l : ThreadList) (k : Nat) : Prop :=
  ∀ a ∈ l.toList.take k, l.PassedAt p byte a

/-- Once the whole list was gone through, it holds with an offset all that the offset passes to. -/
theorem PassedUpTo.contains_of_pass (h : l.Sound p) (hpassed : l.PassedUpTo p byte l.toList.length)
    {a x : Nat} (ha : l.contains a = true) (hpass : p.Pass byte a x) (hx : x < p.size) :
    l.contains x = true := by
  induction hpass using Relation.ReflTransGen.head_induction_on with
  | refl => exact ha
  | @head a c hac hcx ih =>
    by_cases hc : c < p.size
    · refine ih (hpassed a ?_ c hac hc)
      rw [List.take_length, h.mem_iff]
      exact ha
    · have := Program.Pass.eq_of_size_le hcx (Nat.le_of_not_lt hc)
      omega

end ThreadList

namespace Simulation

open Program ThreadList

variable {p : Program} {tc i : Nat} {byte : Option UInt8}

/-- What going through the threads from place `k` on comes to. -/
structure Round (p : Program) (tc i : Nat) (byte : Option UInt8) (threads : Threads)
    (best : Option (Nat × Nat)) (k : Nat) (out : Threads × Option (Nat × Nat)) : Prop where
  current : out.1.current.Sound p
  next : out.1.next.Sound p
  starts : threads.current.toList <+: out.1.current.toList
  mem_current : ∀ x, out.1.current.contains x = true ↔
    x < p.size ∧ ∃ a, threads.current.contains a = true ∧ p.Pass byte a x
  mem_next : ∀ x, out.1.next.contains x = true ↔ threads.next.contains x = true ∨
    ∃ a ∈ out.1.current.toList.drop k, ∃ b, byte = some b ∧ p.Takes b a ∧ x < p.size ∧
      p.Reach (a + 1) x
  best_eq : out.2 = (out.1.current.toList.drop k).foldl (recordAt p tc i) best

variable {current current' next next' : ThreadList} {best best' : Option (Nat × Nat)} {k pc : Nat}
  {out : Threads × Option (Nat × Nat)}

/-- Going through one more place of the list: the place adds to the current threads what it passes
    to, and to the next ones what it consumes the byte for. -/
theorem Round.of_next (hpc : current.toList[k]? = some pc)
    (hstarts : current.toList <+: current'.toList) (hcurrent : ∀ x, current'.contains x = true →
      x < p.size ∧ ∃ a, current.contains a = true ∧ p.Pass byte a x)
    (hmono : ∀ x, current.contains x = true → current'.contains x = true)
    (hnext : ∀ x, next'.contains x = true ↔ next.contains x = true ∨
      ∃ b, byte = some b ∧ p.Takes b pc ∧ x < p.size ∧ p.Reach (pc + 1) x)
    (hbest : best' = recordAt p tc i best pc)
    (h : Round p tc i byte ⟨current', next'⟩ best' (k + 1) out) :
    Round p tc i byte ⟨current, next⟩ best k out := by
  -- The place is still there in the end, since a list only grows.
  have hdrop : out.1.current.toList.drop k = pc :: out.1.current.toList.drop (k + 1) := by
    have hget : out.1.current.toList[k]? = some pc := by
      obtain ⟨rest, hrest⟩ := hstarts.trans h.starts
      rw [← hrest, List.getElem?_append_left (List.getElem?_eq_some_iff.mp hpc).1, hpc]
    obtain ⟨hk, rfl⟩ := List.getElem?_eq_some_iff.mp hget
    exact List.drop_eq_getElem_cons hk
  constructor
  · exact h.current
  · exact h.next
  · exact hstarts.trans h.starts
  · intro x
    rw [h.mem_current]
    refine and_congr_right fun _ => ?_
    constructor
    · intro ⟨c, hc, hcx⟩
      obtain ⟨_, a, ha, hac⟩ := hcurrent c hc
      exact ⟨a, ha, hac.trans hcx⟩
    · intro ⟨a, ha, hax⟩
      exact ⟨a, hmono a ha, hax⟩
  · intro x
    rw [h.mem_next, hnext, hdrop, or_assoc]
    simp only [List.mem_cons, exists_eq_or_imp]
  · rw [h.best_eq, hdrop, hbest, List.foldl_cons]

theorem get?_eq_some_iff {l : ThreadList} : l.get? k = some pc ↔ l.toList[k]? = some pc := by
  rw [get?_eq_getElem?]

theorem passedUpTo_succ (hpc : current.toList[k]? = some pc) (hpassed : current.PassedUpTo p byte k)
    (h : current.PassedAt p byte pc) : current.PassedUpTo p byte (k + 1) := by
  intro a ha
  rw [List.take_add_one, hpc, List.mem_append] at ha
  rcases ha with ha | ha
  · exact hpassed a ha
  · obtain rfl : a = pc := by simpa using ha
    exact h

theorem passedUpTo_of_starts (hstarts : current.toList <+: current'.toList)
    (hmono : ∀ x, current.contains x = true → current'.contains x = true)
    (hk : k ≤ current.toList.length) (hpassed : current.PassedUpTo p byte k) :
    current'.PassedUpTo p byte k := by
  obtain ⟨rest, hrest⟩ := hstarts
  intro a ha c hac hc
  rw [← hrest, List.take_append_of_le_length hk] at ha
  exact hmono c (hpassed a ha c hac hc)

/-- An offset that is no `branch` has sent its threads on, since the list is closed. -/
theorem passedAt_of_sound (h : current.Sound p) (hpc : current.toList[k]? = some pc)
    (hbranch : ∀ r b, p.insts[pc]? = some (.branch r) → byte = some b → b ∈ r) :
    current.PassedAt p byte pc := by
  intro c hc hlt
  rcases hc with hc | ⟨r, b, hr, hb, hmiss, _⟩
  · have hmem : current.contains pc = true := h.mem_iff.mp (List.mem_of_getElem? hpc)
    simpa using h.closed pc hmem c hc (h.capacity_eq ▸ hlt)
  · exact absurd (hbranch r b hr hb) hmiss

/-- At the end of the list nothing is left to go through. -/
theorem Round.of_end (hk : current.toList.length ≤ k) (hcur : current.Sound p)
    (hnext : next.Sound p) (hpassed : current.PassedUpTo p byte k) :
    Round p tc i byte ⟨current, next⟩ best k (⟨current, next⟩, best) := by
  have hdrop : current.toList.drop k = [] := List.drop_eq_nil_of_le hk
  have hall : current.PassedUpTo p byte current.toList.length := by
    intro a ha
    refine hpassed a ?_
    rw [List.take_length] at ha
    rwa [List.take_of_length_le hk]
  refine ⟨hcur, hnext, List.prefix_rfl, fun x => ?_, fun x => by simp [hdrop], by simp [hdrop]⟩
  constructor
  · exact fun hx => ⟨hcur.lt_size hx, x, hx, .refl p byte x⟩
  · intro ⟨hlt, a, ha, hax⟩
    exact hall.contains_of_pass hcur ha hax hlt

/-- An offset that sends no thread on at the same byte adds nothing to the list that is gone
    through. -/
theorem Round.of_stay (hcur : current.Sound p) (hpc : current.toList[k]? = some pc)
    (hnext : ∀ x, next'.contains x = true ↔ next.contains x = true ∨
      ∃ b, byte = some b ∧ p.Takes b pc ∧ x < p.size ∧ p.Reach (pc + 1) x)
    (hbest : best' = recordAt p tc i best pc)
    (h : Round p tc i byte ⟨current, next'⟩ best' (k + 1) out) :
    Round p tc i byte ⟨current, next⟩ best k out :=
  .of_next hpc List.prefix_rfl (fun x hx => ⟨hcur.lt_size hx, x, hx, .refl p byte x⟩)
    (fun _ hx => hx) hnext hbest h

theorem contains_next_of_takes {b : UInt8} (hnext : next.Sound p) (hb : byte = some b)
    (htakes : p.Takes b pc) (x : Nat) : (next.close p (pc + 1)).contains x = true ↔
      next.contains x = true ∨ ∃ b, byte = some b ∧ p.Takes b pc ∧ x < p.size ∧
      p.Reach (pc + 1) x := by
  rw [hnext.contains_close]
  refine or_congr_right ⟨fun hx => ⟨b, hb, htakes, hx⟩, ?_⟩
  intro ⟨_, _, _, hx⟩
  exact hx

theorem contains_next_of_not_takes (hno : ∀ b, byte = some b → ¬ p.Takes b pc) (x : Nat) :
    next.contains x = true ↔ next.contains x = true ∨
      ∃ b, byte = some b ∧ p.Takes b pc ∧ x < p.size ∧ p.Reach (pc + 1) x := by
  refine ⟨.inl, fun h => h.elim id ?_⟩
  intro ⟨b, hb, htakes, _⟩
  exact absurd htakes (hno b hb)

theorem recordAt_of_pattern?_eq_none {a : Nat} (ha : p.pattern? a = none)
    (best : Option (Nat × Nat)) : recordAt p tc i best a = best := by
  rw [recordAt, ha]

/-- A `branch` that misses the byte sends its thread on at the same byte. -/
theorem Round.of_miss {r : ByteRange} {b : UInt8} (hcur : current.Sound p)
    (hpc : current.toList[k]? = some pc) (hi : p.insts[pc]? = some (.branch r)) (hb : byte = some b)
    (hmiss : b ∉ r) (hpassed : current.PassedUpTo p byte k)
    (h : (current.close p (pc + 2)).Sound p → (current.close p (pc + 2)).PassedUpTo p byte (k + 1) →
      Round p tc i byte ⟨current.close p (pc + 2), next⟩ best (k + 1) out) :
    Round p tc i byte ⟨current, next⟩ best k out := by
  have hcontains := fun x => hcur.contains_close (pc + 2) x
  have hmono : ∀ x, current.contains x = true → (current.close p (pc + 2)).contains x = true :=
    fun x hx => (hcontains x).mpr (.inl hx)
  have hstarts : current.toList <+: (current.close p (pc + 2)).toList :=
    toList_prefix_closeAll p current [pc + 2]
  have hlt : k < current.toList.length := (List.getElem?_eq_some_iff.mp hpc).1
  -- The list only grows at its end, so the places that were passed stay where they are.
  have hpc' : (current.close p (pc + 2)).toList[k]? = some pc := by
    obtain ⟨rest, hrest⟩ := hstarts
    rw [← hrest, List.getElem?_append_left hlt, hpc]
  have hpassedAt : (current.close p (pc + 2)).PassedAt p byte pc := by
    intro c hc hclt
    rcases hc with hc | ⟨_, _, _, _, _, rfl⟩
    · simp [emptySteps, hi] at hc
    · exact (hcontains _).mpr (.inr ⟨hclt, .refl p _⟩)
  have hno : ∀ b', byte = some b' → ¬ p.Takes b' pc := by
    rintro b' hb' ⟨r', hr', hhit⟩
    obtain rfl : b = b' := by simpa [hb] using hb'
    obtain rfl : r = r' := by simpa [hi] using hr'
    exact hmiss hhit
  have hrecord : best = recordAt p tc i best pc :=
    (recordAt_of_pattern?_eq_none (by simp [pattern?, hi]) best).symm
  refine .of_next hpc hstarts (fun x hx => ?_) hmono (contains_next_of_not_takes hno) hrecord
    (h (hcur.close _) (passedUpTo_succ hpc'
      (passedUpTo_of_starts hstarts hmono (Nat.le_of_lt hlt) hpassed) hpassedAt))
  -- What the closure adds is passed to from the `branch` itself.
  rcases (hcontains x).mp hx with hx | ⟨hxlt, hreach⟩
  · exact ⟨hcur.lt_size hx, x, hx, .refl p _ x⟩
  · refine ⟨hxlt, pc, hcur.mem_iff.mp (List.mem_of_getElem? hpc), ?_⟩
    exact pass_iff.mpr (.inr ⟨pc + 2, .inr ⟨r, b, hi, hb, hmiss, rfl⟩, hreach.pass⟩)

/-- Going through a list of threads comes to a round. -/
theorem runThreads_round (threads : Threads) (best : Option (Nat × Nat)) (k : Nat)
    (hcur : threads.current.Sound p) (hnext : threads.next.Sound p)
    (hpassed : threads.current.PassedUpTo p byte k) :
    Round p tc i byte threads best k (runThreads p tc i byte threads best k) := by
  -- Only a `branch` that does not take the byte adds to the list that is gone through (`of_miss`).
  -- Every other thread leaves that list as it is (`of_stay`).
  fun_induction runThreads p tc i byte threads best k with
  | case1 threads best k hget =>
    rw [get?_eq_getElem?, List.getElem?_eq_none_iff] at hget
    exact .of_end hget hcur hnext hpassed
  | case2 threads best k pc hget id hi ih =>
    have hpc := get?_eq_some_iff.mp hget
    have hno : ∀ b, byte = some b → ¬ p.Takes b pc := fun b _ ⟨r, hr, _⟩ => by simp [hi] at hr
    refine .of_stay hcur hpc (contains_next_of_not_takes hno) ?_
      (ih hcur hnext (passedUpTo_succ hpc hpassed (passedAt_of_sound hcur hpc (by simp [hi]))))
    simp [recordAt, pattern?, hi]
  | case3 threads best k pc hget r hi hhit ih =>
    have hpc := get?_eq_some_iff.mp hget
    obtain ⟨b, hb, hbr⟩ : ∃ b, byte = some b ∧ b ∈ r := by simpa [Option.any_eq_true] using hhit
    refine .of_stay hcur hpc (contains_next_of_takes hnext hb ⟨r, .inl hi, hbr⟩) ?_
      (ih hcur (hnext.close _)
        (passedUpTo_succ hpc hpassed (passedAt_of_sound hcur hpc (by simp [hi]))))
    simp [recordAt, pattern?, hi]
  | case4 threads best k pc hget r hi hmiss ih =>
    have hpc := get?_eq_some_iff.mp hget
    have hno : ∀ b, byte = some b → ¬ p.Takes b pc := by
      intro b hb ⟨r', hr', hbr⟩
      obtain rfl : r = r' := by simpa [hi] using hr'
      simp [hb, hbr] at hmiss
    refine .of_stay hcur hpc (contains_next_of_not_takes hno) ?_
      (ih hcur hnext (passedUpTo_succ hpc hpassed (passedAt_of_sound hcur hpc (by simp [hi]))))
    simp [recordAt, pattern?, hi]
  | case5 threads best k pc hget r hi hb ih =>
    have hpc := get?_eq_some_iff.mp hget
    subst hb
    refine .of_stay hcur hpc (contains_next_of_not_takes (by simp)) ?_
      (ih hcur hnext (passedUpTo_succ hpc hpassed (passedAt_of_sound hcur hpc (by simp))))
    simp [recordAt, pattern?, hi]
  | case6 threads best k pc hget r hi b hb hhit ih =>
    have hpc := get?_eq_some_iff.mp hget
    have hbr : b ∈ r := ByteRange.contains_iff.mp hhit
    subst hb
    refine .of_stay hcur hpc (contains_next_of_takes hnext rfl ⟨r, .inr hi, hbr⟩) ?_
      (ih hcur (hnext.close _)
        (passedUpTo_succ hpc hpassed (passedAt_of_sound hcur hpc (by simpa [hi] using hbr))))
    simp [recordAt, pattern?, hi]
  | case7 threads best k pc hget r hi b hb hmiss ih =>
    have hbr : b ∉ r := fun h => hmiss (ByteRange.contains_iff.mpr h)
    subst hb
    exact .of_miss hcur (get?_eq_some_iff.mp hget) hi rfl hbr hpassed fun hclose => ih hclose hnext
  | case8 threads best k pc hget haccept hconsume hbranch ih =>
    have hpc := get?_eq_some_iff.mp hget
    have hno : ∀ b, byte = some b → ¬ p.Takes b pc :=
      fun b _ ⟨r, hr, _⟩ => hr.elim (hconsume r) (hbranch r)
    have hnone : p.pattern? pc = none := by
      unfold pattern?
      split
      · next id hid => exact absurd hid (haccept id)
      · rfl
    exact .of_stay hcur hpc (contains_next_of_not_takes hno)
      (recordAt_of_pattern?_eq_none hnone best).symm
      (ih hcur hnext (passedUpTo_succ hpc hpassed
        (passedAt_of_sound hcur hpc fun r b hr => absurd hr (hbranch r))))

/-! ## What a round records -/

theorem recordAt_of_le (h : i ≤ tc) (best : Option (Nat × Nat)) (a : Nat) :
    recordAt p tc i best a = best := by
  unfold recordAt better
  split <;> simp [h]

/-- Nothing is recorded at the start of a run. -/
theorem foldl_recordAt_of_le (h : i ≤ tc) (best : Option (Nat × Nat)) (l : List Nat) :
    l.foldl (recordAt p tc i) best = best := by
  induction l with
  | nil => rfl
  | cons a l ih => rw [List.foldl_cons, recordAt_of_le h, ih]

/-- Of the patterns accepted at the same offset, the least is recorded. -/
theorem foldl_recordAt_some (h : tc < i) (l : List Nat) (id : Nat) :
    l.foldl (recordAt p tc i) (some (id, i)) = some ((l.filterMap p.pattern?).foldl min id, i) := by
  induction l generalizing id with
  | nil => rfl
  | cons a l ih =>
    rw [List.foldl_cons]
    cases ha : p.pattern? a with
    | none => rw [recordAt_of_pattern?_eq_none ha, ih, List.filterMap_cons_none ha]
    | some k =>
      have hbetter : better tc i k (some (id, i)) = some (min id k, i) := by
        unfold better
        rw [if_neg (Nat.not_le_of_lt h)]
        by_cases hk : k < id
        · simp [hk, Nat.min_eq_right (Nat.le_of_lt hk)]
        · simp [hk, Nat.min_eq_left (Nat.le_of_not_lt hk)]
      have hrecord : recordAt p tc i (some (id, i)) a = some (min id k, i) := by
        rw [recordAt, ha, ← hbetter]
      rw [hrecord, ih, List.filterMap_cons_some ha, List.foldl_cons]

/-- Past the start of a run, the least pattern accepted takes the place of what was recorded
    before. -/
theorem foldl_recordAt_of_lt (h : tc < i) (l : List Nat) {best : Option (Nat × Nat)}
    (hbest : ∀ m ∈ best, m.2 < i) :
    l.foldl (recordAt p tc i) best = Machine.record i best (l.filterMap p.pattern?).min? := by
  induction l with
  | nil => rfl
  | cons a l ih =>
    rw [List.foldl_cons]
    cases ha : p.pattern? a with
    | none => rw [recordAt_of_pattern?_eq_none ha, ih, List.filterMap_cons_none ha]
    | some k =>
      have hbetter : better tc i k best = some (k, i) := by
        unfold better
        rw [if_neg (Nat.not_le_of_lt h)]
        cases best with
        | none => rfl
        | some m => simp [hbest m rfl]
      have hrecord : recordAt p tc i best a = some (k, i) := by
        rw [recordAt, ha, ← hbetter]
      rw [hrecord, foldl_recordAt_some h, List.filterMap_cons_some ha, List.min?_cons']
      rfl

/-- A round records the least of the patterns that its threads accept. -/
theorem Round.best_eq_recordPast {threads : Threads} (h : Round p tc i byte threads best 0 out)
    (hbest : ∀ m ∈ best, m.2 < i) :
    out.2 = Machine.recordPast tc i best (out.1.current.toList.filterMap p.pattern?).min? := by
  rw [h.best_eq, List.drop_zero, Machine.recordPast]
  split
  · next hi => exact foldl_recordAt_of_lt hi _ hbest
  · next hi => exact foldl_recordAt_of_le (Nat.le_of_not_lt hi) best _

end Simulation

end Munch

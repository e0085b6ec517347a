import Mathlib.Data.List.Permutation
import Munch.Proofs.BlockThreads
import Munch.Proofs.Resumption

set_option autoImplicit false

/-! # One thread against many

A deterministic program can be run by following its one thread, and it can be run with threads like
any other program. Both runs come to the same offsets of the program before the same bytes of the
text (`Program.ComesTo`), so both find a match that ends at the last place at which a pattern is
accepted, and fail at the last place that the thread comes to. But a program that is read may accept
several patterns at the same place. Of these, the run with threads keeps the least, and the run with
one thread the one that the thread comes to last. So a scan returns the same with both but for that
pattern (`Scanner.step_runner_simulator`), and with a program that accepts one pattern at a place at
most it returns the same. -/

namespace Munch

namespace Program

variable {p : Program} {byte : Option UInt8} {b : UInt8} {a c d x pc : Nat} {last? : Option Nat}

/-! ## Steps of one thread -/

/-- A thread that consumes a byte does not go on before it does. -/
theorem Takes.not_passStep (h : p.Takes b a) : ¬ p.PassStep (some b) a x := by
  obtain ⟨r, hr | hr, hb⟩ := h
  · simp [PassStep, emptySteps, hr]
  · simp [PassStep, emptySteps, hr, hb]

theorem Valid.succ_lt_of_takes (hp : p.Valid) (h : p.Takes b a) : a + 1 < p.size := by
  obtain ⟨r, hr | hr, _⟩ := h
  · exact hp.succ_lt hr rfl
  · exact hp.succ_lt hr rfl

/-- In a deterministic program, control passes to one offset at most. -/
theorem rightUnique_passStep (hdet : p.isDeterministic = true) :
    Relator.RightUnique (p.PassStep byte) := by
  intro a c d hc hd
  cases hi : p.insts[a]? with
  | none => simp [PassStep, emptySteps, hi] at hc
  | some inst =>
    cases inst with
    | accept id =>
      rw [((passesTo_accept hdet hi).1 byte c).mp hc, ((passesTo_accept hdet hi).1 byte d).mp hd]
    | jump y => rw [((passesTo_jump hi).1 byte c).mp hc, ((passesTo_jump hi).1 byte d).mp hd]
    | branch r =>
      obtain ⟨_, _, _, rfl⟩ := (passStep_branch hi).mp hc
      obtain ⟨_, _, _, rfl⟩ := (passStep_branch hi).mp hd
      rfl
    | split y z =>
      rw [isDeterministic_eq_false hi rfl] at hdet
      cases hdet
    | consume | fail => simp [PassStep, emptySteps, hi] at hc

/-- The one thread consumes a byte at one offset. -/
theorem Takes.eq_of_pass (hdet : p.isDeterministic = true) (hc : p.Pass (some b) a c)
    (htakes : p.Takes b c) (hd : p.Pass (some b) a d) (htakes' : p.Takes b d) : d = c := by
  have hstuck : ∀ {x y}, p.Takes b x → p.Pass (some b) x y → y = x := fun h hxy =>
    (pass_iff_of_stuck fun _ => h.not_passStep).mp hxy
  rcases Relation.ReflTransGen.total_of_right_unique (rightUnique_passStep hdet) hc hd with h | h
  · exact hstuck htakes h
  · exact (hstuck htakes' h).symm

/-- The pattern that the thread at an offset accepts last before the next byte is consumed, if it
    accepts any. -/
def LastFrom (p : Program) (byte : Option UInt8) (a : Nat) : Option Nat → Prop
  | none => ∀ x, p.Pass byte a x → p.pattern? x = none
  | some id => ∃ x, p.Pass byte a x ∧ p.pattern? x = some id ∧
      ∀ y, p.Pass byte a y → p.pattern? y ≠ none → p.Pass byte y x

theorem LastFrom.of_step (hstep : ∀ x, p.PassStep byte a x ↔ x = c) (h : p.LastFrom byte c last?) :
    p.LastFrom byte a (last?.or (p.pattern? a)) := by
  have hpass := fun x => pass_iff_of_step (x := x) hstep
  cases last? with
  | some id =>
    obtain ⟨x, hx, hid, hlast⟩ := h
    have hax := (hpass x).mpr (.inr hx)
    refine ⟨x, hax, hid, fun y hy hne => ?_⟩
    rcases (hpass y).mp hy with rfl | hy
    · exact hax
    · exact hlast y hy hne
  | none =>
    rw [Option.none_or]
    cases ha : p.pattern? a with
    | none =>
      intro x hx
      rcases (hpass x).mp hx with rfl | hx
      · exact ha
      · exact h x hx
    | some id =>
      refine ⟨a, .refl p byte a, ha, fun y hy hne => ?_⟩
      rcases (hpass y).mp hy with rfl | hy
      · exact .refl p byte y
      · exact absurd (h y hy) hne

theorem lastFrom_of_stuck (hstep : ∀ x, ¬ p.PassStep byte a x) :
    p.LastFrom byte a (p.pattern? a) := by
  have hpass := fun x => pass_iff_of_stuck (x := x) hstep
  cases ha : p.pattern? a with
  | none =>
    intro x hx
    rw [(hpass x).mp hx, ha]
  | some id =>
    refine ⟨a, .refl p byte a, ha, fun y hy _ => ?_⟩
    rw [(hpass y).mp hy]
    exact .refl p byte a

end Program

/-! ## From one byte to the next -/

namespace Direct

open Program

variable {p : Program} {tc i pc c : Nat} {rest : Bytes} {path : List Nat}
  {best : Option (Nat × Nat)} {o : Outcome}

/-- What a run comes to from an offset: either the thread consumes the next byte, or the run ends.
    It records what the thread accepts last before that. -/
inductive Stretch (p : Program) (tc i : Nat) (rest : Bytes) (pc : Nat) (best : Option (Nat × Nat)) :
    Outcome → Prop
  | takes {b : UInt8} {rest' : Bytes} {d : Nat} {last? : Option Nat} (hrest : rest = b :: rest')
      (hlast : p.LastFrom rest.head? pc last?) (hpass : p.Pass (some b) pc d)
      (htakes : p.Takes b d) : Stretch p tc i rest pc best
        (runFrom p tc rest' (i + 1) [] (d + 1) (Machine.recordPast tc i best last?))
  | ends {o : Outcome} {last? : Option Nat} (hlast : p.LastFrom rest.head? pc last?)
      (hno : ∀ b d, rest.head? = some b → p.Pass (some b) pc d → ¬ p.Takes b d)
      (hfinding : o.finding = ⟨Machine.recordPast tc i best last?, i⟩) :
      Stretch p tc i rest pc best o

theorem Stretch.of_step (hstep : ∀ x, p.PassStep rest.head? pc x ↔ x = c)
    (h : Stretch p tc i rest c (Machine.recordPast tc i best (p.pattern? pc)) o) :
    Stretch p tc i rest pc best o := by
  cases h with
  | @takes b rest' d last? hrest hlast hpass htakes =>
    subst hrest
    rw [Machine.recordPast_recordPast]
    exact .takes rfl (hlast.of_step hstep) ((pass_iff_of_step hstep).mpr (.inr hpass)) htakes
  | @ends _ last? hlast hno hfinding =>
    rw [Machine.recordPast_recordPast] at hfinding
    refine .ends (hlast.of_step hstep) (fun b d hb hpass htakes => ?_) hfinding
    rw [hb] at hstep
    rcases (pass_iff_of_step hstep).mp hpass with rfl | hpass
    · exact htakes.not_passStep ((hstep c).mpr rfl)
    · exact hno b d hb hpass htakes

theorem Stretch.of_silent_step (hstep : ∀ x, p.PassStep rest.head? pc x ↔ x = c)
    (hpattern : p.pattern? pc = none) (h : Stretch p tc i rest c best o) :
    Stretch p tc i rest pc best o := by
  refine .of_step hstep ?_
  rwa [hpattern, Machine.recordPast_none]

/-- At an offset from which control does not pass on before the next byte, a run ends. -/
theorem Stretch.of_stuck (hstep : ∀ x, ¬ p.PassStep rest.head? pc x)
    (hno : ∀ b, rest.head? = some b → ¬ p.Takes b pc) (hpattern : p.pattern? pc = none)
    (hfinding : o.finding = ⟨best, i⟩) : Stretch p tc i rest pc best o := by
  refine .ends (lastFrom_of_stuck hstep) (fun b d hb hpass => ?_) ?_
  · rw [hb] at hstep
    rw [(pass_iff_of_stuck hstep).mp hpass]
    exact hno b hb
  · rw [hpattern, Machine.recordPast_none, hfinding]

/-- A run of a deterministic program that returns goes on byte by byte. -/
theorem stretch_runFrom (hdet : p.isDeterministic = true) (tc : Nat) (rest : Bytes)
    (i : Nat) (path : List Nat) (pc : Nat) (best : Option (Nat × Nat))
    (h : (runFrom p tc rest i path pc best).Returns) :
    Stretch p tc i rest pc best (runFrom p tc rest i path pc best) := by
  fun_induction runFrom p tc rest i path pc best with
  | case1 | case8 | case9 => simp [Outcome.Returns] at h
  | case2 rest i path pc best _ _ id hinst ih =>
    refine .of_step ((passesTo_accept hdet hinst).1 rest.head?) ?_
    have hpattern : p.pattern? pc = some id := by rw [pattern?, hinst]
    rw [hpattern]
    exact ih h
  | case3 i path pc best _ _ r hinst =>
    refine .of_stuck (fun x hx => ?_) (by simp) (by rw [pattern?, hinst]) rfl
    obtain ⟨b, hb, _⟩ := (passStep_branch hinst).mp hx
    cases hb
  -- The byte is consumed, and the stretch is over.
  | case4 i path pc best _ _ r hinst b rest hb ih =>
    have htakes : p.Takes b pc := ⟨r, .inr hinst, ByteRange.contains_iff.mp hb⟩
    have hlast : p.LastFrom (some b) pc (p.pattern? pc) :=
      lastFrom_of_stuck fun x => htakes.not_passStep
    have hpattern : p.pattern? pc = none := by rw [pattern?, hinst]
    rw [hpattern] at hlast
    have hstretch : Stretch p tc i (b :: rest) pc best
        (runFrom p tc rest (i + 1) [] (pc + 1) (Machine.recordPast tc i best none)) :=
      .takes rfl hlast (.refl p _ pc) htakes
    rwa [Machine.recordPast_none] at hstretch
  | case5 i path pc best _ _ r hinst b rest hb ih =>
    have hmiss : b ∉ r := fun hmem => hb (ByteRange.contains_iff.mpr hmem)
    refine .of_silent_step (c := pc + 2) (fun x => ?_) (by rw [pattern?, hinst]) (ih h)
    simp [passStep_branch hinst, hmiss]
  | case6 rest i path pc best _ _ x hinst ih =>
    exact .of_silent_step ((passesTo_jump hinst).1 rest.head?) (by rw [pattern?, hinst]) (ih h)
  | case7 rest i path pc best _ _ hinst =>
    exact .of_stuck (fun x => by simp [PassStep, emptySteps, hinst]) (fun b _ => by
      simp [Takes, hinst])
      (by rw [pattern?, hinst]) rfl

end Direct

/-! ## What both runs come to -/

namespace Program

/-- The thread of a program that starts at a cursor of a text comes to an offset of the program
    before the byte at a place of the text. -/
inductive ComesTo (p : Program) (text : Bytes) (tc : Nat) : Nat → Nat → Prop
  | start : ComesTo p text tc tc 0
  | pass {i a c : Nat} (h : ComesTo p text tc i a) (hstep : p.PassStep text[i]? a c) :
    ComesTo p text tc i c
  | take {i a : Nat} {b : UInt8} (h : ComesTo p text tc i a) (hb : text[i]? = some b)
      (htakes : p.Takes b a) : ComesTo p text tc (i + 1) (a + 1)

/-- The thread accepts a pattern before the byte at a place. -/
def AcceptsAt (p : Program) (text : Bytes) (tc i id : Nat) : Prop :=
  ∃ a, p.ComesTo text tc i a ∧ p.pattern? a = some id

/-- The thread accepts a pattern before the byte at a place, and no other one there after it. -/
def AcceptsLastAt (p : Program) (text : Bytes) (tc i id : Nat) : Prop :=
  ∃ a, p.ComesTo text tc i a ∧ p.pattern? a = some id ∧
    ∀ c, p.ComesTo text tc i c → p.pattern? c ≠ none → p.Pass text[i]? c a

variable {p : Program} {text : Bytes} {tc i a c d x : Nat} {b : UInt8}

theorem AcceptsLastAt.acceptsAt {id : Nat} (h : p.AcceptsLastAt text tc i id) :
    p.AcceptsAt text tc i id := by
  obtain ⟨a, ha, hid, _⟩ := h
  exact ⟨a, ha, hid⟩

theorem ComesTo.le (h : p.ComesTo text tc i a) : tc ≤ i := by
  induction h with
  | start => exact Nat.le_refl tc
  | pass _ _ ih => exact ih
  | take _ _ _ ih => exact Nat.le_succ_of_le ih

theorem ComesTo.le_length (htc : tc ≤ text.length) (h : p.ComesTo text tc i a) :
    i ≤ text.length := by
  induction h with
  | start => exact htc
  | pass _ _ ih => exact ih
  | take _ hb _ _ => exact (List.getElem?_eq_some_iff.mp hb).1

/-- The thread comes no further than to a place at which it does not consume the byte. -/
theorem ComesTo.le_of_not_takes (htc : tc ≤ i)
    (hno : ∀ a b, p.ComesTo text tc i a → text[i]? = some b → ¬ p.Takes b a) {j : Nat}
    (h : p.ComesTo text tc j c) : j ≤ i := by
  induction h with
  | start => exact htc
  | pass _ _ ih => exact ih
  | take h hb htakes ih =>
    rcases Nat.lt_or_eq_of_le ih with hlt | rfl
    · exact hlt
    · exact absurd htakes (hno _ _ h hb)

theorem ComesTo.of_pass (h : p.ComesTo text tc i a) (hpass : p.Pass text[i]? a c) :
    p.ComesTo text tc i c := by
  induction hpass with
  | refl => exact h
  | tail _ hstep ih => exact ih.pass hstep

/-- The thread comes to an offset at the start, or after a byte that it consumed. -/
theorem ComesTo.pass_of_start_or_take (h : p.ComesTo text tc i x) : (i = tc ∧ p.Pass text[i]? 0 x) ∨
    ∃ j b d, i = j + 1 ∧ p.ComesTo text tc j d ∧ text[j]? = some b ∧ p.Takes b d ∧
    p.Pass text[i]? (d + 1) x := by
  induction h with
  | start => exact .inl ⟨rfl, .refl p _ 0⟩
  | pass _ hstep ih =>
    rcases ih with ⟨heq, hpass⟩ | ⟨j, b, d, heq, hd, hb, htakes, hpass⟩
    · exact .inl ⟨heq, hpass.tail hstep⟩
    · exact .inr ⟨j, b, d, heq, hd, hb, htakes, hpass.tail hstep⟩
  | take h hb htakes _ => exact .inr ⟨_, _, _, rfl, h, hb, htakes, .refl p _ _⟩

theorem comesTo_start_iff : p.ComesTo text tc tc x ↔ p.Pass text[tc]? 0 x := by
  refine ⟨fun h => ?_, ComesTo.start.of_pass⟩
  rcases h.pass_of_start_or_take with ⟨_, hpass⟩ | ⟨j, _, _, heq, hd, _⟩
  · exact hpass
  · have := hd.le
    omega

/-- After a byte, the one thread comes to what it passes to from where it consumed the byte. -/
theorem comesTo_succ_iff (hdet : p.isDeterministic = true) (hb : text[i]? = some b)
    (hcomes : ∀ x, p.ComesTo text tc i x ↔ p.Pass (some b) a x) (hpass : p.Pass (some b) a d)
    (htakes : p.Takes b d) : p.ComesTo text tc (i + 1) x ↔ p.Pass text[i + 1]? (d + 1) x := by
  have hd := (hcomes d).mpr hpass
  refine ⟨fun h => ?_, (hd.take hb htakes).of_pass⟩
  rcases h.pass_of_start_or_take with ⟨heq, _⟩ | ⟨j, b', d', heq, hd', hb', htakes', hpass'⟩
  · have := hd.le
    omega
  · obtain rfl := Nat.succ.inj heq
    obtain rfl := Option.some.inj (hb.symm.trans hb')
    rwa [Takes.eq_of_pass hdet hpass htakes ((hcomes d').mp hd') htakes'] at hpass'

/-- Two matches that end at the same place past the start: of the patterns accepted there, the one
    has the last and the other the least. -/
structure LastAndLeast (p : Program) (text : Bytes) (tc : Nat) (m m' : Nat × Nat) : Prop where
  stop_eq : m.2 = m'.2
  start_lt : tc < m.2
  last : p.AcceptsLastAt text tc m.2 m.1
  least : IsLeast {id | p.AcceptsAt text tc m.2 id} m'.1

/-- No pattern is accepted past the start and before a place that would make a longer match. -/
def LongestBefore (p : Program) (text : Bytes) (tc i : Nat) (best : Option (Nat × Nat)) : Prop :=
  ∀ j id, tc < j → j < i → p.AcceptsAt text tc j id → ∃ m ∈ best, j ≤ m.2

/-- Two findings of the one thread. Both end at the last place at which the thread accepts a
    pattern, and fail at the last one that it comes to. -/
structure FoundAlike (p : Program) (text : Bytes) (tc : Nat) (one many : Finding) : Prop where
  longest? : Option.Rel (p.LastAndLeast text tc) one.longest? many.longest?
  exists_le : ∀ i id, tc < i → p.AcceptsAt text tc i id → ∃ m ∈ one.longest?, i ≤ m.2
  fail_eq : one.fail = many.fail
  fail_greatest : IsGreatest {i | ∃ a, p.ComesTo text tc i a} one.fail

variable {byte : Option UInt8} {best best' : Option (Nat × Nat)}
    {last? : Option Nat} {ids : List Nat}

/-- At every place, both runs record a match or none does. -/
theorem rel_recordPast (hbyte : text[i]? = byte)
    (hcomes : ∀ x, p.ComesTo text tc i x ↔ p.Pass byte a x) (hlast : p.LastFrom byte a last?)
    (hids : ∀ id, id ∈ ids ↔ p.AcceptsAt text tc i id)
    (hbest : Option.Rel (p.LastAndLeast text tc) best best') :
    Option.Rel (p.LastAndLeast text tc) (Machine.recordPast tc i best last?)
      (Machine.recordPast tc i best' ids.min?) := by
  subst hbyte
  unfold Machine.recordPast
  split
  · next htc =>
    cases last? with
    | none =>
      have hnil : ids = [] := List.eq_nil_iff_forall_not_mem.mpr fun id hid => by
        obtain ⟨x, hx, hpattern⟩ := (hids id).mp hid
        rw [hlast x ((hcomes x).mp hx)] at hpattern
        cases hpattern
      rwa [hnil]
    | some id =>
      obtain ⟨x, hx, hpattern, hafter⟩ := hlast
      have haccepts : p.AcceptsLastAt text tc i id :=
        ⟨x, (hcomes x).mpr hx, hpattern, fun c hc => hafter c ((hcomes c).mp hc)⟩
      -- The last pattern that is accepted at a place is one of those that are.
      cases hmin : ids.min? with
      | none =>
        have hid := (hids id).mpr haccepts.acceptsAt
        rw [List.min?_eq_none_iff.mp hmin] at hid
        cases hid
      | some least =>
        obtain ⟨hmem, hle⟩ := List.min?_eq_some_iff.mp hmin
        exact .some ⟨rfl, htc, haccepts, (hids least).mp hmem,
          fun id hid => hle id ((hids id).mpr hid)⟩
  · exact hbest

theorem LongestBefore.recordPast (h : p.LongestBefore text tc i best)
    (hcomes : ∀ x, p.ComesTo text tc i x ↔ p.Pass byte a x) (hlast : p.LastFrom byte a last?) :
    p.LongestBefore text tc (i + 1) (Machine.recordPast tc i best last?) := by
  intro j id htc hj haccepts
  unfold Machine.recordPast
  rcases Nat.lt_or_eq_of_le (Nat.le_of_lt_succ hj) with hlt | rfl
  · obtain ⟨m, hm, hle⟩ := h j id htc hlt haccepts
    split
    · cases last? with
      | none => exact ⟨m, hm, hle⟩
      | some id' => exact ⟨(id', i), rfl, Nat.le_of_lt hlt⟩
    · exact ⟨m, hm, hle⟩
  · rw [if_pos htc]
    cases last? with
    | none =>
      obtain ⟨x, hx, hid⟩ := haccepts
      rw [hlast x ((hcomes x).mp hx)] at hid
      cases hid
    | some id' => exact ⟨(id', j), rfl, Nat.le_refl j⟩

/-- Where the thread does not consume the byte, both runs have found what there is to find. -/
theorem foundAlike_of_not_takes (hbyte : text[i]? = byte)
    (hcomes : ∀ x, p.ComesTo text tc i x ↔ p.Pass byte a x)
    (hno : ∀ b d, byte = some b → p.Pass (some b) a d → ¬ p.Takes b d)
    (hlongest : p.LongestBefore text tc (i + 1) best)
    (hbest : Option.Rel (p.LastAndLeast text tc) best best') :
    p.FoundAlike text tc ⟨best, i⟩ ⟨best', i⟩ := by
  subst hbyte
  have ha : p.ComesTo text tc i a := (hcomes a).mpr (.refl p _ a)
  have hle : ∀ {j c}, p.ComesTo text tc j c → j ≤ i :=
      ComesTo.le_of_not_takes ha.le fun d b hd hb =>
    hno b d hb (hb ▸ (hcomes d).mp hd)
  refine ⟨hbest, fun j k htc ⟨c, hc, hk⟩ => ?_, rfl, ⟨a, ha⟩, fun j ⟨c, hc⟩ => hle hc⟩
  exact hlongest j k htc (Nat.lt_succ_of_le (hle hc)) ⟨c, hc, hk⟩

end Program

/-- A list of threads holds an offset with everything reached from it, and nothing else. -/
structure ThreadList.ClosureOf (p : Program) (l : ThreadList) (a : Nat) : Prop where
  sound : l.Sound p
  contains_iff : ∀ x, l.contains x = true ↔ x < p.size ∧ p.Reach a x

theorem ThreadList.ClosureOf.isEmpty_eq_false {p : Program} {l : ThreadList} {a : Nat}
    (h : l.ClosureOf p a) (ha : a < p.size) : l.isEmpty = false := by
  have hmem := (h.contains_iff a).mpr ⟨ha, .refl p a⟩
  by_contra hempty
  rw [Bool.not_eq_false, isEmpty_iff h.sound.wellFormed] at hempty
  rw [hempty] at hmem
  cases hmem

namespace Simulation

open Program ThreadList

variable {p : Program} {text : Bytes} {tc i a d : Nat} {byte : Option UInt8}
  {b : UInt8} {threads : Threads} {best best' : Option (Nat × Nat)}
    {out : Threads × Option (Nat × Nat)}

theorem closureOf_close {l : ThreadList} (h : l.capacity = p.size) (a : Nat) :
    (l.clear.close p a).ClosureOf p a where
  sound := (sound_clear h).close a
  contains_iff x := by
    rw [(sound_clear h).contains_close, contains_clear]
    simp

/-- A round goes through what the thread at an offset passes to. -/
theorem Round.mem_iff_pass (h : Round p tc i byte threads best 0 out)
    (hcur : threads.current.ClosureOf p a) (ha : a < p.size) (x : Nat) :
    x ∈ out.1.current.toList ↔ x < p.size ∧ p.Pass byte a x := by
  rw [h.current.mem_iff, h.mem_current]
  refine and_congr_right fun _ => ⟨fun ⟨c, hc, hcx⟩ => ?_, fun hax => ?_⟩
  · exact ((hcur.contains_iff c).mp hc).2.pass.trans hcx
  · exact ⟨a, (hcur.contains_iff a).mpr ⟨ha, .refl p a⟩, hax⟩

/-- A round of one thread records the least of the patterns that the thread accepts. -/
theorem Round.rel_best (h : Round p tc i byte threads best' 0 out) (hbyte : text[i]? = byte)
    (hcur : threads.current.ClosureOf p a) (ha : a < p.size)
    (hcomes : ∀ x, p.ComesTo text tc i x ↔ p.Pass byte a x) {last? : Option Nat}
    (hlast : p.LastFrom byte a last?) (hbest : Option.Rel (p.LastAndLeast text tc) best best')
    (hlt : ∀ m ∈ best', m.2 < i) :
    Option.Rel (p.LastAndLeast text tc) (Machine.recordPast tc i best last?) out.2 := by
  rw [h.best_eq_recordPast hlt]
  refine rel_recordPast hbyte hcomes hlast (fun id => ?_) hbest
  rw [List.mem_filterMap]
  refine ⟨fun ⟨x, hx, hid⟩ => ?_, fun ⟨x, hx, hid⟩ => ?_⟩
  · exact ⟨x, (hcomes x).mpr ((h.mem_iff_pass hcur ha x).mp hx).2, hid⟩
  · have hi := pattern?_eq_some_iff.mp hid
    have hlt : x < p.size := (Array.getElem?_eq_some_iff.mp hi).1
    exact ⟨x, (h.mem_iff_pass hcur ha x).mpr ⟨hlt, (hcomes x).mp hx⟩, hid⟩

/-- After a byte, the list of the next threads is the one of where the byte was consumed. -/
theorem Round.closureOf_next (hdet : p.isDeterministic = true) {current next : ThreadList}
    (h : Round p tc i (some b) ⟨current, next.clear⟩ best 0 out)
    (hcur : current.ClosureOf p a) (ha : a < p.size) (hpass : p.Pass (some b) a d)
    (htakes : p.Takes b d) : out.1.next.ClosureOf p (d + 1) where
  sound := h.next
  contains_iff x := by
    rw [h.mem_next, List.drop_zero, contains_clear]
    refine ⟨?_, fun ⟨hlt, hreach⟩ => ?_⟩
    · rintro (hx | ⟨d', hd', b', hb', htakes', hlt, hreach⟩)
      · cases hx
      · obtain rfl := Option.some.inj hb'
        obtain rfl := Takes.eq_of_pass hdet hpass htakes
          ((h.mem_iff_pass hcur ha d').mp hd').2 htakes'
        exact ⟨hlt, hreach⟩
    · have hd := (h.mem_iff_pass hcur ha d).mpr ⟨htakes.lt_size, hpass⟩
      exact .inr ⟨d, hd, b, rfl, htakes, hlt, hreach⟩

/-- Where the one thread does not consume the byte, no threads are left. -/
theorem Round.isEmpty_next {current next : ThreadList}
    (h : Round p tc i (some b) ⟨current, next.clear⟩ best 0 out) (hcur : current.ClosureOf p a)
    (ha : a < p.size) (hno : ∀ d, p.Pass (some b) a d → ¬ p.Takes b d) :
    out.1.next.isEmpty = true := by
  refine (isEmpty_iff h.next.wellFormed).mpr fun x => ?_
  by_contra hx
  rw [Bool.not_eq_false, h.mem_next, List.drop_zero, contains_clear] at hx
  rcases hx with hx | ⟨d, hd, b', hb', htakes, _⟩
  · cases hx
  · obtain rfl := Option.some.inj hb'
    exact hno d ((h.mem_iff_pass hcur ha d).mp hd).2 htakes

/-- From where both runs are at the same offset, they find alike. -/
theorem foundAlike_runBytes (hp : p.Valid) (hdet : p.isDeterministic = true) (rest : Bytes)
    (hrest : text.drop i = rest) (hcomes : ∀ x, p.ComesTo text tc i x ↔ p.Pass rest.head? a x)
    (ha : a < p.size) (hcur : threads.current.ClosureOf p a)
    (hnext : threads.next.capacity = p.size)
    (hbest : Option.Rel (p.LastAndLeast text tc) best best')
    (hlongest : p.LongestBefore text tc i best) (hlt : ∀ m ∈ best', m.2 < i)
    (hreturns : (Direct.runFrom p tc rest i [] a best).Returns) :
    p.FoundAlike text tc (Direct.runFrom p tc rest i [] a best).finding
    (runBytes p tc threads best' i rest).2 := by
  induction rest generalizing i a threads best best' with
  | nil =>
    have hbyte : text[i]? = none := by rw [← List.head?_drop, hrest, List.head?_nil]
    have hround : Round p tc i none threads.clearNext best' 0 _ :=
      runThreads_round _ best' 0 hcur.sound (sound_clear hnext) (by simp [PassedUpTo])
    have hstretch := Direct.stretch_runFrom hdet tc [] i [] a best hreturns
    generalize Direct.runFrom p tc [] i [] a best = o at hstretch
    cases hstretch with
    | takes hcons => cases hcons
    | ends hlast hno hfinding =>
      rw [hfinding, runBytes_nil]
      exact foundAlike_of_not_takes hbyte hcomes hno (hlongest.recordPast hcomes hlast)
        (hround.rel_best hbyte hcur ha hcomes hlast hbest hlt)
  | cons b rest ih =>
    have hbyte : text[i]? = some b := by rw [← List.head?_drop, hrest, List.head?_cons]
    have hround : Round p tc i (some b) threads.clearNext best' 0 _ :=
      runThreads_round _ best' 0 hcur.sound (sound_clear hnext) (by simp [PassedUpTo])
    have hstretch := Direct.stretch_runFrom hdet tc (b :: rest) i [] a best hreturns
    generalize Direct.runFrom p tc (b :: rest) i [] a best = o at hreturns hstretch
    rw [runBytes_cons]
    -- Either the thread takes the byte, and both runs go on behind it; or nothing takes it, and
    -- both end.
    cases hstretch with
    | @takes _ _ d last? hcons hlast hpass htakes =>
      obtain ⟨rfl, rfl⟩ := List.cons.inj hcons
      have hd : d + 1 < p.size := hp.succ_lt_of_takes htakes
      have hnext' := hround.closureOf_next hdet hcur ha hpass htakes
      have hrest' : text.drop (i + 1) = rest := by rw [← List.tail_drop, hrest, List.tail_cons]
      have hbyte' : text[i + 1]? = rest.head? := by rw [← List.head?_drop, hrest']
      have hlt' := hround.best_eq_recordPast hlt ▸ Machine.lt_of_mem_recordPast hlt _
      simp only [hnext'.isEmpty_eq_false hd, Bool.false_eq_true, if_false]
      refine ih hrest' (fun x => ?_) hd hnext' hround.current.capacity_eq
        (hround.rel_best hbyte hcur ha hcomes hlast hbest hlt)
        (hlongest.recordPast hcomes hlast) hlt' hreturns
      rw [comesTo_succ_iff hdet hbyte hcomes hpass htakes, hbyte']
    | ends hlast hno hfinding =>
      have hempty := hround.isEmpty_next hcur ha fun d => hno b d rfl
      simp only [hempty, if_true]
      rw [hfinding]
      exact foundAlike_of_not_takes hbyte hcomes hno (hlongest.recordPast hcomes hlast)
        (hround.rel_best hbyte hcur ha hcomes hlast hbest hlt)

/-- The runs of a valid deterministic program find alike. -/
theorem foundAlike_run (hp : p.Valid) (hdet : p.isDeterministic = true) (text : Bytes) (tc : Nat) :
    p.FoundAlike text tc (Direct.run p text tc).finding (run p (.forProgram p) text tc).2 := by
  have hcur : (Threads.forProgram p).current.capacity = p.size := capacity_empty _
  refine foundAlike_runBytes hp hdet (text.drop tc) rfl (fun x => ?_) hp.size_pos
    (closureOf_close hcur 0)
    (capacity_empty _) .none (fun j id htc hj => ?_) (by simp) (hp.returns_run hdet text tc)
  · rw [comesTo_start_iff, List.head?_drop]
  · exact absurd htc (Nat.lt_asymm hj)

end Simulation

namespace Scanner

open Program

variable {p : Program} {text : Bytes} {tc : Nat}

/-- Two steps at a cursor that return the same but for the pattern of a match. A match ends at the
    last place past the cursor at which a pattern is accepted, and of the patterns accepted there,
    the one step has the last and the other the least. If there is no such place, both fail at the
    last one that the thread comes to. -/
inductive SameButForPattern (p : Program) (text : Bytes) (tc : Nat) :
    Option (Except Unconsumed Match) → Option (Except Unconsumed Match) → Prop
  | none : SameButForPattern p text tc none none
  | unconsumed {u : Unconsumed} (hnone : ∀ i id, tc < i → ¬ p.AcceptsAt text tc i id)
      (hfail : IsGreatest {i | ∃ a, p.ComesTo text tc i a} u.fail) :
      SameButForPattern p text tc (some (.error u)) (some (.error u))
  | matched {m : Match} {least : Nat}
      (hstop : IsGreatest {i | tc < i ∧ ∃ id, p.AcceptsAt text tc i id} m.stop)
      (hlast : p.AcceptsLastAt text tc m.stop m.id)
      (hleast : IsLeast {id | p.AcceptsAt text tc m.stop id} least) :
      SameButForPattern p text tc (some (.ok m)) (some (.ok { m with id := least }))

variable {one many : Option (Except Unconsumed Match)}

/-- Where one pattern is accepted at most, the steps return the same. -/
theorem SameButForPattern.eq (h : SameButForPattern p text tc one many)
    (hunique : ∀ i id id', p.AcceptsAt text tc i id → p.AcceptsAt text tc i id' → id = id') :
    one = many := by
  cases h with
  | none => rfl
  | unconsumed => rfl
  | matched _ hlast hleast => rw [← hunique _ _ _ hlast.acceptsAt hleast.1]

theorem sameButForPattern_report {found found' : Finding} (h : p.FoundAlike text tc found found')
    (htc : tc ≤ text.length) :
    SameButForPattern p text tc (some (report text tc found)) (some (report text tc found')) := by
  obtain ⟨hlongest, hle, hfail, hgreatest⟩ := h
  unfold report
  rw [← hfail]
  generalize found.longest? = one at hlongest hle
  generalize found'.longest? = many at hlongest
  cases hlongest with
  | none =>
    refine .unconsumed (fun i id hi haccepts => ?_) hgreatest
    obtain ⟨m, hm, _⟩ := hle i id hi haccepts
    cases hm
  | @some m m' h =>
    obtain ⟨id, stop⟩ := m
    obtain ⟨least, _⟩ := m'
    obtain ⟨rfl, htc', hlast, hleast⟩ := h
    obtain ⟨a, ha, _⟩ := hlast.acceptsAt
    have hstop : (matchAt text .start id tc stop).1.stop = stop :=
      stop_matchAt ha.le (ha.le_length htc)
    have hgreatest : IsGreatest {i | tc < i ∧ ∃ id, p.AcceptsAt text tc i id} stop := by
      refine ⟨⟨htc', id, hlast.acceptsAt⟩, fun i ⟨hi, k, haccepts⟩ => ?_⟩
      obtain ⟨_, hm, hle⟩ := hle i k hi haccepts
      obtain rfl := Option.some.inj hm
      exact hle
    exact .matched (hstop.symm ▸ hgreatest) (hstop.symm ▸ hlast) (hstop.symm ▸ hleast)

/-- A step of a scan with a steady engine returns nothing if it or a step before it was past the end
    of the text, and otherwise what the engine finds. -/
theorem step_steps {ε : Type} [Engine ε] {engine : ε} (h : Engine.Steady engine)
    (text : Bytes) (before : List Nat) (tc : Nat) : (((start engine text).steps before).step tc).1 =
      if ∃ c ∈ tc :: before, text.length ≤ c then none
      else some (report text tc (Engine.find engine text tc).1) := by
  have hindependent := historyIndependent_of_steady h text
  split
  · next hpast =>
    obtain ⟨c, hc, hle⟩ := hpast
    rcases List.mem_cons.mp hc with rfl | hc
    · exact (hindependent.step_eq_none before c hle).1
    · obtain ⟨earlier, later, rfl⟩ := List.append_of_mem hc
      exact (hindependent.step_eq_none earlier c hle).2 later tc
  · next hpast =>
    have hlt : ∀ c ∈ tc :: before, c < text.length := by simpa using hpast
    rw [hindependent.step_eq before (fun c hc => hlt c (List.mem_cons_of_mem tc hc)) tc, step_start,
      if_neg (Nat.not_le_of_lt (hlt tc (List.mem_cons_self ..)))]

/-- A deterministic program that was read returns in a scan, run by following its one thread, what
    it returns run with threads, whatever steps came before, except for the pattern of a match: of
    the patterns that are accepted at its end, it is the last for the one and the least for the
    other. If one is accepted at a place at most, the steps return the same. They return nothing
    once one was past the end. -/
theorem step_runner_simulator {source : String} {p : Program} (hread : Program.read source = .ok p)
    (hdet : p.isDeterministic = true) (text : Bytes) (before : List Nat) (tc : Nat) :
    let one := (((start (Runner.mk p hdet) text).steps before).step tc).1
    let many := (((start (Simulator.ofProgram p) text).steps before).step tc).1
    (Direct.run p text tc).Returns ∧ (one = none ↔ ∃ c ∈ tc :: before, text.length ≤ c) ∧
      SameButForPattern p text tc one many ∧
      ((∀ i id id', p.AcceptsAt text tc i id → p.AcceptsAt text tc i id' → id = id') →
        one = many) := by
  intro one many
  have hvalid := valid_of_read hread
  have hone : one = _ := step_steps (Runner.steady ⟨p, hdet⟩) text before tc
  have hmany : many = _ := step_steps (Simulator.steady p) text before tc
  have hsame : SameButForPattern p text tc one many := by
    rw [hone, hmany]
    split
    · exact .none
    · next hpast =>
      have htc : tc < text.length := by
        by_contra hle
        exact hpast ⟨tc, List.mem_cons_self .., Nat.le_of_not_lt hle⟩
      exact sameButForPattern_report (Simulation.foundAlike_run hvalid hdet text tc)
        (Nat.le_of_lt htc)
  refine ⟨hvalid.returns_run hdet text tc, ?_, hsame, hsame.eq⟩
  rw [hone, ite_eq_left_iff]
  simp only [reduceCtorEq, imp_false, not_not]

/-- A program that accepts three patterns at the same offset, the least of them in the middle, after
    a step at another cursor. -/
theorem step_runner_simulator_three_accepts : ∃ (p : Program) (hdet : p.isDeterministic = true),
    Program.read "CHJMP 97 98\nJMP 3\nFAIL\nMATCH 7\nMATCH 2\nMATCH 5\nJMP 0" = .ok p ∧
    (Direct.run p [98, 97, 99] 0).Returns ∧
    SameButForPattern p [98, 97, 99] 0
      (((start (Runner.mk p hdet) [98, 97, 99]).steps [2]).step 0).1
      (((start (Simulator.ofProgram p) [98, 97, 99]).steps [2]).step 0).1 := by
  have hread : Program.read "CHJMP 97 98\nJMP 3\nFAIL\nMATCH 7\nMATCH 2\nMATCH 5\nJMP 0" =
      .ok ⟨#[.branch ⟨97, 98, by decide⟩, .jump 3, .fail, .accept 7, .accept 2,
        .accept 5, .jump 0]⟩ := by
    decide +kernel
  have hdet : Program.isDeterministic
      ⟨#[.branch ⟨97, 98, by decide⟩, .jump 3, .fail, .accept 7, .accept 2, .accept 5, .jump 0]⟩ =
        true := by
    decide +kernel
  obtain ⟨hreturns, _, hsame, _⟩ := step_runner_simulator hread hdet [98, 97, 99] [2] 0
  exact ⟨_, hdet, hread, hreturns, hsame⟩

/-- After an `a`, a program accepts the pattern 0 and then the pattern 1 at the same offset: with
    threads, a scan finds the one, and by following the one thread, it finds the other. -/
theorem step_runner_ne_step_simulator : ∃ (p : Program) (hdet : p.isDeterministic = true),
    Program.read "CHJMP 97 97\nJMP 3\nFAIL\nMATCH 0\nMATCH 1\nFAIL\n" = .ok p ∧
    ((start (Simulator.ofProgram p) [97]).step 0).1 = some (.ok ⟨0, 0, ⟨1, 1⟩, ⟨1, 1⟩, [97]⟩) ∧
    ((start (Runner.mk p hdet) [97]).step 0).1 = some (.ok ⟨1, 0, ⟨1, 1⟩, ⟨1, 1⟩, [97]⟩) := by
  have hread : Program.read "CHJMP 97 97\nJMP 3\nFAIL\nMATCH 0\nMATCH 1\nFAIL\n" =
      .ok ⟨#[.branch (.single 97), .jump 3, .fail, .accept 0, .accept 1, .fail]⟩ := by
    decide +kernel
  have hdet : Program.isDeterministic
      ⟨#[.branch (.single 97), .jump 3, .fail, .accept 0, .accept 1, .fail]⟩ = true := by
    decide +kernel
  refine ⟨_, hdet, hread, ?_, ?_⟩
  · cbv
  · cbv

end Scanner

end Munch

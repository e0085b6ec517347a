import Munch.Proofs.Rounds

set_option autoImplicit false

/-! # Lists of threads with a past

Clearing a list of threads leaves its `sparse` entries as they are. Two lists are alike if they hold
the same offsets in the same order, whatever their `sparse` entries say of other offsets; no
operation on lists tells them apart (`ThreadList.Alike`). So a run finds the same with lists that
were used before and with new ones (`Simulation.run_snd_eq`). -/

namespace Munch

namespace ThreadList

/-- Two lists hold the same offsets in the same order, and have the same capacity. -/
structure Alike (l l' : ThreadList) : Prop where
  dense_eq : l.dense = l'.dense
  capacity_eq : l.capacity = l'.capacity
  wellFormed : l.WellFormed
  wellFormed' : l'.WellFormed

variable {p : Program} {l l' : ThreadList} {pc : Nat}

theorem alike_clear (h : l.capacity = l'.capacity) : l.clear.Alike l'.clear where
  dense_eq := rfl
  capacity_eq := h
  wellFormed := wellFormed_clear l
  wellFormed' := wellFormed_clear l'

namespace Alike

theorem get?_eq (h : l.Alike l') (k : Nat) : l.get? k = l'.get? k := by
  rw [get?, get?, h.dense_eq]

theorem isEmpty_eq (h : l.Alike l') : l.isEmpty = l'.isEmpty := by
  rw [isEmpty, isEmpty, h.dense_eq]

theorem contains_eq (h : l.Alike l') (pc : Nat) : l.contains pc = l'.contains pc := by
  rw [Bool.eq_iff_iff, contains_iff_mem h.wellFormed,
    contains_iff_mem h.wellFormed', toList, toList, h.dense_eq]

theorem accepts_eq (h : l.Alike l') (pc : Nat) : l.accepts pc = l'.accepts pc := by
  rw [accepts, accepts, h.contains_eq, h.capacity_eq]

theorem insert (h : l.Alike l') (pc : Nat) : (l.insert pc).Alike (l'.insert pc) where
  dense_eq := by
    cases hacc : l.accepts pc with
    | false =>
      rw [insert_of_not_accepts hacc, insert_of_not_accepts (h.accepts_eq pc ▸ hacc), h.dense_eq]
    | true =>
      have hacc' : l'.accepts pc = true := h.accepts_eq pc ▸ hacc
      refine Array.ext' ?_
      have hlist : (l.insert pc).toList = (l'.insert pc).toList := by
        rw [toList_insert hacc, toList_insert hacc', toList, toList, h.dense_eq]
      exact hlist
  capacity_eq := by rw [capacity_insert, capacity_insert, h.capacity_eq]
  wellFormed := wellFormed_insert h.wellFormed pc
  wellFormed' := wellFormed_insert h.wellFormed' pc

theorem closeAll (h : l.Alike l') (stack : List Nat) :
    (closeAll p l stack).Alike (closeAll p l' stack) := by
  fun_induction ThreadList.closeAll p l stack generalizing l' with
  | case1 l => rwa [ThreadList.closeAll]
  | case2 l pc rest hacc ih =>
    rw [ThreadList.closeAll, ← h.accepts_eq, if_pos hacc]
    exact ih (h.insert pc)
  | case3 l pc rest hacc ih =>
    rw [ThreadList.closeAll, ← h.accepts_eq, if_neg hacc]
    exact ih h

theorem close (h : l.Alike l') (pc : Nat) : (close p l pc).Alike (close p l' pc) := h.closeAll [pc]

end Alike

end ThreadList

namespace Threads

/-- Both lists are alike. -/
def Alike (t t' : Threads) : Prop := t.current.Alike t'.current ∧ t.next.Alike t'.next

/-- Both lists can hold `n` offsets. -/
def Sized (n : Nat) (t : Threads) : Prop := t.current.capacity = n ∧ t.next.capacity = n

variable {t t' : Threads} {n : Nat}

theorem sized_forProgram (p : Program) : (forProgram p).Sized p.size :=
  ⟨ThreadList.capacity_empty _, ThreadList.capacity_empty _⟩

theorem Sized.clearNext (h : t.Sized n) : t.clearNext.Sized n := h

/-- Once `next` is cleared, it does not matter what was there. -/
theorem alike_clearNext (h : t.Sized n) (h' : t'.Sized n) (hcurrent : t.current.Alike t'.current) :
    t.clearNext.Alike t'.clearNext :=
  ⟨hcurrent, ThreadList.alike_clear (h.2.trans h'.2.symm)⟩

end Threads

namespace Simulation

open Program

variable {p : Program} {tc i n : Nat} {byte : Option UInt8} {threads threads' : Threads}

/-! ## Running one thread after the other -/

/-- The lists after the thread at an offset was run. -/
def moveThread (p : Program) (byte : Option UInt8) (threads : Threads) (pc : Nat) : Threads :=
  match p.insts[pc]?, byte with
  | some (.consume r), some b =>
    if r.contains b then ⟨threads.current, threads.next.close p (pc + 1)⟩ else threads
  | some (.branch r), some b =>
    if r.contains b then ⟨threads.current, threads.next.close p (pc + 1)⟩
    else ⟨threads.current.close p (pc + 2), threads.next⟩
  | _, _ => threads

theorem runThreads_of_get?_eq_none {k : Nat} (h : threads.current.get? k = none)
    (best : Option (Nat × Nat)) : runThreads p tc i byte threads best k = (threads, best) := by
  unfold runThreads
  split
  · rfl
  · next pc hpc =>
    rw [h] at hpc
    cases hpc

/-- Running a list of threads from a place on is running the thread at the place, and then the list
    from the next place on. -/
theorem runThreads_of_get?_eq_some {k pc : Nat} (h : threads.current.get? k = some pc)
    (best : Option (Nat × Nat)) : runThreads p tc i byte threads best k =
      runThreads p tc i byte (moveThread p byte threads pc) (recordAt p tc i best pc) (k + 1) := by
  conv_lhs => unfold runThreads
  split
  · next hnone =>
    rw [h] at hnone
    cases hnone
  · next pc' hpc =>
    obtain rfl := Option.some.inj (h.symm.trans hpc)
    unfold moveThread recordAt pattern?
    cases hi : p.insts[pc]? with
    | none => rfl
    | some inst =>
      cases inst with
      | accept | split | jump | fail => rfl
      | consume r =>
        cases byte with
        | none => rfl
        | some b =>
          simp only [Option.any_some]
          split
          · rfl
          · rfl
      | branch r =>
        cases byte with
        | none => rfl
        | some b =>
          simp only
          split
          · rfl
          · rfl

/-- What holds at the end of a list, and of a place if it holds of the next one after the thread at
    the place was run, holds of every place. -/
theorem runThreads_induct (p : Program) (tc i : Nat) (byte : Option UInt8)
    {motive : Threads → Option (Nat × Nat) → Nat → Prop}
    (ended : ∀ threads best k, threads.current.get? k = none → motive threads best k)
    (step : ∀ threads best k pc, threads.current.get? k = some pc →
      motive (moveThread p byte threads pc) (recordAt p tc i best pc) (k + 1) →
        motive threads best k)
    (threads : Threads) (best : Option (Nat × Nat)) (k : Nat) : motive threads best k := by
  -- The cases of a run are told by the instruction and the byte, as those of `moveThread` are.
  fun_induction runThreads p tc i byte threads best k with
  | case1 threads best k hget => exact ended threads best k hget
  | case2 threads best k pc hget id hi ih =>
    refine step threads best k pc hget ?_
    simpa only [moveThread, recordAt, pattern?, hi] using ih
  | case3 threads best k pc hget r hi hhit ih =>
    obtain ⟨b, rfl, hb⟩ : ∃ b, byte = some b ∧ r.contains b = true := by
      simpa [Option.any_eq_true] using hhit
    refine step threads best k pc hget ?_
    simpa only [moveThread, recordAt, pattern?, hi, hb, if_true] using ih
  | case4 threads best k pc hget r hi hmiss ih =>
    refine step threads best k pc hget ?_
    cases byte with
    | none => simpa only [moveThread, recordAt, pattern?, hi] using ih
    | some b =>
      rw [Option.any_some] at hmiss
      simpa only [moveThread, recordAt, pattern?, hi, if_neg hmiss] using ih
  | case5 threads best k pc hget r hi hnone ih =>
    subst hnone
    refine step threads best k pc hget ?_
    simpa only [moveThread, recordAt, pattern?, hi] using ih
  | case6 threads best k pc hget r hi b hb hhit ih =>
    subst hb
    refine step threads best k pc hget ?_
    simpa only [moveThread, recordAt, pattern?, hi, hhit, if_true] using ih
  | case7 threads best k pc hget r hi b hb hmiss ih =>
    subst hb
    refine step threads best k pc hget ?_
    simpa only [moveThread, recordAt, pattern?, hi, if_neg hmiss] using ih
  | case8 threads best k pc hget haccept hconsume hbranch ih =>
    refine step threads best k pc hget ?_
    have hmove : moveThread p byte threads pc = threads := by
      unfold moveThread
      split
      · next r b hi => exact absurd hi (hconsume r)
      · next r b hi => exact absurd hi (hbranch r)
      · rfl
    have hrecord : recordAt p tc i best pc = best := by
      refine recordAt_of_pattern?_eq_none ?_ best
      unfold pattern?
      split
      · next id hi => exact absurd hi (haccept id)
      · rfl
    rwa [hmove, hrecord]

/-! ## Lists with a past are run as new ones -/

theorem alike_moveThread (h : threads.Alike threads') (byte : Option UInt8) (pc : Nat) :
    (moveThread p byte threads pc).Alike (moveThread p byte threads' pc) := by
  unfold moveThread
  split
  · split
    · exact ⟨h.1, h.2.close (pc + 1)⟩
    · exact h
  · split
    · exact ⟨h.1, h.2.close (pc + 1)⟩
    · exact ⟨h.1.close (pc + 2), h.2⟩
  · exact h

/-- Running the threads of alike lists records the same, and leaves alike lists. -/
theorem runThreads_alike (h : threads.Alike threads') (p : Program) (tc i : Nat)
    (byte : Option UInt8) (best : Option (Nat × Nat)) (k : Nat) :
    (runThreads p tc i byte threads best k).1.Alike (runThreads p tc i byte threads' best k).1 ∧
      (runThreads p tc i byte threads best k).2 = (runThreads p tc i byte threads' best k).2 := by
  induction threads, best, k using runThreads_induct p tc i byte generalizing threads' with
  | ended threads best k hget =>
    rw [runThreads_of_get?_eq_none hget, runThreads_of_get?_eq_none (h.1.get?_eq k ▸ hget)]
    exact ⟨h, rfl⟩
  | step threads best k pc hget ih =>
    have hget' : threads'.current.get? k = some pc := h.1.get?_eq k ▸ hget
    rw [runThreads_of_get?_eq_some hget, runThreads_of_get?_eq_some hget']
    exact ih (alike_moveThread h byte pc)

theorem sized_moveThread (h : threads.Sized n) (byte : Option UInt8) (pc : Nat) :
    (moveThread p byte threads pc).Sized n := by
  unfold moveThread
  split
  · split
    · exact ⟨h.1, (ThreadList.capacity_close ..).trans h.2⟩
    · exact h
  · split
    · exact ⟨h.1, (ThreadList.capacity_close ..).trans h.2⟩
    · exact ⟨(ThreadList.capacity_close ..).trans h.1, h.2⟩
  · exact h

theorem sized_runThreads (h : threads.Sized n) (p : Program) (tc i : Nat) (byte : Option UInt8)
    (best : Option (Nat × Nat)) (k : Nat) :
    (runThreads p tc i byte threads best k).1.Sized n := by
  induction threads, best, k using runThreads_induct p tc i byte with
  | ended threads best k hget => rwa [runThreads_of_get?_eq_none hget]
  | step threads best k pc hget ih =>
    rw [runThreads_of_get?_eq_some hget]
    exact ih (sized_moveThread h byte pc)

/-- The threads before a byte are run with `next` cleared. -/
theorem runBytes_nil (p : Program) (tc : Nat) (threads : Threads)
    (best : Option (Nat × Nat)) (i : Nat) : runBytes p tc threads best i [] =
      let out := runThreads p tc i none threads.clearNext best 0
      (out.1, ⟨out.2, i⟩) := rfl

theorem runBytes_cons (p : Program) (tc : Nat) (threads : Threads)
    (best : Option (Nat × Nat)) (i : Nat) (b : UInt8) (rest : Bytes) :
    runBytes p tc threads best i (b :: rest) =
      let out := runThreads p tc i (some b) threads.clearNext best 0
      if out.1.next.isEmpty then (out.1, ⟨out.2, i⟩)
      else runBytes p tc ⟨out.1.next, out.1.current⟩ out.2 (i + 1) rest := rfl

theorem sized_runBytes (rest : Bytes) {threads : Threads} {best : Option (Nat × Nat)} {i : Nat}
    (h : threads.Sized n) : (runBytes p tc threads best i rest).1.Sized n := by
  induction rest generalizing threads best i with
  | nil => exact sized_runThreads h.clearNext p tc i none best 0
  | cons b rest ih =>
    have hround := sized_runThreads h.clearNext p tc i (some b) best 0
    rw [runBytes_cons]
    simp only
    split
    · exact hround
    · exact ih ⟨hround.2, hround.1⟩

theorem sized_run {threads : Threads} (h : threads.Sized n) (text : Bytes) (tc : Nat) :
    (run p threads text tc).1.Sized n :=
  sized_runBytes _ ⟨(ThreadList.capacity_close ..).trans h.1, h.2⟩

/-- What is found from a byte on depends on the threads before the byte alone. -/
theorem runBytes_snd_eq (rest : Bytes) {threads threads' : Threads}
    {best : Option (Nat × Nat)} {i : Nat} (h : threads.Sized n) (h' : threads'.Sized n)
    (hcurrent : threads.current.Alike threads'.current) :
    (runBytes p tc threads best i rest).2 = (runBytes p tc threads' best i rest).2 := by
  induction rest generalizing threads threads' best i with
  | nil =>
    obtain ⟨_, hbest⟩ := runThreads_alike (Threads.alike_clearNext h h' hcurrent) p tc i none best 0
    rw [runBytes_nil, runBytes_nil]
    simp only [hbest]
  | cons b rest ih =>
    obtain ⟨halike, hbest⟩ :=
      runThreads_alike (Threads.alike_clearNext h h' hcurrent) p tc i (some b) best 0
    have hsized := sized_runThreads h.clearNext p tc i (some b) best 0
    have hsized' := sized_runThreads h'.clearNext p tc i (some b) best 0
    rw [runBytes_cons, runBytes_cons]
    simp only [halike.2.isEmpty_eq, hbest]
    split
    · rfl
    -- The lists change places, and what was `next` is what the rest depends on.
    · exact ih ⟨hsized.2, hsized.1⟩ ⟨hsized'.2, hsized'.1⟩ halike.2

/-- A run finds the same with any lists for its program. -/
theorem run_snd_eq {threads threads' : Threads} (h : threads.Sized n) (h' : threads'.Sized n)
    (text : Bytes) (tc : Nat) : (run p threads text tc).2 = (run p threads' text tc).2 := by
  have hclear := ThreadList.alike_clear (h.1.trans h'.1.symm)
  exact runBytes_snd_eq _ ⟨(ThreadList.capacity_close ..).trans h.1, h.2⟩
    ⟨(ThreadList.capacity_close ..).trans h'.1, h'.2⟩ (hclear.close 0)

end Simulation

end Munch

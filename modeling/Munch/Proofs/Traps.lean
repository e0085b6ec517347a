import Munch.Proofs.Resumption
import Munch.Proofs.ValidBlocks
import Munch.Scan.Checked

set_option autoImplicit false

/-! # Programs that trap no engine

A checked run traps at an offset outside the program, at an offset that a list of threads has no
place for, at an instruction that was ruled out before, and where it would not end. A valid program
never traps (`Program.Valid.untrapped`), so neither does one that was read
(`Program.untrapped_of_read`): its checked runs return, and what they return is what the engines
find. A scan then answers as if nothing were checked (`Scanner.checkedAnswer_eq_ok`). -/

namespace Munch

theorem Program.Valid.emptySteps_lt {p : Program} (hp : p.Valid) {pc x : Nat}
    (h : x ∈ p.emptySteps pc) : x < p.size := by
  unfold emptySteps at h
  split at h
  · next y hi => exact hp.target_lt hi x h
  · next y z hi => exact hp.target_lt hi x h
  · next id hi =>
    split at h
    · next hdet => exact List.mem_singleton.mp h ▸ hp.succ_lt hi hdet
    · cases h
  · cases h

namespace Checked

/-! ## Closing a list -/

variable {p : Program} {l : ThreadList} {pc x : Nat} {stack : List Nat}

theorem fetch_eq_ok (h : pc < p.size) : ∃ i, fetch p pc = .ok i ∧ p.insts[pc]? = some i := by
  refine ⟨p.insts[pc], ?_, Array.getElem?_eq_getElem h⟩
  rw [fetch, Array.getElem?_eq_getElem h]

/-- Closing a list of a valid program does not trap. -/
theorem closeAll_eq_ok (hp : p.Valid) (hcap : l.capacity = p.size)
    (hstack : ∀ pc ∈ stack, pc < p.size) : closeAll p l stack = .ok (l.closeAll p stack) := by
  fun_induction ThreadList.closeAll p l stack with
  | case1 l => rw [closeAll]
  | case2 l pc rest hacc ih =>
    obtain ⟨hc, hlt⟩ := ThreadList.accepts_iff.mp hacc
    obtain ⟨i, hfetch, -⟩ := fetch_eq_ok (hstack pc (List.mem_cons_self ..))
    rw [closeAll, dif_neg (by simp [hc]), dif_neg (Nat.not_le_of_lt hlt), hfetch]
    refine ih ((ThreadList.capacity_insert l pc).trans hcap) fun x hx => ?_
    rcases List.mem_append.mp hx with hx | hx
    · exact hp.emptySteps_lt hx
    · exact hstack x (List.mem_cons_of_mem _ hx)
  | case3 l pc rest hacc ih =>
    have hlt : pc < l.capacity := hcap ▸ hstack pc (List.mem_cons_self ..)
    have hc : l.contains pc = true := by
      by_contra hc
      exact hacc (ThreadList.accepts_iff.mpr ⟨by simpa using hc, hlt⟩)
    rw [closeAll, dif_pos hc]
    exact ih hcap fun x hx => hstack x (List.mem_cons_of_mem _ hx)

theorem close_eq_ok (hp : p.Valid) (hcap : l.capacity = p.size) (hpc : pc < p.size) :
    close p l pc = .ok (l.close p pc) :=
  closeAll_eq_ok hp hcap fun _ hx => List.mem_singleton.mp hx ▸ hpc

/-! ## Running threads -/

variable {byte : Option UInt8} {threads : Threads} {tc i k : Nat} {best : Option (Nat × Nat)}

theorem lt_of_get? (hwf : l.WellFormed) (hcap : l.capacity = p.size) (h : l.get? k = some pc) :
    pc < p.size := by
  rw [← hcap]
  exact (Array.getElem?_eq_some_iff.mp (hwf k pc h)).1

/-- Running a thread of a valid program does not trap. -/
theorem moveThread_eq_ok (hp : p.Valid) (hsized : threads.Sized p.size) (hpc : pc < p.size) :
    moveThread p byte threads pc = .ok (Simulation.moveThread p byte threads pc) := by
  obtain ⟨inst, hfetch, hi⟩ := fetch_eq_ok hpc
  unfold moveThread Simulation.moveThread
  rw [hfetch, hi]
  cases inst with
  | split | jump | accept | fail => rfl
  | consume r =>
    cases byte with
    | none => rfl
    | some b =>
      simp only
      split
      · rw [close_eq_ok hp hsized.2 (hp.succ_lt hi rfl)]
        rfl
      · rfl
  | branch r =>
    cases byte with
    | none => rfl
    | some b =>
      simp only
      split
      · rw [close_eq_ok hp hsized.2 (hp.succ_lt hi rfl)]
        rfl
      · rw [close_eq_ok hp hsized.1 (hp.branch hi).2]
        rfl

/-- Running a list of threads of a valid program does not trap. -/
theorem runThreads_eq_ok (hp : p.Valid) (hsized : threads.Sized p.size)
    (hwf : threads.current.WellFormed) :
    runThreads p tc i byte threads best k =
      .ok (Simulation.runThreads p tc i byte threads best k) := by
  induction threads, best, k using Simulation.runThreads_induct p tc i byte with
  | ended threads best k hget =>
    rw [Simulation.runThreads_of_get?_eq_none hget, runThreads]
    split
    · rfl
    · next pc hpc => cases hget.symm.trans hpc
  | step threads best k pc hget ih =>
    rw [Simulation.runThreads_of_get?_eq_some hget, runThreads]
    split
    · next hnone => cases hget.symm.trans hnone
    · next pc' hpc =>
      obtain rfl := Option.some.inj (hget.symm.trans hpc)
      have hmove : moveThread p byte threads pc = .ok (Simulation.moveThread p byte threads pc) :=
        moveThread_eq_ok hp hsized (lt_of_get? hwf hsized.1 hget)
      split
      · next e he => cases hmove.symm.trans he
      · next threads' hok =>
        obtain rfl := Except.ok.inj (hmove.symm.trans hok)
        refine ih (Simulation.sized_moveThread hsized byte pc) ?_
        rcases current_of_moveThread hmove with heq | heq
        · rwa [heq]
        · rw [heq]
          exact ThreadList.wellFormed_close hwf (pc + 2)

theorem wellFormed_next_runThreads (hwf : threads.current.WellFormed) :
    (Simulation.runThreads p tc i byte threads.clearNext best k).1.next.WellFormed := by
  have halike : threads.clearNext.Alike threads.clearNext :=
    ⟨⟨rfl, rfl, hwf, hwf⟩, ThreadList.alike_clear rfl⟩
  exact (Simulation.runThreads_alike halike p tc i byte best k).1.2.wellFormed

theorem runBytes_eq_ok (hp : p.Valid) (rest : Bytes) (hsized : threads.Sized p.size)
    (hwf : threads.current.WellFormed) :
    runBytes p tc threads best i rest = .ok (Simulation.runBytes p tc threads best i rest) := by
  induction rest generalizing threads best i with
  | nil => rw [runBytes, runThreads_eq_ok hp hsized.clearNext hwf]; rfl
  | cons b rest ih =>
    have hsized' := Simulation.sized_runThreads hsized.clearNext p tc i (some b) best 0
    rw [runBytes, Simulation.runBytes_cons, runThreads_eq_ok hp hsized.clearNext hwf]
    simp only
    split
    · rfl
    · exact ih ⟨hsized'.2, hsized'.1⟩ (wellFormed_next_runThreads hwf)

/-- A run of a valid program with threads does not trap. -/
theorem run_eq_ok (hp : p.Valid) (hsized : threads.Sized p.size) (text : Bytes) (tc : Nat) :
    run p threads text tc = .ok (Simulation.run p threads text tc) := by
  have hcap : threads.current.clear.capacity = p.size := hsized.1
  rw [run, close_eq_ok hp hcap hp.size_pos]
  refine runBytes_eq_ok hp _ ⟨(ThreadList.capacity_close ..).trans hsized.1, hsized.2⟩ ?_
  exact ThreadList.wellFormed_close (ThreadList.wellFormed_clear _) 0

theorem matchesEmpty_eq_ok (hp : p.Valid) : matchesEmpty p = .ok p.matchesEmpty := by
  rw [matchesEmpty, close_eq_ok hp (ThreadList.capacity_empty _) hp.size_pos]
  rfl

/-! ## Deterministic programs -/

theorem closeEach_eq_ok (hp : p.Valid) {pcs : List Nat} (hpcs : ∀ pc ∈ pcs, pc < p.size)
    (hcap : l.capacity = p.size) (hwf : l.WellFormed) :
    closeEach p l pcs = .ok (pcs.foldl (ThreadList.close p) l) ∧
      ∀ pc ∈ (pcs.foldl (ThreadList.close p) l).toList, pc < p.size := by
  induction pcs generalizing l with
  | nil =>
    refine ⟨rfl, fun pc hpc => ?_⟩
    rw [← hcap]
    exact ThreadList.lt_capacity_of_contains ((ThreadList.contains_iff_mem hwf).mpr hpc)
  | cons pc rest ih =>
    rw [closeEach, close_eq_ok hp hcap (hpcs pc (List.mem_cons_self ..)), List.foldl_cons]
    exact ih (fun x hx => hpcs x (List.mem_cons_of_mem _ hx))
      ((ThreadList.capacity_close ..).trans hcap) (ThreadList.wellFormed_close hwf pc)

theorem kernelOf_eq_ok (hp : p.Valid) {pcs : List Nat} (hpcs : ∀ pc ∈ pcs, pc < p.size) :
    kernelOf p pcs = .ok (p.kernelOf pcs) := by
  obtain ⟨hclose, hlt⟩ :=
    closeEach_eq_ok hp hpcs (ThreadList.capacity_empty _) (ThreadList.wellFormed_empty _)
  have hfetch := mapM_eq_ok fun pc hpc => fetch_eq_ok (hlt pc hpc)
  rw [kernelOf, hclose]
  show ((pcs.foldl (ThreadList.close p) (.empty p.size)).toList.mapM (fetch p) >>= _) = _
  rw [hfetch]
  rfl

theorem kernelInst_eq_ok (h : p.isKernelInst pc = true) :
    ∃ i, kernelInst p pc = .ok i ∧ p.insts[pc]? = some i := by
  unfold Program.isKernelInst at h
  split at h
  · next r hi => exact ⟨.consume r, by rw [kernelInst, fetch, hi], hi⟩
  · next id hi => exact ⟨.accept id, by rw [kernelInst, fetch, hi], hi⟩
  · cases h

theorem lt_of_mem_zip_tail {xs : List Nat} (h : xs.Pairwise (· < ·)) {w : Nat × Nat}
    (hw : w ∈ xs.zip xs.tail) : w.1 < w.2 := by
  induction xs with
  | nil => cases hw
  | cons x xs ih =>
    obtain ⟨hx, hxs⟩ := List.pairwise_cons.mp h
    cases xs with
    | nil => cases hw
    | cons y xs =>
      rcases List.mem_cons.mp hw with rfl | hw
      · exact hx y (List.mem_cons_self ..)
      · exact ih hxs hw

/-- Between two neighbouring cuts there is always a range. -/
theorem mapM_window_eq_ok (rs : List ByteRange) :
    ((Program.cuts rs).zip (Program.cuts rs).tail).mapM window = .ok (Program.windows rs) := by
  refine mapM_eq_ok fun w hw => ?_
  have hlt := lt_of_mem_zip_tail (Program.ascending_cuts rs) hw
  have hle : w.2 < 257 := (IndexSet.mem_ofList.mp (List.mem_of_mem_tail (List.of_mem_zip hw).2)).1
  have hup : ByteRange.upTo w.1 w.2 = some _ := dif_pos ⟨hlt, Nat.le_of_lt_succ hle⟩
  exact ⟨_, by rw [window, hup], hup⟩

variable {kernel : IndexSet}

/-- After a byte, no thread of a kernel has left the program. -/
theorem lt_of_mem_movers (hp : p.Valid) {w : ByteRange} {x : Nat} (h : x ∈ p.movers kernel w) :
    x < p.size := by
  obtain ⟨c, hc, hx⟩ := List.mem_filterMap.mp h
  split at hx
  · obtain rfl := Option.some.inj hx
    exact hp.succ_lt (Program.mem_consumers.mp hc).2 rfl
  · cases hx

theorem kernelMove_eq_ok (hp : p.Valid) (w : ByteRange) :
    kernelMove p kernel w = .ok (p.kernelMove kernel w) := by
  have hlt : ∀ x ∈ p.movers kernel w, x < p.size := fun x hx => lt_of_mem_movers hp hx
  unfold kernelMove Program.kernelMove
  cases hw : p.movers kernel w with
  | nil => rfl
  | cons x xs =>
    rw [hw] at hlt
    simp only
    rw [kernelOf_eq_ok hp hlt]
    rfl

theorem kernelMoves_eq_ok (hp : p.Valid) (hkernel : ∀ pc ∈ kernel, p.isKernelInst pc = true) :
    kernelMoves p kernel = .ok (p.kernelMoves kernel) := by
  have hinsts := mapM_eq_ok fun pc hpc => kernelInst_eq_ok (hkernel pc hpc)
  rw [kernelMoves, hinsts]
  show (List.mapM window _ >>= _) = _
  rw [mapM_window_eq_ok]
  show (List.mapM (kernelMove p kernel) _ >>= _) = _
  rw [mapM_eq_ok_map fun w _ => kernelMove_eq_ok hp w]
  show Except.ok _ = Except.ok _
  rw [List.filterMap_map]
  rfl

theorem isKernelInst_of_mem_kernels (hkernel : kernel ∈ p.kernels.found) :
    ∀ pc ∈ kernel, p.isKernelInst pc = true := by
  have hkernelOf : ∀ pcs, ∀ pc ∈ p.kernelOf pcs, p.isKernelInst pc = true :=
    fun pcs pc hpc => (Program.mem_kernelOf.mp hpc).2
  refine Exploration.of_mem_found_walk (P := fun s => ∀ pc ∈ s, p.isKernelInst pc = true)
    (fun s _ t ht => ?_) (fun s hs => ?_) (fun s hs => ?_) kernel hkernel
  · obtain ⟨m, hm, rfl⟩ := List.mem_map.mp ht
    rw [(Program.mem_kernelMoves.mp hm).2.2]
    exact hkernelOf _
  · exact List.mem_singleton.mp hs ▸ hkernelOf [0]
  · exact List.mem_singleton.mp hs ▸ hkernelOf [0]

theorem blockOf_eq_ok (hp : p.Valid) (hkernel : kernel ∈ p.kernels.found) (found : List IndexSet) :
    blockOf p found kernel = .ok (p.blockOf found kernel) := by
  rw [blockOf, kernelMoves_eq_ok hp (isKernelInst_of_mem_kernels hkernel)]
  rfl

/-- An edge of a block leads to a block. -/
theorem edgeTarget_eq_ok {e : ByteRange × Nat}
    (he : e ∈ p.kernelBlocks.flatMap Program.Block.edges) :
    ∃ block, edgeTarget p.kernelBlocks e = .ok block ∧ p.kernelBlocks[e.2]? = some block := by
  obtain ⟨block, hblock, he⟩ := List.mem_flatMap.mp he
  have htarget := List.getElem?_eq_getElem (p.joined_kernelBlocks block hblock e he)
  exact ⟨_, by rw [edgeTarget, htarget], htarget⟩

/-- Making a valid program deterministic does not trap. -/
theorem toDeterministic_eq_ok (hp : p.Valid) : toDeterministic p = .ok p.toDeterministic := by
  unfold toDeterministic
  cases hdet : p.isDeterministic with
  | true => rw [if_pos rfl, Program.toDeterministic, if_pos hdet]
  | false =>
    have hstart : kernelOf p [0] = .ok (p.kernelOf [0]) :=
      kernelOf_eq_ok hp fun x hx => List.mem_singleton.mp hx ▸ hp.size_pos
    rw [if_neg Bool.false_ne_true, hstart]
    show (List.mapM (blockOf p _) _ >>= _) = _
    rw [mapM_eq_ok_map fun _ hkernel => blockOf_eq_ok hp hkernel _,
      Program.toDeterministic_eq_ofBlocks hdet]
    show ((p.kernelBlocks.flatMap Program.Block.edges).mapM (edgeTarget p.kernelBlocks) >>= _) = _
    rw [mapM_eq_ok fun _ he => edgeTarget_eq_ok he]
    rfl

/-! ## Finding matches -/

theorem find_eq_ok {s : Simulator} (hp : s.program.Valid) (hsized : s.threads.Sized s.program.size)
    (text : Bytes) (tc : Nat) : find s text tc = .ok (Engine.find s text tc) := by
  rw [find, run_eq_ok hp hsized]
  rfl

/-- A run with one thread that returns does not trap. -/
theorem follow_eq_ok {text : Bytes} (h : (Direct.run p text tc).Returns) :
    follow p text tc = .ok (Direct.run p text tc).finding := by
  have hnone : haltTrap? (Direct.run p text tc).halt = none := by
    rcases h with h | h
    all_goals rw [h]; rfl
  rw [follow]
  simp only [hnone]

end Checked

/-! ## Steps of a scan -/

/-- An engine is never trapped: with some property, which it has and keeps, its checked search
    returns what the search finds. -/
def CheckedEngine.Untrapped {ε : Type} [CheckedEngine ε] (engine : ε) : Prop :=
  ∃ P : ε → Prop, P engine ∧ ∀ e, P e → ∀ (text : Bytes) (tc : Nat),
    checkedFind e text tc = .ok (Engine.find e text tc) ∧ P (Engine.find e text tc).2

/-- A valid program that is run with threads is never trapped. -/
theorem Simulator.untrapped {p : Program} (hp : p.Valid) :
    CheckedEngine.Untrapped (ofProgram p) := by
  refine ⟨fun e => e.program.Valid ∧ e.threads.Sized e.program.size,
    ⟨hp, Threads.sized_forProgram p⟩, ?_⟩
  intro e he text tc
  exact ⟨Checked.find_eq_ok he.1 he.2 text tc, he.1, Simulation.sized_run he.2 text tc⟩

/-- A valid program is never trapped by following its one thread. -/
theorem Runner.untrapped {runner : Runner} (hp : runner.program.Valid) :
    CheckedEngine.Untrapped runner := by
  refine ⟨(· = runner), rfl, ?_⟩
  rintro e rfl text tc
  have hfollow := Checked.follow_eq_ok (hp.returns_run e.deterministic text tc)
  refine ⟨?_, rfl⟩
  show (Checked.follow e.program text tc).map _ = _
  rw [hfollow]
  rfl

namespace Scanner

section

variable {ε : Type} [Engine ε] {P : ε → Prop} {s : Scanner ε}

theorem engine_step (hfind : ∀ e, P e → ∀ (text : Bytes) (tc : Nat), P (Engine.find e text tc).2)
    (h : P s.engine) (tc : Nat) : P (s.step tc).2.engine := by
  unfold step
  split
  · exact h
  · split
    · exact h
    · unfold conclude
      split <;> exact hfind s.engine h s.text tc

/-- What an engine keeps when it is asked, it keeps through the steps of a scan. -/
theorem engine_steps (hfind : ∀ e, P e → ∀ (text : Bytes) (tc : Nat), P (Engine.find e text tc).2)
    (h : P s.engine) (cursors : List Nat) : P (s.steps cursors).engine := by
  induction cursors generalizing s with
  | nil => exact h
  | cons tc cursors ih => exact ih (engine_step hfind h tc)

end

variable {ε : Type} [CheckedEngine ε] {s : Scanner ε} {engine : ε} {text : Bytes}
    {tc : Nat} {trap : Trap}

theorem checkedStep_eq_ok (h : CheckedEngine.checkedFind s.engine s.text tc =
    .ok (Engine.find s.engine s.text tc)) : s.checkedStep tc = .ok (s.step tc) := by
  unfold checkedStep step
  split
  · rfl
  · split
    · rfl
    · rw [h]
      rfl

theorem checkedStep_eq_error (hs : s.finished = false) (htc : tc < s.text.length)
    (h : CheckedEngine.checkedFind s.engine s.text tc = .error trap) :
    s.checkedStep tc = .error trap := by
  rw [checkedStep, if_neg (Bool.not_eq_true _ ▸ hs), if_neg (Nat.not_le_of_lt htc), h]
  rfl

/-- A scan with an engine that is never trapped answers as if nothing were checked. -/
theorem checkedAnswer_eq_ok (h : CheckedEngine.Untrapped engine) (text : Bytes)
    (before : List Nat) (tc : Nat) :
    (start engine text).checkedAnswer before tc =
      .ok (((start engine text).steps before).step tc).1 := by
  obtain ⟨P, hengine, hfind⟩ := h
  suffices hscan : ∀ s : Scanner ε, P s.engine →
      s.checkedAnswer before tc = .ok ((s.steps before).step tc).1 from
    hscan _ hengine
  induction before with
  | nil =>
    intro s hs
    rw [checkedAnswer, checkedStep_eq_ok (hfind s.engine hs s.text tc).1]
    rfl
  | cons c before ih =>
    intro s hs
    rw [checkedAnswer, checkedStep_eq_ok (hfind s.engine hs s.text c).1]
    exact ih _ (engine_step (fun e he text tc => (hfind e he text tc).2) hs c)

/-- A scan with an engine that is trapped at every cursor of the text is trapped, whatever its first
    cursor is. -/
theorem checkedAnswer_eq_error {before : List Nat}
    (h : ∀ tc, CheckedEngine.checkedFind engine text tc = .error trap)
    (hbefore : ∀ c ∈ before, c < text.length) (htc : tc < text.length) :
    (start engine text).checkedAnswer before tc = .error trap := by
  have hstep : ∀ c, c < text.length → (start engine text).checkedStep c = .error trap :=
    fun c hc => checkedStep_eq_error rfl hc (h c)
  cases before with
  | nil =>
    rw [checkedAnswer, hstep tc htc]
    rfl
  | cons c before =>
    rw [checkedAnswer, hstep c (hbefore c (List.mem_cons_self ..))]
    rfl

end Scanner

/-! ## Programs -/

/-- No engine is trapped by a program. The steps of a scan that runs it with threads return what
    they find, whatever steps came before, and so do the search for an empty match and the
    construction of a deterministic program. If the program is deterministic, following its one
    thread ends at a `fail` or at the end of the input: the run does not leave the program, comes to
    no instruction that needs several threads, and does not come back to an offset before it
    consumes a byte. -/
structure Program.Untrapped (p : Program) : Prop where
  find_eq_ok : ∀ (text : Bytes) (before : List Nat) (tc : Nat),
    Checked.find ((Scanner.start (Simulator.ofProgram p) text).steps before).engine text tc =
      .ok (Engine.find ((Scanner.start (Simulator.ofProgram p) text).steps before).engine text tc)
  matchesEmpty_eq_ok : Checked.matchesEmpty p = .ok p.matchesEmpty
  toDeterministic_eq_ok : Checked.toDeterministic p = .ok p.toDeterministic
  returns_run : p.isDeterministic = true → ∀ (text : Bytes) (tc : Nat),
    (Direct.run p text tc).Returns

/-- A valid program traps no engine. -/
theorem Program.Valid.untrapped {p : Program} (hp : p.Valid) : p.Untrapped where
  find_eq_ok text before tc := by
    obtain ⟨P, hengine, hfind⟩ := Simulator.untrapped hp
    have hsteps := Scanner.engine_steps (fun e he text tc => (hfind e he text tc).2)
      (s := Scanner.start (Simulator.ofProgram p) text) hengine before
    exact (hfind _ hsteps text tc).1
  matchesEmpty_eq_ok := Checked.matchesEmpty_eq_ok hp
  toDeterministic_eq_ok := Checked.toDeterministic_eq_ok hp
  returns_run hdet text tc := hp.returns_run hdet text tc

/-- A program that was read traps no engine. -/
theorem Program.untrapped_of_read {source : String} {p : Program}
    (h : Program.read source = .ok p) : p.Untrapped :=
  (valid_of_read h).untrapped

/-- A program that has a `branch` among instructions for several threads, and threads that go round
    and round. -/
theorem Program.untrapped_of_read_mixed : ∃ p,
    Program.read "SPLIT 1 4\nCHJMP 97 99\nJMP 0\nJMP 1\nCHAR 98 98\nMATCH 2" = .ok p ∧
      p.Untrapped := by
  have hread : Program.read "SPLIT 1 4\nCHJMP 97 99\nJMP 0\nJMP 1\nCHAR 98 98\nMATCH 2" =
      .ok ⟨#[.split 1 4, .branch ⟨97, 99, by decide⟩, .jump 0, .jump 1,
        .consume (.single 98), .accept 2]⟩ := by
    decide +kernel
  exact ⟨_, hread, untrapped_of_read hread⟩

end Munch

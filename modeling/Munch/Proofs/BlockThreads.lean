import Munch.Proofs.Blocks
import Munch.Proofs.Tracking

set_option autoImplicit false

/-! # Running a program made of blocks with threads

A deterministic program can be run with threads as well. In a program made of blocks they are spread
over one block only: those that branch after branch has missed, and a `jump` to the block. At most
one of the branches takes the next byte, and leads to a `jump` again. So the machine of the blocks
keeps track of the threads (`tracks_blockMachine`), and the run finds what the machine finds
(`Simulation.run_ofBlocks`). -/

namespace Munch

namespace Program

variable {p : Program} {byte : Option UInt8} {b : UInt8} {a c d x pc : Nat} {offset : Nat → Nat}
  {edges : Edges}

/-! ## Passing single instructions -/

/-- Control passes from an offset to another one and nowhere else, and takes no byte. -/
def PassesTo (p : Program) (a c : Nat) : Prop :=
  (∀ byte x, p.PassStep byte a x ↔ x = c) ∧ ∀ b, ¬ p.Takes b a

theorem PassesTo.pass_iff (h : p.PassesTo a c) : p.Pass byte a x ↔ x = a ∨ p.Pass byte c x :=
  pass_iff_of_step (h.1 byte)

theorem not_takes {inst : Inst} (h : p.insts[a]? = some inst) (hconsume : ∀ r, inst ≠ .consume r)
    (hbranch : ∀ r, inst ≠ .branch r) : ¬ p.Takes b a := by
  intro ⟨r, hr, _⟩
  rw [h] at hr
  rcases hr with hr | hr
  · exact hconsume r (Option.some.inj hr)
  · exact hbranch r (Option.some.inj hr)

theorem passesTo_jump (h : p.insts[a]? = some (.jump c)) : p.PassesTo a c := by
  refine ⟨fun byte x => ?_, fun b => not_takes h (by simp) (by simp)⟩
  simp [PassStep, emptySteps, h]

theorem passesTo_accept (hdet : p.isDeterministic = true) {k : Nat}
    (h : p.insts[a]? = some (.accept k)) : p.PassesTo a (a + 1) := by
  refine ⟨fun byte x => ?_, fun b => not_takes h (by simp) (by simp)⟩
  simp [PassStep, emptySteps, h, hdet]

/-- Control passes a `branch` if there is a byte and it misses. -/
theorem passStep_branch {r : ByteRange} (h : p.insts[a]? = some (.branch r)) :
    p.PassStep byte a x ↔ ∃ b, byte = some b ∧ b ∉ r ∧ x = a + 2 := by
  simp [PassStep, emptySteps, h]

theorem pass_branch_miss {r : ByteRange} (h : p.insts[a]? = some (.branch r)) (hb : b ∉ r) :
    p.Pass (some b) a x ↔ x = a ∨ p.Pass (some b) (a + 2) x :=
  pass_iff_of_step fun x => by simp [passStep_branch h, hb]

theorem eq_of_pass_branch_hit {r : ByteRange} (h : p.insts[a]? = some (.branch r)) (hb : b ∈ r)
    (hpass : p.Pass (some b) a x) : x = a :=
  (pass_iff_of_stuck fun x => by simp [passStep_branch h, hb]).mp hpass

theorem eq_of_pass_fail (h : p.insts[a]? = some .fail) (hpass : p.Pass byte a x) : x = a :=
  (pass_iff_of_stuck fun x => by simp [PassStep, emptySteps, h]).mp hpass

theorem takes_branch_iff {r : ByteRange} (h : p.insts[a]? = some (.branch r)) :
    p.Takes b a ↔ b ∈ r := by
  simp [Takes, h]

/-! ## Passing the edges of a block -/

/-- The edges of a block do not accept. -/
theorem pattern?_of_pass_edges (hcode : p.Holds pc (edgesCode offset edges))
    (hpass : p.Pass byte pc x) : p.pattern? x = none := by
  induction edges generalizing pc with
  | nil =>
    have hfail := holds_edgesCode_nil.mp hcode
    rw [eq_of_pass_fail hfail hpass, pattern?, hfail]
  | cons e edges ih =>
    obtain ⟨r, y⟩ := e
    obtain ⟨hbranch, _, hcode⟩ := holds_edgesCode_cons.mp hcode
    rcases Program.pass_iff.mp hpass with rfl | ⟨z, hz, hzx⟩
    · rw [pattern?, hbranch]
    · obtain ⟨_, _, _, rfl⟩ := (passStep_branch hbranch).mp hz
      exact ih hcode hzx

/-- No edge takes a byte that none of the edges has. -/
theorem not_takes_of_pass_edges (hcode : p.Holds pc (edgesCode offset edges))
    (hnone : edges.target? b = none) (hpass : p.Pass (some b) pc d) : ¬ p.Takes b d := by
  induction edges generalizing pc with
  | nil =>
    have hfail := holds_edgesCode_nil.mp hcode
    rw [eq_of_pass_fail hfail hpass]
    exact not_takes hfail (by simp) (by simp)
  | cons e edges ih =>
    obtain ⟨r, y⟩ := e
    obtain ⟨hbranch, _, hcode⟩ := holds_edgesCode_cons.mp hcode
    rw [Edges.target?_cons] at hnone
    by_cases hb : r.contains b = true
    · simp [hb] at hnone
    · have hmiss : b ∉ r := fun h => hb (ByteRange.contains_iff.mpr h)
      rw [if_neg hb] at hnone
      rcases (pass_branch_miss hbranch hmiss).mp hpass with rfl | hpass
      · rwa [takes_branch_iff hbranch]
      · exact ih hcode hnone hpass

/-- The first edge that has a byte is the only one that takes it, and a `jump` follows. -/
theorem exists_takes_edges (hcode : p.Holds pc (edgesCode offset edges)) {t : Nat}
    (hsome : edges.target? b = some t) : ∃ e, p.insts[e + 1]? = some (.jump (offset t)) ∧
      ∀ d, (p.Pass (some b) pc d ∧ p.Takes b d) ↔ d = e := by
  induction edges generalizing pc with
  | nil => simp at hsome
  | cons e edges ih =>
    obtain ⟨r, y⟩ := e
    obtain ⟨hbranch, hjump, hcode⟩ := holds_edgesCode_cons.mp hcode
    rw [Edges.target?_cons] at hsome
    by_cases hb : r.contains b = true
    · have hhit : b ∈ r := ByteRange.contains_iff.mp hb
      rw [if_pos hb] at hsome
      obtain rfl := Option.some.inj hsome
      refine ⟨pc, hjump, fun d => ?_⟩
      constructor
      · exact fun hd => eq_of_pass_branch_hit hbranch hhit hd.1
      · rintro rfl
        exact ⟨.refl p _ _, (takes_branch_iff hbranch).mpr hhit⟩
    · have hmiss : b ∉ r := fun h => hb (ByteRange.contains_iff.mpr h)
      rw [if_neg hb] at hsome
      obtain ⟨e, he, hiff⟩ := ih hcode hsome
      refine ⟨e, he, fun d => ?_⟩
      rw [← hiff, pass_branch_miss hbranch hmiss]
      constructor
      · intro ⟨hpass, htakes⟩
        rcases hpass with rfl | hpass
        · exact absurd ((takes_branch_iff hbranch).mp htakes) hmiss
        · exact ⟨hpass, htakes⟩
      · exact fun ⟨hpass, htakes⟩ => ⟨.inr hpass, htakes⟩

/-! ## Passing a block -/

variable {blocks : List Block} {block : Block} {j : Nat}

/-- An offset is the start of a block, or a `jump` to the start. -/
def Enters (blocks : List Block) (c j : Nat) : Prop :=
  c = blockOffset blocks j ∨ (ofBlocks blocks).insts[c]? = some (.jump (blockOffset blocks j))

theorem Enters.lt_size (h : Enters blocks c j) (hj : j < blocks.length) :
    c < (ofBlocks blocks).size := by
  rcases h with rfl | hjump
  · rw [size_ofBlocks]
    exact blockOffset_lt hj (Nat.le_refl _)
  · exact (Array.getElem?_eq_some_iff.mp hjump).1

/-- Where a block is entered, control passes to its start, and nothing else happens on the way. -/
theorem Enters.pass_iff (h : Enters blocks c j) :
    (ofBlocks blocks).Pass byte c x ↔
      (x = c ∧ (ofBlocks blocks).insts[c]? = some (.jump (blockOffset blocks j))) ∨
        (ofBlocks blocks).Pass byte (blockOffset blocks j) x := by
  rcases h with rfl | hjump
  · constructor
    · exact .inr
    · rintro (⟨rfl, hjump⟩ | hpass)
      · exact .refl _ _ _
      · exact hpass
  · rw [(passesTo_jump hjump).pass_iff, and_iff_left hjump]

/-- From the start of a block, control passes to its edges, and to its `accept` if it has one. -/
theorem pass_block_iff (hblock : blocks[j]? = some block) :
    (ofBlocks blocks).Pass byte (blockOffset blocks j) x ↔
      (x = blockOffset blocks j ∧ block.accept?.isSome = true) ∨
        (ofBlocks blocks).Pass byte (blockOffset blocks j + block.accept?.toList.length) x := by
  cases haccept : block.accept? with
  | none => simp
  | some k =>
    have hget := getElem?_accept hblock haccept
    rw [(passesTo_accept (isDeterministic_ofBlocks blocks) hget).pass_iff]
    simp

/-- Where a block is entered, the pattern of the block is all that is accepted before a byte is
    consumed. -/
theorem Enters.pattern?_iff (h : Enters blocks c j) (hblock : blocks[j]? = some block)
    (byte : Option UInt8) {k : Nat} :
    (∃ x, (ofBlocks blocks).Pass byte c x ∧ (ofBlocks blocks).pattern? x = some k) ↔
      block.accept? = some k := by
  constructor
  · intro ⟨x, hpass, hk⟩
    rcases h.pass_iff.mp hpass with ⟨rfl, hjump⟩ | hpass
    · rw [pattern?, hjump] at hk
      simp at hk
    · rcases (pass_block_iff hblock).mp hpass with ⟨rfl, hsome⟩ | hpass
      · obtain ⟨k', hk'⟩ := Option.isSome_iff_exists.mp hsome
        rw [pattern?, getElem?_accept hblock hk'] at hk
        rw [hk', ← hk]
      · rw [pattern?_of_pass_edges (holds_edges hblock) hpass] at hk
        simp at hk
  · intro hk
    refine ⟨blockOffset blocks j, h.pass_iff.mpr (.inr (.refl _ _ _)), ?_⟩
    rw [pattern?, getElem?_accept hblock hk]

/-- Where a block is entered, only its edges take a byte. -/
theorem Enters.takes_iff (h : Enters blocks c j) (hblock : blocks[j]? = some block) :
    ((ofBlocks blocks).Pass (some b) c d ∧ (ofBlocks blocks).Takes b d) ↔
      (ofBlocks blocks).Pass (some b) (blockOffset blocks j + block.accept?.toList.length) d ∧
        (ofBlocks blocks).Takes b d := by
  refine and_congr_left fun htakes => ?_
  constructor
  · intro hpass
    rcases h.pass_iff.mp hpass with ⟨rfl, hjump⟩ | hpass
    · exact absurd htakes ((passesTo_jump hjump).2 b)
    · rcases (pass_block_iff hblock).mp hpass with ⟨rfl, hsome⟩ | hpass
      · obtain ⟨k, hk⟩ := Option.isSome_iff_exists.mp hsome
        have hget := getElem?_accept hblock hk
        exact absurd htakes ((passesTo_accept (isDeterministic_ofBlocks blocks) hget).2 b)
      · exact hpass
  · intro hpass
    exact h.pass_iff.mpr (.inr ((pass_block_iff hblock).mpr (.inr hpass)))

/-- Some offsets are those that are reached where a block is entered. -/
def IsBlockOf (blocks : List Block) (C : Nat → Prop) (j : Nat) : Prop :=
  j < blocks.length ∧ ∃ c, Enters blocks c j ∧
    ∀ x, C x ↔ x < (ofBlocks blocks).size ∧ (ofBlocks blocks).Reach c x

namespace IsBlockOf

variable {C : Nat → Prop}

theorem exists_block (h : IsBlockOf blocks C j) : ∃ block, blocks[j]? = some block :=
  ⟨_, List.getElem?_eq_getElem h.1⟩

theorem exists_enters (h : IsBlockOf blocks C j) : ∃ c, Enters blocks c j ∧
    ∀ byte x, (∃ a, C a ∧ (ofBlocks blocks).Pass byte a x) ↔ (ofBlocks blocks).Pass byte c x := by
  obtain ⟨hj, c, henters, hC⟩ := h
  refine ⟨c, henters, fun byte x => ?_⟩
  constructor
  · intro ⟨a, ha, hax⟩
    exact ((hC a).mp ha).2.pass.trans hax
  · intro hx
    exact ⟨c, (hC c).mpr ⟨henters.lt_size hj, .refl _ c⟩, hx⟩

/-- The threads of a block accept its pattern and no other one. -/
theorem pattern?_iff (h : IsBlockOf blocks C j) (hblock : blocks[j]? = some block)
    (byte : Option UInt8) {k : Nat} :
    (∃ a, C a ∧ ∃ x, (ofBlocks blocks).Pass byte a x ∧ (ofBlocks blocks).pattern? x = some k) ↔
      block.accept? = some k := by
  obtain ⟨c, henters, hpass⟩ := h.exists_enters
  rw [← henters.pattern?_iff hblock byte]
  constructor
  · intro ⟨a, ha, x, hax, hk⟩
    exact ⟨x, (hpass byte x).mp ⟨a, ha, hax⟩, hk⟩
  · intro ⟨x, hx, hk⟩
    obtain ⟨a, ha, hax⟩ := (hpass byte x).mpr hx
    exact ⟨a, ha, x, hax, hk⟩

/-- The threads of a block come to what is reached after those of its edges that take the byte. -/
theorem after_iff (h : IsBlockOf blocks C j) (hblock : blocks[j]? = some block) :
    (ofBlocks blocks).After C b x ↔ x < (ofBlocks blocks).size ∧
      ∃ d, ((ofBlocks blocks).Pass (some b) (blockOffset blocks j + block.accept?.toList.length) d ∧
        (ofBlocks blocks).Takes b d) ∧ (ofBlocks blocks).Reach (d + 1) x := by
  obtain ⟨c, henters, hpass⟩ := h.exists_enters
  refine and_congr_right fun _ => ?_
  constructor
  · intro ⟨a, ha, d, had, htakes, hreach⟩
    exact ⟨d, (henters.takes_iff hblock).mp ⟨(hpass _ d).mp ⟨a, ha, had⟩, htakes⟩, hreach⟩
  · intro ⟨d, htaken, hreach⟩
    obtain ⟨hcd, htakes⟩ := (henters.takes_iff hblock).mpr htaken
    obtain ⟨a, ha, had⟩ := (hpass _ d).mpr hcd
    exact ⟨a, ha, d, had, htakes, hreach⟩

end IsBlockOf

/-- The machine of some blocks keeps track of the threads of their program. -/
theorem tracks_blockMachine (hlinked : Linked blocks) :
    (ofBlocks blocks).Tracks (blockMachine blocks) (IsBlockOf blocks) where
  accept := by
    intro C j hC byte ids hids
    obtain ⟨block, hblock⟩ := hC.exists_block
    have hmem : ∀ k, k ∈ ids ↔ block.accept? = some k :=
      fun k => (hids k).trans (hC.pattern?_iff hblock byte)
    have hmin : ids.min? = block.accept?.toList.min? :=
      min?_congr fun k => (hmem k).trans Option.mem_toList.symm
    rw [accept?_blockMachine hblock, hmin]
    cases block.accept? with
    | none => rfl
    | some k => rfl
  next_none := by
    intro C j hC b hnone x hx
    obtain ⟨block, hblock⟩ := hC.exists_block
    rw [next?_blockMachine hblock] at hnone
    obtain ⟨_, d, ⟨hpass, htakes⟩, _⟩ := (hC.after_iff hblock).mp hx
    exact not_takes_of_pass_edges (holds_edges hblock) hnone hpass htakes
  next_some := by
    intro C j hC b t hsome
    obtain ⟨block, hblock⟩ := hC.exists_block
    have ht := hlinked hsome
    rw [next?_blockMachine hblock] at hsome
    obtain ⟨e, hjump, he⟩ := exists_takes_edges (holds_edges hblock) hsome
    -- One edge takes the byte, and after it the next block is entered by a `jump`.
    have henters : Enters blocks (e + 1) t := .inr hjump
    have hafter : ∀ x, (ofBlocks blocks).After C b x ↔
        x < (ofBlocks blocks).size ∧ (ofBlocks blocks).Reach (e + 1) x := by
      intro x
      rw [hC.after_iff hblock]
      simp only [he, exists_eq_left]
    exact ⟨⟨e + 1, (hafter _).mpr ⟨henters.lt_size ht, .refl _ _⟩⟩, ht, e + 1, henters, hafter⟩

end Program

/-- A program made of blocks finds, run with threads, what the machine of the blocks finds. -/
theorem Simulation.run_ofBlocks {blocks : List Program.Block} (hlinked : Program.Linked blocks)
    (hpos : 0 < blocks.length) (text : Bytes) (tc : Nat) :
    (run (.ofBlocks blocks) (.forProgram (.ofBlocks blocks)) text tc).2 =
      (Program.blockMachine blocks).find 0 tc none (text.drop tc) :=
  run_eq (Program.tracks_blockMachine hlinked) ⟨hpos, 0, .inl rfl, fun _ => Iff.rfl⟩
    (ThreadList.capacity_empty _) (ThreadList.capacity_empty _) text tc

end Munch

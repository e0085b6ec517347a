import Mathlib.Data.List.DropRight
import Munch.Proofs.Worklist

set_option autoImplicit false

/-! # Lists of threads remember the order of insertion

A list of threads serves requests as a list of offsets without duplicates does, to which an offset
is appended if it is not a member (`ThreadList.serve_eq_ok`). Clearing the list leaves the entries
of `sparse` as they are, and they may point to places that other offsets get later. They do no harm:
an entry counts only if `dense` agrees with it, and the entries of the offsets that are listed are
right (`ThreadList.WellFormed`), whatever the others say.

So what a list holds depends on the requests alone. It holds the offsets that were inserted since it
was last cleared, each at the place of its first insertion (`ThreadList.keeps_insertion_order`). -/

namespace Munch

namespace ThreadList

/-! ## Requests -/

/-- What a list of threads can be asked for. -/
inductive Request where
  | insert (pc : Nat)
  | contains (pc : Nat)
  | get (i : Nat)
  | clear
  | iterate
  | size
deriving DecidableEq

/-- What a list of threads answers. -/
inductive Answer where
  | truth (b : Bool)
  | offset (pc? : Option Nat)
  | offsets (pcs : List Nat)
  | count (n : Nat)
  | done
deriving DecidableEq

/-- Serve one request. -/
def serve (l : ThreadList) : Request → Except Trap (Answer × ThreadList)
  | .insert pc => (Checked.insert l pc).map fun out => (.truth out.1, out.2)
  | .contains pc => .ok (.truth (l.contains pc), l)
  | .get i => .ok (.offset (l.get? i), l)
  | .clear => .ok (.done, l.clear)
  | .iterate => .ok (.offsets l.toList, l)
  | .size => .ok (.count l.size, l)

/-- Serve requests, and return the answers and the list as it is then. -/
def serveAll (l : ThreadList) : List Request → Except Trap (List Answer × ThreadList)
  | [] => .ok ([], l)
  | q :: qs => do
    let (answer, l) ← serve l q
    let (answers, l) ← serveAll l qs
    return (answer :: answers, l)

/-- What a list of offsets without duplicates answers to a request, and what becomes of it. -/
def Request.onList (pcs : List Nat) : Request → Answer × List Nat
  | insert pc => if pc ∈ pcs then (.truth false, pcs) else (.truth true, pcs ++ [pc])
  | contains pc => (.truth (decide (pc ∈ pcs)), pcs)
  | get i => (.offset pcs[i]?, pcs)
  | clear => (.done, [])
  | iterate => (.offsets pcs, pcs)
  | size => (.count pcs.length, pcs)

/-- What a list of offsets without duplicates answers to requests, and what becomes of it. -/
def Request.allOnList (pcs : List Nat) : List Request → List Answer × List Nat
  | [] => ([], pcs)
  | q :: qs =>
    let out := allOnList (q.onList pcs).2 qs
    ((q.onList pcs).1 :: out.1, out.2)

/-- The offset that a request inserts. -/
def Request.inserted? : Request → Option Nat
  | insert pc => some pc
  | _ => none

/-- The offsets that requests insert behind the last `clear` among them, in order and as often as
    they are inserted. -/
def insertedSince (qs : List Request) : List Nat :=
  (qs.rtakeWhile (· ≠ .clear)).filterMap Request.inserted?

/-! ## Serving requests as a list does -/

variable {size pc : Nat} {l : ThreadList} {pcs : List Nat} {q : Request} {qs : List Request}

/-- A list of threads for offsets below a size holds some offsets, in this order. -/
structure Holds (size : Nat) (pcs : List Nat) (l : ThreadList) : Prop where
  wellFormed : l.WellFormed
  capacity_eq : l.capacity = size
  toList_eq : l.toList = pcs

theorem holds_empty (size : Nat) : Holds size [] (.empty size) :=
  ⟨wellFormed_empty size, capacity_empty size, rfl⟩

theorem holds_clear (h : Holds size pcs l) : Holds size [] l.clear :=
  ⟨wellFormed_clear l, h.capacity_eq, rfl⟩

namespace Holds

variable (h : Holds size pcs l)

include h

theorem contains_iff : l.contains pc = true ↔ pc ∈ pcs := by
  rw [contains_iff_mem h.wellFormed, h.toList_eq]

theorem contains_eq (pc : Nat) : l.contains pc = decide (pc ∈ pcs) :=
  Bool.eq_iff_iff.mpr (h.contains_iff.trans decide_eq_true_iff.symm)

/-- Inserting an offset returns, and puts it behind the others if it is new. -/
theorem insert_eq_ok (hpc : pc < size) : ∃ l', Checked.insert l pc = .ok (decide (pc ∉ pcs), l') ∧
    Holds size (if pc ∈ pcs then pcs else pcs ++ [pc]) l' := by
  unfold Checked.insert
  by_cases hmem : pc ∈ pcs
  · rw [if_pos (h.contains_iff.mpr hmem), if_pos hmem, decide_eq_false (not_not.mpr hmem)]
    exact ⟨l, rfl, h⟩
  · have hc : l.contains pc = false := by rw [h.contains_eq, decide_eq_false hmem]
    have hlt : pc < l.capacity := h.capacity_eq ▸ hpc
    rw [hc, if_neg Bool.false_ne_true, if_neg (Nat.not_le_of_lt hlt), if_neg hmem,
      decide_eq_true hmem]
    refine ⟨l.insert pc, rfl, wellFormed_insert h.wellFormed pc,
      (capacity_insert l pc).trans h.capacity_eq, ?_⟩
    rw [toList_insert (accepts_iff.mpr ⟨hc, hlt⟩), h.toList_eq]

end Holds

/-- A request is answered as by the list of the offsets that are held, and keeps the two in step. -/
theorem serve_eq_ok (h : Holds size pcs l) (hq : ∀ pc, q = .insert pc → pc < size) :
    ∃ l', serve l q = .ok ((q.onList pcs).1, l') ∧ Holds size (q.onList pcs).2 l' := by
  cases q with
  | insert pc =>
    obtain ⟨l', hinsert, hl'⟩ := h.insert_eq_ok (hq pc rfl)
    rw [serve, hinsert]
    refine ⟨l', ?_⟩
    rw [Request.onList]
    by_cases hmem : pc ∈ pcs
    · rw [if_pos hmem] at hl'
      simpa [hmem, Except.map] using hl'
    · rw [if_neg hmem] at hl'
      simpa [hmem, Except.map] using hl'
  | contains pc => exact ⟨l, by rw [serve, h.contains_eq, Request.onList], h⟩
  | get i => exact ⟨l, by rw [serve, get?_eq_getElem?, h.toList_eq, Request.onList], h⟩
  | clear => exact ⟨l.clear, rfl, holds_clear h⟩
  | iterate => exact ⟨l, by rw [serve, h.toList_eq, Request.onList], h⟩
  | size =>
    have hsize : l.size = pcs.length := congrArg List.length h.toList_eq
    exact ⟨l, by rw [serve, hsize, Request.onList], h⟩

theorem serveAll_eq_ok (h : Holds size pcs l) (hqs : ∀ pc, .insert pc ∈ qs → pc < size) :
    ∃ l', serveAll l qs = .ok ((Request.allOnList pcs qs).1, l') ∧
    Holds size (Request.allOnList pcs qs).2 l' := by
  induction qs generalizing l pcs with
  | nil => exact ⟨l, rfl, h⟩
  | cons q qs ih =>
    obtain ⟨l₁, hserve, h₁⟩ := serve_eq_ok h fun pc hpc => hqs pc (hpc ▸ List.mem_cons_self)
    obtain ⟨l', hrest, h'⟩ := ih h₁ fun pc hpc => hqs pc (List.mem_cons_of_mem q hpc)
    refine ⟨l', ?_, h'⟩
    rw [serveAll, hserve]
    show (serveAll l₁ qs >>= _) = _
    rw [hrest]
    rfl

/-! ## What is held -/

theorem insertedSince_append (q : Request) :
    insertedSince (qs ++ [q]) = if q = .clear then []
    else insertedSince qs ++ q.inserted?.toList := by
  rw [insertedSince, List.rtakeWhile_concat]
  by_cases hq : q = .clear
  · simp [hq]
  · simp only [hq, ne_eq, not_false_eq_true, decide_true, if_true, if_false,
      List.filterMap_append, insertedSince]
    rw [List.filterMap_cons, List.filterMap_nil]
    cases q.inserted? <;> rfl

/-- An offset that is inserted again keeps its first place. -/
theorem eraseDups_append_singleton (pcs : List Nat) (pc : Nat) :
    (pcs ++ [pc]).eraseDups = if pc ∈ pcs.eraseDups then pcs.eraseDups
    else pcs.eraseDups ++ [pc] := by
  by_cases hmem : pc ∈ pcs <;> simp [List.eraseDups_append, List.removeAll,
    List.eraseDups_cons, hmem]

theorem allOnList_append_snd (q : Request) : ∀ pcs,
    (Request.allOnList pcs (qs ++ [q])).2 = (q.onList (Request.allOnList pcs qs).2).2 := by
  induction qs with
  | nil => exact fun _ => rfl
  | cons q' qs ih => exact fun pcs => ih (q'.onList pcs).2

/-- The plain list holds what was inserted since the last `clear`, each offset where it was inserted
    first. -/
theorem allOnList_snd_eq (qs : List Request) :
    (Request.allOnList [] qs).2 = (insertedSince qs).eraseDups := by
  -- From the end, since a `clear` does away with what comes before it.
  induction qs using List.reverseRecOn with
  | nil => rfl
  | append_singleton qs q ih =>
    rw [allOnList_append_snd, ih, insertedSince_append]
    cases q with
    | insert pc =>
      show (Request.onList (insertedSince qs).eraseDups (.insert pc)).2 =
        (insertedSince qs ++ [pc]).eraseDups
      rw [Request.onList, eraseDups_append_singleton]
      split <;> rfl
    | clear => rfl
    | contains | get | iterate | size => simp [Request.onList, Request.inserted?]

/-- A list of threads for offsets below a size is as some requests leave it: inserting an offset
    adds it exactly if it was not inserted since the last `clear`, the members are the offsets that
    were, and the list goes through them in the order in which they were first inserted. -/
structure Recalls (size : Nat) (qs : List Request) (l : ThreadList) : Prop where
  insert_eq : ∀ pc < size, ∃ l', Checked.insert l pc = .ok (decide (pc ∉ insertedSince qs), l')
  contains_iff : ∀ pc, l.contains pc = true ↔ pc ∈ insertedSince qs
  contains_eq_false : ∀ pc, size ≤ pc → l.contains pc = false
  toList_eq : l.toList = (insertedSince qs).eraseDups
  nodup : l.toList.Nodup
  size_le : l.size ≤ size

theorem Holds.recalls (h : Holds size (insertedSince qs).eraseDups l) : Recalls size qs l where
  insert_eq pc hpc := by
    obtain ⟨l', hinsert, -⟩ := h.insert_eq_ok hpc
    refine ⟨l', ?_⟩
    simpa only [List.mem_eraseDups] using hinsert
  contains_iff _ := h.contains_iff.trans List.mem_eraseDups
  contains_eq_false pc hpc := by
    by_contra hc
    have hlt := lt_capacity_of_contains (Bool.not_eq_false _ ▸ hc)
    exact absurd hpc (Nat.not_le_of_lt (h.capacity_eq ▸ hlt))
  toList_eq := h.toList_eq
  nodup := h.wellFormed.nodup
  size_le := h.capacity_eq ▸ h.wellFormed.size_le

/-- Whatever is asked of a list of threads for offsets below a size, one request after the other and
    with offsets below the size to insert, it is not trapped, answers as a plain list without
    duplicates does, and holds what was inserted since it was last cleared. -/
theorem keeps_insertion_order (size : Nat) (qs : List Request)
    (hqs : ∀ pc, .insert pc ∈ qs → pc < size) :
    ∃ l, serveAll (.empty size) qs = .ok ((Request.allOnList [] qs).1, l) ∧ Recalls size qs l := by
  obtain ⟨l, hserve, hl⟩ := serveAll_eq_ok (holds_empty size) hqs
  rw [allOnList_snd_eq] at hl
  exact ⟨l, hserve, hl.recalls⟩

/-- Behind a `clear`, the entries of two offsets point to the place that a third one gets. -/
theorem keeps_insertion_order_stale :
    let qs : List Request :=
  [.insert 2, .insert 0, .insert 2, .clear, .insert 1, .contains 2, .contains 7, .insert 2,
      .get 1, .size, .iterate]
    (∀ pc, .insert pc ∈ qs → pc < 3) ∧
      ∃ l, serveAll (.empty 3) qs = .ok ([.truth true, .truth true, .truth false, .done,
        .truth true, .truth false,
        .truth false, .truth true, .offset (some 2), .count 2, .offsets [1, 2]],
        l) ∧ Recalls 3 qs l := by
  intro qs
  have hqs : ∀ pc, .insert pc ∈ qs → pc < 3 := by simp [qs]
  exact ⟨hqs, keeps_insertion_order 3 qs hqs⟩

end ThreadList

end Munch

import Munch.Exploration
import Munch.Proofs.Machine

set_option autoImplicit false

/-! # What an exploration finds

An exploration finds its first set and, in whatever order it visits them, all sets that it leads to:
each once (`nodup_found`), and no others (`mem_found_iff`). -/

namespace Munch

namespace Exploration

theorem mem_fresh {s : IndexSet} {l : List IndexSet} : ∀ {found : List IndexSet},
    s ∈ fresh found l ↔ s ∈ l ∧ s ∉ found := by
  induction l with
  | nil => simp [fresh]
  | cons t rest ih =>
    intro found
    unfold fresh
    by_cases ht : t ∈ found
    · rw [if_pos (by simpa using ht), ih, List.mem_cons]
      constructor
      · rintro ⟨hs, hfound⟩
        exact ⟨.inr hs, hfound⟩
      · rintro ⟨rfl | hs, hfound⟩
        · exact absurd ht hfound
        · exact ⟨hs, hfound⟩
    · rw [if_neg (by simpa using ht), List.mem_cons, ih, List.mem_cons, List.mem_append,
        List.mem_singleton]
      by_cases hst : s = t
      · subst hst
        simp [ht]
      · simp [hst]

theorem nodup_append_fresh {l : List IndexSet} : ∀ {found : List IndexSet}, found.Nodup →
    (found ++ fresh found l).Nodup := by
  induction l with
  | nil => simp [fresh]
  | cons t rest ih =>
    intro found hfound
    unfold fresh
    by_cases ht : t ∈ found
    · rw [if_pos (by simpa using ht)]
      exact ih hfound
    · rw [if_neg (by simpa using ht), List.append_cons]
      refine ih (List.nodup_append.mpr ⟨hfound, by simp, fun a ha b hb => ?_⟩)
      rw [List.mem_singleton.mp hb]
      rintro rfl
      exact ht ha

theorem mem_enqueue {turn : Turn} {new waiting : List IndexSet} {s : IndexSet} :
    s ∈ turn.enqueue new waiting ↔ s ∈ new ∨ s ∈ waiting := by
  cases turn <;> simp [Turn.enqueue, or_comm]

section Walk

variable {n : Nat} {turn : Turn} {next : IndexSet → List IndexSet}
  {bounded : ∀ s, ∀ t ∈ next s, t ∈ IndexSet.subsets n} {found waiting : List IndexSet}

theorem prefix_found_walk (found waiting : List IndexSet) :
    found <+: (walk n turn next bounded found waiting).found := by
  fun_induction walk n turn next bounded found waiting with
  | case1 found => exact List.prefix_rfl
  | case2 found s rest new later ih => exact (List.prefix_append _ _).trans ih

theorem nodup_found_walk (h : found.Nodup) :
    (walk n turn next bounded found waiting).found.Nodup := by
  fun_induction walk n turn next bounded found waiting with
  | case1 found => exact h
  | case2 found s rest new later ih => exact ih (nodup_append_fresh h)

/-- What a set that was found leads to is found, if at first it was found or the set waits. -/
theorem closed_found_walk (h : ∀ s ∈ found, s ∈ waiting ∨ ∀ t ∈ next s, t ∈ found) :
    ∀ s ∈ (walk n turn next bounded found waiting).found,
      ∀ t ∈ next s, t ∈ (walk n turn next bounded found waiting).found := by
  fun_induction walk n turn next bounded found waiting with
  | case1 found => exact fun s hs => (h s hs).resolve_left (by simp)
  | case2 found s rest new later ih =>
    refine ih fun u hu => ?_
    rw [mem_enqueue, List.mem_append] at *
    rcases hu with hu | hu
    · rcases h u hu with hwait | hclosed
      · rcases List.mem_cons.mp hwait with rfl | hwait
        · refine .inr fun t ht => List.mem_append.mpr ?_
          by_cases hmem : t ∈ found
          · exact .inl hmem
          · exact .inr (mem_fresh.mpr ⟨ht, hmem⟩)
        · exact .inl (.inr hwait)
      · exact .inr fun t ht => List.mem_append_left _ (hclosed t ht)
    · exact .inl (.inl hu)

/-- What holds of the sets at first and is kept by what they lead to holds of all that is found. -/
theorem of_mem_found_walk {P : IndexSet → Prop} (hstep : ∀ s, P s → ∀ t ∈ next s, P t)
    (hfound : ∀ s ∈ found, P s) (hwaiting : ∀ s ∈ waiting, P s) :
    ∀ s ∈ (walk n turn next bounded found waiting).found, P s := by
  fun_induction walk n turn next bounded found waiting with
  | case1 found => exact hfound
  | case2 found s rest new later ih =>
    have hnew : ∀ t ∈ new, P t :=
      fun t ht => hstep s (hwaiting s (by simp)) t (mem_fresh.mp ht).1
    refine ih (fun t ht => ?_) fun t ht => ?_
    · exact (List.mem_append.mp ht).elim (hfound t) (hnew t)
    · exact (mem_enqueue.mp ht).elim (hnew t) fun ht => hwaiting t (by simp [ht])

end Walk

end Exploration

open Exploration

section Explore

variable (n : Nat) (turn : Turn) (next : IndexSet → List IndexSet)
  (bounded : ∀ s, ∀ t ∈ next s, t ∈ IndexSet.subsets n) (first : IndexSet)

/-- Every set is found once. -/
theorem nodup_found : (explore n turn next bounded first).found.Nodup :=
  nodup_found_walk (by simp)

/-- The first set is found first. -/
theorem head?_found : (explore n turn next bounded first).found.head? = some first := by
  obtain ⟨rest, h⟩ : [first] <+: (explore n turn next bounded first).found :=
    prefix_found_walk [first] [first]
  rw [← h]
  rfl

theorem first_mem_found : first ∈ (explore n turn next bounded first).found :=
  List.mem_of_mem_head? (head?_found n turn next bounded first)

/-- What a set that was found leads to is found. -/
theorem next_mem_found : ∀ s ∈ (explore n turn next bounded first).found,
    ∀ t ∈ next s, t ∈ (explore n turn next bounded first).found :=
  closed_found_walk fun _ hs => .inl hs

/-- The sets that an exploration finds are the states of the machine whose steps it follows. -/
theorem mem_found_iff {M : Machine IndexSet} (h : ∀ s t, t ∈ next s ↔ ∃ b, M.next? s b = some t)
    (s : IndexSet) : s ∈ (explore n turn next bounded first).found ↔ M.Reaches first s := by
  have hfirst : ∀ s ∈ [first], M.Reaches first s := by
    intro s hs
    rw [List.mem_singleton.mp hs]
    exact .refl M first
  constructor
  · refine of_mem_found_walk (fun s hs t ht => ?_) hfirst hfirst s
    obtain ⟨b, hb⟩ := (h s t).mp ht
    exact hs.next hb
  · intro hs
    refine hs.induct (first_mem_found n turn next bounded first) fun s t b hs ht => ?_
    exact next_mem_found n turn next bounded first s hs t ((h s t).mpr ⟨b, ht⟩)

end Explore

end Munch

import Munch.Byte.Set
import Munch.Program.Deterministic
import Munch.Proofs.IndexSet

set_option autoImplicit false

/-! # Windows and edges

The windows of some ranges cut the bytes where a range starts or has just ended. A range holds one
byte of a window only if it holds the whole window (`mem_iff_of_mem_windows`), and every byte of a
range lies in some window (`exists_mem_windows`). So what happens on a byte can be read off its
window.

Joining neighbouring edges changes no target (`Edges.target?_join`). -/

namespace Munch

/-! ## Neighbours in an ascending list -/

section Neighbours

variable {l : List Nat} {w : Nat × Nat} {c d n : Nat}

theorem mem_zip_tail_cons {a : Nat} (h : w ∈ l.zip l.tail) : w ∈ (a :: l).zip (a :: l).tail := by
  cases l with
  | nil => simp at h
  | cons b l => exact List.mem_cons_of_mem _ h

/-- No member of an ascending list lies between neighbours. -/
theorem le_or_le_of_mem_zip_tail (h : l.Pairwise (· < ·)) (hw : w ∈ l.zip l.tail) (hc : c ∈ l) :
    c ≤ w.1 ∨ w.2 ≤ c := by
  induction l with
  | nil => simp at hc
  | cons a l ih =>
    obtain ⟨ha, hl⟩ := List.pairwise_cons.mp h
    cases l with
    | nil => simp at hw
    | cons b l =>
      rcases List.mem_cons.mp hw with rfl | hlater
      · rcases List.mem_cons.mp hc with rfl | hc
        · exact .inl (Nat.le_refl _)
        · rcases List.mem_cons.mp hc with rfl | hc
          · exact .inr (Nat.le_refl _)
          · exact .inr (Nat.le_of_lt ((List.pairwise_cons.mp hl).1 c hc))
      · rcases List.mem_cons.mp hc with rfl | hc
        · exact .inl (Nat.le_of_lt (ha _ (List.of_mem_zip hlater).1))
        · exact ih hl hlater hc

/-- What lies between two members of an ascending list lies between neighbours. -/
theorem exists_mem_zip_tail (h : l.Pairwise (· < ·)) (hc : c ∈ l) (hd : d ∈ l) (hcn : c ≤ n)
    (hnd : n < d) : ∃ w ∈ l.zip l.tail, w.1 ≤ n ∧ n < w.2 := by
  induction l generalizing c with
  | nil => simp at hc
  | cons a l ih =>
    obtain ⟨ha, hl⟩ := List.pairwise_cons.mp h
    have hac : a ≤ c := by
      rcases List.mem_cons.mp hc with rfl | hc
      · exact Nat.le_refl _
      · exact Nat.le_of_lt (ha c hc)
    have hd : d ∈ l := (List.mem_cons.mp hd).resolve_left (by omega)
    cases l with
    | nil => simp at hd
    | cons b l =>
      by_cases hb : n < b
      · exact ⟨(a, b), by simp, by simpa using Nat.le_trans hac hcn, hb⟩
      · obtain ⟨w, hw, hn⟩ := ih hl (by simp) hd (Nat.le_of_not_lt hb)
        exact ⟨w, mem_zip_tail_cons hw, hn⟩

end Neighbours

namespace Program

variable {rs : List ByteRange} {r w : ByteRange} {b : UInt8}

theorem mem_cuts (hr : r ∈ rs) : r.lo.toNat ∈ cuts rs ∧ r.hi.toNat + 1 ∈ cuts rs := by
  have hlo := r.lo.toNat_lt
  have hhi := r.hi.toNat_lt
  simp only [cuts, IndexSet.mem_ofList, List.mem_flatMap]
  exact ⟨⟨by omega, r, hr, by simp⟩, ⟨by omega, r, hr, by simp⟩⟩

theorem ascending_cuts (rs : List ByteRange) : (cuts rs).Pairwise (· < ·) :=
  IndexSet.ascending_collect _ _

theorem exists_zip_of_mem_windows (hw : w ∈ windows rs) :
    (w.lo.toNat, w.hi.toNat + 1) ∈ (cuts rs).zip (cuts rs).tail := by
  obtain ⟨⟨x, y⟩, hxy, hup⟩ := List.mem_filterMap.mp hw
  obtain ⟨_, rfl, rfl⟩ := ByteRange.mem_upTo hup
  exact hxy

/-- A range that holds one byte of a window holds the window. -/
theorem mem_iff_of_mem_windows (hw : w ∈ windows rs) (hr : r ∈ rs) (hb : b ∈ w) :
    b ∈ r ↔ r.lo ≤ w.lo ∧ w.hi ≤ r.hi := by
  have hzip := exists_zip_of_mem_windows hw
  have hlo := le_or_le_of_mem_zip_tail (ascending_cuts rs) hzip (mem_cuts hr).1
  have hhi := le_or_le_of_mem_zip_tail (ascending_cuts rs) hzip (mem_cuts hr).2
  simp only [ByteRange.mem_iff_toNat, UInt8.le_iff_toNat_le] at *
  omega

/-- Every byte of a range lies in a window. -/
theorem exists_mem_windows (hr : r ∈ rs) (hb : b ∈ r) : ∃ w ∈ windows rs, b ∈ w := by
  obtain ⟨hlo, hhi⟩ := ByteRange.mem_iff_toNat.mp hb
  obtain ⟨⟨x, y⟩, hxy, hx, hy⟩ := exists_mem_zip_tail (ascending_cuts rs) (mem_cuts hr).1
    (mem_cuts hr).2 hlo (Nat.lt_succ_of_le hhi)
  have hy256 : y < 257 := (IndexSet.mem_ofList.mp (List.mem_of_mem_tail (List.of_mem_zip hxy).2)).1
  have hx : x ≤ b.toNat := hx
  have hy : b.toNat < y := hy
  obtain ⟨w, hup⟩ : ∃ w, ByteRange.upTo x y = some w :=
    ⟨_, dif_pos (by omega : x < y ∧ y ≤ 256)⟩
  obtain ⟨_, hwlo, hwhi⟩ := ByteRange.mem_upTo hup
  refine ⟨w, List.mem_filterMap.mpr ⟨(x, y), hxy, hup⟩, ?_⟩
  rw [ByteRange.mem_iff_toNat]
  omega

end Program

namespace Edges

/-- The target of the first edge that has a byte. -/
def target? (edges : Edges) (b : UInt8) : Option Nat := (edges.find? (·.1.contains b)).map (·.2)

@[simp] theorem target?_nil (b : UInt8) : target? [] b = none := rfl

theorem target?_cons (r : ByteRange) (x : Nat) (rest : Edges) (b : UInt8) :
    target? ((r, x) :: rest) b = if r.contains b then some x else target? rest b := by
  unfold target?
  rw [List.find?_cons]
  cases h : r.contains b <;> simp

theorem target?_cons_join (r : ByteRange) (x : Nat) (edges : Edges) (b : UInt8) :
    target? (cons r x edges) b = if r.contains b then some x else target? edges b := by
  cases edges with
  | nil => exact target?_cons r x [] b
  | cons e rest =>
    obtain ⟨s, y⟩ := e
    rw [cons]
    by_cases h : x = y ∧ r.hi.toNat + 1 = s.lo.toNat
    · obtain ⟨rfl, htouch⟩ := h
      have hs := s.toNat_lo_le_hi
      have hr := r.toNat_lo_le_hi
      have hmem : (r.hull s).contains b = (r.contains b || s.contains b) := by
        rw [Bool.eq_iff_iff, Bool.or_eq_true]
        simp only [ByteRange.contains_iff]
        exact ByteRange.mem_hull (by omega) (by omega)
      rw [if_pos ⟨rfl, htouch⟩, target?_cons, target?_cons, hmem]
      cases r.contains b <;> simp
    · rw [if_neg h, target?_cons]

/-- Joining edges keeps the target of every byte. -/
theorem target?_join (edges : Edges) (b : UInt8) : target? (join edges) b = target? edges b := by
  induction edges with
  | nil => rfl
  | cons e rest ih =>
    obtain ⟨r, x⟩ := e
    rw [join, target?_cons_join, ih, target?_cons]

theorem eq_or_mem_of_mem_cons {r : ByteRange} {x : Nat} {edges : Edges} {e : ByteRange × Nat}
    (h : e ∈ cons r x edges) : e.2 = x ∨ e ∈ edges := by
  cases edges with
  | nil =>
    rw [cons, List.mem_singleton] at h
    exact .inl (h ▸ rfl)
  | cons first rest =>
    obtain ⟨s, y⟩ := first
    rw [cons] at h
    split at h
    · rcases List.mem_cons.mp h with rfl | h
      · exact .inl rfl
      · exact .inr (List.mem_cons_of_mem _ h)
    · rcases List.mem_cons.mp h with rfl | h
      · exact .inl rfl
      · exact .inr h

/-- Joined edges lead to the same targets. -/
theorem exists_mem_of_mem_join {edges : Edges} {e : ByteRange × Nat} (h : e ∈ join edges) :
    ∃ e' ∈ edges, e'.2 = e.2 := by
  induction edges with
  | nil => cases h
  | cons first edges ih =>
    obtain ⟨r, x⟩ := first
    rcases eq_or_mem_of_mem_cons h with heq | hmem
    · exact ⟨(r, x), List.mem_cons_self, heq.symm⟩
    · obtain ⟨e', he', htarget⟩ := ih hmem
      exact ⟨e', List.mem_cons_of_mem _ he', htarget⟩

end Edges

end Munch

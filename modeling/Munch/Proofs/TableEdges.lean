import Munch.Proofs.BlockShape
import Munch.Proofs.Trim

set_option autoImplicit false

/-! # The edges out of a state of a table

The way through a row goes from one run of bytes with the same target to the next, and leaves out
the runs to the error state. So from any byte on, the edges have the bytes from there on that do not
lead to the error state (`Row.mem_edgesFrom`). They ascend, and edges that touch lead to different
states, as a run ends only where a byte leads elsewhere (`Table.showsRow_edges`). So the ranges to a
state are the maximal runs of the bytes that lead to it (`Table.mem_edges_iff`).

The tables here are those made from expressions, with or without their states merged (`Table.Made`).
An expression may be any, not only a set of complete patterns: some position always comes first,
since the end mark does if nothing stands before it (`Regex.exists_first_anchor`), so no such table
starts in the error state. -/

namespace Munch

theorem ByteRange.lo_mem (r : ByteRange) : r.lo ∈ r := mem_def.mpr ⟨UInt8.le_refl _, r.lo_le_hi⟩

/-! ## Runs of a row -/

namespace Row

variable {row : Row} {target byte x : Nat} {b : UInt8} {r : ByteRange}

/-- The bytes of a run lead to its target. -/
theorem entry_of_lt_runEnd (hle : byte ≤ b.toNat) (hlt : b.toNat < row.runEnd target byte) :
    row.entry b = target := by
  fun_induction runEnd row target byte with
  | case1 byte h heq ih =>
    rcases Nat.eq_or_lt_of_le hle with rfl | hle
    · exact heq
    · exact ih hle hlt
  | case2 => exact absurd hle (Nat.not_le.mpr hlt)
  | case3 => exact absurd hle (Nat.not_le.mpr hlt)

/-- The byte behind a run leads elsewhere. -/
theorem entry_runEnd (hb : b.toNat = row.runEnd target byte) : row.entry b ≠ target := by
  fun_induction runEnd row target byte with
  | case1 byte _ _ ih => exact ih hb
  | case2 byte _ hne =>
    subst hb
    exact hne
  | case3 byte h => exact absurd (hb ▸ b.toNat_lt) h

theorem mem_runRange {stop : Nat} {h} (hlt : byte < stop) (hle : stop ≤ 256) :
    b ∈ (⟨UInt8.ofNat byte, UInt8.ofNat (stop - 1), h⟩ : ByteRange) ↔ byte ≤ b.toNat ∧
    b.toNat < stop := by
  rw [ByteRange.mem_iff_toNat, UInt8.toNat_ofNat', UInt8.toNat_ofNat']
  omega

/-- The edges from a byte on have the bytes from there on that do not lead to the error state. -/
theorem mem_edgesFrom : (∃ r, (r, x) ∈ row.edgesFrom byte ∧ b ∈ r) ↔
    byte ≤ b.toNat ∧ row.entry b = x ∧ x ≠ Table.error := by
  fun_induction edgesFrom row byte with
  | case1 byte h target stop hlt herror ih =>
    rw [ih]
    refine ⟨fun ⟨hle, hb⟩ => ⟨Nat.le_trans (Nat.le_of_lt hlt) hle, hb⟩,
      fun ⟨hle, hb, hne⟩ => ⟨?_, hb, hne⟩⟩
    by_contra hin
    exact hne ((hb.symm.trans (entry_of_lt_runEnd hle (Nat.not_le.mp hin))).trans herror)
  | case2 byte h target stop hlt hne hle ih =>
    simp only [List.mem_cons, or_and_right, exists_or, ih, Prod.mk.injEq]
    constructor
    · rintro (⟨r, ⟨rfl, rfl⟩, hb⟩ | ⟨hge, hb⟩)
      · obtain ⟨hlo, hhi⟩ := (mem_runRange hlt hle).mp hb
        exact ⟨hlo, entry_of_lt_runEnd hlo hhi, hne⟩
      · exact ⟨Nat.le_trans (Nat.le_of_lt hlt) hge, hb⟩
    · rintro ⟨hlo, rfl, herror⟩
      rcases Nat.lt_or_ge b.toNat stop with hhi | hge
      · exact .inl ⟨_, ⟨rfl, entry_of_lt_runEnd hlo hhi⟩, (mem_runRange hlt hle).mpr ⟨hlo, hhi⟩⟩
      · exact .inr ⟨hge, rfl, herror⟩
  | case3 byte h =>
    refine iff_of_false nofun fun ⟨hle, _⟩ => ?_
    have hlt := b.toNat_lt
    omega

theorem le_lo_of_mem_edgesFrom (h : (r, x) ∈ row.edgesFrom byte) : byte ≤ r.lo.toNat :=
  (mem_edgesFrom.mp ⟨r, h, r.lo_mem⟩).1

theorem entry_lo_of_mem_edgesFrom (h : (r, x) ∈ row.edgesFrom byte) : row.entry r.lo = x :=
  (mem_edgesFrom.mp ⟨r, h, r.lo_mem⟩).2.1

/-- Each run ends where a byte leads elsewhere, so the edges are apart. -/
theorem pairwise_apart_edgesFrom (row : Row) (byte : Nat) :
    (row.edgesFrom byte).Pairwise Edges.Apart := by
  fun_induction edgesFrom row byte with
  | case1 byte h target stop hlt herror ih => exact ih
  | case2 byte h target stop hlt hne hle ih =>
    have hhi : (UInt8.ofNat (stop - 1)).toNat + 1 = stop := by
      rw [UInt8.toNat_ofNat']
      omega
    refine List.pairwise_cons.mpr ⟨fun f hf => ?_, ih⟩
    have hlo : stop ≤ f.1.lo.toNat := le_lo_of_mem_edgesFrom hf
    refine ⟨Nat.lt_of_succ_le (hhi.trans_le hlo), fun htouch heq => ?_⟩
    exact entry_runEnd (htouch.symm.trans hhi) ((entry_lo_of_mem_edgesFrom hf).trans heq.symm)
  | case3 => exact .nil

end Row

namespace Table

variable {t : Table} {s x : Nat} {b : UInt8} {r r' : ByteRange}

/-! ## The edges of a state -/

/-- Edges show where the bytes lead from a state: they ascend, those that touch lead to different
    states, and a byte is in an edge to a state exactly if it leads to that state, which is not the
    error state. -/
structure ShowsRow (t : Table) (s : Nat) (edges : Edges) : Prop where
  apart : edges.Pairwise Edges.Apart
  mem_iff : ∀ b x, (∃ r, (r, x) ∈ edges ∧ b ∈ r) ↔ t.next s b = x ∧ x ≠ error

/-- The edges out of a state show its row. -/
theorem showsRow_edges (t : Table) (s : Nat) : t.ShowsRow s (t.edges s) where
  apart := Row.pairwise_apart_edgesFrom _ _
  mem_iff _ _ := Row.mem_edgesFrom.trans (and_iff_right (Nat.zero_le _))

/-- What the edges out of a state show is where its bytes lead. -/
theorem ShowsRow.next_eq {u : Table} {edges : Edges} (ht : t.ShowsRow s edges)
    (hu : u.ShowsRow s edges) (b : UInt8) : t.next s b = u.next s b := by
  have hsame : ∀ x, (t.next s b = x ∧ x ≠ error) ↔ (u.next s b = x ∧ x ≠ error) := fun x =>
    (ht.mem_iff b x).symm.trans (hu.mem_iff b x)
  by_cases herror : u.next s b = error
  · rw [herror]
    by_contra hne
    exact hne (((hsame _).mp ⟨rfl, hne⟩).1.symm.trans herror)
  · exact ((hsame _).mpr ⟨rfl, herror⟩).1

/-! ## Maximal runs of bytes -/

/-- A range is a maximal run of bytes that lead from a state to another one. -/
structure IsRun (t : Table) (s x : Nat) (r : ByteRange) : Prop where
  next_eq : ∀ b ∈ r, t.next s b = x
  next_before : ∀ b : UInt8, b.toNat + 1 = r.lo.toNat → t.next s b ≠ x
  next_behind : ∀ b : UInt8, b.toNat = r.hi.toNat + 1 → t.next s b ≠ x

namespace ShowsRow

variable {edges : Edges}

/-- Two edges are apart, whichever comes first. -/
theorem apart_or_apart (h : t.ShowsRow s edges) {e f : ByteRange × Nat}
    (he : e ∈ edges) (hf : f ∈ edges) (hne : e ≠ f) : Edges.Apart e f ∨ Edges.Apart f e := by
  have hsymm : Std.Symm fun e f : ByteRange × Nat => Edges.Apart e f ∨ Edges.Apart f e :=
    ⟨fun _ _ => Or.symm⟩
  have heither : edges.Pairwise fun e f => Edges.Apart e f ∨ Edges.Apart f e := h.apart.imp .inl
  exact heither.forall he hf hne

/-- A byte that leads where an edge leads, but is not in the edge, does not touch it. -/
theorem not_touching (h : t.ShowsRow s edges) (hr : (r, x) ∈ edges)
    (hb : t.next s b = x) (hbr : b ∉ r) : b.toNat + 1 < r.lo.toNat ∨ r.hi.toNat + 1 < b.toNat := by
  have hne : x ≠ error := ((h.mem_iff r.lo x).mp ⟨r, hr, r.lo_mem⟩).2
  obtain ⟨r', hr', hbr'⟩ := (h.mem_iff b x).mpr ⟨hb, hne⟩
  have hdiff : (r, x) ≠ (r', x) := fun heq => hbr ((Prod.mk.inj heq).1 ▸ hbr')
  obtain ⟨hlo, hhi⟩ := ByteRange.mem_iff_toNat.mp hbr'
  have hgap : r.hi.toNat + 1 < r'.lo.toNat ∨ r'.hi.toNat + 1 < r.lo.toNat := by
    rcases h.apart_or_apart hr hr' hdiff with ⟨hlt, htouch⟩ | ⟨hlt, htouch⟩
    · exact .inl (Nat.lt_of_le_of_ne hlt fun heq => htouch heq rfl)
    · exact .inr (Nat.lt_of_le_of_ne hlt fun heq => htouch heq rfl)
  omega

theorem isRun (h : t.ShowsRow s edges) (hr : (r, x) ∈ edges) : t.IsRun s x r := by
  have hle := r.toNat_lo_le_hi
  refine ⟨fun b hb => ((h.mem_iff b x).mp ⟨r, hr, hb⟩).1, fun b hb hnext => ?_,
    fun b hb hnext => ?_⟩
  · have hout : b ∉ r := by
      rw [ByteRange.mem_iff_toNat]
      omega
    rcases h.not_touching hr hnext hout with hlt | hlt <;> omega
  · have hout : b ∉ r := by
      rw [ByteRange.mem_iff_toNat]
      omega
    rcases h.not_touching hr hnext hout with hlt | hlt <;> omega

end ShowsRow

/-- A maximal run reaches as far to both sides as any run that it shares a byte with. -/
theorem IsRun.bounds (hr : t.IsRun s x r) (hr' : ∀ b ∈ r', t.next s b = x)
    (hb : b ∈ r) (hb' : b ∈ r') : r.lo.toNat ≤ r'.lo.toNat ∧ r'.hi.toNat ≤ r.hi.toNat := by
  rw [ByteRange.mem_iff_toNat] at hb hb'
  have hlt := b.toNat_lt
  have hlt' := r'.hi.toNat_lt
  constructor
  · by_contra hbefore
    have hvalue : (UInt8.ofNat (r.lo.toNat - 1)).toNat = r.lo.toNat - 1 := by
      rw [UInt8.toNat_ofNat', Nat.mod_eq_of_lt (by omega)]
    refine hr.next_before (.ofNat (r.lo.toNat - 1)) (by omega)
      (hr' _ (ByteRange.mem_iff_toNat.mpr ?_))
    omega
  · by_contra hbehind
    have hvalue : (UInt8.ofNat (r.hi.toNat + 1)).toNat = r.hi.toNat + 1 := by
      rw [UInt8.toNat_ofNat', Nat.mod_eq_of_lt (by omega)]
    refine hr.next_behind (.ofNat (r.hi.toNat + 1)) hvalue (hr' _ (ByteRange.mem_iff_toNat.mpr ?_))
    omega

/-- Two maximal runs that lead to the same state are the same if they share a byte. -/
theorem IsRun.eq_of_mem (hr : t.IsRun s x r) (hr' : t.IsRun s x r') (hb : b ∈ r) (hb' : b ∈ r') :
    r = r' := by
  obtain ⟨hlo, hhi⟩ := hr.bounds hr'.next_eq hb hb'
  obtain ⟨hlo', hhi'⟩ := hr'.bounds hr.next_eq hb' hb
  rw [ByteRange.mk.injEq]
  exact ⟨UInt8.toNat_inj.mp (Nat.le_antisymm hlo hlo'),
    UInt8.toNat_inj.mp (Nat.le_antisymm hhi' hhi)⟩

/-- The edges to a state are the maximal runs of bytes that lead to it. -/
theorem mem_edges_iff : (r, x) ∈ t.edges s ↔ x ≠ error ∧ t.IsRun s x r := by
  have h := t.showsRow_edges s
  constructor
  · intro hr
    exact ⟨((h.mem_iff r.lo x).mp ⟨r, hr, r.lo_mem⟩).2, h.isRun hr⟩
  · rintro ⟨hne, hr⟩
    obtain ⟨r', hr', hlo'⟩ := (h.mem_iff r.lo x).mpr ⟨hr.next_eq _ r.lo_mem, hne⟩
    rwa [hr.eq_of_mem (h.isRun hr') r.lo_mem hlo']

end Table

/-! ## The first position -/

namespace Regex

variable {items : List Regex}

theorem firstAll_or_allNullable (h : ∀ r ∈ items, ∀ s, (∃ q, r.First s q) ∨ r.nullable = true)
    (s : Nat) : (∃ q, FirstAll s q items) ∨ allNullable items = true := by
  induction items generalizing s with
  | nil => exact .inr rfl
  | cons r rest ih =>
    obtain ⟨hr, hrest⟩ := List.forall_mem_cons.mp h
    rcases hr s with ⟨q, hq⟩ | hnull
    · exact .inl ⟨q, .inl hq⟩
    · rcases ih hrest (s + r.width) with ⟨q, hq⟩ | hall
      · exact .inl ⟨q, .inr ⟨hnull, hq⟩⟩
      · exact .inr (by rw [allNullable, hnull, hall]; rfl)

/-- An expression with no position that can come first matches the empty text. -/
theorem first_or_nullable (r : Regex) (s : Nat) : (∃ q, r.First s q) ∨ r.nullable = true := by
  induction r generalizing s with
  | byte | range | finish => exact .inl ⟨s, rfl⟩
  | oneOf c =>
    exact .inl ⟨s, Nat.le_refl _, Nat.lt_add_of_pos_right (List.length_pos_iff.mpr c.nonempty)⟩
  | cat items ih => exact firstAll_or_allNullable ih s
  | star | maybe => exact .inr rfl
  | plus r ih | pattern r ih => exact ih s
  | alt a b iha ihb | either a b iha ihb =>
    rcases iha s with ⟨q, hq⟩ | hnull
    · exact .inl ⟨q, .inl hq⟩
    · exact .inr (by rw [nullable, hnull, Bool.true_or])

/-- In front of an end mark some position comes first. -/
theorem exists_firstAll_concat (items : List Regex) (s : Nat) :
    ∃ q, FirstAll s q (items ++ [.finish]) := by
  induction items generalizing s with
  | nil => exact ⟨s, .inl rfl⟩
  | cons r rest ih =>
    rcases r.first_or_nullable s with ⟨q, hq⟩ | hnull
    · exact ⟨q, .inl hq⟩
    · obtain ⟨q, hq⟩ := ih (s + r.width)
      exact ⟨q, .inr ⟨hnull, hq⟩⟩

theorem exists_first_terminate (r : Regex) (s : Nat) : ∃ q, r.terminate.First s q := by
  cases r with
  | finish => exact ⟨s, rfl⟩
  | cat items =>
    rw [terminate]
    split
    · next hlast =>
      obtain ⟨init, rfl⟩ := List.getLast?_eq_some_iff.mp hlast
      exact exists_firstAll_concat init s
    · exact exists_firstAll_concat [.cat items] s
  | _ => exact exists_firstAll_concat [_] s

/-- Some position comes first in every set of patterns. -/
theorem exists_first_anchor (r : Regex) (s : Nat) : ∃ q, r.anchor.First s q := by
  induction r generalizing s with
  | either a b iha _ =>
    obtain ⟨q, hq⟩ := iha s
    exact ⟨q, .inl hq⟩
  | _ => exact exists_first_terminate _ s

end Regex

/-! ## Tables made from expressions -/

namespace Table

variable {t : Table} {s : Nat}

theorem mem_tail_range : s ∈ (List.range t.size).tail ↔ s ≠ error ∧ s < t.size := by
  rw [List.tail_range, List.mem_range'_1, error]
  omega

/-- The table of an expression, or what is left of a table if its states are merged. -/
inductive Made : Table → Prop
  | ofRegex (re : Regex) : Made (ofRegex re)
  | minimize {t : Table} (h : Made t) : Made t.minimize

theorem Made.wellFormed (h : t.Made) : t.WellFormed := by
  induction h with
  | ofRegex re => exact wellFormed_ofLabelled _
  | minimize _ ih =>
    obtain ⟨f, hmerges, -⟩ := exists_merges_minimize ih
    exact hmerges.wellFormed ih

theorem Made.size_accepting (h : t.Made) : t.accepting.size = t.size := by
  induction h with
  | ofRegex re => exact size_accepting_ofLabelled _
  | minimize _ ih => exact size_accepting_minimize ih

/-- The start is the first state after the error state. -/
theorem Made.start_eq_one (h : t.Made) : t.start = 1 := by
  induction h with
  | ofRegex re =>
    obtain ⟨q, hq⟩ := re.desugar.exists_first_anchor 0
    exact start_ofLabelled (List.ne_nil_of_mem ((Labelled.mem_start re).mpr hq))
  | minimize h ih => exact start_minimize h.wellFormed ih

end Table

end Munch

import Mathlib.Order.CompletePartialOrder
import Munch.Proofs.Generated
import Munch.Proofs.Tracking

set_option autoImplicit false

/-! # What the program of an expression accepts

Any expression has a program, also one with end marks in the middle of a body or with patterns
inside of patterns. An end mark has no code, so a body is read as if its marks were not there; a
pattern ends with its `accept`, and a thread that comes to it goes no further, so nothing behind an
inner pattern is read after it. Control leaves the code of an expression at its end, or by its open
operands (`Regex.falls`, `Regex.jumps`). Both lead to the same code, but for the left side of an
`either`: from its end, control passes on to the right side.

`Emitted` says where the code of an expression is and what its open operands lead to. What is
generated is emitted (`Emits.desugar`), and by induction on the relation a program accepts the texts
that `Regex.accepted` tells (`Program.run_iff_accepted`). -/

namespace Munch

open Computability

namespace Regex

mutual

/-- The texts on which control leaves the code of an expression, whose classes are spelled out, at
    its end. -/
def falls : Regex → Language UInt8
  | .byte b => {[b]}
  | .range r => language (.range r)
  | .finish => 1
  | .cat items => fallsAll items
  | .alt _ b => falls b
  | .maybe r => falls r
  | .either a b => (1 + falls a) * falls b
  | .star _ | .plus _ | .pattern _ | .oneOf _ => 0

/-- The texts on which control leaves the code of an expression by an open operand. -/
def jumps : Regex → Language UInt8
  | .byte _ | .range _ | .finish | .pattern _ => 0
  | .oneOf c => language (.oneOf c)
  | .cat items => jumpsAll items
  | .alt a b => falls a + jumps a + jumps b
  | .star r => (falls r + jumps r)∗
  | .plus r => (falls r + jumps r) * (falls r + jumps r)∗
  | .maybe r => 1 + jumps r
  | .either a b => jumps a + (1 + falls a) * jumps b

/-- The texts on which control leaves the code of expressions one after the other at its end. -/
def fallsAll : List Regex → Language UInt8
  | [] => 1
  | [r] => falls r
  | r :: s :: rest => (falls r + jumps r) * fallsAll (s :: rest)

/-- The texts on which control leaves the code of expressions one after the other by an open operand
    of the last one. -/
def jumpsAll : List Regex → Language UInt8
  | [] => 0
  | [r] => jumps r
  | r :: s :: rest => (falls r + jumps r) * jumpsAll (s :: rest)

end

/-- The texts on which control leaves the code of an expression. -/
def leaves (r : Regex) : Language UInt8 := r.falls + r.jumps

mutual

/-- The texts on which the code of an expression accepts the pattern `k`. The patterns of the
    expression are numbered from `id` on, each where it ends. -/
def accepted (k id : Nat) : Regex → Language UInt8
  | .byte _ | .range _ | .oneOf _ | .finish => 0
  | .cat items => acceptedAll k id items
  | .alt a b => accepted k id a + accepted k (id + a.patternCount) b
  | .star r | .plus r => (leaves r)∗ * accepted k id r
  | .maybe r => accepted k id r
  | .pattern r => accepted k id r + if k = id + r.patternCount then leaves r else 0
  | .either a b => accepted k id a + (1 + falls a) * accepted k (id + a.patternCount) b

/-- The texts on which the code of expressions one after the other accepts the pattern `k`. -/
def acceptedAll (k id : Nat) : List Regex → Language UInt8
  | [] => 0
  | r :: rest => accepted k id r + leaves r * acceptedAll k (id + r.patternCount) rest

end

end Regex

/-! ## Code with two exits -/

/-- From `base` up to `next`, a program has the code of an expression whose open operands lead to
    `stop`, and whose patterns are numbered from `id` on. -/
inductive Emitted (p : Program) : Nat → Nat → Nat → Nat → Regex → Prop
  | byte {base stop id : Nat} {b : UInt8} (h : p.insts[base]? = some (.consume (.single b))) :
    Emitted p base (base + 1) stop id (.byte b)
  | range {base stop id : Nat} {r : ByteRange} (h : p.insts[base]? = some (.consume r)) :
    Emitted p base (base + 1) stop id (.range r)
  | finish {base stop id : Nat} : Emitted p base base stop id .finish
  | nil {base stop id : Nat} : Emitted p base base stop id (.cat [])
  | single {base next stop id : Nat} {r : Regex} (h : Emitted p base next stop id r) :
    Emitted p base next stop id (.cat [r])
  | cons {base mid next stop id : Nat} {r s : Regex} {rest : List Regex}
    (h : Emitted p base mid mid id r)
    (hrest : Emitted p mid next stop (id + r.patternCount) (.cat (s :: rest))) :
    Emitted p base next stop id (.cat (r :: s :: rest))
  | alt {base mid next stop id : Nat} {a b : Regex}
    (hsplit : p.insts[base]? = some (.split (base + 1) (mid + 1)))
    (ha : Emitted p (base + 1) mid mid id a) (hjump : p.insts[mid]? = some (.jump stop))
    (hb : Emitted p (mid + 1) next stop (id + a.patternCount) b) :
    Emitted p base next stop id (.alt a b)
  | star {base back stop id : Nat} {r : Regex}
    (hsplit : p.insts[base]? = some (.split (base + 1) stop))
    (h : Emitted p (base + 1) back back id r) (hjump : p.insts[back]? = some (.jump base)) :
    Emitted p base (back + 1) stop id (.star r)
  | plus {base back stop id : Nat} {r : Regex} (h : Emitted p base back back id r)
    (hsplit : p.insts[back]? = some (.split base stop)) :
    Emitted p base (back + 1) stop id (.plus r)
  | maybe {base next stop id : Nat} {r : Regex}
    (hsplit : p.insts[base]? = some (.split (base + 1) stop))
    (h : Emitted p (base + 1) next stop id r) : Emitted p base next stop id (.maybe r)
  | pattern {base mid stop id : Nat} {r : Regex} (h : Emitted p base mid mid id r)
    (haccept : p.insts[mid]? = some (.accept (id + r.patternCount))) :
    Emitted p base (mid + 1) stop id (.pattern r)
  | either {base mid next stop id : Nat} {a b : Regex}
    (hsplit : p.insts[base]? = some (.split (base + 1) mid))
    (ha : Emitted p (base + 1) mid stop id a)
    (hb : Emitted p mid next stop (id + a.patternCount) b) :
    Emitted p base next stop id (.either a b)

/-! ## Texts that lead from one offset to another -/

namespace Program

variable {p : Program} {L M : Language UInt8} {a b c x y k n m t : Nat} {u v w : Bytes}

/-- On every text of a language, threads go from one offset to another. -/
def Leads (p : Program) (a : Nat) (L : Language UInt8) (b : Nat) : Prop :=
  ∀ w ∈ L, ∃ n, p.Run n a w b

/-- On every text of a language, threads go from an offset to an `accept` of a pattern. -/
def LeadsToAccept (p : Program) (k a : Nat) (L : Language UInt8) : Prop :=
  ∀ w ∈ L, ∃ n t, p.Run n a w t ∧ p.pattern? t = some k

theorem leads_zero : p.Leads a 0 b := fun w h => absurd h (Language.notMem_zero w)

theorem leads_one : p.Leads a 1 a := by
  intro w h
  obtain rfl := (Language.mem_one w).mp h
  exact ⟨0, .refl a⟩

theorem Leads.add (hL : p.Leads a L b) (hM : p.Leads a M b) : p.Leads a (L + M) b :=
  fun w h => ((Language.mem_add L M w).mp h).elim (hL w) (hM w)

theorem Leads.mul (hL : p.Leads a L b) (hM : p.Leads b M c) : p.Leads a (L * M) c := by
  intro w h
  obtain ⟨u, hu, v, hv, rfl⟩ := Language.mem_mul.mp h
  obtain ⟨n, hn⟩ := hL u hu
  obtain ⟨m, hm⟩ := hM v hv
  exact ⟨n + m, hn.trans hm⟩

theorem Leads.kstar (hL : p.Leads a L a) : p.Leads a L∗ a := fun _ h => Code.exists_run_kstar hL h

theorem Leads.left (h : p.insts[a]? = some (.split x y)) (hL : p.Leads x L b) : p.Leads a L b :=
  fun w hw => (hL w hw).imp' (· + 1) fun _ hn => .left h hn

theorem Leads.right (h : p.insts[a]? = some (.split x y)) (hL : p.Leads y L b) : p.Leads a L b :=
  fun w hw => (hL w hw).imp' (· + 1) fun _ hn => .right h hn

theorem Leads.jump (h : p.insts[a]? = some (.jump x)) (hL : p.Leads x L b) : p.Leads a L b :=
  fun w hw => (hL w hw).imp' (· + 1) fun _ hn => .jump h hn

/-- A jump at the end only changes where the end is. -/
theorem Leads.then_jump (hL : p.Leads a L b) (h : p.insts[b]? = some (.jump x)) : p.Leads a L x :=
  mul_one L ▸ hL.mul (leads_one.jump h)

theorem Leads.then_left (hL : p.Leads a L b) (h : p.insts[b]? = some (.split x y)) :
    p.Leads a L x :=
  mul_one L ▸ hL.mul (leads_one.left h)

theorem Leads.then_right (hL : p.Leads a L b) (h : p.insts[b]? = some (.split x y)) :
    p.Leads a L y :=
  mul_one L ▸ hL.mul (leads_one.right h)

theorem leadsToAccept_zero : p.LeadsToAccept k a 0 := fun w h => absurd h (Language.notMem_zero w)

theorem LeadsToAccept.add (hL : p.LeadsToAccept k a L) (hM : p.LeadsToAccept k a M) :
    p.LeadsToAccept k a (L + M) :=
  fun w h => ((Language.mem_add L M w).mp h).elim (hL w) (hM w)

theorem Leads.mul_accept (hL : p.Leads a L b) (hM : p.LeadsToAccept k b M) :
    p.LeadsToAccept k a (L * M) := by
  intro w h
  obtain ⟨u, hu, v, hv, rfl⟩ := Language.mem_mul.mp h
  obtain ⟨n, hn⟩ := hL u hu
  obtain ⟨m, t, hm, ht⟩ := hM v hv
  exact ⟨n + m, t, hn.trans hm, ht⟩

theorem Leads.accept (hL : p.Leads a L b) (h : p.insts[b]? = some (.accept k)) :
    p.LeadsToAccept k a L := by
  intro w hw
  obtain ⟨n, hn⟩ := hL w hw
  exact ⟨n, b, hn, pattern?_eq_some_iff.mpr h⟩

theorem LeadsToAccept.of_leads_one (hM : p.LeadsToAccept k b M) (h : p.Leads a 1 b) :
    p.LeadsToAccept k a M :=
  one_mul M ▸ h.mul_accept hM

end Program

namespace Emitted

open Program Regex

variable {p : Program} {base next stop id k n t : Nat} {r : Regex} {w : Bytes}

/-- Code leads to its end and to what its open operands lead to. -/
theorem leads (h : Emitted p base next stop id r) :
    p.Leads base r.falls next ∧ p.Leads base r.jumps stop := by
  induction h with
  | byte h =>
    refine ⟨fun w hw => ?_, leads_zero⟩
    obtain rfl := Regex.mem_language_byte.mp hw
    exact ⟨1, .consume h (by simp) (.refl _)⟩
  | range h =>
    refine ⟨fun w hw => ?_, leads_zero⟩
    obtain ⟨c, hc, rfl⟩ := Regex.mem_language_range.mp hw
    exact ⟨1, .consume h hc (.refl _)⟩
  | finish => exact ⟨leads_one, leads_zero⟩
  | nil => exact ⟨leads_one, leads_zero⟩
  | single _ ih => exact ih
  | cons _ _ ih ihrest =>
    have hr := ih.1.add ih.2
    exact ⟨hr.mul ihrest.1, hr.mul ihrest.2⟩
  | alt hsplit _ hjump _ iha ihb =>
    exact ⟨ihb.1.right hsplit, (((iha.1.add iha.2).then_jump hjump).left hsplit).add
      (ihb.2.right hsplit)⟩
  | star hsplit _ hjump ih =>
    -- A round leaves the body through its end or through an open operand.
    have hround := ((ih.1.add ih.2).then_jump hjump).left hsplit
    exact ⟨leads_zero, hround.kstar.then_right hsplit⟩
  | plus _ hsplit ih =>
    have hbody := ih.1.add ih.2
    have hround := hbody.left hsplit
    exact ⟨leads_zero, (hbody.mul hround.kstar).then_right hsplit⟩
  | maybe hsplit _ ih => exact ⟨ih.1.left hsplit, (leads_one.right hsplit).add (ih.2.left hsplit)⟩
  | pattern _ _ ih => exact ⟨leads_zero, leads_zero⟩
  | either hsplit _ _ iha ihb =>
    have hright := (leads_one.right hsplit).add (iha.1.left hsplit)
    exact ⟨hright.mul ihb.1, (iha.2.left hsplit).add (hright.mul ihb.2)⟩

/-- Code leads to the `accept`s of its patterns. -/
theorem leadsToAccept (h : Emitted p base next stop id r) :
    p.LeadsToAccept k base (r.accepted k id) := by
  induction h with
  | byte | range | finish | nil => exact leadsToAccept_zero
  | single h ih =>
    rw [accepted, acceptedAll, acceptedAll, mul_zero, add_zero]
    exact ih
  | cons h _ ih ihrest => exact ih.add ((h.leads.1.add h.leads.2).mul_accept ihrest)
  | alt hsplit ha _ hb iha ihb =>
    exact (iha.of_leads_one (leads_one.left hsplit)).add (ihb.of_leads_one (leads_one.right hsplit))
  | star hsplit h hjump ih =>
    have hround := ((h.leads.1.add h.leads.2).then_jump hjump).left hsplit
    exact hround.kstar.mul_accept (ih.of_leads_one (leads_one.left hsplit))
  | plus h hsplit ih =>
    have hround := (h.leads.1.add h.leads.2).then_left hsplit
    exact hround.kstar.mul_accept ih
  | maybe hsplit _ ih => exact ih.of_leads_one (leads_one.left hsplit)
  | pattern h haccept ih =>
    refine ih.add ?_
    split
    · next hk => exact (h.leads.1.add h.leads.2).accept (hk ▸ haccept)
    · exact leadsToAccept_zero
  | either hsplit ha hb iha ihb =>
    have hright := (leads_one.right hsplit).add (ha.leads.1.left hsplit)
    exact (iha.of_leads_one (leads_one.left hsplit)).add (hright.mul_accept ihb)

end Emitted

/-! ## Where runs that accept leave code -/

namespace Program

variable {p : Program} {L M : Language UInt8} {x y k n m t : Nat} {u v w : Bytes}

/-- A run on a text, in a number of steps, goes on from an offset after a text of a language. -/
def GoesOn (p : Program) (n : Nat) (L : Language UInt8) (x : Nat) (w : Bytes) (t : Nat) : Prop :=
  ∃ u ∈ L, ∃ v, w = u ++ v ∧ ∃ m ≤ n, p.Run m x v t

theorem GoesOn.mono (h : p.GoesOn n L x w t) (hLM : L ≤ M) (hnm : n ≤ m) : p.GoesOn m M x w t := by
  obtain ⟨u, hu, v, rfl, n', hn', hrun⟩ := h
  exact ⟨u, hLM hu, v, rfl, n', Nat.le_trans hn' hnm, hrun⟩

theorem GoesOn.append (hu : u ∈ L) (h : p.GoesOn n M x v t) : p.GoesOn n (L * M) x (u ++ v) t := by
  obtain ⟨u', hu', v', rfl, hrun⟩ := h
  exact ⟨u ++ u', Language.append_mem_mul hu hu', v', (List.append_assoc u u' v').symm, hrun⟩

theorem goesOn_one (h : p.Run n x w t) : p.GoesOn n 1 x w t :=
  ⟨[], Language.nil_mem_one, w, rfl, n, Nat.le_refl n, h⟩

/-- A run through code that is left at two offsets accepts in it, or it goes on from one of the
    offsets. -/
def Splits (p : Program) (n : Nat) (A F : Language UInt8) (next : Nat)
    (J : Language UInt8) (stop : Nat) (w : Bytes) (t : Nat) : Prop :=
  w ∈ A ∨ p.GoesOn n F next w t ∨ p.GoesOn n J stop w t

variable {A A' F F' J J' : Language UInt8} {next stop : Nat}

theorem Splits.imp (h : p.Splits n A F next J stop w t) (hA : A ≤ A') (hF : F ≤ F')
    (hJ : J ≤ J') (hnm : n ≤ m) : p.Splits m A' F' next J' stop w t :=
  Or.imp (fun hw => hA hw) (Or.imp (fun hw => hw.mono hF hnm) fun hw => hw.mono hJ hnm) h

theorem Splits.append (hu : u ∈ L) (h : p.Splits n A F next J stop v t) :
    p.Splits n (L * A) (L * F) next (L * J) stop (u ++ v) t :=
  Or.imp (Language.append_mem_mul hu) (Or.imp (.append hu) (.append hu)) h

/-- Code that is left at one offset only. -/
theorem Splits.goesOn (h : p.Splits n A F x J x w t) : w ∈ A ∨ p.GoesOn n (F + J) x w t :=
  Or.imp_right (fun h => h.elim (fun hw => hw.mono (fun _ => .inl) (Nat.le_refl n))
    fun hw => hw.mono (fun _ => .inr) (Nat.le_refl n)) h

/-- One more round before the rounds of a loop, which is left by its open operand. -/
theorem Splits.round (hu : u ∈ L) (hJ : L * J ≤ J)
    (h : p.Splits n (L∗ * A) 0 next J stop v t) (hnm : n ≤ m) :
    p.Splits m (L∗ * A) 0 next J stop (u ++ v) t := by
  refine (h.append hu).imp ?_ (mul_zero L).le hJ hnm
  rw [← mul_assoc]
  exact mul_le_mul_left mul_kstar_le_kstar A

end Program

namespace Emitted

open Program Regex

variable {p : Program} {base next stop id k n t : Nat} {r : Regex} {w : Bytes}

/-- A run from the start of code that accepts does so in the code, or it goes on from one of its
    ends. -/
theorem splits (h : Emitted p base next stop id r) (hrun : p.Run n base w t)
    (ht : p.pattern? t = some k) : p.Splits n (r.accepted k id) r.falls next r.jumps stop w t := by
  have hk := isKernelInst_of_pattern? ht
  induction h generalizing n w with
  | byte h =>
    obtain ⟨m, rfl, c, hc, v, rfl, hexit⟩ := hrun.of_consume_of_accept h ht
    obtain rfl := ByteRange.mem_single.mp hc
    exact .inr (.inl ⟨[c], rfl, v, rfl, m, Nat.le_succ m, hexit⟩)
  | range h =>
    obtain ⟨m, rfl, c, hc, v, rfl, hexit⟩ := hrun.of_consume_of_accept h ht
    exact .inr (.inl ⟨[c], ⟨c, hc, rfl⟩, v, rfl, m, Nat.le_succ m, hexit⟩)
  | finish => exact .inr (.inl (goesOn_one hrun))
  | nil => exact .inr (.inl (goesOn_one hrun))
  | single _ ih => exact (ih hrun).imp (fun _ => .inl) le_rfl le_rfl (Nat.le_refl n)
  | cons _ _ ih ihrest =>
    rcases (ih hrun).goesOn with hw | ⟨u, hu, v, rfl, m, hm, hmid⟩
    · exact .inl (.inl hw)
    · exact ((ihrest hmid).append hu).imp (fun _ => .inr) le_rfl le_rfl hm
  | alt hsplit _ hjump _ iha ihb =>
    obtain ⟨n, rfl, hleft | hright⟩ := hrun.of_split hsplit hk
    · rcases (iha hleft).goesOn with hw | ⟨u, hu, v, rfl, m, hm, hend⟩
      · exact .inl (.inl hw)
      · obtain ⟨m, rfl, hexit⟩ := hend.of_jump hjump hk
        exact .inr (.inr ⟨u, .inl hu, v, rfl, m, by omega, hexit⟩)
    · exact (ihb hright).imp (fun _ => .inr) le_rfl (fun _ => .inr) (Nat.le_succ n)
  | @star base back stop id r hsplit _ hjump ih =>
    -- The run after a round is shorter, although it starts at the same offset.
    induction n using Nat.strong_induction_on generalizing w with
    | _ n ihn =>
    obtain ⟨n, rfl, hround | hexit⟩ := hrun.of_split hsplit hk
    · rcases (ih hround).goesOn with hw | ⟨u, hu, v, rfl, m, hm, hend⟩
      · exact .inl (Language.append_mem_mul (Language.nil_mem_kstar _) hw)
      · obtain ⟨m, rfl, hagain⟩ := hend.of_jump hjump hk
        exact (ihn m (by omega) hagain).round hu mul_kstar_le_kstar (by omega)
    · exact .inr (.inr ⟨[], Language.nil_mem_kstar _, w, rfl, n, Nat.le_succ n, hexit⟩)
  | @plus base back stop id r _ hsplit ih =>
    induction n using Nat.strong_induction_on generalizing w with
    | _ n ihn =>
    rcases (ih hrun).goesOn with hw | ⟨u, hu, v, rfl, m, hm, hend⟩
    · exact .inl (Language.append_mem_mul (Language.nil_mem_kstar _) hw)
    · obtain ⟨m, rfl, hagain | hexit⟩ := hend.of_split hsplit hk
      · exact (ihn m (by omega) hagain).round hu (mul_le_mul_right mul_kstar_le_kstar _) (by omega)
      · have hmem : u ++ [] ∈ r.leaves * r.leaves∗ :=
          Language.append_mem_mul hu (Language.nil_mem_kstar _)
        exact .inr (.inr ⟨u, List.append_nil u ▸ hmem, v, rfl, m, by omega, hexit⟩)
  | maybe hsplit _ ih =>
    obtain ⟨n, rfl, htaken | hexit⟩ := hrun.of_split hsplit hk
    · exact (ih htaken).imp le_rfl le_rfl (fun _ => .inr) (Nat.le_succ n)
    · exact .inr (.inr ⟨[], .inl Language.nil_mem_one, w, rfl, n, Nat.le_succ n, hexit⟩)
  | pattern h haccept ih =>
    rcases (ih hrun).goesOn with hw | ⟨u, hu, v, rfl, m, hm, hend⟩
    · exact .inl (.inl hw)
    · obtain ⟨rfl, rfl⟩ := hend.of_accept haccept
      rw [pattern?_eq_some_iff, haccept] at ht
      obtain ⟨rfl⟩ := ht
      rw [List.append_nil]
      exact .inl (.inr (by rw [if_pos rfl]; exact hu))
  | @either base mid next stop id a b hsplit _ _ iha ihb =>
    -- The right side is entered from the split, and from the end of the left side.
    have hright : ∀ {u v : Bytes} {m l : Nat}, u ∈ 1 + a.falls → p.Run m mid v t → m ≤ l →
        p.Splits l ((Regex.either a b).accepted k id) (Regex.either a b).falls
          next (Regex.either a b).jumps stop (u ++ v) t := by
      intro u v m l hu hend hm
      exact ((ihb hend).append hu).imp (fun _ => .inr) le_rfl (fun _ => .inr) hm
    obtain ⟨n, rfl, hleft | hskip⟩ := hrun.of_split hsplit hk
    · rcases iha hleft with hw | ⟨u, hu, v, rfl, m, hm, hend⟩ | hjump
      · exact .inl (.inl hw)
      · exact hright (.inr hu) hend (Nat.le_succ_of_le hm)
      · exact .inr (.inr (hjump.mono (fun _ => .inl) (Nat.le_succ n)))
    · exact hright (.inl Language.nil_mem_one) hskip (Nat.le_succ n)

/-- Code that is not left accepts its own texts. -/
theorem run_iff (h : Emitted p base next stop id r) (hfalls : r.falls = 0) (hjumps : r.jumps = 0) :
    (∃ n t, p.Run n base w t ∧ p.pattern? t = some k) ↔ w ∈ r.accepted k id := by
  refine ⟨fun ⟨n, t, hrun, ht⟩ => ?_, h.leadsToAccept w⟩
  rcases h.splits hrun ht with hw | ⟨u, hu, _⟩ | ⟨u, hu, _⟩
  · exact hw
  · exact absurd (hfalls ▸ hu) (Language.notMem_zero u)
  · exact absurd (hjumps ▸ hu) (Language.notMem_zero u)

end Emitted

/-! ## What is generated -/

/-- A draft is emitted for its expression, wherever it is placed and whatever its open operands lead
    to. -/
def Emits (p : Program) (r : Regex) : Prop :=
  ∀ base id next stop, next = base + (Draft.ofRegex base id r).length →
    p.Holds base (Draft.resolve stop (Draft.ofRegex base id r)) → Emitted p base next stop id r

namespace Emits

open Draft

variable {p : Program} {a b r : Regex}

theorem byte (b : UInt8) : Emits p (.byte b) := by
  rintro base id _ stop rfl hholds
  simp only [ofRegex, resolve_cons, Program.holds_cons] at hholds
  exact .byte hholds.1

theorem range (s : ByteRange) : Emits p (.range s) := by
  rintro base id _ stop rfl hholds
  simp only [ofRegex, resolve_cons, Program.holds_cons] at hholds
  exact .range hholds.1

theorem finish : Emits p .finish := by
  rintro base id _ stop rfl _
  exact .finish

theorem cat {items : List Regex} (h : ∀ r ∈ items, Emits p r) : Emits p (.cat items) := by
  induction items with
  | nil =>
    rintro base id _ stop rfl _
    exact .nil
  | cons r rest ih =>
    intro base id next stop hnext hholds
    have hr := h r List.mem_cons_self
    cases rest with
    | nil => exact .single (hr base id next stop hnext hholds)
    | cons s rest =>
      simp only [ofRegex, ofSequence, resolve_append, resolve_close,
        Program.holds_append, length_resolve, List.length_append, length_close] at hnext hholds
      exact .cons (hr base id _ _ rfl hholds.1)
        (ih (fun t ht => h t (List.mem_cons_of_mem r ht)) _ _ next stop
          (by simp only [ofRegex]; omega) hholds.2)

theorem alt (ha : Emits p a) (hb : Emits p b) : Emits p (.alt a b) := by
  intro base id next stop hnext hholds
  simp only [ofRegex, choice, resolve_cons, resolve_append, resolve_close, Program.holds_cons,
    Program.holds_append,
    length_resolve, List.length_cons, List.length_append, length_close, Op.map, Option.getD_some,
    Option.getD_none] at hnext hholds
  obtain ⟨hsplit, hleft, hjump, hright⟩ := hholds
  exact .alt hsplit (ha _ _ _ _ rfl hleft) hjump (hb _ _ _ _ (by omega) hright)

theorem star (h : Emits p r) : Emits p (.star r) := by
  intro base id next stop hnext hholds
  simp only [ofRegex, resolve_cons, resolve_append, resolve_close, Program.holds_cons,
    Program.holds_append,
    length_resolve, List.length_cons, List.length_append, length_close, Op.map,
    Option.getD_some, Option.getD_none, List.length_nil] at hnext hholds
  obtain ⟨hsplit, hbody, hjump, _⟩ := hholds
  obtain rfl : next = base + 1 + (ofRegex (base + 1) id r).length + 1 := by omega
  exact .star hsplit (h _ _ _ _ rfl hbody) hjump

theorem plus (h : Emits p r) : Emits p (.plus r) := by
  intro base id next stop hnext hholds
  simp only [ofRegex, resolve_cons, resolve_append, resolve_close, Program.holds_cons,
    Program.holds_append,
    length_resolve, List.length_cons, List.length_append, length_close, Op.map,
    Option.getD_some, Option.getD_none, List.length_nil] at hnext hholds
  obtain ⟨hbody, hsplit, _⟩ := hholds
  obtain rfl : next = base + (ofRegex base id r).length + 1 := by omega
  exact .plus (h _ _ _ _ rfl hbody) hsplit

theorem maybe (h : Emits p r) : Emits p (.maybe r) := by
  intro base id next stop hnext hholds
  simp only [ofRegex, resolve_cons, Program.holds_cons, List.length_cons, Op.map, Option.getD_some,
    Option.getD_none] at hnext hholds
  exact .maybe hholds.1 (h _ _ _ _ (by omega) hholds.2)

theorem pattern (h : Emits p r) : Emits p (.pattern r) := by
  intro base id next stop hnext hholds
  simp only [ofRegex, resolve_cons, resolve_append, resolve_close, Program.holds_cons,
    Program.holds_append,
    length_resolve, List.length_cons, List.length_append, length_close, Op.map,
    List.length_nil] at hnext hholds
  obtain ⟨hbody, haccept, _⟩ := hholds
  obtain rfl : next = base + (ofRegex base id r).length + 1 := by omega
  exact .pattern (h _ _ _ _ rfl hbody) haccept

theorem either (ha : Emits p a) (hb : Emits p b) : Emits p (.either a b) := by
  intro base id next stop hnext hholds
  simp only [ofRegex, resolve_cons, resolve_append, Program.holds_cons,
    Program.holds_append, length_resolve,
    List.length_cons, List.length_append, Op.map, Option.getD_some] at hnext hholds
  obtain ⟨hsplit, hleft, hright⟩ := hholds
  exact .either hsplit (ha _ _ _ _ rfl hleft) (hb _ _ _ _ (by omega) hright)

theorem ofRange (s : ByteRange) : Emits p (Regex.ofRange s) := by
  unfold Regex.ofRange
  split
  · exact byte _
  · exact range s

theorem altRanges (rs : List ByteRange) : ∀ s, Emits p (Regex.altRanges s rs) := by
  induction rs with
  | nil => exact ofRange
  | cons s rest ih => exact fun r => alt (ofRange r) (ih s)

theorem spelledOut (c : ByteClass) : Emits p c.spelledOut := by
  obtain ⟨s, rest, _, heq⟩ := Regex.exists_spelledOut_eq c
  exact heq ▸ altRanges rest s

/-- What is generated for an expression with its classes spelled out is emitted for it. -/
theorem desugar (r : Regex) : Emits p r.desugar := by
  induction r with
  | byte b => exact byte b
  | range s => exact range s
  | oneOf c => exact spelledOut c
  | finish => exact finish
  | cat items ih =>
    rw [Regex.desugar, Regex.desugarAll_eq_map]
    exact cat (by simpa using ih)
  | alt _ _ iha ihb => exact alt iha ihb
  | star _ ih => exact star ih
  | plus _ ih => exact plus ih
  | maybe _ ih => exact maybe ih
  | pattern _ ih => exact pattern ih
  | either _ _ iha ihb => exact either iha ihb

end Emits

/-! ## Programs -/

theorem Regex.falls_anchor (re : Regex) : re.anchor.falls = 0 := by
  induction re with
  | either a b _ ihb => rw [anchor, falls, ihb, mul_zero]
  | _ => rfl

theorem Regex.jumps_anchor (re : Regex) : re.anchor.jumps = 0 := by
  induction re with
  | either a b iha ihb => rw [anchor, jumps, iha, ihb, mul_zero, add_zero]
  | _ => rfl

namespace Program

variable {p : Program} {re : Regex} {w : Bytes} {k : Nat}

/-- A program starts with the draft of its expression. -/
theorem holds_of_ofRegex (h : Program.ofRegex re = .ok p) :
    p.Holds 0 (Draft.resolve 0 (Draft.ofRegex 0 0 re.anchor)) := by
  rw [Program.ofRegex, ofDraft] at h
  split at h
  · obtain rfl := Except.ok.inj h
    unfold Draft.ofPatterns
    split
    · next n hdraft =>
      rw [hdraft]
      simp [Op.map]
    · have hlist := holds_toList ⟨(Draft.resolve 0 (Draft.ofRegex 0 0 re.anchor)).toArray⟩
      rw [List.toList_toArray] at hlist
      exact hlist
  · cases h

/-- The runs of a program that is generated for an expression accept the texts of its patterns. -/
theorem run_iff_accepted (h : Program.ofRegex re = .ok p) :
    (∃ n t, p.Run n 0 w t ∧ p.pattern? t = some k) ↔ w ∈ re.desugar.anchor.accepted k 0 := by
  have hholds := holds_of_ofRegex h
  rw [← Draft.ofRegex_desugar, Regex.anchor_desugar] at hholds
  have hemits : Emits p re.desugar.anchor := Regex.anchor_desugar re ▸ Emits.desugar re.anchor
  exact (hemits 0 0 _ 0 rfl hholds).run_iff re.desugar.falls_anchor re.desugar.jumps_anchor

end Program

end Munch

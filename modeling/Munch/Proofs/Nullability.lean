import Mathlib.Data.List.TFAE
import Munch.Proofs.BlockThreads
import Munch.Proofs.Compilation

set_option autoImplicit false

/-! # Matching the empty text

Whether an expression matches the empty text can be computed from its tree, and this is right for
every expression (`Regex.nullable_iff`); spelling classes out and adding roots and end marks change
nothing. The automata of a pattern set find the same out in ways of their own: a program by what it
can come to before it consumes a byte, a table by its start state, a labelled expression by its
root. All of them agree (`nullable_tfae`), so no pattern that matches the empty text is missed,
whatever a lexer is made of. -/

namespace Munch

open Computability

/-! ## Expressions -/

namespace Regex

variable {w : Bytes}

theorem nil_mem_mul_iff {α : Type} {A B : Language α} : [] ∈ A * B ↔ [] ∈ A ∧ [] ∈ B := by
  constructor
  · intro h
    obtain ⟨u, hu, v, hv, huv⟩ := Language.mem_mul.mp h
    obtain ⟨rfl, rfl⟩ := List.append_eq_nil_iff.mp huv
    exact ⟨hu, hv⟩
  · exact fun ⟨hA, hB⟩ => Language.append_mem_mul hA hB

theorem allNullable_iff {items : List Regex}
    (h : ∀ r ∈ items, r.nullable = true ↔ [] ∈ r.language) :
    allNullable items = true ↔ [] ∈ catLanguage items := by
  induction items with
  | nil => exact iff_of_true rfl Language.nil_mem_one
  | cons r rest ih =>
    rw [allNullable, Bool.and_eq_true, catLanguage, nil_mem_mul_iff, h r List.mem_cons_self,
      ih fun s hs => h s (List.mem_cons_of_mem r hs)]

/-- An expression is nullable exactly if the empty text is in its language. -/
theorem nullable_iff (r : Regex) : r.nullable = true ↔ [] ∈ r.language := by
  induction r with
  | byte b => simp [nullable, mem_language_byte]
  | range s => simp [nullable, mem_language_range]
  | oneOf c => simp [nullable, mem_language_oneOf]
  | cat items ih => exact allNullable_iff ih
  | alt a b iha ihb | either a b iha ihb =>
    rw [nullable, Bool.or_eq_true, iha, ihb]
    rfl
  | star r _ => exact iff_of_true rfl (Language.nil_mem_kstar _)
  | plus r ih =>
    rw [nullable, language, nil_mem_mul_iff, ih, and_iff_left (Language.nil_mem_kstar _)]
  | maybe r _ => exact iff_of_true rfl (.inl Language.nil_mem_one)
  | pattern r ih => exact ih
  | finish => exact iff_of_true rfl Language.nil_mem_one

/-- Spelling classes out changes no nullability. -/
theorem nullable_desugar (r : Regex) : r.desugar.nullable = r.nullable := by
  rw [Bool.eq_iff_iff, nullable_iff, nullable_iff, language_desugar]

theorem nullable_terminate (r : Regex) : r.terminate.nullable = r.nullable := by
  unfold terminate
  split
  · rfl
  · split
    · rfl
    · simp [nullable, allNullable]
  · simp [nullable, allNullable]

/-- Adding roots and end marks changes no nullability. -/
theorem nullable_anchor (r : Regex) : r.anchor.nullable = r.nullable := by
  induction r with
  | either a b iha ihb => rw [anchor, nullable, nullable, iha, ihb]
  | pattern r _ => exact nullable_terminate r
  | _ => exact nullable_terminate _

/-- A set of patterns has the texts that its bodies have. -/
theorem mem_language_iff_bodies (re : Regex) :
    w ∈ re.language ↔ ∃ body ∈ re.bodies, w ∈ body.language := by
  induction re with
  | either a b iha ihb =>
    rw [language, Language.mem_add, iha, ihb, bodies]
    simp only [List.mem_append, or_and_right, exists_or]
  | pattern r _ =>
    unfold bodies
    split
    · next heq => cases heq
    · next body heq =>
      obtain rfl := pattern.inj heq
      simp
    · simp
  | _ => simp [bodies]

end Regex

/-! ## Labelled expressions -/

/-- The root of a labelled expression is nullable if the expression is. -/
theorem Labelled.nullable_root (re : Regex) :
    (ofRegex re).nodes[(ofRegex re).root]?.map (·.nullable) = some re.nullable := by
  have hroot : (ofRegex re).nodes[(ofRegex re).root]? =
      some (Labelling.label none ⟨0, 0, 0⟩ re.desugar.anchor).root := by
    simp [root, ofRegex, Labelling.Piece.nodes]
  rw [hroot, Option.map_some, (describes_ofRegex re).nullable, Regex.nullable_anchor,
    Regex.nullable_desugar]

/-! ## Programs -/

namespace Program

variable {p : Program}

/-- A program made of blocks accepts before it consumes a byte exactly if its first block
    accepts. -/
theorem matchesEmpty_ofBlocks {blocks : List Block} {block : Block} (h : blocks[0]? = some block) :
    (ofBlocks blocks).matchesEmpty = block.accept?.isSome := by
  have henters : Enters blocks 0 0 := .inl (blockOffset_zero blocks).symm
  have hpass : ∀ pc, (ofBlocks blocks).Reach 0 pc ↔ (ofBlocks blocks).Pass none 0 pc := by
    have hstep : (ofBlocks blocks).PassStep none = fun a b =>
        b ∈ (ofBlocks blocks).emptySteps a := by
      funext a b
      simp [PassStep]
    intro pc
    rw [Reach, Pass, hstep]
  rw [Bool.eq_iff_iff, matchesEmpty_iff, Option.isSome_iff_exists]
  simp only [hpass]
  rw [exists_comm]
  exact exists_congr fun k => henters.pattern?_iff h none

/-- The deterministic program of a program accepts before it consumes a byte exactly if the program
does. -/
theorem matchesEmpty_toDeterministic (p : Program) :
    p.toDeterministic.matchesEmpty = p.matchesEmpty := by
  cases hdet : p.isDeterministic with
  | true => rw [toDeterministic, if_pos hdet]
  | false =>
    have hblock : p.kernelBlocks[0]? = some (p.blockOf p.kernels.found (p.kernelOf [0])) :=
      getElem?_kernelBlocks_iff.mpr ⟨_, p.getElem?_found_zero, rfl⟩
    rw [toDeterministic_eq_ofBlocks hdet, matchesEmpty_ofBlocks hblock, Bool.eq_iff_iff,
      matchesEmpty_iff_kernelOf]
    show ((p.kernelOf [0]).filterMap p.pattern?).min?.isSome = true ↔ _
    simp only [List.isSome_min?_iff, ne_eq, List.eq_nil_iff_forall_not_mem, not_forall, not_not,
      List.mem_filterMap]

end Program

/-! ## Pattern sets -/

/-- Whether a set of patterns matches the empty text is the same for its tree, with its classes
spelled out or not, for the root of its labelled form, for its program, made deterministic or not,
and for its table, minimized or not; and it does exactly if some pattern has the empty text. -/
theorem nullable_tfae {re : Regex} (h : re.IsPatternSet) :
    ∃ p, Program.ofRegex re = .ok p ∧ List.TFAE [
      re.nullable = true,
      re.desugar.nullable = true,
      (Labelled.ofRegex re).nodes[(Labelled.ofRegex re).root]?.map (·.nullable) = some true,
      p.matchesEmpty = true,
      p.toDeterministic.matchesEmpty = true,
      (Table.ofRegex re).matchesEmpty = true,
      (Table.ofRegex re).minimize.matchesEmpty = true,
      ∃ body ∈ re.bodies, [] ∈ body.language] := by
  obtain ⟨p, hp, hcode⟩ := Program.exists_ofRegex_eq_ok h
  have hbodies : (∃ body ∈ re.bodies, [] ∈ body.language) ↔ re.nullable = true := by
    rw [Regex.nullable_iff, Regex.mem_language_iff_bodies]
  have haccepts : (∃ k, re.Accepts k []) ↔ re.nullable = true := by
    rw [← hbodies]
    simp only [Regex.Accepts, List.mem_iff_getElem?]
    constructor
    · rintro ⟨k, body, hbody, hnil⟩
      exact ⟨body, ⟨k, hbody⟩, hnil⟩
    · rintro ⟨body, ⟨k, hbody⟩, hnil⟩
      exact ⟨k, body, hbody, hnil⟩
  have hprogram := hcode.matchesEmpty_iff.trans haccepts
  have htable := Table.recognizes_ofRegex h
  have hminimal := Table.recognizes_minimize (Table.wellFormed_ofLabelled _) htable
  -- Each of them is equivalent to what is computed of the tree.
  refine ⟨p, hp, List.tfae_of_forall (re.nullable = true) _ ?_⟩
  simp only [List.forall_mem_cons, List.not_mem_nil, false_imp_iff, implies_true, and_true]
  refine ⟨trivial, ?_, ?_, hprogram, ?_, ?_, ?_, hbodies⟩
  · rw [Regex.nullable_desugar]
  · rw [Labelled.nullable_root, Option.some.injEq]
  · rw [Program.matchesEmpty_toDeterministic]
    exact hprogram
  · exact htable.matchesEmpty_iff.trans haccepts
  · exact hminimal.matchesEmpty_iff.trans haccepts

/-- Of two patterns, the second one matches the empty text, by a round of its loop that skips the
    body. -/
theorem nullable_tfae_plus_maybe :
    let re : Regex := .either (.cat [.star (.byte 98), .byte 98]) (.plus (.maybe (.byte 97)))
    re.IsPatternSet ∧ ∃ p, Program.ofRegex re = .ok p ∧ p.matchesEmpty = true ∧
      p.toDeterministic.matchesEmpty = true ∧ (Table.ofRegex re).matchesEmpty = true ∧
      (Table.ofRegex re).minimize.matchesEmpty = true := by
  intro re
  have h : re.IsPatternSet := by decide
  obtain ⟨p, hp, hsame⟩ := nullable_tfae h
  have hnullable : re.nullable = true := by decide
  exact ⟨h, p, hp, (hsame.out 0 3).mp hnullable, (hsame.out 0 4).mp hnullable,
    (hsame.out 0 5).mp hnullable, (hsame.out 0 6).mp hnullable⟩

end Munch

import Munch.Proofs.Legible
import Munch.Regex.Printer

set_option autoImplicit false

/-! # The text of an expression says which expression it is

The text of an expression is the name of its node and what the node is about, in parentheses, each
part behind a space (`Regex.toList_text`). Names are letters, so they end where a space or a
parenthesis comes. A byte is written as its escape, which is legible in front of anything, also if
it is the escape of a parenthesis, a space or a quote; bounds are digits, and operands are
expressions again. So by induction on the tree the text is legible in front of anything
(`Regex.legible_text`), and no two expressions have the same text (`Regex.text_eq_text_iff`). -/

namespace Munch

open Text (Legible LegibleAt Stops)

/-! ## Ranges -/

theorem ByteRange.toList_decimal (r : ByteRange) (separator : String) :
    (r.decimal separator).toList =
      Nat.toDigits 10 r.lo.toNat ++ (separator.toList ++ Nat.toDigits 10 r.hi.toNat) := by
  simp only [decimal, String.toList_append, Nat.toString_eq_ofList_toDigits,
    String.toList_ofList, List.append_assoc]

/-- The bounds of a range are legible in front of anything but a digit, if no digit separates
    them. -/
theorem ByteRange.legible_decimal {c : Char} (hc : c.isDigit = false) :
    Legible Char.isDigit fun r : ByteRange => (r.decimal (String.singleton c)).toList := by
  intro r s u v hu hv h
  simp only [toList_decimal, String.toList_singleton, List.append_assoc, List.singleton_append] at h
  obtain ⟨hlo, hrest⟩ :=
    Text.legible_toDigits _ _ _ _ (Text.stops_cons.mpr hc) (Text.stops_cons.mpr hc) h
  obtain ⟨hhi, hend⟩ := Text.legible_toDigits _ _ _ _ hu hv (List.cons.inj hrest).2
  refine ⟨?_, hend⟩
  rw [ByteRange.mk.injEq]
  exact ⟨UInt8.toNat_inj.mp hlo, UInt8.toNat_inj.mp hhi⟩

namespace Regex

/-! ## Nodes -/

/-- The name of the node at the root of an expression. -/
def nodeName : Regex → String
  | .byte _ => "Char"
  | .range _ => "Range"
  | .oneOf _ => "Class"
  | .cat _ => "Cat"
  | .alt _ _ => "Alt"
  | .star _ => "Star"
  | .plus _ => "Plus"
  | .maybe _ => "Maybe"
  | .pattern _ => "Match"
  | .either _ _ => "AltMatch"
  | .finish => "Eos"

/-- The text of expressions one after the other, each behind a space. -/
def operandText (items : List Regex) : List Char := items.flatMap (' ' :: ·.text.toList)

/-- What stands between the name of a node and the parenthesis that closes it. -/
def argumentText : Regex → List Char
  | .byte b => ' ' :: Byte.escape b
  | .range r => ' ' :: (r.decimal " ").toList
  | .oneOf c => c.set.ranges.flatMap fun r => ' ' :: (r.decimal "-").toList
  | .cat items => operandText items
  | .alt a b | .either a b => operandText [a, b]
  | .star r | .plus r | .maybe r | .pattern r => operandText [r]
  | .finish => []

theorem toList_operands (items : List Regex) : (operands items).toList = operandText items := by
  induction items with
  | nil => rfl
  | cons r rest ih =>
    rw [operands, String.toList_append, String.toList_append, ih]
    rfl

theorem toList_leafText (name : String) (arguments : List String) :
    (leafText name arguments).toList =
      '(' :: (name.toList ++ (arguments.flatMap (' ' :: ·.toList) ++ [')'])) := by
  simp only [leafText, String.toList_append, String.toList_join, List.flatMap_map]
  simp

/-- The text of an expression is the name of its node and what the node is about, in parentheses. -/
theorem toList_text (r : Regex) :
    r.text.toList = '(' :: (r.nodeName.toList ++ (r.argumentText ++ [')'])) := by
  cases r with
  | byte b => simp [text, toList_leafText, nodeName, argumentText, Byte.escaped]
  | range r => simp [text, toList_leafText, nodeName, argumentText]
  | oneOf c => simp [text, toList_leafText, nodeName, argumentText, List.flatMap_map]
  | finish => simp [text, toList_leafText, nodeName, argumentText]
  | cat items => simp [text, nodeName, argumentText, toList_operands]
  | _ => simp [text, nodeName, argumentText, operandText]

theorem isAlpha_of_mem_nodeName (r : Regex) : ∀ c ∈ r.nodeName.toList, c.isAlpha = true := by
  have hall : r.nodeName.toList.all Char.isAlpha = true := by
    cases r <;> simp only [nodeName] <;> decide
  exact List.all_eq_true.mp hall

theorem stops_argumentText (r : Regex) (u : List Char) :
    Stops Char.isAlpha (r.argumentText ++ (')' :: u)) := by
  have hend : Stops Char.isAlpha (')' :: u) := Text.stops_cons.mpr (by decide)
  have hspace : Char.isAlpha ' ' = false := rfl
  cases r with
  | byte | range => exact Text.stops_cons.mpr hspace
  | finish => exact hend
  | _ => exact Text.stops_flatMap_append hspace hend _

/-! ## Trees -/

/-- The operands of a node are told apart if each of them is. -/
theorem operandText_inj {items items' : List Regex} {u v : List Char}
    (hitems : ∀ r ∈ items, LegibleAt (fun _ => false) (fun s : Regex => s.text.toList) r)
    (h : operandText items ++ (')' :: u) = operandText items' ++ (')' :: v)) :
    items = items' ∧ u = v := by
  have hend : ∀ w : List Char, Stops (· == ' ') (')' :: w) :=
    fun w => Text.stops_cons.mpr (by decide)
  obtain ⟨rfl, hrest⟩ :=
    LegibleAt.flatMap hitems rfl (Text.stops_cons.mpr rfl) (Text.stops_cons.mpr rfl)
    (hend u) (hend v) h
  exact ⟨rfl, (List.cons.inj hrest).2⟩

/-- The text of an expression is legible if, among the nodes of the same name, what its node is
    about can be told from what another one is about. -/
theorem legibleAt_text {r : Regex} (h : ∀ s u v, r.nodeName = s.nodeName →
    r.argumentText ++ (')' :: u) = s.argumentText ++ (')' :: v) → r = s ∧ u = v) :
    LegibleAt (fun _ => false) (fun s : Regex => s.text.toList) r := by
  intro s u v _ _ htext
  simp only [toList_text, List.cons_append, List.append_assoc, List.nil_append,
    List.cons.injEq, true_and] at htext
  obtain ⟨hname, harguments⟩ :=
    Text.eq_of_append_eq r.isAlpha_of_mem_nodeName s.isAlpha_of_mem_nodeName
    (r.stops_argumentText u) (s.stops_argumentText v) htext
  exact h s u v (String.toList_inj.mp hname) harguments

/-- The text of an expression is legible, whatever comes behind it. -/
theorem legible_text : Legible (fun _ => false) fun r : Regex => r.text.toList := by
  intro r
  -- The name decides the kind of the expression, and its operands say where they end.
  induction r with
  | byte b =>
    refine legibleAt_text fun s u v hname harguments => ?_
    cases s <;> simp [nodeName] at hname
    next c =>
      obtain ⟨rfl, hend⟩ :=
        Byte.legible_escape b c _ _ (Text.stops_cons.mpr rfl) (Text.stops_cons.mpr rfl)
        (List.cons.inj harguments).2
      exact ⟨rfl, (List.cons.inj hend).2⟩
  | range r =>
    refine legibleAt_text fun s u v hname harguments => ?_
    cases s <;> simp [nodeName] at hname
    next r' =>
      obtain ⟨rfl, hend⟩ :=
        ByteRange.legible_decimal (c := ' ') rfl r r' _ _ (Text.stops_cons.mpr rfl)
        (Text.stops_cons.mpr rfl) (List.cons.inj harguments).2
      exact ⟨rfl, (List.cons.inj hend).2⟩
  | oneOf c =>
    refine legibleAt_text fun s u v hname harguments => ?_
    cases s <;> simp [nodeName] at hname
    next d =>
      obtain ⟨hranges, hend⟩ :=
        LegibleAt.flatMap (fun r _ => ByteRange.legible_decimal (c := '-') rfl r) rfl
        (Text.stops_cons.mpr rfl) (Text.stops_cons.mpr rfl) (Text.stops_cons.mpr rfl)
          (Text.stops_cons.mpr rfl)
        harguments
      refine ⟨?_, (List.cons.inj hend).2⟩
      rw [oneOf.injEq, ByteClass.mk.injEq, ByteSet.mk.injEq]
      exact hranges
  | finish =>
    refine legibleAt_text fun s u v hname harguments => ?_
    cases s <;> simp [nodeName] at hname
    exact ⟨rfl, (List.cons.inj harguments).2⟩
  | cat items ih =>
    refine legibleAt_text fun s u v hname harguments => ?_
    cases s <;> simp [nodeName] at hname
    next items' =>
      obtain ⟨rfl, hend⟩ := operandText_inj ih harguments
      exact ⟨rfl, hend⟩
  | star r ih | plus r ih | maybe r ih | pattern r ih =>
    refine legibleAt_text fun s u v hname harguments => ?_
    cases s <;> simp [nodeName] at hname
    next r' =>
      obtain ⟨hoperands, hend⟩ := operandText_inj (List.forall_mem_singleton.mpr ih) harguments
      obtain rfl := List.singleton_inj.mp hoperands
      exact ⟨rfl, hend⟩
  | alt a b iha ihb | either a b iha ihb =>
    refine legibleAt_text fun s u v hname harguments => ?_
    cases s <;> simp [nodeName] at hname
    next a' b' =>
      have ih := List.forall_mem_cons.mpr ⟨iha, List.forall_mem_singleton.mpr ihb⟩
      obtain ⟨hoperands, hend⟩ := operandText_inj ih harguments
      obtain ⟨rfl, hrest⟩ := List.cons.inj hoperands
      obtain rfl := List.singleton_inj.mp hrest
      exact ⟨rfl, hend⟩

/-- Expressions that have the same text are the same. -/
theorem text_eq_text_iff {r s : Regex} : r.text = s.text ↔ r = s := by
  refine ⟨fun h => ?_, congrArg text⟩
  have hlist : r.text.toList ++ [] = s.text.toList ++ [] := by rw [h]
  exact (legible_text r s [] [] (Text.stops_nil _) (Text.stops_nil _) hlist).1

end Regex

end Munch

import LineCalc.Proofs.RoundTrip

/-!
The explicit text of a tree. It puts a pair of parentheses around every node, so each node is read
as a group of at most three elements: what its operator is, and which operands it has, no longer
depends on what stands around it. Read back, the text gives the same tree but for groupings, and
groupings have the values of what they enclose.
-/

namespace LineCalc

namespace Term

/-- The tree without its groupings. -/
def ungrouped : Term → Term
  | .numeral n => .numeral n
  | .constant c => .constant c
  | .grouping t => t.ungrouped
  | .unary o t => .unary o t.ungrouped
  | .binary o l r => .binary o l.ungrouped r.ungrouped

/-- The tree with a grouping around every node. -/
def parenthesized : Term → Term
  | .numeral n => .grouping (.numeral n)
  | .constant c => .grouping (.constant c)
  | .grouping t => .grouping t.parenthesized
  | .unary o t => .grouping (.unary o t.parenthesized)
  | .binary o l r => .grouping (.binary o l.parenthesized r.parenthesized)

/-- No numeral of the tree has a minus of its own. -/
def Unsigned : Term → Prop
  | .numeral n => n.sign = .plus
  | .constant _ => True
  | .grouping t => t.Unsigned
  | .unary _ t => t.Unsigned
  | .binary _ l r => l.Unsigned ∧ r.Unsigned

theorem ungrouped_parenthesized (t : Term) : t.parenthesized.ungrouped = t.ungrouped := by
  induction t with
  | numeral _ | constant _ => rfl
  | grouping t ih => exact ih
  | unary o t ih => simp only [parenthesized, ungrouped, ih]
  | binary o l r ihl ihr => simp only [parenthesized, ungrouped, ihl, ihr]

theorem value_ungrouped (t : Term) : t.ungrouped.value = t.value := by
  induction t with
  | numeral _ | constant _ => rfl
  | grouping t ih => exact ih
  | unary o t ih => simp only [ungrouped, value, ih]
  | binary o l r ihl ihr => simp only [ungrouped, value, ihl, ihr]

theorem value_eq_of_ungrouped {t u : Term} (h : u.ungrouped = t.ungrouped) : u.value = t.value := by
  rw [← value_ungrouped u, h, value_ungrouped]

end Term

namespace Piece

section
variable {p : Term → Prop} (unary : ∀ o t, p t → p (.unary o t))
  (binary : ∀ o l r, p l → p r → p (.binary o l r))
include unary binary

theorem Merges.forall_operand {ps ps' : List Piece} (h : Merges ps ps')
    (all : ∀ t, .operand t ∈ ps → p t) : ∀ t, .operand t ∈ ps' → p t := by
  intro u hu
  cases h with
  | @unary pre post t o _ _ =>
      rcases List.mem_append.mp hu with hpre | hu
      · exact all u (by simp [hpre])
      · rcases List.mem_cons.mp hu with hmerged | hpost
        · cases hmerged
          exact unary o t (all t (by simp))
        · exact all u (by simp [hpost])
  | @binary pre post l r o _ _ =>
      rcases List.mem_append.mp hu with hpre | hu
      · exact all u (by simp [hpre])
      · rcases List.mem_cons.mp hu with hmerged | hpost
        · cases hmerged
          exact binary o l r (all l (by simp)) (all r (by simp))
        · exact all u (by simp [hpost])

theorem Condenses.of_forall_operand {ps : List Piece} {t : Term} (h : Condenses ps t)
    (all : ∀ l, .operand l ∈ ps → p l) : p t := by
  induction h with
  | done t => exact all t List.mem_cons_self
  | step merges _ ih => exact ih (merges.forall_operand unary binary all)

end

end Piece

namespace Sequence

theorem unsigned_of_condense {s : Sequence} {t : Term} (condenses : s.condense = .ok t)
    (unsigned : ∀ e ∈ s, ∀ l, e.term? = some l → l.Unsigned) : t.Unsigned := by
  refine ((condense_eq_ok_iff s t).mp condenses).of_forall_operand (p := Term.Unsigned)
    (fun _ _ h => h) (fun _ _ _ hl hr => ⟨hl, hr⟩) ?_
  intro l hl
  obtain ⟨e, he, hterm⟩ := term?_of_operand_mem hl
  exact unsigned e he l hterm

/-- In a line a sign is a token, so no numeral takes one. -/
theorem Spells.unsigned {offset : Nat} {s : Sequence} {text : List Char}
    (h : Spells offset s text) : ∀ e ∈ s, ∀ t, e.term? = some t → t.Unsigned := by
  induction h with
  | nil _ => simp
  | leaf _ leaf _ _ ih =>
      refine List.forall_mem_cons.mpr ⟨?_, ih⟩
      intro t ht
      cases leaf with
      | token _ _ => cases ht
      | constant _ _ =>
          cases ht
          trivial
      | numeral _ spells unsigned =>
          cases ht
          exact Numeral.sign_of_unsigned spells unsigned
  | group _ _ _ _ condenses _ _ ihbody ihrest =>
      refine List.forall_mem_cons.mpr ⟨?_, ihrest⟩
      intro t ht
      cases ht
      have hinner := unsigned_of_condense condenses ihbody
      exact hinner

theorem condense_operand {e : Element} {t : Term} (h : e.term? = some t) :
    condense [e] = .ok t := by
  rw [condense_eq_ok_iff, pieces, Element.piece_of_term? h]
  exact .done t

theorem condense_unary {e : Element} {t : Term} (o : UnaryOp) (offset : Nat)
    (h : e.term? = some t) : condense [.token o.token offset, e] = .ok (.unary o t) := by
  rw [condense_eq_ok_iff, pieces, pieces, Element.piece_token, o.use_token,
    Element.piece_of_term? h]
  exact .step (@Piece.Merges.unary [] [] t o (by simp [Piece.ready]) (by simp [Piece.ready]))
    (.done _)

theorem condense_binary {e e' : Element} {l r : Term} (o : BinaryOp) (offset : Nat)
    (h : e.term? = some l) (h' : e'.term? = some r) :
    condense [e, .token o.token offset, e'] = .ok (.binary o l r) := by
  rw [condense_eq_ok_iff, pieces, pieces, pieces, Element.piece_of_term? h,
    Element.isTerm_of_term? h, Element.piece_token, o.use_token, Element.piece_of_term? h']
  exact .step (@Piece.Merges.binary [] [] l r o (by simp [Piece.ready]) (by simp [Piece.ready]))
    (.done _)

/-- A run that condenses, between the parentheses of the explicit style. -/
theorem Spells.wrap {offset : Nat} {s : Sequence} {inner : Term} {text : List Char}
    (spells : Spells (offset + 1) s text) (nonempty : s ≠ []) (bounded : List.length s ≤ groupLimit)
    (condenses : s.condense = .ok inner) :
    Spells offset [.group s inner offset] (Style.explicit.wrap text) :=
  .group (w := []) (v := []) (by simp [Blank]) (by simp [Blank]) nonempty bounded condenses spells
    (.nil _)

end Sequence

/-- Wherever the explicit text of a tree begins, it is read as a single group. -/
theorem Term.spells_explicit {t : Term} (h : t.Unsigned) (offset : Nat) :
    ∃ e, e.term? = some t.parenthesized ∧ Sequence.Spells offset [e] (t.render .explicit) := by
  induction t generalizing offset with
  | numeral n =>
      have hleaf := Sequence.spells_leaf (w := []) (by simp [Blank])
        (.numeral (offset + 1) n.spells_chars (Numeral.unsigned_chars h)) rfl
      exact ⟨_, rfl, hleaf.wrap (by simp) (by simp [groupLimit]) (Sequence.condense_operand rfl)⟩
  | constant c =>
      have hletters : c.chars.map Char.toLower = c.chars := by cases c <;> decide
      have hleaf := Sequence.spells_leaf (w := []) (by simp [Blank])
        (.constant (offset + 1) hletters) rfl
      exact ⟨_, rfl, hleaf.wrap (by simp) (by simp [groupLimit]) (Sequence.condense_operand rfl)⟩
  | grouping t ih =>
      obtain ⟨e, hterm, spells⟩ := ih h (offset + 1 + 1)
      have hspace : Blank [' '] := by simp [Blank, isBlank]
      have hgroup := Sequence.Spells.group (w := []) (by simp [Blank]) hspace (by simp)
        (by simp [groupLimit]) (Sequence.condense_operand hterm)
        (spells.blank_append hspace (by simp)) (.nil _)
      exact ⟨_, rfl, by simpa [render] using hgroup⟩
  | unary o t ih =>
      obtain ⟨e, hterm, spells⟩ := ih h (offset + 1 + (0 + o.token.chars.length))
      have hrun := Sequence.Spells.leaf (w := []) (by simp [Blank])
        (.token o.token (offset + 1)) rfl spells
      have hgroup := hrun.wrap (by simp) (by simp [groupLimit])
        (Sequence.condense_unary o (offset + 1) hterm)
      rw [render, Operator.fill_unary]
      exact ⟨_, rfl, hgroup⟩
  | binary o l r ihl ihr =>
      obtain ⟨w, blank, hfill⟩ := Operator.fill_binary o (l.render .explicit) (r.render .explicit)
      obtain ⟨e, hterm, spells⟩ := ihl h.1 (offset + 1)
      obtain ⟨e', hterm', spells'⟩ := ihr h.2 (offset + 1 + (l.render .explicit).length +
        (w.length + o.token.chars.length) + w.length)
      have hrun := spells.append
        (.leaf blank (.token o.token _) rfl (spells'.blank_append blank (by simp)))
      have hgroup := hrun.wrap (by simp) (by simp [groupLimit])
        (Sequence.condense_binary o _ hterm hterm')
      rw [render, hfill]
      exact ⟨_, rfl, hgroup⟩

theorem parse_text_explicit {t : Term} (h : t.Unsigned) :
    parse (t.text .explicit) = .ok t.parenthesized := by
  obtain ⟨e, hterm, spells⟩ := t.spells_explicit h 0
  refine (parse_eq_ok_iff _ _).mpr ⟨[e], t.render .explicit, [], ?_, by simp [Blank], spells,
    Sequence.condense_operand hterm⟩
  rw [Term.text, String.toList_ofList, List.append_nil]

theorem unsigned_of_parse {line : String} {t : Term} (h : parse line = .ok t) : t.Unsigned := by
  obtain ⟨s, text, w, _, _, spells, condenses⟩ := (parse_eq_ok_iff line t).mp h
  exact Sequence.unsigned_of_condense condenses spells.unsigned

/-- A line that has a tree can be replaced by the explicit text of the tree, at the price of
groupings that change no value. -/
theorem parse_explicit {line : String} {t : Term} (h : parse line = .ok t) :
    ∃ u, parse (t.text .explicit) = .ok u ∧ u.ungrouped = t.ungrouped ∧ u.value = t.value := by
  have hungrouped := t.ungrouped_parenthesized
  exact ⟨t.parenthesized, parse_text_explicit (unsigned_of_parse h), hungrouped,
    Term.value_eq_of_ungrouped hungrouped⟩

/-- Ten elements in the line, and no group of the text has more than three. -/
theorem parse_explicit_signed_operands :
    ∃ t, parse "-.5E1 mod PI^-2+ln(3)" = .ok t ∧
      ∃ u, parse (t.text .explicit) = .ok u ∧ u.ungrouped = t.ungrouped ∧ u.value = t.value := by
  have h : parse "-.5E1 mod PI^-2+ln(3)" = .ok
      (.binary .mod
        (.unary .minus (.numeral ⟨.plus, [], [5], some ⟨.plus, [1], by simp⟩, by simp⟩))
        (.binary .add
          (.binary .pow (.constant .pi) (.unary .minus (.numeral ⟨.plus, [2], [], none, by simp⟩)))
          (.unary .ln (.grouping (.numeral ⟨.plus, [3], [], none, by simp⟩))))) := by
    decide +kernel
  exact ⟨_, h, parse_explicit h⟩

end LineCalc

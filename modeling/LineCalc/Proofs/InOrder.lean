import LineCalc.Proofs.Pieces

/-!
Reading a tree from left to right. The operands and operators that are met in order, with a
grouping as one operand, are the pieces that the tree was condensed from: merging puts an operator
above its operands and moves nothing.
-/

namespace LineCalc

theorem UnaryOp.use_token (o : UnaryOp) : o.token.use false = .unary o := by
  cases o <;> rfl

theorem BinaryOp.use_token (o : BinaryOp) : o.token.use true = .binary o := by
  cases o <;> rfl

namespace Term

/-- The leaves and operators of a tree from left to right. -/
def inOrder : Term → List Piece
  | .numeral n => [.operand (.numeral n)]
  | .constant c => [.operand (.constant c)]
  | .grouping t => [.operand (.grouping t)]
  | .unary o t => .operator (.unary o) :: t.inOrder
  | .binary o l r => l.inOrder ++ .operator (.binary o) :: r.inOrder

/-- A tree that is a single operand, with parentheses of its own if it is an operation. -/
def isLeaf : Term → Bool
  | .numeral _ | .constant _ | .grouping _ => true
  | .unary .. | .binary .. => false

theorem inOrder_of_isLeaf {t : Term} (h : t.isLeaf = true) : t.inOrder = [.operand t] := by
  cases t with
  | numeral _ | constant _ | grouping _ => rfl
  | unary _ _ | binary _ _ _ => cases h

theorem formed_inOrder (t : Term) : Piece.Formed false t.inOrder true := by
  induction t with
  | numeral _ | constant _ | grouping _ _ => exact ⟨rfl, rfl⟩
  | unary o t ih => exact ⟨rfl, ih⟩
  | binary o l r ihl ihr => exact (Piece.formed_append _ _).mpr ⟨true, ihl, rfl, ihr⟩

end Term

namespace Piece

/-- The leaves and operators that a piece has gathered. -/
def word : Piece → List Piece
  | .operand t => t.inOrder
  | .operator o => [.operator o]

theorem Merges.flatMap_word {ps ps' : List Piece} (h : Merges ps ps') :
    ps'.flatMap word = ps.flatMap word := by
  cases h with
  | unary o _ _ => simp [word, Term.inOrder]
  | binary o _ _ => simp [word, Term.inOrder]

theorem Condenses.inOrder_eq {ps : List Piece} {t : Term} (h : Condenses ps t) :
    t.inOrder = ps.flatMap word := by
  induction h with
  | done t => simp [word]
  | step merges _ ih => rw [ih, merges.flatMap_word]

theorem flatMap_word {ps : List Piece} (h : ∀ t, .operand t ∈ ps → t.isLeaf = true) :
    ps.flatMap word = ps := by
  induction ps with
  | nil => rfl
  | cons p ps ih =>
      have hrest := ih fun t ht => h t (List.mem_cons_of_mem p ht)
      cases p with
      | operator o => simp [word, hrest]
      | operand t => simp [word, Term.inOrder_of_isLeaf (h t List.mem_cons_self), hrest]

end Piece

namespace Sequence

theorem term?_of_operand_mem {afterTerm : Bool} {s : Sequence} {t : Term}
    (h : .operand t ∈ pieces afterTerm s) : ∃ e ∈ s, e.term? = some t := by
  induction s generalizing afterTerm with
  | nil => cases h
  | cons e rest ih =>
      cases List.mem_cons.mp h with
      | inr h =>
          obtain ⟨e', hmem, hterm⟩ := ih h
          exact ⟨e', List.mem_cons_of_mem e hmem, hterm⟩
      | inl h =>
          refine ⟨e, List.mem_cons_self, ?_⟩
          cases e with
          | term _ _ | group _ _ _ => cases h; rfl
          | token _ _ | operator _ _ => cases h

/-- The tree of a run whose terms are leaves reads as the run. -/
theorem inOrder_of_condense {s : Sequence} {t : Term} (h : s.condense = .ok t)
    (leaves : ∀ e ∈ s, ∀ t, e.term? = some t → t.isLeaf = true) : t.inOrder = pieces false s := by
  rw [((condense_eq_ok_iff s t).mp h).inOrder_eq, Piece.flatMap_word]
  intro t ht
  obtain ⟨e, hmem, hterm⟩ := term?_of_operand_mem ht
  exact leaves e hmem t hterm

end Sequence
end LineCalc

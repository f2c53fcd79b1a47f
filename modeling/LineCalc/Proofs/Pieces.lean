import LineCalc.Proofs.Outcome

/-!
What of a run decides its tree. A piece is an element without its offset, and without the token that
an operator was read as. Condensing a run is merging its pieces: the merges follow the turns of the
operators, so at most one merge is possible, and two runs with the same pieces become the same tree.
A run becomes a tree at all exactly if its operands and operators alternate as they do in infix
notation.
-/

namespace LineCalc

inductive Piece where
  | operand (t : Term)
  | operator (o : Operator)
deriving DecidableEq

namespace Piece

def startsWithOperand : List Piece → Bool
  | .operand _ :: _ => true
  | _ => false

/-- The operators that an operand follows directly, from left to right. -/
def ready : List Piece → List Operator
  | [] => []
  | .operator o :: rest => if startsWithOperand rest then o :: ready rest else ready rest
  | .operand _ :: rest => ready rest

/-- Infix notation, behind an operand or not at its start and at its end: one operand at a time, a
unary operator only where an operand is to come and a binary operator only behind one. -/
def Formed : Bool → List Piece → Bool → Prop
  | start, [], stop => start = stop
  | start, .operand _ :: rest, stop => start = false ∧ Formed true rest stop
  | start, .operator o :: rest, stop => o.isUnary = !start ∧ Formed false rest stop

/-- One merge. Its operator has its turn before all ready operators on either side. -/
inductive Merges : List Piece → List Piece → Prop where
  | unary {pre post : List Piece} {t : Term} (o : UnaryOp)
      (before : ∀ e ∈ ready pre, (Operator.unary o).overtakes e = true)
      (after : ∀ e ∈ ready post, e.overtakes (.unary o) = false) :
      Merges (pre ++ .operator (.unary o) :: .operand t :: post)
        (pre ++ .operand (.unary o t) :: post)
  | binary {pre post : List Piece} {a b : Term} (o : BinaryOp)
      (before : ∀ e ∈ ready (pre ++ [.operand a]), (Operator.binary o).overtakes e = true)
      (after : ∀ e ∈ ready post, e.overtakes (.binary o) = false) :
      Merges (pre ++ .operand a :: .operator (.binary o) :: .operand b :: post)
        (pre ++ .operand (.binary o a b) :: post)

/-- Merging goes on to a single operand. -/
inductive Condenses : List Piece → Term → Prop where
  | done (t : Term) : Condenses [.operand t] t
  | step {ps ps' : List Piece} {t : Term} (merges : Merges ps ps') (rest : Condenses ps' t) :
      Condenses ps t

theorem mem_ready_append (pre : List Piece) (o : Operator) (t : Term) (post : List Piece) :
    o ∈ ready (pre ++ .operator o :: .operand t :: post) := by
  induction pre with
  | nil => simp [ready, startsWithOperand]
  | cons p pre ih =>
      cases p with
      | operand _ => simpa [ready] using ih
      | operator _ =>
          simp only [List.cons_append, ready]
          split
          next => exact List.mem_cons_of_mem _ ih
          next => exact ih

/-- Of two operators on turn in one run, none stands behind the other. -/
private theorem not_behind {pre mid post post' : List Piece} {o o' : Operator} {t t' : Term}
    (split : post = mid ++ .operator o' :: .operand t' :: post')
    (before : ∀ e ∈ ready (pre ++ .operator o :: .operand t :: mid), o'.overtakes e = true)
    (after : ∀ e ∈ ready post, e.overtakes o = false) : False := by
  have hbefore := before o (mem_ready_append pre o t mid)
  have hafter := after o' (split ▸ mem_ready_append mid o' t' post')
  rw [hbefore] at hafter
  cases hafter

private theorem split_at_turn {mid post post' : List Piece} {o o' : Operator} {t t' : Term}
    (split : .operator o :: .operand t :: post = mid ++ .operator o' :: .operand t' :: post') :
    (mid = [] ∧ o = o' ∧ t = t' ∧ post = post') ∨
      ∃ mid', mid = .operator o :: .operand t :: mid' ∧
        post = mid' ++ .operator o' :: .operand t' :: post' := by
  cases mid with
  | nil =>
      cases split
      exact .inl ⟨rfl, rfl, rfl, rfl⟩
  | cons p mid =>
      obtain ⟨hp, hmid⟩ := List.cons.inj split
      cases mid with
      | nil => cases hmid
      | cons p' mid =>
          obtain ⟨hp', hpost⟩ := List.cons.inj hmid
          exact .inr ⟨mid, by rw [hp, hp'], hpost⟩

private theorem turn_unique {pre post pre' post' : List Piece} {o o' : Operator} {t t' : Term}
    (split : pre ++ .operator o :: .operand t :: post =
      pre' ++ .operator o' :: .operand t' :: post')
    (before : ∀ e ∈ ready pre, o.overtakes e = true)
    (after : ∀ e ∈ ready post, e.overtakes o = false)
    (before' : ∀ e ∈ ready pre', o'.overtakes e = true)
    (after' : ∀ e ∈ ready post', e.overtakes o' = false) :
    pre = pre' ∧ o = o' ∧ t = t' ∧ post = post' := by
  cases List.append_eq_append_iff.mp split with
  | inl h =>
      obtain ⟨mid, rfl, hmid⟩ := h
      cases split_at_turn hmid with
      | inl heq =>
          obtain ⟨rfl, ho, ht, hpost⟩ := heq
          exact ⟨(List.append_nil pre).symm, ho, ht, hpost⟩
      | inr hbehind =>
          obtain ⟨mid, rfl, hpost⟩ := hbehind
          exact (not_behind hpost before' after).elim
  | inr h =>
      obtain ⟨mid, rfl, hmid⟩ := h
      cases split_at_turn hmid with
      | inl heq =>
          obtain ⟨rfl, ho, ht, hpost⟩ := heq
          exact ⟨List.append_nil pre', ho.symm, ht.symm, hpost.symm⟩
      | inr hbehind =>
          obtain ⟨mid, rfl, hpost⟩ := hbehind
          exact (not_behind hpost before after').elim

theorem Merges.unique {ps ps₁ ps₂ : List Piece} (h₁ : Merges ps ps₁) (h₂ : Merges ps ps₂) :
    ps₁ = ps₂ := by
  cases h₁ with
  | @unary pre post t o before after =>
      generalize hsplit : pre ++ .operator (.unary o) :: .operand t :: post = ps at h₂
      cases h₂ with
      | unary o' before' after' =>
          obtain ⟨rfl, ho, rfl, rfl⟩ := turn_unique hsplit before after before' after'
          cases ho
          rfl
      | @binary pre' post' a b o' before' after' =>
          have hassoc := hsplit.trans (List.append_cons pre' (.operand a) _)
          obtain ⟨_, ho, _⟩ := turn_unique hassoc before after before' after'
          cases ho
  | @binary pre post a b o before after =>
      generalize hsplit :
        pre ++ .operand a :: .operator (.binary o) :: .operand b :: post = ps at h₂
      have hassoc := (List.append_cons pre (.operand a) _).symm.trans hsplit
      cases h₂ with
      | unary o' before' after' =>
          obtain ⟨_, ho, _⟩ := turn_unique hassoc before after before' after'
          cases ho
      | @binary pre' post' a' b' o' before' after' =>
          obtain ⟨hpre, ho, rfl, rfl⟩ := turn_unique
            (hassoc.trans (List.append_cons pre' (.operand a') _)) before after before' after'
          obtain ⟨rfl, ha⟩ := List.append_inj' hpre rfl
          cases ho
          cases ha
          rfl

private theorem not_merges_operand {t : Term} {ps : List Piece} : ¬ Merges [.operand t] ps := by
  intro h
  generalize hs : [Piece.operand t] = s at h
  have hlength := congrArg List.length hs
  cases h <;> simp at hlength <;> omega

theorem Condenses.unique {ps : List Piece} {t t' : Term} (h : Condenses ps t)
    (h' : Condenses ps t') : t = t' := by
  induction h with
  | done t =>
      cases h' with
      | done _ => rfl
      | step merges _ => exact (not_merges_operand merges).elim
  | step merges _ ih =>
      cases h' with
      | done _ => exact (not_merges_operand merges).elim
      | step merges' rest' =>
          rw [← Merges.unique merges merges'] at rest'
          exact ih rest'

theorem formed_append {start stop : Bool} (ps ps' : List Piece) :
    Formed start (ps ++ ps') stop ↔ ∃ mid, Formed start ps mid ∧ Formed mid ps' stop := by
  induction ps generalizing start with
  | nil => simp [Formed]
  | cons p ps ih =>
      cases p with
      | operand t => simp [Formed, ih, and_assoc]
      | operator o => simp [Formed, ih, and_assoc]

theorem Merges.formed_iff {ps ps' : List Piece} (h : Merges ps ps') (start stop : Bool) :
    Formed start ps stop ↔ Formed start ps' stop := by
  cases h with
  | unary o _ _ => simp [formed_append, Formed, Operator.isUnary]
  | binary o _ _ => simp [formed_append, Formed, Operator.isUnary]

/-- Only infix notation can be merged to a single operand. -/
theorem Condenses.formed {ps : List Piece} {t : Term} (h : Condenses ps t) :
    Formed false ps true := by
  induction h with
  | done t => exact ⟨rfl, rfl⟩
  | step merges _ ih => exact (merges.formed_iff false true).mpr ih

end Piece

namespace Element

/-- A token becomes the operator that it is in its place. -/
def piece (afterTerm : Bool) : Element → Piece
  | .term t _ => .operand t
  | .group _ inner _ => .operand (.grouping inner)
  | .token t _ => .operator (t.use afterTerm)
  | .operator o _ => .operator o

@[simp]
theorem piece_term (afterTerm : Bool) (t : Term) (offset : Nat) :
    (Element.term t offset).piece afterTerm = .operand t := rfl

@[simp]
theorem piece_token (afterTerm : Bool) (t : Token) (offset : Nat) :
    (Element.token t offset).piece afterTerm = .operator (t.use afterTerm) := rfl

@[simp]
theorem piece_operator (afterTerm : Bool) (o : Operator) (offset : Nat) :
    (Element.operator o offset).piece afterTerm = .operator o := rfl

theorem piece_of_term? {e : Element} {t : Term} (h : e.term? = some t) (afterTerm : Bool) :
    e.piece afterTerm = .operand t := by
  cases e with
  | term _ _ | group _ _ _ =>
      cases h
      rfl
  | token _ _ | operator _ _ => cases h

@[simp]
theorem piece_settle (afterTerm : Bool) (e : Element) :
    (e.settle afterTerm).piece afterTerm = e.piece afterTerm := by
  cases e <;> rfl

end Element

namespace Sequence

/-- The pieces of a run that stands behind a term or not. -/
def pieces : Bool → Sequence → List Piece
  | _, [] => []
  | afterTerm, e :: rest => e.piece afterTerm :: pieces e.isTerm rest

@[simp]
theorem pieces_settle (afterTerm : Bool) (s : Sequence) :
    pieces afterTerm (settle afterTerm s) = pieces afterTerm s := by
  induction s generalizing afterTerm with
  | nil => rfl
  | cons e rest ih => simp [pieces, settle, ih]

theorem pieces_append (afterTerm : Bool) (s s' : Sequence) :
    pieces afterTerm (s ++ s') = pieces afterTerm s ++ pieces (endsInTerm afterTerm s) s' := by
  induction s generalizing afterTerm with
  | nil => rfl
  | cons e rest ih => simp [pieces, endsInTerm, ih]

@[simp]
theorem length_pieces (afterTerm : Bool) (s : Sequence) :
    (pieces afterTerm s).length = List.length s := by
  induction s generalizing afterTerm with
  | nil => rfl
  | cons e rest ih => simp [pieces, ih]

private theorem startsWithOperand_pieces (afterTerm : Bool) (s : Sequence) :
    Piece.startsWithOperand (pieces afterTerm s) = startsWithTerm s := by
  cases s with
  | nil => rfl
  | cons e rest => cases e <;> rfl

private theorem ready_pieces {afterTerm : Bool} {s : Sequence} (h : Settled afterTerm s) :
    Piece.ready (pieces afterTerm s) = ready s := by
  induction s generalizing afterTerm with
  | nil => rfl
  | cons e rest ih =>
      have hrest := ih h.2
      cases e with
      | token _ _ => exact h.1.elim
      | term _ _ | group _ _ _ => exact hrest
      | operator o offset =>
          simp only [pieces, Element.piece, Piece.ready, ready, startsWithOperand_pieces, hrest]

theorem Reduces.merges {s s' : Sequence} (h : Reduces s s') (hs : Settled false s) :
    Piece.Merges (pieces false s) (pieces false s') := by
  cases h with
  | @unary pre post x t o offset operand before after =>
      have hx := Element.isTerm_of_term? operand
      rw [settled_append] at hs
      have hpost : Settled _ _ := hs.2.2.2
      rw [hx] at hpost
      rw [← ready_pieces hs.1] at before
      rw [← ready_pieces hpost] at after
      simpa [pieces_append, pieces, Element.piece_of_term? operand, hx]
        using Piece.Merges.unary (t := t) o before after
  | @binary pre post l x a b o offset left right before after =>
      have hl := Element.isTerm_of_term? left
      have hx := Element.isTerm_of_term? right
      rw [settled_append] at hs
      have hpost : Settled _ _ := hs.2.2.2.2
      rw [hx] at hpost
      have hpre : Settled false (pre ++ [l]) := (settled_append _ _ _).mpr ⟨hs.1, hs.2.1, trivial⟩
      rw [← ready_pieces hpre, pieces_append, pieces, pieces, Element.piece_of_term? left] at before
      rw [← ready_pieces hpost] at after
      simpa [pieces_append, pieces, Element.piece_of_term? left, Element.piece_of_term? right,
        hl, hx] using Piece.Merges.binary (a := a) (b := b) o before after

private theorem condenses_of_soleTerm {s : Sequence} {t : Term} (h : s.soleTerm = .ok t) :
    Piece.Condenses (pieces false s) t := by
  cases s with
  | nil => cases h
  | cons e rest =>
      cases rest with
      | cons _ _ => cases h
      | nil =>
          cases he : e.term? with
          | none => simp [soleTerm, he] at h
          | some t' =>
              simp only [soleTerm, he] at h
              obtain rfl := Except.ok.inj h
              rw [pieces, pieces, Element.piece_of_term? he]
              exact .done t'

private theorem condenses_of_settled {s : Sequence} (h : Settled false s) :
    ∀ t, s.condense = .ok t → Piece.Condenses (pieces false s) t := by
  refine condense_induction
    (motive := fun s r => ∀ t, r = .ok t → Piece.Condenses (pieces false s) t) ?_ ?_ ?_ s h
  · intro s _ t ht
    exact condenses_of_soleTerm ht
  · intro s f _ _ _ t ht
    cases ht
  · intro s s' hsettled hreduces ih t ht
    exact .step (hreduces.merges hsettled) (ih t ht)

/-- A run is infix notation if no token is out of place, it ends with a term and nothing is missing
between two operands. -/
theorem formed_pieces_iff (afterTerm : Bool) (s : Sequence) :
    Piece.Formed afterTerm (pieces afterTerm s) true ↔
      misplaced? afterTerm s = none ∧ endsInTerm afterTerm s = true ∧
        junction? afterTerm s = none := by
  induction s generalizing afterTerm with
  | nil => simp [pieces, Piece.Formed, misplaced?, endsInTerm, junction?]
  | cons e rest ih =>
      cases e with
      | term _ _ | group _ _ _ =>
          cases afterTerm <;>
            simp [pieces, Element.piece, Piece.Formed, ih, misplaced?, Element.misplaced?,
              endsInTerm, junction?, Element.startsOperand]
      | operator o _ =>
          cases afterTerm <;> cases o <;>
            simp [pieces, Element.piece, Piece.Formed, ih, misplaced?, Element.misplaced?,
              endsInTerm, junction?, Element.startsOperand, Operator.isUnary]
      | token t _ =>
          cases afterTerm <;> cases t <;>
            simp [pieces, Element.piece, Piece.Formed, ih, misplaced?, Element.misplaced?,
              endsInTerm, junction?, Element.startsOperand, Operator.isUnary, Token.use,
              Token.isInfixOnly]

theorem exists_condense_iff (s : Sequence) :
    (∃ t, s.condense = .ok t) ↔ Piece.Formed false (pieces false s) true := by
  rw [formed_pieces_iff, condense_eq]
  cases hm : misplaced? false s with
  | some found => simp
  | none =>
      have hs := settled_settle hm
      cases hend : endsInTerm false s with
      | true =>
          have hresult := condense_of_endsInTerm hs (by rw [endsInTerm_settle, hend])
          rw [junction?_settle] at hresult
          cases hj : junction? false s with
          | none => simpa [hj] using hresult
          | some offset => simp only [hj] at hresult; simp [hresult]
      | false =>
          cases s with
          | nil => simp [settle, condense_of_round_finished (s := []) rfl, soleTerm]
          | cons e rest =>
              have htrailing : trailing (settle false (e :: rest)) ≠ [] := by
                intro hnil
                have := (endsInTerm_iff_trailing (by simp [settle]) false).mpr hnil
                rw [endsInTerm_settle, hend] at this
                cases this
              obtain ⟨_, _, _, _, _, _, _, herror⟩ := condense_of_trailing hs htrailing
              simp [herror]

/-- Condensing is merging the pieces, so the pieces decide the tree. -/
theorem condense_eq_ok_iff (s : Sequence) (t : Term) :
    s.condense = .ok t ↔ Piece.Condenses (pieces false s) t := by
  have hok {t : Term} (h : s.condense = .ok t) : Piece.Condenses (pieces false s) t := by
    have hformed := (exists_condense_iff s).mp ⟨t, h⟩
    have hm := ((formed_pieces_iff false s).mp hformed).1
    rw [condense_eq, hm] at h
    rw [← pieces_settle]
    exact condenses_of_settled (settled_settle hm) t h
  constructor
  · exact hok
  · intro h
    obtain ⟨t', ht'⟩ := (exists_condense_iff s).mpr h.formed
    rw [ht', (hok ht').unique h]

end Sequence
end LineCalc

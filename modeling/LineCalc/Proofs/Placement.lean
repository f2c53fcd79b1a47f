import LineCalc.Sequence.Condensation

/-!
The place of an operator. Which operator a token is depends only on whether a term stands directly
before it, and the first token whose place allows no use of it ends the condensation. A run without
tokens in which every binary operator follows a term is settled: resolving it again changes nothing.
-/

namespace LineCalc

namespace Token

/-- Can the token stand only between two terms? -/
def isInfixOnly : Token → Bool
  | .star | .slash | .percent | .caret | .mod => true
  | .ln | .log | .plus | .minus => false

/-- The operator that a token is behind a term, or elsewhere. -/
def use : Bool → Token → Operator
  | _, .ln => .unary .ln
  | _, .log => .unary .log
  | _, .caret => .binary .pow
  | true, .plus => .binary .add
  | false, .plus => .unary .plus
  | true, .minus => .binary .sub
  | false, .minus => .unary .minus
  | _, .star => .binary .mul
  | _, .slash => .binary .div
  | _, .percent => .binary .rem
  | _, .mod => .binary .mod

@[simp]
theorem token_use (afterTerm : Bool) (t : Token) : (t.use afterTerm).token = t := by
  cases afterTerm <;> cases t <;> rfl

theorem isUnary_use_false (t : Token) : (t.use false).isUnary = !t.isInfixOnly := by
  cases t <;> rfl

end Token

namespace Operator

theorem choose_candidates (afterTerm : Bool) (t : Token) (offset : Nat) :
    choose afterTerm t offset (candidates t) =
      if t.isInfixOnly && !afterTerm then .error (.unexpectedOperator t.text offset)
      else .ok (t.use afterTerm) := by
  cases afterTerm <;> cases t <;> rfl

theorem choose_self (afterTerm : Bool) (o : Operator) (offset : Nat) :
    choose afterTerm o.token offset [o] =
      if afterTerm || o.isUnary then .ok o
      else .error (.unexpectedOperator o.token.text offset) := rfl

end Operator

namespace Element

@[simp]
theorem isTerm_term (t : Term) (offset : Nat) : (Element.term t offset).isTerm = true := rfl

@[simp]
theorem isTerm_group (body : List Element) (inner : Term) (offset : Nat) :
    (Element.group body inner offset).isTerm = true := rfl

@[simp]
theorem isTerm_token (t : Token) (offset : Nat) : (Element.token t offset).isTerm = false := rfl

@[simp]
theorem isTerm_operator (o : Operator) (offset : Nat) :
    (Element.operator o offset).isTerm = false := rfl

theorem isTerm_of_term? {e : Element} {t : Term} (h : e.term? = some t) : e.isTerm = true := by
  simp [isTerm, h]

def isResolved : Element → Bool
  | .operator .. => true
  | .term .. | .group .. | .token .. => false

/-- The token of an operator whose place does not allow it, and where it stands. -/
def misplaced? (afterTerm : Bool) : Element → Option (Token × Nat)
  | .token t offset => if t.isInfixOnly && !afterTerm then some (t, offset) else none
  | .operator o offset => if afterTerm || o.isUnary then none else some (o.token, offset)
  | .term .. | .group .. => none

/-- A token as the operator that it is in its place. -/
def settle (afterTerm : Bool) : Element → Element
  | .token t offset => .operator (t.use afterTerm) offset
  | e => e

@[simp]
theorem isTerm_settle (afterTerm : Bool) (e : Element) :
    (e.settle afterTerm).isTerm = e.isTerm := by
  cases e <;> rfl

@[simp]
theorem offset_settle (afterTerm : Bool) (e : Element) :
    (e.settle afterTerm).offset = e.offset := by
  cases e <;> rfl

theorem resolve_eq (afterTerm : Bool) (e : Element) :
    e.resolve afterTerm =
      match e.misplaced? afterTerm with
      | some (t, offset) => .error (.unexpectedOperator t.text offset)
      | none => .ok (e.settle afterTerm) := by
  cases e with
  | term _ _ | group _ _ _ => rfl
  | token t offset =>
      simp only [resolve, misplaced?, Operator.choose_candidates]
      cases t.isInfixOnly && !afterTerm <;> rfl
  | operator o offset =>
      simp only [resolve, misplaced?, Operator.choose_self]
      cases afterTerm || o.isUnary <;> rfl

/-- Not a token, and not a binary operator without a term before it. -/
def Settled (afterTerm : Bool) : Element → Prop
  | .token .. => False
  | .operator o _ => afterTerm = true ∨ o.isUnary = true
  | .term .. | .group .. => True

theorem settled_settle {afterTerm : Bool} {e : Element} (h : e.misplaced? afterTerm = none) :
    (e.settle afterTerm).Settled afterTerm := by
  cases e with
  | term _ _ | group _ _ _ => trivial
  | token t offset =>
      cases afterTerm with
      | true => exact .inl rfl
      | false =>
          refine .inr ?_
          rw [Token.isUnary_use_false]
          simpa [misplaced?] using h
  | operator o offset =>
      change afterTerm = true ∨ o.isUnary = true
      cases afterTerm <;> simp_all [misplaced?]

theorem misplaced?_of_settled {afterTerm : Bool} {e : Element} (h : e.Settled afterTerm) :
    e.misplaced? afterTerm = none := by
  cases e with
  | term _ _ | group _ _ _ => rfl
  | token _ _ => cases h
  | operator o _ =>
      change afterTerm = true ∨ o.isUnary = true at h
      simp [misplaced?, h]

theorem settle_of_settled {afterTerm : Bool} {e : Element} (h : e.Settled afterTerm) :
    e.settle afterTerm = e := by
  cases e with
  | token _ _ => cases h
  | term _ _ | group _ _ _ | operator _ _ => rfl

end Element

namespace Sequence

/-- The first token of a run whose place does not allow it. -/
def misplaced? : Bool → Sequence → Option (Token × Nat)
  | _, [] => none
  | afterTerm, e :: rest =>
      match e.misplaced? afterTerm with
      | some found => some found
      | none => misplaced? e.isTerm rest

/-- Every token as the operator that it is in its place. -/
def settle : Bool → Sequence → Sequence
  | _, [] => []
  | afterTerm, e :: rest => e.settle afterTerm :: settle e.isTerm rest

/-- Does a run, put behind a term or not, end with a term? -/
def endsInTerm : Bool → Sequence → Bool
  | afterTerm, [] => afterTerm
  | _, e :: rest => endsInTerm e.isTerm rest

def Settled : Bool → Sequence → Prop
  | _, [] => True
  | afterTerm, e :: rest => e.Settled afterTerm ∧ Settled e.isTerm rest

@[simp]
theorem endsInTerm_append (afterTerm : Bool) (s s' : Sequence) :
    endsInTerm afterTerm (s ++ s') = endsInTerm (endsInTerm afterTerm s) s' := by
  induction s generalizing afterTerm with
  | nil => rfl
  | cons e rest ih => exact ih e.isTerm

theorem endsInTerm_iff_exists {s : Sequence} :
    endsInTerm false s = true ↔ ∃ front e, s = front ++ [e] ∧ e.isTerm = true := by
  constructor
  · intro h
    obtain rfl | ⟨front, e, rfl⟩ := List.eq_nil_or_concat s
    · cases h
    · rw [List.concat_eq_append, endsInTerm_append] at h
      exact ⟨front, e, List.concat_eq_append, h⟩
  · rintro ⟨front, e, rfl, he⟩
    rw [endsInTerm_append]
    exact he

@[simp]
theorem endsInTerm_settle (afterTerm : Bool) (s : Sequence) :
    endsInTerm afterTerm (settle afterTerm s) = endsInTerm afterTerm s := by
  induction s generalizing afterTerm with
  | nil => rfl
  | cons e rest ih => simp only [settle, endsInTerm, Element.isTerm_settle, ih]

theorem settle_append (afterTerm : Bool) (s s' : Sequence) :
    settle afterTerm (s ++ s') = settle afterTerm s ++ settle (endsInTerm afterTerm s) s' := by
  induction s generalizing afterTerm with
  | nil => rfl
  | cons e rest ih => simp only [List.cons_append, settle, endsInTerm, ih]

@[simp]
theorem map_isTerm_settle (afterTerm : Bool) (s : Sequence) :
    List.map Element.isTerm (settle afterTerm s) = List.map Element.isTerm s := by
  induction s generalizing afterTerm with
  | nil => rfl
  | cons e rest ih => simp only [settle, List.map_cons, Element.isTerm_settle, ih]

@[simp]
theorem map_offset_settle (afterTerm : Bool) (s : Sequence) :
    List.map Element.offset (settle afterTerm s) = List.map Element.offset s := by
  induction s generalizing afterTerm with
  | nil => rfl
  | cons e rest ih => simp only [settle, List.map_cons, Element.offset_settle, ih]

theorem settled_append (afterTerm : Bool) (s s' : Sequence) :
    Settled afterTerm (s ++ s') ↔ Settled afterTerm s ∧ Settled (endsInTerm afterTerm s) s' := by
  induction s generalizing afterTerm with
  | nil => simp [Settled, endsInTerm]
  | cons e rest ih => simp only [List.cons_append, Settled, endsInTerm, ih, and_assoc]

theorem misplaced?_append (afterTerm : Bool) (s s' : Sequence) :
    misplaced? afterTerm (s ++ s') =
      (misplaced? afterTerm s).or (misplaced? (endsInTerm afterTerm s) s') := by
  induction s generalizing afterTerm with
  | nil => rfl
  | cons e rest ih =>
      simp only [List.cons_append, misplaced?, endsInTerm, ih]
      split <;> rfl

theorem resolve_eq (afterTerm : Bool) (s : Sequence) :
    resolve afterTerm s =
      match misplaced? afterTerm s with
      | some (t, offset) => .error (.unexpectedOperator t.text offset)
      | none => .ok (settle afterTerm s) := by
  induction s generalizing afterTerm with
  | nil => rfl
  | cons e rest ih =>
      simp only [resolve, misplaced?, settle, Element.resolve_eq, ih]
      cases e.misplaced? afterTerm with
      | some found => rfl
      | none => cases misplaced? e.isTerm rest <;> rfl

theorem settled_settle {afterTerm : Bool} {s : Sequence} (h : misplaced? afterTerm s = none) :
    Settled afterTerm (settle afterTerm s) := by
  induction s generalizing afterTerm with
  | nil => trivial
  | cons e rest ih =>
      simp only [misplaced?] at h
      split at h
      · cases h
      · refine ⟨Element.settled_settle ‹_›, ?_⟩
        rw [Element.isTerm_settle]
        exact ih h

theorem misplaced?_of_settled {afterTerm : Bool} {s : Sequence} (h : Settled afterTerm s) :
    misplaced? afterTerm s = none := by
  induction s generalizing afterTerm with
  | nil => rfl
  | cons e rest ih =>
      simp only [misplaced?, Element.misplaced?_of_settled h.1]
      exact ih h.2

theorem settle_of_settled {afterTerm : Bool} {s : Sequence} (h : Settled afterTerm s) :
    settle afterTerm s = s := by
  induction s generalizing afterTerm with
  | nil => rfl
  | cons e rest ih => simp only [settle, Element.settle_of_settled h.1, ih h.2]

theorem resolve_of_settled {afterTerm : Bool} {s : Sequence} (h : Settled afterTerm s) :
    resolve afterTerm s = .ok s := by
  rw [resolve_eq, misplaced?_of_settled h, settle_of_settled h]

end Sequence
end LineCalc

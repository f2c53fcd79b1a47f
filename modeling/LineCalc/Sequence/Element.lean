import LineCalc.Term

/-!
The flat form of an expression: a run of elements, each with the offset it was read at. A token is
not yet an operator, since `+` and `-` have two uses. A closed group keeps the run that stood
between its parentheses beside the term which that run became.
-/

namespace LineCalc

inductive Element where
  | term (t : Term) (offset : Nat)
  | group (body : List Element) (inner : Term) (offset : Nat)
  | token (t : Token) (offset : Nat)
  | operator (o : Operator) (offset : Nat)

abbrev Sequence := List Element

namespace Element

def offset : Element → Nat
  | .term _ offset | .group _ _ offset | .token _ offset | .operator _ offset => offset

/-- The operand that an element stands for, if it is not an operator. -/
def term? : Element → Option Term
  | .term t _ => some t
  | .group _ inner _ => some (.grouping inner)
  | .token .. | .operator .. => none

def isTerm (e : Element) : Bool :=
  e.term?.isSome

/-- The token of an operator, resolved or not. -/
def token? : Element → Option Token
  | .token t _ => some t
  | .operator o _ => some o.token
  | .term .. | .group .. => none

mutual

/-- An unresolved token is put in quotes, and an operator is shown by its shape. -/
def render : Element → List Char
  | .term t _ => t.render .pretty
  | .group body _ _ => ['(', ' '] ++ renderAll body ++ [' ', ')']
  | .token t _ => '"' :: t.chars ++ ['"']
  | .operator o _ => o.shape

def renderAll : List Element → List Char
  | [] => []
  | [e] => render e
  | e :: next :: rest => render e ++ [',', ' '] ++ renderAll (next :: rest)

end

mutual

def decEq : (a b : Element) → Decidable (a = b)
  | .term s p, .term t q => decidable_of_iff (s = t ∧ p = q) (by simp)
  | .group b s p, .group c t q =>
    match decEqAll b c with
    | .isTrue h => decidable_of_iff (s = t ∧ p = q) (by simp [h])
    | .isFalse h => .isFalse (by simp [h])
  | .token s p, .token t q => decidable_of_iff (s = t ∧ p = q) (by simp)
  | .operator s p, .operator t q => decidable_of_iff (s = t ∧ p = q) (by simp)
  | .term .., .group .. | .term .., .token .. | .term .., .operator ..
  | .group .., .term .. | .group .., .token .. | .group .., .operator ..
  | .token .., .term .. | .token .., .group .. | .token .., .operator ..
  | .operator .., .term .. | .operator .., .group .. | .operator .., .token .. => .isFalse (by simp)

def decEqAll : (as bs : List Element) → Decidable (as = bs)
  | [], [] => .isTrue rfl
  | [], _ :: _ | _ :: _, [] => .isFalse (by simp)
  | a :: as, b :: bs =>
    match decEq a b, decEqAll as bs with
    | .isTrue h, .isTrue hs => .isTrue (by simp [h, hs])
    | .isFalse h, _ => .isFalse (by simp [h])
    | _, .isFalse hs => .isFalse (by simp [hs])

end

instance : DecidableEq Element := decEq

def text (e : Element) : String :=
  String.ofList e.render

end Element

namespace Sequence

def render (s : Sequence) : List Char :=
  Element.renderAll s

/-- The tokenized form: the elements in order, separated by commas. -/
def text (s : Sequence) : String :=
  String.ofList s.render

end Sequence
end LineCalc

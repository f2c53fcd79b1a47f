import LineCalc.Constant
import LineCalc.Fault
import LineCalc.Numeral.Basic
import LineCalc.Operator

/-!
Expression trees. A grouping is a node of its own, so a tree remembers the parentheses it was
written with. The pretty style writes those and no others; the explicit style also puts a pair
around every numeral, constant and operation, so that it shows the whole tree.
-/

namespace LineCalc

inductive Term where
  | numeral (n : Numeral)
  | constant (c : Constant)
  | grouping (inner : Term)
  | unary (o : UnaryOp) (operand : Term)
  | binary (o : BinaryOp) (left right : Term)
deriving DecidableEq

inductive Style where
  | pretty | explicit
deriving DecidableEq, Repr

namespace Style

/-- The parentheses that a style adds around a piece. -/
def wrap : Style → List Char → List Char
  | .pretty, piece => piece
  | .explicit, piece => '(' :: piece ++ [')']

end Style

namespace Operator

/-- Puts the pieces into the slots of a shape, in order; slots beyond the pieces stay empty. -/
def fill : List Char → List (List Char) → List Char
  | [], _ => []
  | c :: shape, pieces =>
    if c = '#' then
      match pieces with
      | [] => fill shape []
      | piece :: pieces => piece ++ fill shape pieces
    else
      c :: fill shape pieces

end Operator

namespace Term

/-- An operation with the operands that an operator takes, and a fault for any other number. -/
def operation? : Operator → List Term → Except Fault Term
  | .unary o, [t] => .ok (.unary o t)
  | .binary o, [l, r] => .ok (.binary o l r)
  | o, operands => .error (.arityMismatch o.token.text o.arity operands.length)

def render (style : Style) : Term → List Char
  | .numeral n => style.wrap n.chars
  | .constant c => style.wrap c.chars
  | .grouping t => ['(', ' '] ++ t.render style ++ [' ', ')']
  | .unary o t => style.wrap (Operator.fill (Operator.shape (.unary o)) [t.render style])
  | .binary o l r =>
    style.wrap (Operator.fill (Operator.shape (.binary o)) [l.render style, r.render style])

def text (style : Style) (t : Term) : String :=
  String.ofList (t.render style)

/-- Infinities and what is not a number are values like any other. -/
def value : Term → Float
  | .numeral n => n.value
  | .constant c => c.value
  | .grouping t => t.value
  | .unary o t => o.apply t.value
  | .binary o l r => o.apply l.value r.value

end Term
end LineCalc

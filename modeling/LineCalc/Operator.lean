import LineCalc.Binary64.Remainder

/-!
Tokens and the operators they spell. A token is what stands in the line; an operator is one use of
a token, so `+` and `-` spell two operators each. The size of an operator's precedence says how
tightly it binds and its sign how equals are grouped: chains of negative ones from the right,
chains of positive ones from the left.
-/

namespace LineCalc

inductive Token where
  | ln | log | caret | plus | minus | star | slash | percent | mod
deriving DecidableEq, Repr

namespace Token

def chars : Token → List Char
  | .ln => ['l', 'n']
  | .log => ['l', 'o', 'g']
  | .caret => ['^']
  | .plus => ['+']
  | .minus => ['-']
  | .star => ['*']
  | .slash => ['/']
  | .percent => ['%']
  | .mod => ['m', 'o', 'd']

def text (t : Token) : String :=
  String.ofList t.chars

def all : List Token :=
  [.ln, .log, .caret, .plus, .minus, .star, .slash, .percent, .mod]

def ofText? (text : String) : Option Token :=
  all.find? fun t => t.chars == text.toList

end Token

inductive UnaryOp where
  | ln | log | plus | minus
deriving DecidableEq, Repr

inductive BinaryOp where
  | pow | mul | div | rem | add | sub | mod
deriving DecidableEq, Repr

/-- An operator stands before its one operand or between its two. -/
inductive Operator where
  | unary (o : UnaryOp)
  | binary (o : BinaryOp)
deriving DecidableEq, Repr

namespace UnaryOp

def token : UnaryOp → Token
  | .ln => .ln
  | .log => .log
  | .plus => .plus
  | .minus => .minus

/-- Logarithms to the bases e and ten, and the two signs. -/
def apply : UnaryOp → Float → Float
  | .ln, x => x.log
  | .log, x => x.log10
  | .plus, x => x
  | .minus, x => -x

end UnaryOp

namespace BinaryOp

def token : BinaryOp → Token
  | .pow => .caret
  | .mul => .star
  | .div => .slash
  | .rem => .percent
  | .add => .plus
  | .sub => .minus
  | .mod => .mod

/-- Both remainders are the same function; their operators differ in how tightly they bind. -/
def apply : BinaryOp → Float → Float → Float
  | .pow, x, y => x.pow y
  | .mul, x, y => x * y
  | .div, x, y => x / y
  | .rem, x, y => Binary64.remainder x y
  | .add, x, y => x + y
  | .sub, x, y => x - y
  | .mod, x, y => Binary64.remainder x y

end BinaryOp

namespace Operator

/-- All operators, tightest first. -/
def all : List Operator :=
  [.unary .ln, .unary .log, .binary .pow, .unary .plus, .unary .minus, .binary .mul, .binary .div,
    .binary .rem, .binary .add, .binary .sub, .binary .mod]

def token : Operator → Token
  | .unary o => o.token
  | .binary o => o.token

def precedence : Operator → Int
  | .unary .ln | .unary .log => -6
  | .binary .pow => -5
  | .unary .plus | .unary .minus => -4
  | .binary .mul | .binary .div | .binary .rem => 3
  | .binary .add | .binary .sub => 2
  | .binary .mod => 1

def rank (o : Operator) : Nat :=
  o.precedence.natAbs

/-- Do equals in a chain group from the right? -/
def groupsRight (o : Operator) : Bool :=
  decide (o.precedence < 0)

def isUnary : Operator → Bool
  | .unary _ => true
  | .binary _ => false

def leftCount : Operator → Nat
  | .unary _ => 0
  | .binary _ => 1

def rightCount (_ : Operator) : Nat :=
  1

def arity (o : Operator) : Nat :=
  o.leftCount + o.rightCount

/-- How an operation is written; each `#` stands for one operand. Only the looser binary operators
are set off by spaces. -/
def shape (o : Operator) : List Char :=
  match o with
  | .unary u => u.token.chars ++ ['#']
  | .binary .pow => '#' :: Token.caret.chars ++ ['#']
  | .binary b => ['#', ' '] ++ b.token.chars ++ [' ', '#']

/-- The uses of a token, a unary one before a binary one. -/
def candidates (t : Token) : List Operator :=
  all.filter fun o => o.token == t

/-- The operators that a text spells; none where it is no token. -/
def spelled (text : String) : List Operator :=
  ((Token.ofText? text).map candidates).getD []

/-- Applies the operator to as many of the values as it has operands. -/
def applyTo : Operator → List Float → Option Float
  | .unary o, x :: _ => some (o.apply x)
  | .binary o, x :: y :: _ => some (o.apply x y)
  | _, _ => none

/-- One line that tells operators with the same token apart. -/
def summary (o : Operator) : String :=
  "Operator \x7b prec: " ++ toString o.precedence ++ ", token: \"" ++ o.token.text ++
    "\", left: " ++ toString o.leftCount ++ ", right: " ++ toString o.rightCount ++ " \x7d"

end Operator
end LineCalc

/-!
The named constants.
-/

namespace LineCalc

inductive Constant where
  | pi | e
deriving DecidableEq, Repr

namespace Constant

def all : List Constant :=
  [.pi, .e]

/-- The name, in the lower case in which it is always shown. -/
def chars : Constant → List Char
  | .pi => ['p', 'i']
  | .e => ['e']

def text (c : Constant) : String :=
  String.ofList c.chars

/-- The nearest floating-point number. -/
def value : Constant → Float
  | .pi => 3.141592653589793
  | .e => 2.718281828459045

end Constant
end LineCalc

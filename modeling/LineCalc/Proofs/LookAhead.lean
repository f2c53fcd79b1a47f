import Mathlib.Data.List.Forall2
import LineCalc.Proofs.LetterCase

/-!
Looking ahead and moving on. A cursor that looks for blanks, or for a text, answers what it would
find if it read, within the input, at the end, and beyond it. There the unread text is empty as at
the end, but not even the empty text begins there. Blanks are skipped by reading one character too
many, which the last offset of a machine word does not allow: from there the count goes on at the
start of the input, where no character can be put back. At every other offset nothing overflows, and
the cursor moves as if offsets had no bound.
-/

namespace LineCalc

namespace Cursor

/-- The unread input begins with the text. -/
def Begins (c : Cursor) (text : List Char) : Prop :=
  c.offset ≤ c.size ∧ text <+: c.rest

/-- The empty text begins at the end, and beyond it no longer. -/
example :
    (⟨['x', ' '], 2, []⟩ : Cursor).startsWith [] = true ∧
      (⟨['x', ' '], 3, []⟩ : Cursor).startsWith [] = false := by decide

end Cursor
end LineCalc

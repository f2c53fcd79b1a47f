/-!
A read head over the characters of one line. Reading past the end yields nothing but still moves
the offset, so an offset may lie beyond the end by the number of such reads. Saved offsets form a
stack: a reader marks before it consumes, and then either keeps what it consumed by dropping the
mark or goes back to it. Nothing here logs; `Session` adds that.

What reads a line stays near its input and counts offsets without a bound. A script may move a
cursor to any offset that a machine word holds; its commands count as the word does, from the last
offset on to the first.
-/

namespace LineCalc

/-- Misuse of a cursor. Text that is read never causes it, only an unbalanced reader does. -/
inductive CursorFault where
  /-- A mark was to be dropped or returned to, and there is none. -/
  | noMark
  /-- A character was to be put back at the start of the line. -/
  | unexpectedRetreat
deriving DecidableEq, Repr

def CursorFault.message : CursorFault → String
  | .noMark => "cursor mark stack is empty"
  | .unexpectedRetreat => "cursor cannot retreat before offset 0"

/-- The characters that may stand between elements: space, tab, line feed, carriage return. -/
def isBlank (c : Char) : Bool :=
  c == ' ' || c == '\t' || c == '\n' || c == '\r'

/-- The input, the offset of the next character, and the saved offsets, newest first. -/
structure Cursor where
  input : List Char
  offset : Nat
  marks : List Nat
deriving DecidableEq, Repr

namespace Cursor

def ofString (text : String) : Cursor :=
  ⟨text.toList, 0, []⟩

/-- The unread input; there is none at the end and beyond. -/
def rest (c : Cursor) : List Char :=
  c.input.drop c.offset

def size (c : Cursor) : Nat :=
  c.input.length

def depth (c : Cursor) : Nat :=
  c.marks.length

def isAtEnd (c : Cursor) : Bool :=
  decide (c.size ≤ c.offset)

def moveTo (c : Cursor) (offset : Nat) : Cursor :=
  { c with offset }

def advance (c : Cursor) (count : Nat) : Cursor :=
  c.moveTo (c.offset + count)

/-- The next character, and the cursor one further whether there was one or not. -/
def next (c : Cursor) : Option Char × Cursor :=
  (c.rest.head?, c.advance 1)

/-- The last offset that a machine word holds. -/
def lastOffset : Nat :=
  18446744073709551615

/-- Behind the last offset comes the start of the input again. -/
def advanceWrapping (c : Cursor) (count : Nat) : Cursor :=
  c.moveTo ((c.offset + count) % (lastOffset + 1))

def nextWrapping (c : Cursor) : Option Char × Cursor :=
  (c.rest.head?, c.advanceWrapping 1)

def pushBack (c : Cursor) : Except CursorFault Cursor :=
  match c.offset with
  | 0 => .error .unexpectedRetreat
  | offset + 1 => .ok (c.moveTo offset)

def mark (c : Cursor) : Cursor :=
  { c with marks := c.offset :: c.marks }

/-- Drops the newest saved offset and stays where it is. -/
def unmark (c : Cursor) : Except CursorFault Cursor :=
  match c.marks with
  | [] => .error .noMark
  | _ :: marks => .ok { c with marks }

/-- Goes back to the newest saved offset and drops it. -/
def restore (c : Cursor) : Except CursorFault Cursor :=
  match c.marks with
  | [] => .error .noMark
  | offset :: marks => .ok { c with offset, marks }

/-- The offset of the first character from here on that is not blank, or the end of the input;
beyond the end, the offset itself. -/
def contentOffset (c : Cursor) : Nat :=
  c.offset + (c.rest.takeWhile isBlank).length

/-- Steps over the given unread characters while they are blank, and over one character further,
present or not. -/
def passBlanksIn (step : Cursor → Cursor) : List Char → Cursor → Cursor
  | ch :: rest, c => if isBlank ch then passBlanksIn step rest (step c) else step c
  | [], c => step c

/-- The character that ends the blanks is put back. -/
def skipBlanks (c : Cursor) : Except CursorFault Cursor :=
  (passBlanksIn (·.advance 1) c.rest c).pushBack

def passBlanksWrapping (c : Cursor) : Cursor :=
  passBlanksIn (·.advanceWrapping 1) c.rest c

def skipBlanksWrapping (c : Cursor) : Except CursorFault Cursor :=
  c.passBlanksWrapping.pushBack

private theorem passBlanksIn_advance (text : List Char) (c : Cursor) :
    passBlanksIn (·.advance 1) text c = c.advance ((text.takeWhile isBlank).length + 1) := by
  induction text generalizing c with
  | nil => rfl
  | cons ch rest ih =>
    by_cases h : isBlank ch
    · rw [passBlanksIn, if_pos h, ih, List.takeWhile_cons_of_pos h, List.length_cons]
      simp only [advance, moveTo, Nat.add_assoc, Nat.add_comm 1]
    · rw [passBlanksIn, if_neg h, List.takeWhile_cons_of_neg h]
      rfl

theorem skipBlanks_eq (c : Cursor) : c.skipBlanks = .ok (c.moveTo c.contentOffset) := by
  rw [skipBlanks, passBlanksIn_advance]
  rfl

/-- Does the unread input begin with these characters, compared by `same`? Beyond the end of the
input nothing matches, not even the empty text. -/
def startsWithBy (same : Char → Char → Bool) (c : Cursor) (text : List Char) : Bool :=
  decide (c.offset ≤ c.size) && matchesHead text c.rest
where
  matchesHead : List Char → List Char → Bool
    | [], _ => true
    | _ :: _, [] => false
    | t :: text, r :: rest => same t r && matchesHead text rest

def startsWith (c : Cursor) (text : List Char) : Bool :=
  c.startsWithBy (· == ·) text

/-- Case is ignored for the letters of ASCII only. -/
def startsWithIgnoreCase (c : Cursor) (text : List Char) : Bool :=
  c.startsWithBy (fun a b => a.toLower == b.toLower) text

end Cursor
end LineCalc

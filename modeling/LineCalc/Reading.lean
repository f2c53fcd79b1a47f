import LineCalc.Session

/-!
Reading a line. Each kind of piece has a reading that skips blanks, runs on trial, and either takes
the whole piece or leaves the cursor where it was. At each place a group is tried first, then the
longest token, then a constant, then a numeral. A group that is not closed, or has no content, or
holds too many elements, is no group; one that is closed has to condense.
-/

namespace LineCalc

/-- The longer of an earlier choice and the next, the earlier of equals. -/
def longer {α : Type} (chars : α → List Char) : Option α → α → Option α
  | none, x => some x
  | some best, x => some (if (chars best).length < (chars x).length then x else best)

/-- The one with the most characters, the earliest of several. -/
def longest? {α : Type} (chars : α → List Char) (xs : List α) : Option α :=
  xs.foldl (longer chars) none

/-- A closed group: the run between its parentheses, and the term that the run became. -/
structure Group where
  body : Sequence
  inner : Term

/-- As many elements are read between parentheses, and no more. -/
def groupLimit : Nat :=
  31

namespace Reading

open Step

def skipBlanks : Reading Unit :=
  tryMove .cursor Cursor.skipBlanks

/-- The longest token, and where it stands. -/
def token : Reading (Option (Token × Nat)) :=
  attempt .cursor do
    skipBlanks
    let c ← cursor
    match longest? Token.chars (Token.all.filter fun t => c.startsWith t.chars) with
    | none => return none
    | some t =>
      move fun c => c.advance t.chars.length
      return some (t, c.offset)

/-- The longest name of a constant, in capitals or not. -/
def constant : Reading (Option Constant) :=
  attempt .cursor do
    skipBlanks
    let c ← cursor
    match longest? Constant.chars (Constant.all.filter fun k => c.startsWithIgnoreCase k.chars) with
    | none => return none
    | some k =>
      move fun c => c.advance k.chars.length
      log (.constant k)
      return some k

/-- A numeral. One character after it is read to find its end, and put back. -/
def numeral : Reading (Option Numeral) :=
  attempt .cursor do
    let c ← cursor
    let start := c.contentOffset
    let text := c.input.drop start
    let read := Numeral.read text
    move fun c => c.moveTo (start + (text.length - read.2.length) + 1)
    match read.1 with
    | .absent => return none
    | .malformed flaw =>
      let c ← cursor
      throw (.malformed flaw.detail ⟨start, max start (min c.offset c.size)⟩)
    | .found n =>
      tryMove .cursor Cursor.pushBack
      log (.numeral n)
      return some n

/-- The tree of a run. What condensing it logs is taken over. -/
def condense (s : Sequence) : Reading Term := do
  let run := s.condensation
  logAll run.records
  match run.outcome with
  | .error fault => throw fault
  | .ok t => return t

end Reading

/-- What the reading of a run is made of, for one kind of failure: how the single pieces are read,
and how the run of a closed group becomes a tree. -/
structure Reader (ε : Type) where
  wrap : CursorFault → ε
  skipBlanks : Step ε Unit
  token : Step ε (Option (Token × Nat))
  constant : Step ε (Option Constant)
  numeral : Step ε (Option Numeral)
  condense : Sequence → Step ε Term

namespace Reader

open Step

variable {ε : Type} (r : Reader ε)

/-- Any element, with groups read by the given reading. -/
def elementBy (group : Step ε (Option Group)) : Step ε (Option Element) := do
  let offset := (← cursor).contentOffset
  match ← group with
  | some g => return some (.group g.body g.inner offset)
  | none =>
    match ← r.token with
    | some (t, offset) =>
      log (.token t offset)
      return some (.token t offset)
    | none =>
      match ← r.constant with
      | some k => return some (.term (.constant k) offset)
      | none =>
        match ← r.numeral with
        | some n => return some (.term (.numeral n) offset)
        | none =>
          log (.nothingFound (← cursor).rest)
          return none

/-- Elements one after the other, at most as many as given. -/
def elementsBy (group : Step ε (Option Group)) : Nat → Step ε Sequence
  | 0 => return []
  | most + 1 => do
    match ← r.elementBy group with
    | none => return []
    | some e => return e :: (← elementsBy group most)

/-- A run of at least one element on trial, with its elements read as given. -/
def runOf (elements : Step ε Sequence) : Step ε (Option Sequence) :=
  attempt r.wrap do
    match ← elements with
    | [] => return none
    | e :: es =>
      log (.scanned (e :: es) (← cursor).rest)
      return some (e :: es)

/-- A run, with groups read by the given reading. Every element takes a character, so that one more
element than there are characters left is no limit. -/
def sequenceBy (group : Step ε (Option Group)) (limit : Option Nat) : Step ε (Option Sequence) :=
  r.runOf do r.elementsBy group (limit.getD ((← cursor).rest.length + 1))

/-- A group, with the groups inside it read by the given reading. -/
def groupAround (inner : Step ε (Option Group)) : Step ε (Option Group) :=
  attempt r.wrap do
    r.skipBlanks
    if (← next) = some '(' then
      match ← r.sequenceBy inner (some groupLimit) with
      | none => return none
      | some body =>
        r.skipBlanks
        if (← next) = some ')' then
          let t ← r.condense body
          log (.grouping t)
          return some ⟨body, t⟩
        else
          return none
    else
      return none

/-- A group with at most so many groups inside each other. -/
def groupWithin : Nat → Step ε (Option Group)
  | 0 => return none
  | depth + 1 => r.groupAround (groupWithin depth)

/-- A group. Every group inside another takes a character, so that one more than there are
characters left is no limit. -/
def group : Step ε (Option Group) := do
  r.groupWithin ((← cursor).rest.length + 1)

def sequence (limit : Option Nat) : Step ε (Option Sequence) :=
  r.sequenceBy r.group limit

end Reader

namespace Reading

/-- Reading with these pieces fails with the faults of a line. -/
def reader : Reader Fault where
  wrap := .cursor
  skipBlanks := skipBlanks
  token := token
  constant := constant
  numeral := numeral
  condense := condense

def group : Reading (Option Group) :=
  reader.group

def element : Reading (Option Element) :=
  reader.elementBy group

def sequence (limit : Option Nat) : Reading (Option Sequence) :=
  reader.sequence limit

end Reading
end LineCalc

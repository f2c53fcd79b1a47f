import LineCalc.Sequence.Condensation
import LineCalc.Numeral.Reader

/-!
The state of a reading, a cursor and the log so far, and the discipline of reading on trial. A
reading finds something, finds nothing, or fails. Run on trial, it stands under a mark of its own:
what it finds stays consumed, and otherwise the cursor goes back to where the reading began.
-/

namespace LineCalc

structure Session where
  cursor : Cursor
  /-- Newest first. -/
  records : List Record

/-- A step that may fail; also a failed step leaves a session. -/
abbrev Step (ε α : Type) := EStateM ε Session α

abbrev Reading (α : Type) := Step Fault α

namespace Session

def start (text : String) : Session :=
  ⟨.ofString text, []⟩

def withCursor (s : Session) (cursor : Cursor) : Session :=
  { s with cursor }

def log (s : Session) (r : Record) : Session :=
  { s with records := r :: s.records }

/-- Adds records in the order of time. -/
def logAll (s : Session) (rs : List Record) : Session :=
  { s with records := rs.reverse ++ s.records }

def mark (s : Session) : Session :=
  s.withCursor s.cursor.mark

def unmark (s : Session) : Except CursorFault Session :=
  s.cursor.unmark.map s.withCursor

/-- Every return to a mark is logged. -/
def restore (s : Session) : Except CursorFault Session :=
  s.cursor.restore.map fun c => (s.withCursor c).log (.restored s.cursor.offset c.offset)

end Session

namespace Step

variable {ε α : Type}

def log (r : Record) : Step ε Unit :=
  modify fun s => s.log r

def logAll (rs : List Record) : Step ε Unit :=
  modify fun s => s.logAll rs

def cursor : Step ε Cursor := do
  return (← get).cursor

def move (f : Cursor → Cursor) : Step ε Unit :=
  modify fun s => s.withCursor (f s.cursor)

/-- Moves the cursor, or fails and leaves it. -/
def tryMove (wrap : CursorFault → ε) (f : Cursor → Except CursorFault Cursor) : Step ε Unit :=
  fun s =>
    match f s.cursor with
    | .ok c => .ok () (s.withCursor c)
    | .error fault => .error (wrap fault) s

/-- The next character, if there is one; the cursor is moved past it either way. -/
def next : Step ε (Option Char) := fun s =>
  .ok s.cursor.next.1 (s.withCursor s.cursor.next.2)

/-- The end of a trial, which releases its mark. -/
def settle (wrap : CursorFault → ε) :
    EStateM.Result ε Session (Option α) → EStateM.Result ε Session (Option α)
  | .ok (some a) s =>
    match s.unmark with
    | .ok s => .ok (some a) s
    | .error fault => .error (wrap fault) s
  | .ok none s =>
    match s.restore with
    | .ok s => .ok none s
    | .error fault => .error (wrap fault) s
  | .error e s =>
    match s.restore with
    | .ok s => .error e s
    | .error fault => .error (wrap fault) s

theorem settle_some {wrap : CursorFault → ε} {a : α} {s : Session} {mark : Nat} {marks : List Nat}
    (h : s.cursor.marks = mark :: marks) :
    settle wrap (.ok (some a) s) = .ok (some a) (s.withCursor { s.cursor with marks }) := by
  simp [settle, Session.unmark, Cursor.unmark, h, Except.map]

theorem settle_none {wrap : CursorFault → ε} {s : Session} {mark : Nat} {marks : List Nat}
    (h : s.cursor.marks = mark :: marks) :
    settle (α := α) wrap (.ok none s) =
      .ok none ((s.withCursor { s.cursor with offset := mark, marks }).log
        (.restored s.cursor.offset mark)) := by
  simp [settle, Session.restore, Cursor.restore, h, Except.map]

theorem settle_error {wrap : CursorFault → ε} {e : ε} {s : Session} {mark : Nat}
    {marks : List Nat} (h : s.cursor.marks = mark :: marks) :
    settle (α := α) wrap (.error e s) =
      .error e ((s.withCursor { s.cursor with offset := mark, marks }).log
        (.restored s.cursor.offset mark)) := by
  simp [settle, Session.restore, Cursor.restore, h, Except.map]

def attempt (wrap : CursorFault → ε) (body : Step ε (Option α)) : Step ε (Option α) := fun s =>
  settle wrap (body s.mark)

end Step
end LineCalc

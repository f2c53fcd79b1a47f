import LineCalc.Reading

/-!
Scripts of commands for a cursor. One session runs all commands of a script in order, and a command
that fails does not stop those after it. Every answer says where the cursor stands afterwards and
how many marks are open. A trial is a command that holds a script of its own and says how that
script is to end.
-/

namespace LineCalc

/-- How the script inside a trial ends. -/
inductive Ending where
  | found
  | nothing
  | fails (fault : CursorFault)
deriving DecidableEq, Repr

inductive Command where
  | next
  | pushBack
  | mark
  | unmark
  | restore
  | skipBlanks
  | advance (count : Nat)
  | contentOffset
  | size
  | isAtEnd
  | rest
  | startsWith (text : String)
  | startsWithIgnoreCase (text : String)
  | attempt (body : List Command) (ending : Ending)
  | numeral
  | constant
  | token
  | group
  | sequence (limit : Option Nat)

mutual

inductive Reply where
  | done
  | character (c : Option Char)
  | number (n : Nat)
  | flag (b : Bool)
  | text (cs : List Char)
  | numeral (n : Option Numeral)
  | constant (c : Option Constant)
  | token (t : Option (Token × Nat))
  | group (g : Option Group)
  | sequence (s : Option Sequence)
  /-- Did the trial find something, or which fault did it end with? -/
  | attempted (answers : List Answer) (outcome : Except CursorFault Bool)
  | misused (fault : CursorFault)
  | failed (fault : Fault)

inductive Answer where
  | mk (offset depth : Nat) (reply : Reply)

end

namespace Session

def answer (s : Session) (reply : Reply) : Answer :=
  .mk s.cursor.offset s.cursor.depth reply

def tryMove (s : Session) (f : Cursor → Except CursorFault Cursor) : Reply × Session :=
  match f s.cursor with
  | .ok c => (.done, s.withCursor c)
  | .error fault => (.misused fault, s)

/-- Runs a reading and puts what it answers into a reply. -/
def reply {α : Type} (s : Session) (r : Reading α) (f : α → Reply) : Reply × Session :=
  match r s with
  | .ok a s => (f a, s)
  | .error fault s => (.failed fault, s)

end Session

def Ending.result (ending : Ending) (s : Session) :
    EStateM.Result CursorFault Session (Option Unit) :=
  match ending with
  | .found => .ok (some ()) s
  | .nothing => .ok none s
  | .fails fault => .error fault s

namespace Command

mutual

/-- A trial runs its script under a mark of its own and releases the mark at the end. -/
def run : Command → Session → Reply × Session
  | .next, s => (.character s.cursor.nextWrapping.1, s.withCursor s.cursor.nextWrapping.2)
  | .pushBack, s => s.tryMove Cursor.pushBack
  | .mark, s => (.done, s.mark)
  | .unmark, s => s.tryMove Cursor.unmark
  | .restore, s =>
    match s.restore with
    | .ok s => (.done, s)
    | .error fault => (.misused fault, s)
  | .skipBlanks, s =>
    match s.cursor.skipBlanksWrapping with
    | .ok c => (.done, s.withCursor c)
    -- what has been read is not put back
    | .error fault => (.misused fault, s.withCursor s.cursor.passBlanksWrapping)
  | .advance count, s => (.done, s.withCursor (s.cursor.advanceWrapping count))
  | .contentOffset, s => (.number s.cursor.contentOffset, s)
  | .size, s => (.number s.cursor.size, s)
  | .isAtEnd, s => (.flag s.cursor.isAtEnd, s)
  | .rest, s => (.text s.cursor.rest, s)
  | .startsWith text, s => (.flag (s.cursor.startsWith text.toList), s)
  | .startsWithIgnoreCase text, s => (.flag (s.cursor.startsWithIgnoreCase text.toList), s)
  | .attempt body ending, s =>
    let (answers, s) := runAll body s.mark
    match Step.settle id (ending.result s) with
    | .ok found s => (.attempted answers (.ok found.isSome), s)
    | .error fault s => (.attempted answers (.error fault), s)
  | .numeral, s => s.reply Reading.numeral .numeral
  | .constant, s => s.reply Reading.constant .constant
  | .token, s => s.reply Reading.token .token
  | .group, s => s.reply Reading.group .group
  | .sequence limit, s => s.reply (Reading.sequence limit) .sequence

def runAll : List Command → Session → List Answer × Session
  | [], s => ([], s)
  | c :: others, s =>
    let (reply, s) := run c s
    let (answers, final) := runAll others s
    (s.answer reply :: answers, final)

end

end Command
end LineCalc

import LineCalc.Proofs.Lexing

/-!
Trials are atomic. What runs under the mark of a trial may move as it likes, set and release marks
of its own in pairs, and run further trials, to any depth; whether it goes on after a failure or
fails itself is its own affair. As long as the marks come in pairs, the trial finds its mark again
on top of those that were there before: what was found stays consumed, and otherwise the cursor is
back where it was. A mark that is set by hand is released in the same way.
-/

namespace LineCalc

/-- How a mark that was set by hand is released: it is dropped, or the cursor goes back to it. -/
inductive Release where
  | unmark | restore
deriving DecidableEq, Repr

namespace Release

def apply : Release → Session → Except CursorFault Session
  | .unmark, s => s.unmark
  | .restore, s => s.restore

/-- Where a mark that was set at one cursor leaves it when it is released at another. -/
def leaves : Release → Cursor → Cursor → Cursor
  | .unmark, set, released => set.moveTo released.offset
  | .restore, set, _ => set

end Release

namespace Step

variable {ε ε' α β : Type}

/-- What a step ends with, and the session that it leaves, whether it failed or not. -/
def ending : EStateM.Result ε Session α → Except ε α × Session
  | .ok a s => (.ok a, s)
  | .error e s => (.error e, s)

/-- A step whose failure is an answer like any other. -/
def observe (x : Step ε' α) : Step ε (Except ε' α) := fun s =>
  .ok (ending (x s)).1 (ending (x s)).2

def release (r : Release) : Step CursorFault Unit := fun s =>
  match r.apply s with
  | .ok s => .ok () s
  | .error fault => .error fault s

/-- A step under a mark set by hand. Its answer decides how the mark is released. -/
def marked (x : Step ε' α) (choice : Except ε' α → Release) :
    Step ε (Except ε' α × Except CursorFault Unit) := do
  modify Session.mark
  let answer ← observe x
  return (answer, ← observe (release (choice answer)))

end Step

/-- What may run on trial: a finite program over a cursor that sets and releases marks in pairs. The
first type is that of its faults, the second that of its answers. A call that can fail answers
whether it did, and the program goes on or fails itself. Any question may be asked about the cursor.
A mark set by hand is released behind its inner program, however that ended. -/
inductive Program : Type → Type → Type 1 where
  | pure {ε α : Type} (a : α) : Program ε α
  | throw {ε α : Type} (e : ε) : Program ε α
  | bind {ε α β : Type} (first : Program ε α) (others : α → Program ε β) : Program ε β
  | next {ε : Type} : Program ε (Option Char)
  | pushBack {ε : Type} : Program ε (Except CursorFault Unit)
  | advance {ε : Type} (count : Nat) : Program ε Unit
  | skipBlanks {ε : Type} : Program ε (Except CursorFault Unit)
  | ask {ε α : Type} (question : Cursor → α) : Program ε α
  | marked {ε ε' α : Type} (inner : Program ε' α) (choice : Except ε' α → Release) :
      Program ε (Except ε' α × Except CursorFault Unit)
  | attempt {ε ε' α : Type} (wrap : CursorFault → ε') (inner : Program ε' (Option α)) :
      Program ε (Except ε' (Option α))

namespace Program

open Step

def run {ε α : Type} : Program ε α → Step ε α
  | .pure a => return a
  | .throw e => MonadExcept.throw e
  | .bind first others => do (others (← first.run)).run
  | .next => Step.next
  | .pushBack => observe (tryMove id Cursor.pushBack)
  | .advance count => move fun c => c.advance count
  | .skipBlanks => observe (tryMove id Cursor.skipBlanks)
  | .ask question => return question (← cursor)
  | .marked inner choice => Step.marked inner.run choice
  | .attempt wrap inner => observe (Step.attempt wrap inner.run)

end Program

namespace Cursor

/-- The newest mark is the offset at which it was set, and those below it are as they were. -/
theorem marks_of_moveTo {c c' : Cursor} (h : c' = c.mark.moveTo c'.offset) :
    c'.marks = c.offset :: c.marks := by
  rw [h]
  rfl

/-- Without its newest mark the cursor is the one before but for the offset. -/
theorem unmarked_of_moveTo {c c' : Cursor} (h : c' = c.mark.moveTo c'.offset) :
    { c' with marks := c.marks } = c.moveTo c'.offset := by
  rw [h]
  rfl

theorem restored_of_moveTo {c c' : Cursor} (h : c' = c.mark.moveTo c'.offset) :
    { c' with offset := c.offset, marks := c.marks } = c := by
  rw [h]
  rfl

end Cursor

namespace Step

variable {ε ε' α β : Type}

/-- The step leaves the input and the marks as they were, also when it fails. -/
def Keeps (x : Step ε α) : Prop :=
  ∀ s, (ending (x s)).2.cursor = s.cursor.moveTo (ending (x s)).2.cursor.offset

theorem keeps_pure (a : α) : Keeps (pure a : Step ε α) :=
  fun _ => rfl

theorem keeps_throw (e : ε) : Keeps (MonadExcept.throw e : Step ε α) :=
  fun _ => rfl

theorem Keeps.cursor_of_ok {x : Step ε α} (h : x.Keeps) {a : α} {s s' : Session}
    (hx : x s = .ok a s') : s'.cursor = s.cursor.moveTo s'.cursor.offset := by
  have hcursor := h s
  rw [hx] at hcursor
  exact hcursor

theorem Keeps.cursor_of_error {x : Step ε α} (h : x.Keeps) {e : ε} {s s' : Session}
    (hx : x s = .error e s') : s'.cursor = s.cursor.moveTo s'.cursor.offset := by
  have hcursor := h s
  rw [hx] at hcursor
  exact hcursor

theorem keeps_bind {x : Step ε α} {f : α → Step ε β} (first : x.Keeps)
    (others : ∀ a, (f a).Keeps) : Keeps (x >>= f) := by
  intro s
  rw [bind_run]
  cases hx : x s with
  | error e s₁ => exact first.cursor_of_error hx
  | ok a s₁ =>
      have hothers := others a s₁
      rw [first.cursor_of_ok hx] at hothers
      exact hothers

theorem keeps_observe {x : Step ε' α} (h : x.Keeps) : Keeps (observe x : Step ε (Except ε' α)) :=
  h

theorem keeps_next : Keeps (next : Step ε (Option Char)) :=
  fun _ => rfl

theorem keeps_advance (count : Nat) : Keeps (move (fun c => c.advance count) : Step ε Unit) :=
  fun _ => rfl

theorem keeps_cursor : Keeps (cursor : Step ε Cursor) :=
  fun _ => rfl

theorem keeps_pushBack : Keeps (tryMove id Cursor.pushBack) := by
  intro s
  simp only [tryMove, Cursor.pushBack]
  cases s.cursor.offset <;> rfl

theorem keeps_skipBlanks : Keeps (tryMove id Cursor.skipBlanks) := by
  intro s
  simp only [tryMove, Cursor.skipBlanks_eq]
  rfl

/-- How a trial that begins at a cursor ends when what it tries ends in the way given: with the same
answer, where that was found left the cursor, and otherwise where the trial began. -/
inductive Settles (c : Cursor) :
    EStateM.Result ε Session (Option α) → EStateM.Result ε Session (Option α) → Prop where
  | found {a : α} {s s' : Session} (cursor : s'.cursor = c.moveTo s.cursor.offset) :
      Settles c (.ok (some a) s) (.ok (some a) s')
  | absent {s s' : Session} (cursor : s'.cursor = c) : Settles c (.ok none s) (.ok none s')
  | failed {e : ε} {s s' : Session} (cursor : s'.cursor = c) :
      Settles c (.error e s) (.error e s')

theorem settles_attempt {x : Step ε (Option α)} (h : x.Keeps) (wrap : CursorFault → ε)
    (s : Session) : Settles s.cursor (x s.mark) (attempt wrap x s) := by
  rw [attempt]
  cases hx : x s.mark with
  | ok found s₁ =>
      have hcursor := h.cursor_of_ok hx
      have hmarks := Cursor.marks_of_moveTo hcursor
      cases found with
      | some a =>
          rw [settle_some hmarks]
          exact .found (Cursor.unmarked_of_moveTo hcursor)
      | none =>
          rw [settle_none hmarks]
          exact .absent (Cursor.restored_of_moveTo hcursor)
  | error e s₁ =>
      have hcursor := h.cursor_of_error hx
      rw [settle_error (Cursor.marks_of_moveTo hcursor)]
      exact .failed (Cursor.restored_of_moveTo hcursor)

theorem keeps_attempt {x : Step ε (Option α)} (h : x.Keeps) (wrap : CursorFault → ε) :
    Keeps (attempt wrap x) := by
  intro s
  have hsettles := settles_attempt h wrap s
  generalize x s.mark = r, attempt wrap x s = r' at hsettles
  cases hsettles with
  | found cursor => simp only [ending, cursor]; rfl
  | absent cursor => simp only [ending, cursor]; rfl
  | failed cursor => simp only [ending, cursor]; rfl

theorem release_run {c : Cursor} {s : Session} (h : s.cursor = c.mark.moveTo s.cursor.offset)
    (r : Release) : ∃ s', release r s = .ok () s' ∧ s'.cursor = r.leaves c s.cursor := by
  have hmarks := Cursor.marks_of_moveTo h
  cases r with
  | unmark =>
      refine ⟨s.withCursor { s.cursor with marks := c.marks }, ?_, Cursor.unmarked_of_moveTo h⟩
      simp [release, Release.apply, Session.unmark, Cursor.unmark, hmarks, Except.map]
  | restore =>
      refine ⟨(s.withCursor { s.cursor with offset := c.offset, marks := c.marks }).log
        (.restored s.cursor.offset c.offset), ?_, Cursor.restored_of_moveTo h⟩
      simp [release, Release.apply, Session.restore, Cursor.restore, hmarks, Except.map]

theorem marked_run {x : Step ε' α} (h : x.Keeps) (choice : Except ε' α → Release)
    (s : Session) :
    ∃ s', (marked x choice : Step ε _) s = .ok ((ending (x s.mark)).1, .ok ()) s' ∧
      s'.cursor = (choice (ending (x s.mark)).1).leaves s.cursor
        (ending (x s.mark)).2.cursor := by
  obtain ⟨s', hrelease, hcursor⟩ := release_run (h s.mark) (choice (ending (x s.mark)).1)
  have hmark : (modify Session.mark : Step ε Unit) s = .ok () s.mark := rfl
  refine ⟨s', ?_, hcursor⟩
  simp only [marked, bind_run, hmark, observe, hrelease]
  rfl

theorem moveTo_leaves (r : Release) (set released : Cursor) :
    r.leaves set released = set.moveTo (r.leaves set released).offset := by
  cases r <;> rfl

theorem keeps_marked {x : Step ε' α} (h : x.Keeps) (choice : Except ε' α → Release) :
    Keeps (marked x choice : Step ε _) := by
  intro s
  obtain ⟨s', hrun, hcursor⟩ := marked_run (ε := ε) h choice s
  have hkept := moveTo_leaves (choice (ending (x s.mark)).1) s.cursor (ending (x s.mark)).2.cursor
  rw [← hcursor] at hkept
  rw [hrun]
  exact hkept

end Step

namespace Program

open Step

variable {ε α : Type}

/-- Whatever a program does, in the end it leaves the marks that were there. -/
theorem keeps (p : Program ε α) : p.run.Keeps := by
  induction p with
  | pure a => exact keeps_pure a
  | throw e => exact keeps_throw e
  | bind _ _ first others => exact keeps_bind first others
  | next => exact keeps_next
  | pushBack => exact keeps_observe keeps_pushBack
  | advance count => exact keeps_advance count
  | skipBlanks => exact keeps_observe keeps_skipBlanks
  | ask question => exact keeps_bind keeps_cursor fun c => keeps_pure (question c)
  | marked _ choice inner => exact keeps_marked inner choice
  | attempt wrap _ inner => exact keeps_observe (keeps_attempt inner wrap)

/-- A trial of a program leaves the input and the marks as they were and answers as the program
does, with no fault of its own. The cursor is where the program left it if something was found, and
where the trial began if not, or if the program failed. Within a program, and within the trials in
it, every mark set by hand is there when it is to be released, and releasing it leaves the marks
below it; going back to it leads to where it was set. -/
theorem attempt_atomic (wrap : CursorFault → ε) (p : Program ε (Option α)) (s : Session) :
    Settles s.cursor (p.run s.mark) (Step.attempt wrap p.run s) ∧
      ∀ {ε₁ ε₂ β : Type} (inner : Program ε₁ β) (choice : Except ε₁ β → Release) (s : Session),
        ∃ s', (marked inner choice : Program ε₂ _).run s =
            .ok ((ending (inner.run s.mark)).1, .ok ()) s' ∧
          s'.cursor = (choice (ending (inner.run s.mark)).1).leaves s.cursor
            (ending (inner.run s.mark)).2.cursor :=
  ⟨settles_attempt p.keeps wrap s, fun inner choice s => marked_run inner.keeps choice s⟩

-- a mark that is returned to, a trial that finds nothing, and a step back to before the trial
example :
    let inner : Program CursorFault (Option Unit) := .bind .next fun _ => .pure none
    let p : Program CursorFault (Option Unit) :=
      .bind (.marked inner fun _ => .restore) fun _ =>
      .bind (.attempt id inner) fun _ =>
      .bind .pushBack fun _ => .pure (some ())
    (ending (Step.attempt id p.run ⟨⟨"abc".toList, 1, [3]⟩, []⟩)).2.cursor =
      ⟨"abc".toList, 0, [3]⟩ := rfl

end Program
end LineCalc

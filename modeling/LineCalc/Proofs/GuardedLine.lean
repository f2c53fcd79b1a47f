import LineCalc.Proofs.GuardedNumeral

/-!
Reading a whole line with guards: its elements, groups and runs. Tokens and constants are read as
they are, since no step of theirs needs a guard; numerals are read and closed groups condensed with
guards. Only runs with elements are condensed, and no trial leaves a mark behind. So where the
parser takes all plain decimals, what is read is what is read without guards.
-/

namespace LineCalc

/-- What is found on trial is still found when the trial ends. -/
theorem Step.exists_of_settle {ε α : Type} {wrap : CursorFault → ε}
    {r : EStateM.Result ε Session (Option α)} {a : α} {s : Session}
    (h : settle wrap r = .ok (some a) s) : ∃ s', r = .ok (some a) s' := by
  cases r with
  | error e s' =>
      simp only [settle] at h
      cases hs : s'.restore <;> rw [hs] at h <;> cases h
  | ok found s' =>
      cases found with
      | none =>
          simp only [settle] at h
          cases hs : s'.restore <;> rw [hs] at h <;> cases h
      | some b =>
          simp only [settle] at h
          cases hs : s'.unmark <;> rw [hs] at h <;> cases h
          exact ⟨s', rfl⟩

theorem Reader.ne_nil_of_sequenceBy {ε : Type} {r : Reader ε} {group : Step ε (Option Group)}
    {limit : Option Nat} {s s' : Session} {body : Sequence}
    (h : r.sequenceBy group limit s = .ok (some body) s') : body ≠ [] := by
  obtain ⟨s₁, h⟩ := Step.exists_of_settle h
  simp only [Step.bind_run, Step.cursor_run] at h
  cases he : r.elementsBy group (limit.getD (s.mark.cursor.rest.length + 1)) s.mark with
  | error fault s₂ => rw [he] at h; cases h
  | ok es s₂ =>
      rw [he] at h
      cases es with
      | nil => cases h
      | cons e es =>
          cases h
          exact List.cons_ne_nil e es

namespace Guarded

open Step

/-- The tree of a run, condensed with guards. What condensing it logs is taken over. -/
def condenseLogged (s : Sequence) : Step Failure Term := do
  logAll s.condensation.records
  MonadExcept.ofExcept (condense s)

/-- The pieces of a run with guards. -/
def reader (parseFloat : List Char → Option Float) : Reader Failure where
  wrap := .fault ∘ .cursor
  skipBlanks := guarded Reading.skipBlanks
  token := guarded Reading.token
  constant := guarded Reading.constant
  numeral := numeral parseFloat
  condense := condenseLogged

/-- The guard against an empty run is not needed for a run with elements. -/
theorem condenseLogged_eq {s : Sequence} (hne : s ≠ []) :
    condenseLogged s = guarded (Reading.condense s) := by
  rw [condenseLogged, condense_eq hne]
  refine bind_eq_guarded rfl fun _ => ?_
  rw [Sequence.condense]
  cases s.condensation.outcome <;> rfl

section
variable {parseFloat : List Char → Option Float} (takes : TakesDecimals parseFloat)
include takes

theorem elementBy_eq (group : Reading (Option Group)) :
    (reader parseFloat).elementBy (guarded group) = guarded (Reading.reader.elementBy group) := by
  refine bind_eq_guarded rfl fun c => bind_eq_guarded rfl fun found => ?_
  cases found with
  | some _ => rfl
  | none =>
      refine bind_eq_guarded rfl fun found => ?_
      cases found with
      | some _ => rfl
      | none =>
          refine bind_eq_guarded rfl fun found => ?_
          cases found with
          | some _ => rfl
          | none =>
              refine bind_eq_guarded (numeral_eq takes) fun found => ?_
              cases found <;> rfl

theorem elementsBy_eq (group : Reading (Option Group)) (most : Nat) :
    (reader parseFloat).elementsBy (guarded group) most =
      guarded (Reading.reader.elementsBy group most) := by
  induction most with
  | zero => rfl
  | succ most ih =>
      refine bind_eq_guarded (elementBy_eq takes group) fun found => ?_
      cases found with
      | none => rfl
      | some e => exact bind_eq_guarded ih fun es => rfl

theorem sequenceBy_eq (group : Reading (Option Group)) (limit : Option Nat) :
    (reader parseFloat).sequenceBy (guarded group) limit =
      guarded (Reading.reader.sequenceBy group limit) := by
  funext s
  refine attempt_eq_guarded (congrFun ?_ s.mark)
  refine bind_eq_guarded (bind_eq_guarded rfl fun c => elementsBy_eq takes group _) fun es => ?_
  cases es <;> rfl

theorem groupAround_eq (inner : Reading (Option Group)) :
    (reader parseFloat).groupAround (guarded inner) =
      guarded (Reading.reader.groupAround inner) := by
  funext s
  refine attempt_eq_guarded (congrFun ?_ s.mark)
  refine bind_eq_guarded rfl fun _ => bind_eq_guarded rfl fun opening => ?_
  by_cases hopening : opening = some '('
  · rw [if_pos hopening, if_pos hopening]
    refine bind_eq_guarded_of (sequenceBy_eq takes _ _) fun found s s' hfound => ?_
    cases found with
    | none => rfl
    | some body =>
        refine congrFun ?_ s'
        refine bind_eq_guarded rfl fun _ => bind_eq_guarded rfl fun closing => ?_
        by_cases hclosing : closing = some ')'
        · rw [if_pos hclosing, if_pos hclosing]
          exact bind_eq_guarded (condenseLogged_eq (Reader.ne_nil_of_sequenceBy hfound))
            fun inner => rfl
        · rw [if_neg hclosing, if_neg hclosing]
          rfl
  · rw [if_neg hopening, if_neg hopening]
    rfl

theorem groupWithin_eq (depth : Nat) :
    (reader parseFloat).groupWithin depth = guarded (Reading.reader.groupWithin depth) := by
  induction depth with
  | zero => rfl
  | succ depth ih => rw [Reader.groupWithin, ih, groupAround_eq takes, Reader.groupWithin]

theorem sequence_eq (limit : Option Nat) :
    (reader parseFloat).sequence limit = guarded (Reading.sequence limit) := by
  have hgroup : (reader parseFloat).group = guarded Reading.group :=
    bind_eq_guarded rfl fun _ => groupWithin_eq takes _
  rw [Reader.sequence, hgroup, sequenceBy_eq takes]
  rfl

end

/-- The run of elements that fills the line. What is left of the line is shown from the cursor, and
no mark may be left at the end. -/
def line (parseFloat : List Char → Option Float) : Step Failure Sequence := do
  match ← (reader parseFloat).sequence none with
  | none => throw (.fault (.noExpression (← cursor).contentOffset))
  | some s =>
    let c ← cursor
    let offset := c.contentOffset
    if offset < c.size then
      let skipped ← MonadExcept.ofExcept (minus offset c.offset)
      move fun c => c.advance skipped
      throw (.fault (.trailingInput offset (String.ofList (← cursor).rest)))
    else if c.depth = 0 then
      return s
    else
      throw .unbalanced

def scan (parseFloat : List Char → Option Float) (input : String) : Except Failure Sequence :=
  match line parseFloat (.start input) with
  | .ok s _ => .ok s
  | .error failure _ => .error failure

theorem scan_eq {parseFloat : List Char → Option Float} (takes : TakesDecimals parseFloat)
    (input : String) : scan parseFloat input = (LineCalc.scan input).mapError .fault := by
  have hanswers := Reading.sequence_answers none (.start input)
  unfold scan LineCalc.scan Reading.outcome line Reading.line
  simp only [bind_run, sequence_eq takes, guarded]
  generalize Reading.sequence none (.start input) = r,
    Lexing.sequence none _ _ = found at hanswers
  cases hanswers with
  | failed _ => rfl
  | absent _ => rfl
  | @found e n s cursor =>
      have hdepth : s.cursor.depth = 0 := by
        rw [cursor]
        rfl
      have hskip := minus_of_le (Nat.le_add_right s.cursor.offset (Lexing.blanks s.cursor.rest))
      have hrest : (s.cursor.advance (s.cursor.contentOffset - s.cursor.offset)).rest =
          s.cursor.input.drop s.cursor.contentOffset := by
        rw [Cursor.contentOffset_eq, Nat.add_sub_cancel_left]
        rfl
      simp only [bind_run, cursor_run]
      by_cases hlast : s.cursor.contentOffset < s.cursor.size
      · rw [if_pos hlast, if_pos hlast, ← hrest, Cursor.contentOffset_eq, hskip]
        rfl
      · rw [if_neg hlast, if_neg hlast, if_pos hdepth]
        rfl

end Guarded
end LineCalc

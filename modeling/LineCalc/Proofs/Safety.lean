import LineCalc.Proofs.Failing
import LineCalc.Proofs.GuardedLine

/-!
No line comes to a failure. The value of a tree is taken with guards like everything before it, and
the whole of a line's evaluation is then put side by side with the evaluation without guards: where
the parser takes all plain decimals, both come to the same result or to the same fault. Such a fault
is a malformed numeral, a line without an expression or with more than one, or a run that is no
expression, and never one of the internal ones.
-/

namespace LineCalc

namespace Guarded

/-- The steps of an exponent, counted from its digits as they were read. -/
def steps (x : Exponent) : Except Failure Nat :=
  (x.digits.map Digit.char).foldlM
    (fun n c => do
      let d ← minus c.toNat '0'.toNat
      return min (min (n * 10) Exponent.maxSteps + d) Exponent.maxSteps) 0

def numeralValue (n : Numeral) : Except Failure Float :=
  match n.exponent with
  | none => .ok n.mantissa
  | some x => do return Numeral.scale x.factor (← steps x) n.mantissa

/-- Applies an operator to the first values of a row. -/
def applyTo : Operator → List Float → Except Failure Float
  | .unary o, xs => do return o.apply (← entry xs 0)
  | .binary o, xs => do return o.apply (← entry xs 0) (← entry xs 1)

def value : Term → Except Failure Float
  | .numeral n => numeralValue n
  | .constant c => .ok c.value
  | .grouping t => value t
  | .unary o t => do applyTo (.unary o) [← value t]
  | .binary o l r => do applyTo (.binary o) [← value l, ← value r]

theorem steps_eq (x : Exponent) : steps x = .ok x.steps := by
  have hdigit (d : Digit) : minus d.char.toNat '0'.toNat = .ok d.val := by
    have hchar : '0'.toNat ≤ d.char.toNat ∧ d.char.toNat - '0'.toNat = d.val := by
      revert d
      decide
    rw [minus_of_le hchar.1, hchar.2]
  rw [steps, Exponent.steps]
  generalize 0 = n
  induction x.digits generalizing n with
  | nil => rfl
  | cons d ds ih =>
      rw [List.map_cons, List.foldlM_cons, hdigit]
      exact ih _

theorem value_eq (t : Term) : value t = .ok t.value := by
  induction t with
  | constant c => rfl
  | grouping t ih => exact ih
  | unary o t ih =>
      rw [value, ih]
      rfl
  | binary o l r ihl ihr =>
      rw [value, ihl, ihr]
      rfl
  | numeral n =>
      rw [value, numeralValue, Term.value, Numeral.value]
      cases n.exponent with
      | none => rfl
      | some x =>
          simp only [steps_eq]
          rfl

def parse (parseFloat : List Char → Option Float) (input : String) : Except Failure Term := do
  condense (← scan parseFloat input)

def evaluate (parseFloat : List Char → Option Float) (input : String) :
    Except Failure Evaluation := do
  let s ← scan parseFloat input
  let t ← condense s
  return ⟨s.text, t.text .explicit, t.text .pretty, ← value t⟩

section
variable {parseFloat : List Char → Option Float} (takes : TakesDecimals parseFloat)
include takes

theorem parse_eq (input : String) :
    parse parseFloat input = (LineCalc.parse input).mapError .fault := by
  rw [parse, scan_eq takes, LineCalc.parse]
  cases hscan : LineCalc.scan input with
  | error fault => rfl
  | ok s =>
      obtain ⟨_, _, _, _, hne, _⟩ := spells_of_scan hscan
      exact condense_eq hne

theorem evaluate_eq (input : String) :
    evaluate parseFloat input = (LineCalc.evaluate input).mapError .fault := by
  rw [evaluate, scan_eq takes, LineCalc.evaluate_eq]
  cases hscan : LineCalc.scan input with
  | error fault => rfl
  | ok s =>
      obtain ⟨_, _, _, _, hne, _⟩ := spells_of_scan hscan
      change (condense s >>= _) = _
      rw [condense_eq hne]
      change _ = ((s.condense >>= _).mapError _ : Except Failure Evaluation)
      cases s.condense with
      | error fault => rfl
      | ok t =>
          change (value t >>= _) = _
          rw [value_eq]
          rfl

end

end Guarded

/-- A fault, if there is one, is one that a line can cause. -/
def Harmless {α : Type} (r : Except Fault α) : Prop :=
  ∀ fault, r = .error fault → fault.isInternal = false

theorem harmless_ok {α : Type} (a : α) : Harmless (.ok a) := by
  intro fault h
  cases h

theorem harmless_error {α : Type} {fault : Fault} (h : fault.isInternal = false) :
    Harmless (.error fault : Except Fault α) := by
  intro fault' h'
  cases h'
  exact h

theorem Harmless.bind {α β : Type} {x : Except Fault α} {f : α → Except Fault β}
    (h : Harmless x) (h' : ∀ a, Harmless (f a)) : Harmless (x >>= f) := by
  cases x with
  | error fault => exact harmless_error (h fault rfl)
  | ok a => exact h' a

theorem Sequence.harmless_condense (s : Sequence) : Harmless s.condense := by
  rw [condense_eq]
  cases hm : misplaced? false s with
  | some found => exact harmless_error rfl
  | none =>
      refine condense_induction (motive := fun _ r => Harmless r) ?_ ?_ ?_ _ (settled_settle hm)
      · intro s _
        cases s with
        | nil => exact harmless_error rfl
        | cons e rest =>
            cases rest with
            | cons next rest => exact harmless_error rfl
            | nil =>
                rw [soleTerm]
                cases e.term? with
                | none => exact harmless_error rfl
                | some t => exact harmless_ok t
      · intro s f _ _ _
        exact harmless_error rfl
      · intro s s' _ _ ih
        exact ih

namespace Lexing

theorem harmless_numeral (offset : Nat) (text : List Char) : Harmless (numeral offset text) := by
  rw [numeral]
  cases (Numeral.read (content text)).1 with
  | absent => exact harmless_ok _
  | malformed flaw => exact harmless_error rfl
  | found n => exact harmless_ok _

theorem Fails.harmless {offset : Nat} {text : List Char} {fault : Fault}
    (h : Fails offset text fault) : fault.isInternal = false := by
  induction h with
  | numeral _ _ fails => exact harmless_numeral _ _ _ fails
  | run _ _ fails _ => exact Sequence.harmless_condense _ _ fails
  | later _ _ ih => exact ih

end Lexing

theorem harmless_scan (input : String) : Harmless (scan input) := by
  rw [scan_eq]
  cases hfound : Lexing.sequence none 0 input.toList with
  | error fault => exact harmless_error (Lexing.fails_of_sequence hfound).harmless
  | ok found =>
      cases found with
      | none => exact harmless_error rfl
      | some found =>
          simp only
          split
          next => exact harmless_ok _
          next => exact harmless_error rfl

theorem harmless_parse (input : String) : Harmless (parse input) :=
  (harmless_scan input).bind fun s => s.harmless_condense

theorem harmless_evaluate (input : String) : Harmless (evaluate input) := by
  rw [evaluate_eq]
  exact (harmless_scan input).bind fun s => s.harmless_condense.bind fun _ => harmless_ok _

/-- With guards and without there is the same result, or the same fault and one that a line can
cause. No other failure is among the cases. -/
inductive Safe {α : Type} : Except Failure α → Except Fault α → Prop where
  | ok (a : α) : Safe (.ok a) (.ok a)
  | error {fault : Fault} (reported : fault.isInternal = false) :
      Safe (.error (.fault fault)) (.error fault)

theorem Harmless.safe {α : Type} {guarded : Except Failure α} {r : Except Fault α} (h : Harmless r)
    (same : guarded = r.mapError .fault) : Safe guarded r := by
  rw [same]
  cases r with
  | ok a => exact .ok a
  | error fault => exact .error (h fault rfl)

/-- Reading a line, making its tree and evaluating it need no guard, and no line causes an internal
fault. In particular no run comes to nothing when it is condensed, neither the line's own nor one
between parentheses. -/
theorem safe_of_takesDecimals {parseFloat : List Char → Option Float}
    (takes : Guarded.TakesDecimals parseFloat) (input : String) :
    Safe (Guarded.scan parseFloat input) (scan input) ∧
      Safe (Guarded.parse parseFloat input) (parse input) ∧
      Safe (Guarded.evaluate parseFloat input) (evaluate input) :=
  ⟨(harmless_scan input).safe (Guarded.scan_eq takes input),
    (harmless_parse input).safe (Guarded.parse_eq takes input),
    (harmless_evaluate input).safe (Guarded.evaluate_eq takes input)⟩

/-- The value of a text that is a numeral to its end. -/
def Numeral.valueOf? (text : List Char) : Option Float :=
  match read text with
  | (.found n, []) => some n.value
  | _ => none

theorem Numeral.takesDecimals_valueOf? : Guarded.TakesDecimals valueOf? := by
  intro sign whole fraction nonempty
  have hends : Ends [] := by
    intro c hc
    cases hc
  have hread := read_append
    (Numeral.spells_chars ⟨sign, whole, fraction, none, .inl nonempty⟩) (hends.endsBefore _)
  simp only [chars, Option.map_none, Option.getD_none, List.append_nil] at hread
  rw [valueOf?, hread]
  rfl

theorem safe_of_takesDecimals_dangling :
    Guarded.TakesDecimals Numeral.valueOf? ∧
      Guarded.evaluate Numeral.valueOf? "( 1 + .5e1 ) * -3 mod" =
        .error (.fault (.missingOperand "mod" 18)) := by
  have hreport : evaluate "( 1 + .5e1 ) * -3 mod" = .error (.missingOperand "mod" 18) := by
    decide +kernel
  obtain ⟨_, _, hsafe⟩ :=
    safe_of_takesDecimals Numeral.takesDecimals_valueOf? "( 1 + .5e1 ) * -3 mod"
  rw [hreport] at hsafe
  refine ⟨Numeral.takesDecimals_valueOf?, ?_⟩
  generalize Guarded.evaluate Numeral.valueOf? "( 1 + .5e1 ) * -3 mod" = outcome at hsafe
  cases hsafe
  rfl

end LineCalc

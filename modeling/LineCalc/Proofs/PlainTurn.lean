import Mathlib.Data.List.Basic
import LineCalc.Proofs.Reduction

/-!
Turns that do not ask for operands. By the plain rule the turn falls on one of all operators of a
run, and the condensation fails when that one has no term where it needs an operand. Condensing
gives the turn to an operator that has its operands. The theorems here compare the two. Where the
plain turn falls on an operator with operands, condensing reduces the same one, so a condensation
that comes to a tree by the plain rule is, round by round, the condensation of the run.
-/

namespace LineCalc

namespace Operator

section
variable {α : Type} {operator : α → Operator}

private theorem foldl_prefer_of_not_overtaken {x : α} {after : List α}
    (h : ∀ y ∈ after, (operator y).overtakes (operator x) = false) :
    after.foldl (prefer operator) (some x) = some x := by
  induction after with
  | nil => rfl
  | cons y ys ih =>
      have hy := h y List.mem_cons_self
      have hprefer : prefer operator (some x) y = some x := by simp [prefer, hy]
      rw [List.foldl_cons, hprefer]
      exact ih fun z hz => h z (List.mem_cons_of_mem y hz)

/-- What overtakes all before it and is overtaken by none after it has its turn first. -/
theorem first?_of_split {x : α} {before after : List α}
    (hbefore : ∀ y ∈ before, (operator x).overtakes (operator y) = true)
    (hafter : ∀ y ∈ after, (operator y).overtakes (operator x) = false) :
    first? operator (before ++ x :: after) = some x := by
  have hturn : prefer operator (first? operator before) x = some x := by
    cases hbest : first? operator before with
    | none => rfl
    | some b => simp [prefer, hbefore b (mem_of_first? hbest)]
  have hfold : first? operator (before ++ x :: after) =
      after.foldl (prefer operator) (prefer operator (first? operator before) x) := by
    rw [first?, List.foldl_append, List.foldl_cons]
    rfl
  rw [hfold, hturn]
  exact foldl_prefer_of_not_overtaken hafter

/-- The first of all is the first of some, if it is one of them. -/
theorem first?_filter {x : α} {xs : List α} {p : α → Bool} (h : first? operator xs = some x)
    (hx : p x = true) : first? operator (xs.filter p) = some x := by
  obtain ⟨before, after, rfl, hbefore, hafter⟩ := first?_split h
  rw [List.filter_append, List.filter_cons_of_pos hx]
  apply first?_of_split
  · intro y hy
    exact hbefore y (List.mem_of_mem_filter hy)
  · intro y hy
    exact hafter y (List.mem_of_mem_filter hy)

end

end Operator

namespace Sequence

/-- The operator whose turn it is among all of a run. -/
def plainTurn? (seen : Sequence) : Option Focus :=
  Operator.first? Focus.operator (foci [] seen)

/-- A round by the plain rule. -/
def plainRound (s : Sequence) : Round :=
  match resolve false s with
  | .error fault => .refused fault
  | .ok seen =>
    match plainTurn? seen with
    | none => .finished
    | some f =>
      match f.reduction? with
      | some r => .reduced seen r
      | none => .stuck seen (.missingOperand f.operator.token.text f.offset)

/-- Where the plain turn falls on an operator with operands, a round reduces that operator. -/
theorem round_of_plainTurn? {s seen : Sequence} {f : Focus} {r : Reduction}
    (resolved : resolve false s = .ok seen) (turn : plainTurn? seen = some f)
    (operands : f.reduction? = some r) : round s = .reduced seen r := by
  have hkeep : Operator.first? Focus.operator
      ((foci [] seen).filter fun f => f.reduction?.isSome) = some f :=
    Operator.first?_filter turn (by rw [operands]; rfl)
  have hturn : Operator.first? Reduction.operator ((foci [] seen).filterMap Focus.reduction?) =
      some r := by
    rw [Operator.first?_filterMap fun _ _ h => operator_of_reduction? h, hkeep]
    exact operands
  simp only [round, resolved, hturn]

/-- A round that reduces by the plain rule is a round. -/
theorem round_of_plainRound {s seen : Sequence} {r : Reduction}
    (h : plainRound s = .reduced seen r) : round s = .reduced seen r := by
  simp only [plainRound] at h
  split at h
  next => cases h
  next seen' resolved =>
    split at h
    next => cases h
    next f turn =>
      split at h
      next r' operands =>
        cases h
        exact round_of_plainTurn? resolved turn operands
      next => cases h

theorem round_of_plainRound_finished {s : Sequence} (h : plainRound s = .finished) :
    round s = .finished := by
  simp only [plainRound] at h
  split at h
  next => cases h
  next seen resolved =>
    split at h
    next turn =>
      have hnone := (Operator.first?_eq_none Focus.operator _).mp turn
      simp only [round, resolved, hnone]
      rfl
    next f _ => cases hr : f.reduction? <;> simp [hr] at h

/-- The condensation of a run by the plain rule. -/
def plainCondensation (s : Sequence) : Run :=
  match h : plainRound s with
  | .finished => ⟨[], soleTerm s⟩
  | .refused fault => ⟨[], .error fault⟩
  | .stuck seen fault => ⟨[.condensing seen], .error fault⟩
  | .reduced seen r =>
    have := length_lt_of_round (round_of_plainRound h)
    let run := plainCondensation r.sequence
    ⟨.condensing seen :: .reduced r.operator r.result :: run.records, run.outcome⟩
termination_by s.length

/-- A condensation that comes to a tree by the plain rule goes through the same rounds as the
condensation. -/
theorem condensation_eq_plain {s : Sequence} {t : Term}
    (h : (plainCondensation s).outcome = .ok t) : condensation s = plainCondensation s := by
  fun_induction plainCondensation s with
  | case1 s finished => rw [condensation_eq, round_of_plainRound_finished finished]
  | case2 s fault _ => cases h
  | case3 s seen fault _ => cases h
  | case4 s seen r reduced _ run ih =>
    rw [condensation_eq, round_of_plainRound reduced]
    simp only [ih h]
    rfl

/-- Condensing refines the plain rule: a run that comes to a tree by the plain rule comes to the
same tree, in the same rounds, and whatever the run is, a round reduces the operator that the plain
rule chooses if that operator has its operands. -/
theorem condense_of_plain (s : Sequence) :
    (∀ t, (plainCondensation s).outcome = .ok t →
      s.condense = .ok t ∧ condensation s = plainCondensation s) ∧
    ∀ seen f r, resolve false s = .ok seen → plainTurn? seen = some f → f.reduction? = some r →
      round s = .reduced seen r := by
  refine ⟨?_, fun seen f r => round_of_plainTurn?⟩
  intro t ht
  have hsame := condensation_eq_plain ht
  refine ⟨?_, hsame⟩
  rw [condense, hsame]
  exact ht

/-- A power under a sign, with a function in its exponent. -/
theorem condense_of_plain_signed_power :
    ∃ (s : Sequence) (t : Term), s = [.token .minus 0, .term (.constant .e) 1, .token .caret 2,
        .token .ln 3, .term (.constant .pi) 5] ∧
      (plainCondensation s).outcome = .ok t ∧ s.condense = .ok t ∧
      condensation s = plainCondensation s ∧
      ∃ seen f r, resolve false s = .ok seen ∧ plainTurn? seen = some f ∧ f.reduction? = some r ∧
        round s = .reduced seen r := by
  have hplain : (plainCondensation [.token .minus 0, .term (.constant .e) 1, .token .caret 2,
      .token .ln 3, .term (.constant .pi) 5]).outcome =
      .ok (.unary .minus (.binary .pow (.constant .e) (.unary .ln (.constant .pi)))) := by
    decide +kernel
  obtain ⟨hrun, hround⟩ := condense_of_plain [.token .minus 0, .term (.constant .e) 1,
    .token .caret 2, .token .ln 3, .term (.constant .pi) 5]
  obtain ⟨hcondense, hsame⟩ := hrun _ hplain
  exact ⟨_, _, rfl, hplain, hcondense, hsame, _, _, _, rfl, rfl, rfl, hround _ _ _ rfl rfl rfl⟩

/-- The plain turn in `e^-pi` falls on the power, which has no term behind it. -/
example : (plainCondensation [.term (.constant .e) 0, .token .caret 1, .token .minus 2,
    .term (.constant .pi) 3]).outcome = .error (.missingOperand "^" 1) := by
  decide +kernel

end Sequence
end LineCalc

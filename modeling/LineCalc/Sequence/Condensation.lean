import LineCalc.Record

/-!
Condensing a run of elements into one tree. It goes by rounds. Each round first decides, from the
left, which operator every token is: what follows a term is binary and anything else is unary.
Then, of the operators that have terms where they need operands, the one that binds tightest is
reduced with its operands to a single term. When no operator is left, a single term is the result.
-/

namespace LineCalc

namespace Operator

/-- Of several uses of a token, those that its place allows. A token with one use keeps it. -/
def fitting (afterTerm : Bool) (uses : List Operator) : List Operator :=
  if 1 < uses.length then uses.filter fun o => o.isUnary != afterTerm else uses

/-- The operator that a token is in its place. Only a unary operator may open a run or follow
another operator. -/
def choose (afterTerm : Bool) (token : Token) (offset : Nat) (uses : List Operator) :
    Except Fault Operator :=
  match fitting afterTerm uses with
  | [] => .error (.unexpectedOperator token.text offset)
  | [o] =>
    if afterTerm || o.isUnary then .ok o else .error (.unexpectedOperator token.text offset)
  | uses => .error (.ambiguousOperator token.text offset uses.length)

/-- Does an operator take the turn from one further left? -/
def overtakes (later earlier : Operator) : Bool :=
  earlier.rank < later.rank || earlier.rank == later.rank && later.groupsRight

/-- The earlier choice or the next in reading order, by whose operator has its turn first. -/
def prefer {α : Type} (operator : α → Operator) : Option α → α → Option α
  | none, x => some x
  | some best, x => some (if (operator x).overtakes (operator best) then x else best)

/-- The one whose operator has its turn first, of several in reading order. -/
def first? {α : Type} (operator : α → Operator) (xs : List α) : Option α :=
  xs.foldl (prefer operator) none

end Operator

/-- Resolves a token. A resolved operator has one use and has to fit all the same. -/
def Element.resolve (afterTerm : Bool) : Element → Except Fault Element
  | .token t offset => do
    let o ← Operator.choose afterTerm t offset (Operator.candidates t)
    pure (.operator o offset)
  | .operator o offset => do
    let o ← Operator.choose afterTerm o.token offset [o]
    pure (.operator o offset)
  | e => .ok e

/-- An operator with what stands on either side of it, on the left the nearest first. -/
structure Focus where
  before : List Element
  operator : Operator
  offset : Nat
  after : List Element

structure Reduction where
  operator : Operator
  before : List Element
  result : Term
  offset : Nat
  after : List Element

namespace Reduction

/-- The run after the reduction. The new term has the offset of the leftmost piece. -/
def sequence (r : Reduction) : Sequence :=
  r.before.reverse ++ .term r.result r.offset :: r.after

end Reduction

namespace Focus

/-- The reduction of an operator that has terms where it needs operands. -/
def reduction? (f : Focus) : Option Reduction :=
  match f.operator, f.before, f.after with
  | .unary o, before, r :: after => do
    let operand ← r.term?
    pure ⟨f.operator, before, .unary o operand, f.offset, after⟩
  | .binary o, l :: before, r :: after => do
    let left ← l.term?
    let right ← r.term?
    pure ⟨f.operator, before, .binary o left right, l.offset, after⟩
  | _, _, _ => none

end Focus

namespace Sequence

def resolve (afterTerm : Bool) : Sequence → Except Fault Sequence
  | [] => .ok []
  | e :: rest => do
    let resolved ← e.resolve afterTerm
    let others ← resolve e.isTerm rest
    pure (resolved :: others)

/-- The operators of a run from left to right, each with its surroundings. -/
def foci (before : List Element) : Sequence → List Focus
  | [] => []
  | .operator o offset :: after =>
    ⟨before, o, offset, after⟩ :: foci (.operator o offset :: before) after
  | e :: after => foci (e :: before) after

def soleTerm : Sequence → Except Fault Term
  | [] => .error (.noExpression 0)
  | [e] =>
    match e.term? with
    | some t => .ok t
    | none => .error (.noExpression 0)
  | _ :: next :: _ => .error (.missingOperator next.offset)

inductive Round where
  /-- No operator is left. -/
  | finished
  /-- A token cannot be where it is. -/
  | refused (fault : Fault)
  /-- No operator has its operands. -/
  | stuck (seen : Sequence) (fault : Fault)
  | reduced (seen : Sequence) (r : Reduction)

def round (s : Sequence) : Round :=
  match resolve false s with
  | .error fault => .refused fault
  | .ok seen =>
    let operators := foci [] seen
    match Operator.first? Reduction.operator (operators.filterMap Focus.reduction?) with
    | some r => .reduced seen r
    | none =>
      match Operator.first? Focus.operator operators with
      | some f => .stuck seen (.missingOperand f.operator.token.text f.offset)
      | none => .finished

end Sequence

namespace Operator

private theorem mem_of_foldl_prefer {α : Type} {operator : α → Operator} {xs : List α}
    {best : Option α} {x : α} (h : xs.foldl (prefer operator) best = some x) :
    x ∈ xs ∨ best = some x := by
  induction xs generalizing best with
  | nil => exact Or.inr h
  | cons y ys ih =>
    rcases ih h with h | h
    · exact Or.inl (List.mem_cons_of_mem y h)
    · cases best with
      | none => simp_all [prefer]
      | some b =>
        simp only [prefer] at h
        split at h <;> simp_all

theorem mem_of_first? {α : Type} {operator : α → Operator} {xs : List α} {x : α}
    (h : first? operator xs = some x) : x ∈ xs :=
  (mem_of_foldl_prefer h).resolve_right nofun

end Operator

theorem Focus.length_lt_of_reduction? {f : Focus} {r : Reduction} (h : f.reduction? = some r) :
    r.before.length + r.after.length < f.before.length + f.after.length := by
  revert h
  fun_cases Focus.reduction? f with
  | case1 o e after hafter ho =>
    intro h
    simp only [Option.bind_eq_bind, Option.bind_eq_some_iff, Option.pure_def,
      Option.some.injEq] at h
    obtain ⟨_, _, rfl⟩ := h
    simp [hafter]
  | case2 o l before e after hafter hbefore ho =>
    intro h
    simp only [Option.bind_eq_bind, Option.bind_eq_some_iff, Option.pure_def,
      Option.some.injEq] at h
    obtain ⟨_, _, _, _, rfl⟩ := h
    simp only [hbefore, hafter, List.length_cons]
    omega
  | case3 => simp

namespace Sequence

theorem length_resolve {afterTerm : Bool} {s seen : Sequence}
    (h : resolve afterTerm s = .ok seen) : List.length seen = List.length s := by
  induction s generalizing afterTerm seen with
  | nil => cases h; rfl
  | cons e rest ih =>
    simp only [resolve, bind, Except.bind] at h
    split at h
    · cases h
    · split at h
      · cases h
      · rename_i hrest
        cases h
        exact congrArg (· + 1) (ih hrest)

theorem length_of_mem_foci {before : List Element} {s : Sequence} {f : Focus}
    (h : f ∈ foci before s) :
    f.before.length + f.after.length + 1 = before.length + s.length := by
  induction s generalizing before with
  | nil => simp [foci] at h
  | cons e rest ih =>
    cases e with
    | operator o offset =>
      simp only [foci, List.mem_cons] at h
      rcases h with rfl | h
      · simp only [List.length_cons]
        omega
      · have := ih h
        simp only [List.length_cons] at this ⊢
        omega
    | term _ _ | group _ _ _ | token _ _ =>
      simp only [foci] at h
      have := ih h
      simp only [List.length_cons] at this ⊢
      omega

/-- A round that reduces leaves a shorter run. -/
theorem length_lt_of_round {s seen : Sequence} {r : Reduction} (h : round s = .reduced seen r) :
    r.sequence.length < s.length := by
  simp only [round] at h
  split at h
  · cases h
  · rename_i seen' hresolve
    split at h
    · rename_i r' hfirst
      cases h
      obtain ⟨f, hf, hr⟩ := List.mem_filterMap.1 (Operator.mem_of_first? hfirst)
      have h₁ := Focus.length_lt_of_reduction? hr
      have h₂ := length_of_mem_foci hf
      have h₃ := length_resolve hresolve
      simp only [Reduction.sequence, List.length_append, List.length_reverse, List.length_cons,
        List.length_nil] at h₂ ⊢
      omega
    · split at h <;> cases h

/-- The outcome of condensing a run, and what was logged on the way. -/
structure Run where
  records : List Record
  outcome : Except Fault Term

def condensation (s : Sequence) : Run :=
  match h : round s with
  | .finished => ⟨[], soleTerm s⟩
  | .refused fault => ⟨[], .error fault⟩
  | .stuck seen fault => ⟨[.condensing seen], .error fault⟩
  | .reduced seen r =>
    have := length_lt_of_round h
    let run := condensation r.sequence
    ⟨.condensing seen :: .reduced r.operator r.result :: run.records, run.outcome⟩
termination_by s.length

def condense (s : Sequence) : Except Fault Term :=
  (condensation s).outcome

end Sequence
end LineCalc

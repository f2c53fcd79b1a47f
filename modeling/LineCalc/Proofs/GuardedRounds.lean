import LineCalc.Proofs.GuardedPlaces

/-!
Condensing with guards. In each round the operator that has its turn is selected among those whose
operands stand at the distances at which it needs them, and a window with the operator and its
operands is cut out of the row, to put one term where the window began. The rounds are those of the
condensation, so no guard is needed in any of them.
-/

namespace LineCalc

namespace Sequence

/-- An operator stands between what is said to be on either side of it. -/
theorem append_of_mem_foci {before : List Element} {s : Sequence} {f : Focus}
    (h : f ∈ foci before s) :
    before.reverse ++ s = f.before.reverse ++ .operator f.operator f.offset :: f.after := by
  induction s generalizing before with
  | nil => cases h
  | cons e rest ih =>
      cases e with
      | operator o offset =>
          cases List.mem_cons.mp h with
          | inl hf => rw [hf]
          | inr hf => simpa using ih hf
      | term _ _ | group _ _ _ | token _ _ => simpa using ih h

end Sequence

/-- The place of an operator, and the operator. -/
def Focus.place (f : Focus) : Nat × Operator :=
  (f.before.length, f.operator)

namespace Guarded

open Sequence

/-- Do terms stand where the operator in the place needs operands? -/
def isReady (s : Sequence) (place : Nat) (o : Operator) : Except Failure Bool := do
  if o.leftCount ≤ place ∧ place + o.rightCount < s.length then
    let before ← slice s (← minus place o.leftCount) place
    if before.all Element.isTerm then
      let after ← slice s (place + 1) (place + o.rightCount + 1)
      return after.all Element.isTerm
    else
      return false
  else
    return false

/-- The place of the operator that has its turn. -/
def select (s : Sequence) (operators : List (Nat × Operator)) : Except Failure Nat := do
  let ready ← keep (fun p => isReady s p.1 p.2) operators
  match Operator.first? Prod.snd ready with
  | some p => return p.1
  | none =>
    let first ← entry operators 0
    let e ← entry s ((Operator.first? Prod.snd operators).getD first).1
    throw (.fault (.missingOperand ((e.token?.map Token.text).getD "") e.offset))

/-- Puts the operation in the place of its operator and its operands. -/
def reduce (s : Sequence) (place : Nat) : Except Failure Sequence := do
  match ← entry s place with
  | .operator o _ =>
    let start ← minus place o.leftCount
    let stop := place + o.rightCount + 1
    let offset := (← entry s start).offset
    let window ← slice s start stop
    let t ← (Term.operation? o (window.filterMap Element.term?)).mapError .fault
    insert (s.take start ++ s.drop stop) start (.term t offset)
  | .term .. | .group .. | .token .. => throw .unreachable

/-- The run after one more reduction, unless no operator is left. -/
def round (s : Sequence) : Except Failure (Option Sequence) := do
  let places ← positions s
  if places = [] then
    return none
  else
    let operators ← operatorsAt s places
    let seen ← install s (places.zip operators)
    let place ← select seen (places.zip operators)
    return some (← reduce seen place)

theorem places_eq_map_foci (before : List Element) {afterTerm : Bool} {s : Sequence}
    (settled : Settled afterTerm s) :
    places before.length s = (foci before s).map fun f => f.before.length := by
  induction s generalizing before afterTerm with
  | nil => rfl
  | cons e rest ih =>
      have hrest := ih (e :: before) settled.2
      cases e with
      | token _ _ => cases settled.1
      | operator _ _ => exact congrArg (_ :: ·) hrest
      | term _ _ | group _ _ _ => exact hrest

theorem zip_places {s : Sequence} (settled : Settled false s) :
    (places 0 s).zip ((operators s).map Prod.fst) = (foci [] s).map Focus.place := by
  have hplaces := places_eq_map_foci [] settled
  rw [List.length_nil] at hplaces
  rw [hplaces, ← map_foci [], List.map_map, List.zip_map']
  rfl

/-- The operands of an operator are sought in the windows on either side of it. -/
theorem isReady_append (front left right rest : Sequence) (e : Element) (o : Operator)
    (leftLength : left.length = o.leftCount) (rightLength : right.length = o.rightCount) :
    isReady (front ++ (left ++ (e :: right ++ rest))) (front.length + left.length) o =
      .ok (left.all Element.isTerm && right.all Element.isTerm) := by
  have hrow : front ++ (left ++ (e :: right ++ rest)) =
      (front ++ left ++ [e]) ++ (right ++ rest) := by simp
  have hbefore := slice_append front left (e :: right ++ rest)
  have hafter := slice_append (front ++ left ++ [e]) right rest
  rw [← hrow] at hafter
  simp only [List.length_append, List.length_singleton] at hafter
  have hinside : o.leftCount ≤ front.length + left.length ∧
      front.length + left.length + o.rightCount <
        (front ++ (left ++ (e :: right ++ rest))).length := by
    simp only [List.length_append, List.length_cons, leftLength, rightLength]
    omega
  rw [isReady, if_pos hinside, ← leftLength, ← rightLength, minus_of_le (Nat.le_add_left _ _),
    Nat.add_sub_cancel]
  change (slice _ _ _ >>= _) = _
  rw [hbefore, Step.ok_bind, Nat.add_right_comm _ right.length 1]
  cases hleft : left.all Element.isTerm with
  | false =>
      rw [if_neg (by simp)]
      rfl
  | true =>
      rw [if_pos rfl, hafter]
      rfl

/-- The operands are there exactly if the operator can be reduced. -/
theorem isReady_eq (f : Focus) :
    isReady (f.before.reverse ++ .operator f.operator f.offset :: f.after) f.before.length
      f.operator = .ok f.reduction?.isSome := by
  obtain ⟨before, o, offset, after⟩ := f
  have houtside {row : Sequence} {place : Nat}
      (h : ¬ (o.leftCount ≤ place ∧ place + o.rightCount < row.length)) :
      isReady row place o = .ok false := if_neg h
  cases after with
  | nil =>
      have hnone : (Focus.mk before o offset []).reduction? = none := by
        cases o <;> cases before <;> rfl
      rw [hnone]
      exact houtside (by simp [Operator.rightCount])
  | cons x after =>
      cases o with
      | unary u =>
          have hready := isReady_append before.reverse [] [x] after
            (.operator (.unary u) offset) (.unary u) rfl rfl
          cases hx : x.term? <;> simpa [Focus.reduction?, hx, Element.isTerm] using hready
      | binary b =>
          cases before with
          | nil => exact houtside (by simp [Operator.leftCount])
          | cons l before =>
              have hready := isReady_append before.reverse [l] [x] after
                (.operator (.binary b) offset) (.binary b) rfl rfl
              cases hl : l.term? <;> cases hx : x.term? <;>
                simpa [Focus.reduction?, hl, hx, Element.isTerm] using hready

/-- A window is cut out, and the operation put where it began. -/
theorem reduce_append (front left right rest : Sequence) (o : Operator) (offset : Nat)
    (leftLength : left.length = o.leftCount) (rightLength : right.length = o.rightCount) :
    reduce (front ++ (left ++ (.operator o offset :: right ++ rest))) (front.length + left.length) =
      ((Term.operation? o ((left ++ right).filterMap Element.term?)).mapError .fault).map fun t =>
        front ++ .term t ((left.head?.map Element.offset).getD offset) :: rest := by
  generalize hrow : front ++ (left ++ (.operator o offset :: right ++ rest)) = row
  have hoperator : row = (front ++ left) ++ .operator o offset :: (right ++ rest) := by
    simp [← hrow]
  have hwindow : row = front ++ ((left ++ .operator o offset :: right) ++ rest) := by
    simp [← hrow]
  have hplace : entry row (front.length + left.length) = .ok (.operator o offset) := by
    rw [hoperator, ← List.length_append, entry_append]
  -- the window begins with the left operand, or with the operator if it has none
  have hstart : ∃ e, entry row front.length = .ok e ∧
      e.offset = (left.head?.map Element.offset).getD offset := by
    cases left with
    | nil => exact ⟨.operator o offset, by rw [← hrow]; exact entry_append _ _ _, rfl⟩
    | cons l left => exact ⟨l, by rw [← hrow]; exact entry_append _ _ _, rfl⟩
  have hstop : front.length + left.length + o.rightCount + 1 =
      front.length + (left ++ .operator o offset :: right).length := by
    simp only [List.length_append, List.length_cons, rightLength]
    omega
  have hslice : slice row front.length (front.length + left.length + o.rightCount + 1) =
      .ok (left ++ .operator o offset :: right) := by
    rw [hstop, hwindow, slice_append]
  have hcut : row.take front.length ++
      row.drop (front.length + left.length + o.rightCount + 1) = front ++ rest := by
    rw [hstop, hwindow, ← List.drop_drop]
    simp
  have hoperands : (left ++ .operator o offset :: right).filterMap Element.term? =
      (left ++ right).filterMap Element.term? := by
    simp [List.filterMap_cons, Element.term?]
  obtain ⟨e, he, hoffset⟩ := hstart
  simp only [reduce, hplace, Step.ok_bind]
  rw [← leftLength, minus_of_le (Nat.le_add_left _ _), Nat.add_sub_cancel, Step.ok_bind, he,
    Step.ok_bind, hslice, Step.ok_bind, hoperands, hcut, hoffset]
  cases Term.operation? o ((left ++ right).filterMap Element.term?) with
  | error fault => rfl
  | ok t => exact insert_append _ _ _

theorem reduce_eq {f : Focus} {r : Reduction} (h : f.reduction? = some r) :
    reduce (f.before.reverse ++ .operator f.operator f.offset :: f.after) f.before.length =
      .ok r.sequence := by
  obtain ⟨before, o, offset, after⟩ := f
  cases after with
  | nil => cases o <;> cases before <;> cases h
  | cons x after =>
      cases o with
      | unary u =>
          have hreduce := reduce_append before.reverse [] [x] after (.unary u) offset rfl rfl
          cases hx : x.term? with
          | none => simp [Focus.reduction?, hx] at h
          | some t =>
              simp only [Focus.reduction?, hx] at h
              cases h
              simpa [hx, Reduction.sequence, Term.operation?, Except.map] using hreduce
      | binary b =>
          cases before with
          | nil => cases h
          | cons l before =>
              have hreduce := reduce_append before.reverse [l] [x] after (.binary b) offset rfl rfl
              cases hl : l.term? with
              | none => simp [Focus.reduction?, hl] at h
              | some t =>
                  cases hx : x.term? with
                  | none => simp [Focus.reduction?, hl, hx] at h
                  | some t' =>
                      simp only [Focus.reduction?, hl, hx] at h
                      cases h
                      simpa [hl, hx, Reduction.sequence, Term.operation?, Except.map] using hreduce

/-- The place that is selected is that of the choice of the round. -/
theorem select_eq {seen : Sequence} {fs : List Focus}
    (stand : ∀ f ∈ fs, seen = f.before.reverse ++ .operator f.operator f.offset :: f.after) :
    select seen (fs.map Focus.place) =
      match Operator.first? Focus.operator (fs.filter (·.reduction?.isSome)) with
      | some f => .ok f.before.length
      | none =>
        match Operator.first? Focus.operator fs with
        | some f => .error (.fault (.missingOperand f.operator.token.text f.offset))
        | none => .error .outOfRange := by
  have hready : keep (fun p => isReady seen p.1 p.2) (fs.map Focus.place) =
      .ok ((fs.filter (·.reduction?.isSome)).map Focus.place) := by
    rw [keep_map, keep_eq_ok (p := fun f => f.reduction?.isSome)]
    · rfl
    · intro f hf
      rw [stand f hf]
      exact isReady_eq f
  have hfirst (fs : List Focus) : Operator.first? Prod.snd (fs.map Focus.place) =
      (Operator.first? Focus.operator fs).map Focus.place :=
    Operator.first?_map Prod.snd Focus.place fs
  rw [select, hready, Step.ok_bind, hfirst]
  cases Operator.first? Focus.operator (fs.filter (·.reduction?.isSome)) with
  | some f => rfl
  | none =>
      simp only [Option.map_none, hfirst]
      cases fs with
      | nil => rfl
      | cons f fs =>
          cases hf : Operator.first? Focus.operator (f :: fs) with
          | none => cases (Operator.first?_eq_none _ _).mp hf
          | some f' =>
              have hentry : entry seen f'.place.1 = .ok (.operator f'.operator f'.offset) := by
                rw [stand f' (Operator.mem_of_first? hf), Focus.place, ← List.length_reverse]
                exact entry_append _ _ _
              simp only [Option.map_some, Option.getD_some]
              change (entry seen f'.place.1 >>= _) = _
              rw [hentry]
              rfl

/-- A token out of place is refused before anything is selected. -/
theorem round_of_misplaced {s : Sequence} {t : Token} {offset : Nat}
    (h : misplaced? false s = some (t, offset)) :
    round s = .error (.fault (.unexpectedOperator t.text offset)) := by
  have hoperators := operatorsAt_eq s
  rw [h] at hoperators
  have hplaces : places 0 s ≠ [] := by
    intro hnil
    rw [hnil] at hoperators
    cases hoperators
  rw [round, positions_eq, Step.ok_bind, if_neg hplaces, hoperators]
  rfl

/-- Where no token is out of place, the run is settled and its operators are the foci. -/
theorem round_of_settled {s : Sequence} (h : misplaced? false s = none) :
    round s =
      if foci [] (settle false s) = [] then .ok none
      else do
        let place ← select (settle false s) ((foci [] (settle false s)).map Focus.place)
        return some (← reduce (settle false s) place) := by
  have hoperators := operatorsAt_eq s
  have hsettled := Sequence.settled_settle h
  have hplaces := places_eq_map_foci [] hsettled
  have hzip := zip_places hsettled
  rw [h] at hoperators
  rw [List.length_nil, places_settle] at hplaces
  rw [places_settle] at hzip
  have hnil : places 0 s = [] ↔ foci [] (settle false s) = [] := by simp [hplaces]
  rw [round, positions_eq, Step.ok_bind]
  by_cases hfoci : foci [] (settle false s) = []
  · rw [if_pos (hnil.mpr hfoci), if_pos hfoci]
    rfl
  · rw [if_neg (mt hnil.mp hfoci), if_neg hfoci, hoperators, Step.ok_bind, install_eq,
      Step.ok_bind, hzip]

/-- A guarded round comes to the same run or the same fault. -/
theorem round_eq (s : Sequence) :
    round s =
      match Sequence.round s with
      | .finished => .ok none
      | .refused fault | .stuck _ fault => .error (.fault fault)
      | .reduced _ r => .ok (some r.sequence) := by
  cases hmisplaced : misplaced? false s with
  | some found =>
      have hround : Sequence.round s = .refused (.unexpectedOperator found.1.text found.2) := by
        simp [Sequence.round, resolve_eq, hmisplaced]
      rw [round_of_misplaced hmisplaced, hround]
  | none =>
      have hresolve : resolve false s = .ok (settle false s) := by simp [resolve_eq, hmisplaced]
      have hstand (f : Focus) (hf : f ∈ foci [] (settle false s)) : settle false s =
          f.before.reverse ++ .operator f.operator f.offset :: f.after := append_of_mem_foci hf
      have hkeeps (f : Focus) (r : Reduction) (hr : f.reduction? = some r) :
          r.operator = f.operator := operator_of_reduction? hr
      have hchoice := Operator.first?_filterMap hkeeps (foci [] (settle false s))
      rw [round_of_settled hmisplaced]
      generalize hfs : foci [] (settle false s) = fs at hstand hchoice
      have hselect := select_eq hstand
      cases hready : Operator.first? Focus.operator (fs.filter (·.reduction?.isSome)) with
      | some f =>
          obtain ⟨hmem, hsome⟩ := List.mem_filter.mp (Operator.mem_of_first? hready)
          obtain ⟨r, hr⟩ := Option.isSome_iff_exists.mp hsome
          rw [hready] at hchoice hselect
          have hround : Sequence.round s = .reduced (settle false s) r := by
            simp [Sequence.round, hresolve, hfs, hchoice, hr]
          have hreduce : reduce (settle false s) f.before.length = .ok r.sequence := by
            rw [hstand f hmem]
            exact reduce_eq hr
          rw [hround, if_neg (List.ne_nil_of_mem hmem), hselect, Step.ok_bind, hreduce]
          rfl
      | none =>
          rw [hready] at hchoice hselect
          cases hstuck : Operator.first? Focus.operator fs with
          | some f =>
              have hround : Sequence.round s = .stuck (settle false s)
                  (.missingOperand f.operator.token.text f.offset) := by
                simp [Sequence.round, hresolve, hfs, hchoice, hstuck]
              have hmem := Operator.mem_of_first? hstuck
              rw [hstuck] at hselect
              rw [hround, if_neg (List.ne_nil_of_mem hmem), hselect]
              rfl
          | none =>
              have hround : Sequence.round s = .finished := by
                simp [Sequence.round, hresolve, hfs, hchoice, hstuck]
              rw [hround, if_pos ((Operator.first?_eq_none _ _).mp hstuck)]

/-- A reduction leaves a shorter run. -/
theorem length_lt_of_round {s s' : Sequence} (h : round s = .ok (some s')) :
    s'.length < s.length := by
  rw [round_eq] at h
  cases hr : Sequence.round s with
  | reduced seen r =>
      rw [hr] at h
      cases h
      exact Sequence.length_lt_of_round hr
  | finished | refused _ | stuck _ _ => simp [hr] at h

/-- The one term of a run without operators. -/
def soleTerm : Sequence → Except Failure Term
  | [] => .error .noTerm
  | [e] =>
    match e.term? with
    | some t => .ok t
    | none => .error .noTerm
  | _ :: next :: _ => .error (.fault (.missingOperator next.offset))

theorem soleTerm_eq {s : Sequence} (nonempty : s ≠ []) (terms : ∀ e ∈ s, e.isTerm = true) :
    soleTerm s = s.soleTerm.mapError .fault := by
  cases s with
  | nil => exact absurd rfl nonempty
  | cons e rest =>
      cases rest with
      | cons next rest => rfl
      | nil =>
          obtain ⟨t, ht⟩ := Option.isSome_iff_exists.mp (terms e List.mem_cons_self)
          simp [soleTerm, Sequence.soleTerm, ht]

/-- Condensing with guards, round after round. -/
def condense (s : Sequence) : Except Failure Term :=
  match h : round s with
  | .error failure => .error failure
  | .ok none => soleTerm s
  | .ok (some s') =>
    have := length_lt_of_round h
    condense s'
termination_by s.length

/-- No guard is needed in condensing a run of at least one element. -/
theorem condense_eq {s : Sequence} (nonempty : s ≠ []) :
    condense s = s.condense.mapError .fault := by
  have hround := round_eq s
  cases hr : Sequence.round s with
  | finished =>
      rw [hr] at hround
      rw [condense_of_round_finished hr, ← soleTerm_eq nonempty (isTerm_of_round_finished hr),
        condense]
      split <;> simp_all
  | refused fault =>
      rw [condense_of_round_refused hr, condense]
      split <;> simp_all
  | stuck seen fault =>
      rw [condense_of_round_stuck hr, condense]
      split <;> simp_all
  | reduced seen r =>
      have hlt := Sequence.length_lt_of_round hr
      have ih := condense_eq (s := r.sequence) (by simp [Reduction.sequence])
      rw [condense_of_round_reduced hr, condense]
      split <;> simp_all
termination_by s.length

end Guarded
end LineCalc

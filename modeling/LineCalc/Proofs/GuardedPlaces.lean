import LineCalc.Proofs.Guarded
import LineCalc.Proofs.Lexing
import LineCalc.Proofs.Outcome

/-!
Operators by their places. Here a run is a row of elements and an operator is told by its place in
the row: which operator a token is, is found out from the place of the operator before it, and the
operators are then put into their places. Every access and every difference is guarded. What is
found, and what is refused, is the same as where the run is resolved from the left.
-/

namespace LineCalc

namespace Element

theorem misplaced?_of_isTerm {e : Element} (h : e.isTerm = true) (afterTerm : Bool) :
    e.misplaced? afterTerm = none := by
  cases e with
  | term _ _ | group _ _ _ => rfl
  | token _ _ | operator _ _ => cases h

theorem settle_of_isTerm {e : Element} (h : e.isTerm = true) (afterTerm : Bool) :
    e.settle afterTerm = e := by
  cases e with
  | term _ _ | group _ _ _ => rfl
  | token _ _ | operator _ _ => cases h

/-- An element that is no term is settled as an operator. -/
theorem exists_operator_of_settle {e : Element} (h : e.isTerm = false) (afterTerm : Bool) :
    ∃ o, e.settle afterTerm = .operator o e.offset := by
  cases e with
  | term _ _ | group _ _ _ => cases h
  | token t _ => exact ⟨t.use afterTerm, rfl⟩
  | operator o _ => exact ⟨o, rfl⟩

end Element

namespace Guarded

open Sequence

/-- The places where no term stands. -/
def positions (s : Sequence) : Except Failure (List Nat) :=
  keep (fun i => do return !(← entry s i).isTerm) (List.range s.length)

/-- Does a run of operators start in a place, which is the one with the index among the places? -/
def startsRun (places : List Nat) (place index : Nat) : Except Failure Bool := do
  if index = 0 then
    return true
  else
    let before ← entry places (← minus index 1)
    return before + 1 != place

/-- Of the uses of a token, those that its place allows. -/
def fitting (leading startsRun : Bool) (uses : List Operator) : List Operator :=
  let uses := if leading && decide (1 < uses.length) then uses.filter (·.isUnary) else uses
  if 1 < uses.length then uses.filter (·.isUnary == !startsRun) else uses

/-- The operator in a place, which is the one with the index among the places. -/
def operatorAt (s : Sequence) (places : List Nat) (place index : Nat) :
    Except Failure Operator := do
  let e ← entry s place
  let uses ← match e with
    | .operator o _ => pure [o]
    | .token t _ => pure (Operator.candidates t)
    | .term .. | .group .. => throw .unreachable
  let leading := place == 0
  let startsRun ← startsRun places place index
  let token := (e.token?.map Token.text).getD ""
  match fitting leading startsRun uses with
  | [o] =>
    if (leading || !startsRun) && !o.isUnary then
      throw (.fault (.unexpectedOperator token e.offset))
    else
      return o
  | [] => throw (.fault (.unexpectedOperator token e.offset))
  | uses => throw (.fault (.ambiguousOperator token e.offset uses.length))

/-- The operators in the given places. -/
def operatorsAt (s : Sequence) (places : List Nat) : Except Failure (List Operator) :=
  places.zipIdx.mapM fun p => operatorAt s places p.1 p.2

/-- Puts an operator into its place. -/
def put (s : Sequence) (p : Nat × Operator) : Except Failure Sequence := do
  let e ← entry s p.1
  return s.set p.1 (.operator p.2 e.offset)

def install (s : Sequence) (operators : List (Nat × Operator)) : Except Failure Sequence :=
  operators.foldlM put s

/-- The places of the operators of a run that begins in the given place. -/
def places (start : Nat) : Sequence → List Nat
  | [] => []
  | e :: rest => if e.isTerm then places (start + 1) rest else start :: places (start + 1) rest

theorem places_append (start : Nat) (s s' : Sequence) :
    places start (s ++ s') = places start s ++ places (start + s.length) s' := by
  induction s generalizing start with
  | nil => rfl
  | cons e rest ih =>
      simp only [List.cons_append, places, ih, List.length_cons, Nat.add_assoc, Nat.add_comm 1]
      split <;> rfl

theorem places_concat (s : Sequence) (e : Element) :
    places 0 (s ++ [e]) = if e.isTerm then places 0 s else places 0 s ++ [s.length] := by
  rw [places_append, Nat.zero_add, places]
  split
  · exact List.append_nil _
  · rfl

theorem places_settle (start : Nat) (afterTerm : Bool) (s : Sequence) :
    places start (settle afterTerm s) = places start s := by
  induction s generalizing start afterTerm with
  | nil => rfl
  | cons e rest ih => simp only [settle, places, Element.isTerm_settle, ih]

theorem positions_eq (s : Sequence) : positions s = .ok (places 0 s) := by
  have hplaces (pre rest : Sequence) :
      (List.range' pre.length rest.length).filter
        (fun i => ((pre ++ rest)[i]?.map fun e => !e.isTerm).getD false) =
          places pre.length rest := by
    induction rest generalizing pre with
    | nil => rfl
    | cons e rest ih =>
        have hrest := ih (pre ++ [e])
        simp only [List.append_assoc, List.singleton_append, List.length_append,
          List.length_singleton] at hrest
        rw [List.length_cons, List.range'_succ, List.filter_cons, hrest, places]
        cases he : e.isTerm <;> simp [he]
  rw [positions, keep_eq_ok (p := fun i => (s[i]?.map fun e => !e.isTerm).getD false)]
  · rw [List.range_eq_range']
    exact congrArg Except.ok (hplaces [] s)
  · intro i hi
    have hlt : i < s.length := List.mem_range.mp hi
    have hentry : entry s i = .ok s[i] := by
      simp [entry, List.getElem?_eq_getElem hlt]
    rw [hentry, List.getElem?_eq_getElem hlt]
    rfl

theorem lt_of_mem_places {start place : Nat} {s : Sequence} (h : place ∈ places start s) :
    place < start + s.length := by
  induction s generalizing start with
  | nil => cases h
  | cons e rest ih =>
      rw [places] at h
      rw [List.length_cons]
      split at h
      · have hlt := ih h
        omega
      · cases List.mem_cons.mp h with
        | inl hstart => omega
        | inr hrest =>
            have hlt := ih hrest
            omega

/-- Whether a run of operators starts is told from the place before. -/
theorem startsRun_append (front more : List Nat) (before place : Nat) :
    startsRun (front ++ before :: more) place (front.length + 1) = .ok (before + 1 != place) := by
  simp only [startsRun, Nat.succ_ne_zero, if_false, minus_of_le (Nat.le_add_left 1 _),
    Nat.add_sub_cancel]
  change (entry (front ++ before :: more) front.length >>= _) = _
  rw [entry_append]
  rfl

/-- A run of operators starts at the start of the row and behind terms. -/
theorem startsRun_eq (pre rest : Sequence) :
    startsRun (places 0 (pre ++ rest)) pre.length (places 0 pre).length =
      .ok (pre.isEmpty || endsInTerm false pre) := by
  cases List.eq_nil_or_concat pre with
  | inl hnil => rw [hnil]; rfl
  | inr hconcat =>
      obtain ⟨init, e, rfl⟩ := hconcat
      rw [List.concat_eq_append]
      have hempty : (init ++ [e]).isEmpty = false := by simp
      have hends : endsInTerm false (init ++ [e]) = e.isTerm := by simp [endsInTerm]
      have hlength : (init ++ [e]).length = init.length + 1 := by simp
      rw [hempty, hends, hlength, places_append, places_concat]
      cases he : e.isTerm with
      | false =>
          rw [if_neg (by simp), List.append_assoc, List.length_append, List.singleton_append]
          simpa using startsRun_append (places 0 init) _ init.length (init.length + 1)
      | true =>
          rw [if_pos rfl]
          cases List.eq_nil_or_concat (places 0 init) with
          | inl hnone => rw [hnone]; rfl
          | inr hsome =>
              obtain ⟨front, before, hfront⟩ := hsome
              rw [List.concat_eq_append] at hfront
              have hlt : before < 0 + init.length := lt_of_mem_places (by simp [hfront])
              rw [hfront, List.append_assoc, List.length_append, List.singleton_append]
              have hne : (before + 1 != init.length + 1) = true := by
                simp only [bne_iff_ne, ne_eq]
                omega
              simpa [hne] using startsRun_append front _ before (init.length + 1)

/-- The guards find the same operator as the round, or refuse it in the same way. -/
theorem operatorAt_eq (pre rest : Sequence) {e : Element} {o : Operator}
    (settles : e.settle (endsInTerm false pre) = .operator o e.offset) :
    operatorAt (pre ++ e :: rest) (places 0 (pre ++ e :: rest)) pre.length (places 0 pre).length =
      match e.misplaced? (endsInTerm false pre) with
      | some (t, offset) => .error (.fault (.unexpectedOperator t.text offset))
      | none => .ok o := by
  have hleading : (pre.length == 0) = pre.isEmpty := by cases pre <;> rfl
  have hstart : pre.isEmpty = true → endsInTerm false pre = false := by
    cases pre <;> simp [endsInTerm]
  simp only [operatorAt, entry_append, startsRun_eq, hleading]
  generalize endsInTerm false pre = afterTerm, pre.isEmpty = leading at *
  cases e with
  | term _ _ | group _ _ _ => cases settles
  | operator o' offset =>
      cases settles
      cases leading with
      | true =>
          obtain rfl := hstart rfl
          cases o <;> rfl
      | false => cases afterTerm <;> cases o <;> rfl
  | token t offset =>
      cases settles
      cases leading with
      | true =>
          obtain rfl := hstart rfl
          cases t <;> rfl
      | false => cases afterTerm <;> cases t <;> rfl

theorem operatorsAt_append (pre rest : Sequence) :
    ((places pre.length rest).zipIdx (places 0 pre).length).mapM
        (fun p => operatorAt (pre ++ rest) (places 0 (pre ++ rest)) p.1 p.2) =
      match misplaced? (endsInTerm false pre) rest with
      | some (t, offset) => .error (.fault (.unexpectedOperator t.text offset))
      | none => .ok ((operators (settle (endsInTerm false pre) rest)).map Prod.fst) := by
  induction rest generalizing pre with
  | nil => rfl
  | cons e rest ih =>
      have hrest := ih (pre ++ [e])
      have hrow : pre ++ [e] ++ rest = pre ++ e :: rest := by simp
      have hends : endsInTerm false (pre ++ [e]) = e.isTerm := by simp [endsInTerm]
      have hlength : (pre ++ [e]).length = pre.length + 1 := by simp
      rw [hrow, hends, hlength, places_concat] at hrest
      cases he : e.isTerm with
      | true =>
          have hmisplaced : e.misplaced? (endsInTerm false pre) = none :=
            Element.misplaced?_of_isTerm he _
          have hoperators : operators (e :: settle true rest) = operators (settle true rest) :=
            operators_append_of_isTerm (s := [e]) (by simpa using he) _
          rw [he, if_pos rfl] at hrest
          simpa only [places, misplaced?, settle, he, if_true, hmisplaced,
            Element.settle_of_isTerm he, hoperators] using hrest
      | false =>
          obtain ⟨o, ho⟩ := Element.exists_operator_of_settle he (endsInTerm false pre)
          have hoperators : operators (.operator o e.offset :: settle false rest) =
            (o, e.offset) :: operators (settle false rest) := rfl
          rw [he, if_neg (by simp), List.length_append, List.length_singleton] at hrest
          simp only [places, misplaced?, settle, he, Bool.false_eq_true, if_false, List.zipIdx_cons,
            List.mapM_cons, hrest, operatorAt_eq pre rest ho, ho, hoperators]
          cases e.misplaced? (endsInTerm false pre) with
          | some _ => rfl
          | none => cases misplaced? false rest <;> rfl

theorem operatorsAt_eq (s : Sequence) :
    operatorsAt s (places 0 s) =
      match misplaced? false s with
      | some (t, offset) => .error (.fault (.unexpectedOperator t.text offset))
      | none => .ok ((operators (settle false s)).map Prod.fst) :=
  operatorsAt_append [] s

theorem put_append (pre rest : Sequence) (e : Element) (o : Operator) :
    put (pre ++ e :: rest) (pre.length, o) = .ok (pre ++ .operator o e.offset :: rest) := by
  simp only [put, entry_append]
  change Except.ok _ = _
  simp

theorem install_append (pre rest : Sequence) (afterTerm : Bool) :
    install (pre ++ rest)
        ((places pre.length rest).zip ((operators (settle afterTerm rest)).map Prod.fst)) =
      .ok (pre ++ settle afterTerm rest) := by
  induction rest generalizing pre afterTerm with
  | nil => rfl
  | cons e rest ih =>
      have hrest := ih (pre ++ [e.settle afterTerm]) e.isTerm
      have hrow (e' : Element) (s : Sequence) : pre ++ [e'] ++ s = pre ++ e' :: s := by simp
      have hlength : (pre ++ [e.settle afterTerm]).length = pre.length + 1 := by simp
      rw [hrow, hrow, hlength] at hrest
      rw [settle, places]
      cases he : e.isTerm with
      | true =>
          have hoperators : operators (e :: settle true rest) = operators (settle true rest) :=
            operators_append_of_isTerm (s := [e]) (by simpa using he) _
          rw [he, Element.settle_of_isTerm he] at hrest
          rwa [Element.settle_of_isTerm he, hoperators, if_pos rfl]
      | false =>
          obtain ⟨o, ho⟩ := Element.exists_operator_of_settle he afterTerm
          rw [he, ho] at hrest
          rw [ho, operators, List.map_cons, if_neg (by simp), List.zip_cons_cons, install,
            List.foldlM_cons, put_append]
          exact hrest

theorem install_eq (s : Sequence) :
    install s ((places 0 s).zip ((operators (settle false s)).map Prod.fst)) =
      .ok (settle false s) :=
  install_append [] s false

end Guarded
end LineCalc

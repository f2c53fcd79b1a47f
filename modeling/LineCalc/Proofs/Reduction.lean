import LineCalc.Proofs.Placement
import LineCalc.Proofs.Turn

/-!
What one round does to a settled run. An operator is ready when a term follows it directly; the
operand on the left is there already. A round that reduces takes, of the ready operators, the one
whose turn it is, and puts one term in the place of it and its operands, at the offset of the
leftmost piece. The run stays settled, so a whole condensation is a chain of such rounds that ends
with a run of terms or with a run in which no operator is ready.
-/

namespace LineCalc
namespace Sequence

def startsWithTerm : Sequence → Bool
  | [] => false
  | e :: _ => e.isTerm

/-- The operators that a term follows directly, from left to right. -/
def ready : Sequence → List Operator
  | [] => []
  | .operator o _ :: rest => if startsWithTerm rest then o :: ready rest else ready rest
  | _ :: rest => ready rest

/-- One reduction. Its operator has its turn before all ready operators on either side. -/
inductive Reduces : Sequence → Sequence → Prop where
  | unary {pre post : Sequence} {x : Element} {t : Term} (o : UnaryOp) (offset : Nat)
      (operand : x.term? = some t)
      (before : ∀ e ∈ ready pre, (Operator.unary o).overtakes e = true)
      (after : ∀ e ∈ ready post, e.overtakes (.unary o) = false) :
      Reduces (pre ++ .operator (.unary o) offset :: x :: post)
        (pre ++ .term (.unary o t) offset :: post)
  | binary {pre post : Sequence} {l x : Element} {a b : Term} (o : BinaryOp) (offset : Nat)
      (left : l.term? = some a) (right : x.term? = some b)
      (before : ∀ e ∈ ready (pre ++ [l]), (Operator.binary o).overtakes e = true)
      (after : ∀ e ∈ ready post, e.overtakes (.binary o) = false) :
      Reduces (pre ++ l :: .operator (.binary o) offset :: x :: post)
        (pre ++ .term (.binary o a b) l.offset :: post)

theorem ready_cons_of_isTerm {e : Element} (h : e.isTerm = true) (rest : Sequence) :
    ready (e :: rest) = ready rest := by
  cases e with
  | operator _ _ => cases h
  | term _ _ | group _ _ _ | token _ _ => rfl

/-- In a settled run an operator can be reduced when a term follows it. -/
theorem isSome_reduction? {before : List Element} {o : Operator}
    (h : startsWithTerm before = true ∨ o.isUnary = true) (offset : Nat) (after : List Element) :
    (Focus.mk before o offset after).reduction?.isSome = startsWithTerm after := by
  cases after with
  | nil => cases o <;> cases before <;> rfl
  | cons x after =>
      cases o with
      | unary u => cases x <;> rfl
      | binary b =>
          cases before with
          | nil => simp [startsWithTerm, Operator.isUnary] at h
          | cons l before =>
              have hl : l.isTerm = true := by simpa [startsWithTerm, Operator.isUnary] using h
              obtain ⟨a, ha⟩ := Option.isSome_iff_exists.mp hl
              simp only [Focus.reduction?, ha]
              cases hx : x.term? <;> simp [startsWithTerm, Element.isTerm, hx]

theorem operator_of_reduction? {before after : List Element} {o : Operator}
    {offset : Nat} {r : Reduction} (h : (Focus.mk before o offset after).reduction? = some r) :
    r.operator = o := by
  cases after with
  | nil => cases o <;> cases before <;> simp [Focus.reduction?] at h
  | cons x after =>
      cases o with
      | unary u =>
          cases hx : x.term? <;> simp [Focus.reduction?, hx] at h
          rw [← h]
      | binary b =>
          cases before with
          | nil => simp [Focus.reduction?] at h
          | cons l before =>
              cases hl : l.term? <;> cases hx : x.term? <;> simp [Focus.reduction?, hl, hx] at h
              rw [← h]

/-- The reductions that a settled run offers are those of its ready operators. -/
private theorem map_operator_reductions {before : List Element} {s : Sequence}
    (h : Settled (startsWithTerm before) s) :
    ((foci before s).filterMap Focus.reduction?).map Reduction.operator = ready s := by
  induction s generalizing before with
  | nil => rfl
  | cons e rest ih =>
      have hrest := @ih (e :: before) h.2
      cases e with
      | operator o offset =>
          have hsome := isSome_reduction? h.1 offset rest
          simp only [foci, List.filterMap_cons, ready]
          cases hr : (Focus.mk before o offset rest).reduction? with
          | none =>
              rw [hr] at hsome
              simpa [← hsome] using hrest
          | some r =>
              rw [hr] at hsome
              simpa [← hsome, operator_of_reduction? hr] using hrest
      | term _ _ | group _ _ _ | token _ _ => exact hrest

private theorem startsWithTerm_append_operator (s : Sequence) (o : Operator) (offset : Nat)
    (post : Sequence) : startsWithTerm (s ++ .operator o offset :: post) = startsWithTerm s := by
  cases s <;> rfl

/-- One of the offered reductions, with the ready operators on either side of it. -/
private theorem reductions_split {before : List Element} {s : Sequence}
    (h : Settled (startsWithTerm before) s) {rs rs' : List Reduction} {r : Reduction}
    (hr : (foci before s).filterMap Focus.reduction? = rs ++ r :: rs') :
    ∃ pre o offset post, s = pre ++ .operator o offset :: post ∧
      (Focus.mk (pre.reverse ++ before) o offset post).reduction? = some r ∧
      rs.map Reduction.operator = ready pre ∧ rs'.map Reduction.operator = ready post := by
  induction s generalizing before rs with
  | nil => simp [foci] at hr
  | cons e rest ih =>
      have htail : Settled (startsWithTerm (e :: before)) rest := h.2
      cases e with
      | operator o offset =>
          have hsome := isSome_reduction? h.1 offset rest
          have hrest := map_operator_reductions htail
          simp only [foci, List.filterMap_cons] at hr
          cases hf : (Focus.mk before o offset rest).reduction? with
          | none =>
              rw [hf] at hr hsome
              obtain ⟨pre, o', offset', post, rfl, hr', hpre, hpost⟩ := ih htail hr
              rw [startsWithTerm_append_operator] at hsome
              refine ⟨.operator o offset :: pre, o', offset', post, rfl, ?_, ?_, hpost⟩
              · simpa using hr'
              · simpa [ready, ← hsome] using hpre
          | some r' =>
              rw [hf] at hr hsome
              cases rs with
              | nil =>
                  cases hr
                  exact ⟨[], o, offset, rest, rfl, hf, rfl, hrest⟩
              | cons r'' rs =>
                  obtain ⟨hhead, hrs⟩ := List.cons.inj hr
                  subst hhead
                  obtain ⟨pre, o', offset', post, rfl, hr', hpre, hpost⟩ := ih htail hrs
                  rw [startsWithTerm_append_operator] at hsome
                  refine ⟨.operator o offset :: pre, o', offset', post, rfl, ?_, ?_, hpost⟩
                  · simpa using hr'
                  · simpa [ready, ← hsome, operator_of_reduction? hf] using hpre
      | term _ _ | group _ _ _ | token _ _ =>
          obtain ⟨pre, o', offset', post, rfl, hr', hpre, hpost⟩ := ih htail hr
          exact ⟨_ :: pre, o', offset', post, rfl, by simpa using hr', hpre, hpost⟩

/-- The choice that a round makes among the offered reductions is a reduction of the run. -/
private theorem reduces_of_first? {s : Sequence} (h : Settled false s) {r : Reduction}
    (hr : Operator.first? Reduction.operator ((foci [] s).filterMap Focus.reduction?) = some r) :
    Reduces s r.sequence := by
  obtain ⟨rs, rs', hsplit, hbefore, hafter⟩ := Operator.first?_split hr
  obtain ⟨pre, o, offset, post, rfl, hfocus, hpre, hpost⟩ := @reductions_split [] s h _ _ _ hsplit
  obtain rfl := operator_of_reduction? hfocus
  have hb : ∀ e ∈ ready pre, r.operator.overtakes e = true := by
    simpa [← hpre] using hbefore
  have ha : ∀ e ∈ ready post, e.overtakes r.operator = false := by
    simpa [← hpost] using hafter
  cases post with
  | nil => cases ho : r.operator <;> simp [ho, Focus.reduction?] at hfocus
  | cons x post =>
      cases hx : x.term? with
      | none =>
          cases ho : r.operator <;> cases hp : pre.reverse <;>
            simp [ho, hp, Focus.reduction?, hx] at hfocus
      | some t =>
          rw [ready_cons_of_isTerm (Element.isTerm_of_term? hx)] at ha
          cases ho : r.operator with
          | unary u =>
              simp only [ho, List.append_nil, Focus.reduction?, hx] at hfocus
              obtain rfl := Option.some.inj hfocus
              rw [ho] at hb ha
              simpa [Reduction.sequence] using Reduces.unary u offset hx hb ha
          | binary b =>
              cases hp : pre.reverse with
              | nil => simp [ho, hp, Focus.reduction?] at hfocus
              | cons l before =>
                  obtain rfl : pre = before.reverse ++ [l] := by
                    rw [← List.reverse_reverse pre, hp, List.reverse_cons]
                  cases hl : l.term? with
                  | none => simp [ho, hp, Focus.reduction?, hl] at hfocus
                  | some a =>
                      simp [ho, Focus.reduction?, hx, hl] at hfocus
                      rw [ho] at hb ha
                      subst hfocus
                      simpa [Reduction.sequence] using Reduces.binary b offset hl hx hb ha

theorem settled_of_resolve {s seen : Sequence} (h : resolve false s = .ok seen) :
    Settled false seen ∧ seen = settle false s := by
  rw [resolve_eq] at h
  cases hm : misplaced? false s with
  | some found =>
      rw [hm] at h
      cases h
  | none =>
      rw [hm] at h
      cases h
      exact ⟨settled_settle hm, rfl⟩

/-- What a round reduces is a run that it has resolved. -/
theorem first?_of_round {s seen : Sequence} {r : Reduction} (h : round s = .reduced seen r) :
    resolve false s = .ok seen ∧
      Operator.first? Reduction.operator ((foci [] seen).filterMap Focus.reduction?) = some r := by
  simp only [round] at h
  split at h
  next => cases h
  next seen' hresolve =>
    split at h
    next hfirst =>
      cases h
      exact ⟨hresolve, hfirst⟩
    next => split at h <;> cases h

theorem reduces_of_round {s seen : Sequence} {r : Reduction} (h : round s = .reduced seen r) :
    resolve false s = .ok seen ∧ Reduces seen r.sequence := by
  obtain ⟨hresolve, hfirst⟩ := first?_of_round h
  exact ⟨hresolve, reduces_of_first? (settled_of_resolve hresolve).1 hfirst⟩

/-- The rest of a condensation, by what its first round does. -/
theorem condensation_eq (s : Sequence) :
    condensation s =
      match round s with
      | .finished => ⟨[], soleTerm s⟩
      | .refused fault => ⟨[], .error fault⟩
      | .stuck seen fault => ⟨[.condensing seen], .error fault⟩
      | .reduced seen r =>
        ⟨.condensing seen :: .reduced r.operator r.result :: (condensation r.sequence).records,
          (condensation r.sequence).outcome⟩ := by
  rw [condensation]
  split
  next h => simp only [h]
  next h => simp only [h]
  next h => simp only [h]
  next h => simp only [h]

theorem condense_of_round_reduced {s seen : Sequence} {r : Reduction}
    (h : round s = .reduced seen r) : s.condense = r.sequence.condense := by
  rw [condense, condensation_eq, h]
  rfl

theorem condense_of_round_stuck {s seen : Sequence} {fault : Fault}
    (h : round s = .stuck seen fault) : s.condense = .error fault := by
  rw [condense, condensation_eq, h]

theorem condense_of_round_refused {s : Sequence} {fault : Fault}
    (h : round s = .refused fault) : s.condense = .error fault := by
  rw [condense, condensation_eq, h]

theorem condense_of_round_finished {s : Sequence} (h : round s = .finished) :
    s.condense = s.soleTerm := by
  rw [condense, condensation_eq, h]

private theorem soleTerm_settle (afterTerm : Bool) (s : Sequence) :
    soleTerm (settle afterTerm s) = s.soleTerm := by
  cases s with
  | nil => rfl
  | cons e rest =>
      cases rest with
      | nil => cases e <;> rfl
      | cons next rest => simp [settle, soleTerm]

/-- A token out of place ends a condensation at once; otherwise all tokens may be settled
beforehand. -/
theorem condense_eq (s : Sequence) :
    s.condense =
      match misplaced? false s with
      | some (t, offset) => .error (.unexpectedOperator t.text offset)
      | none => (settle false s).condense := by
  cases hm : misplaced? false s with
  | some found => exact condense_of_round_refused (by simp [round, resolve_eq, hm])
  | none =>
      have hround : round s = round (settle false s) := by
        simp [round, resolve_of_settled (settled_settle hm), resolve_eq, hm]
      cases h : round (settle false s) with
      | finished =>
          rw [condense_of_round_finished (hround.trans h), condense_of_round_finished h,
            soleTerm_settle]
      | refused fault =>
          rw [condense_of_round_refused (hround.trans h), condense_of_round_refused h]
      | stuck seen fault =>
          rw [condense_of_round_stuck (hround.trans h), condense_of_round_stuck h]
      | reduced seen r =>
          rw [condense_of_round_reduced (hround.trans h), condense_of_round_reduced h]

theorem Reduces.settled {s s' : Sequence} (h : Reduces s s') {afterTerm : Bool}
    (hs : Settled afterTerm s) : Settled afterTerm s' := by
  cases h with
  | unary o offset operand _ _ =>
      rw [settled_append] at hs ⊢
      have hpost : Settled _ _ := hs.2.2.2
      rw [Element.isTerm_of_term? operand] at hpost
      exact ⟨hs.1, trivial, hpost⟩
  | binary o offset _ right _ _ =>
      rw [settled_append] at hs ⊢
      have hpost : Settled _ _ := hs.2.2.2.2
      rw [Element.isTerm_of_term? right] at hpost
      exact ⟨hs.1, trivial, hpost⟩

theorem Reduces.length_lt {s s' : Sequence} (h : Reduces s s') :
    List.length s' < List.length s := by
  cases h with
  | unary o offset _ _ _ =>
      simp only [List.length_append, List.length_cons]
      omega
  | binary o offset _ _ _ _ =>
      simp only [List.length_append, List.length_cons]
      omega

private theorem isTerm_of_foci_eq_nil {before : List Element} {afterTerm : Bool} {s : Sequence}
    (h : Settled afterTerm s) (hs : foci before s = []) : ∀ e ∈ s, e.isTerm = true := by
  induction s generalizing before afterTerm with
  | nil => simp
  | cons e rest ih =>
      cases e with
      | token _ _ => exact h.1.elim
      | operator _ _ => simp [foci] at hs
      | term _ _ | group _ _ _ => exact List.forall_mem_cons.mpr ⟨rfl, ih h.2 hs⟩

theorem isTerm_of_round_finished {s : Sequence} (h : round s = .finished) :
    ∀ e ∈ s, e.isTerm = true := by
  cases hm : misplaced? false s with
  | some found => simp [round, resolve_eq, hm] at h
  | none =>
      have hfoci : foci [] (settle false s) = [] := by
        simp only [round, resolve_eq, hm] at h
        split at h
        next => cases h
        next =>
          split at h
          next => cases h
          next hnone => exact (Operator.first?_eq_none _ _).mp hnone
      have hterms := isTerm_of_foci_eq_nil (settled_settle hm) hfoci
      intro e he
      have hmem := List.mem_map_of_mem (f := Element.isTerm) he
      rw [← map_isTerm_settle false] at hmem
      obtain ⟨e', he', hsame⟩ := List.mem_map.mp hmem
      rw [← hsame]
      exact hterms e' he'

/-- What follows of every condensation of a settled run: it is proved of the runs of terms, of the
runs that are stuck, and backwards along one reduction. -/
theorem condense_induction {motive : Sequence → Except Fault Term → Prop}
    (terms : ∀ s, (∀ e ∈ s, e.isTerm = true) → motive s s.soleTerm)
    (stuck : ∀ s f, Settled false s → ready s = [] →
      Operator.first? Focus.operator (foci [] s) = some f →
      motive s (.error (.missingOperand f.operator.token.text f.offset)))
    (step : ∀ s s', Settled false s → Reduces s s' → motive s' s'.condense → motive s s'.condense)
    (s : Sequence) (h : Settled false s) : motive s s.condense := by
  cases hr : Operator.first? Reduction.operator ((foci [] s).filterMap Focus.reduction?) with
  | some r =>
      have hreduces := reduces_of_first? h hr
      have hlt := hreduces.length_lt
      have hround : round s = .reduced s r := by simp [round, resolve_of_settled h, hr]
      rw [condense_of_round_reduced hround]
      exact step s _ h hreduces
        (condense_induction terms stuck step r.sequence (hreduces.settled h))
  | none =>
      rw [Operator.first?_eq_none] at hr
      cases hf : Operator.first? Focus.operator (foci [] s) with
      | some f =>
          have hready := @map_operator_reductions [] s h
          rw [hr] at hready
          rw [condense_of_round_stuck (by simp [round, resolve_of_settled h, hr, hf]; rfl)]
          exact stuck s f h hready.symm hf
      | none =>
          rw [Operator.first?_eq_none] at hf
          rw [condense_of_round_finished (by simp [round, resolve_of_settled h, hf]; rfl)]
          exact terms s (isTerm_of_foci_eq_nil h hf)
termination_by List.length s

end Sequence
end LineCalc

import LineCalc.Proofs.GuardedRounds
import LineCalc.Proofs.WellFormed

/-!
What holds of a run in every round of its condensation. Once its operators have been resolved, a
binary one stands directly behind a term, to resolve them again changes nothing, and an operator has
its operands as soon as a term follows it. A reduction keeps this, and it keeps the offsets in their
order, since the new term takes the offset of the leftmost piece. It takes away one operator, so
there are no more rounds than the run had operators, and a run can be refused in the first one only.
-/

namespace LineCalc
namespace Sequence

/-- The elements of a run that are no terms. -/
def operatorCount (s : Sequence) : Nat :=
  List.countP (fun e => !e.isTerm) s

theorem operatorCount_eq_map (s : Sequence) :
    operatorCount s = (List.map Element.isTerm s).countP (! ·) := by
  rw [operatorCount, List.countP_map]
  rfl

theorem operatorCount_of_resolve {s seen : Sequence} (h : resolve false s = .ok seen) :
    operatorCount seen = operatorCount s := by
  rw [(settled_of_resolve h).2, operatorCount_eq_map, map_isTerm_settle, ← operatorCount_eq_map]

/-- A reduction puts a term in the place of one operator and its operands. -/
theorem counts_of_reduction? {f : Focus} {r : Reduction} (h : f.reduction? = some r) :
    operatorCount (f.before.reverse ++ .operator f.operator f.offset :: f.after) =
        operatorCount r.sequence + 1 ∧
      f.before.length + f.after.length + 1 = r.sequence.length + r.operator.arity := by
  obtain ⟨before, o, offset, after⟩ := f
  cases after with
  | nil => cases o <;> cases before <;> cases h
  | cons x after =>
      cases o with
      | unary u =>
          obtain ⟨a, ha, hr⟩ := Option.bind_eq_some_iff.mp h
          cases hr
          refine ⟨?_, ?_⟩
          · simp [operatorCount, Reduction.sequence, Element.isTerm_of_term? ha]
            omega
          · simp [Reduction.sequence, Operator.arity, Operator.leftCount, Operator.rightCount]
      | binary b =>
          cases before with
          | nil => cases h
          | cons l before =>
              obtain ⟨a, ha, h⟩ := Option.bind_eq_some_iff.mp h
              obtain ⟨c, hc, hr⟩ := Option.bind_eq_some_iff.mp h
              cases hr
              refine ⟨?_, ?_⟩
              · simp [operatorCount, Reduction.sequence, Element.isTerm_of_term? ha,
                  Element.isTerm_of_term? hc]
                omega
              · simp [Reduction.sequence, Operator.arity, Operator.leftCount, Operator.rightCount]
                omega

theorem counts_of_round {s seen : Sequence} {r : Reduction} (h : round s = .reduced seen r) :
    operatorCount s = operatorCount r.sequence + 1 ∧
      List.length s = List.length r.sequence + r.operator.arity := by
  obtain ⟨hresolve, hfirst⟩ := first?_of_round h
  obtain ⟨f, hf, hr⟩ := List.mem_filterMap.mp (Operator.mem_of_first? hfirst)
  obtain ⟨hcount, hlength⟩ := counts_of_reduction? hr
  have hsplit := append_of_mem_foci hf
  rw [List.reverse_nil, List.nil_append] at hsplit
  rw [← hsplit, operatorCount_of_resolve hresolve] at hcount
  have hfocus := length_of_mem_foci hf
  rw [List.length_nil, Nat.zero_add, length_resolve hresolve] at hfocus
  exact ⟨hcount, hfocus.symm.trans hlength⟩

/-- A run in the middle of its condensation. -/
structure InRounds (s : Sequence) : Prop where
  /-- A binary operator stands directly behind a term. -/
  behind : ∀ front b offset rest, s = front ++ .operator (.binary b) offset :: rest →
    ∃ front' e, front = front' ++ [e] ∧ e.isTerm = true
  increasing : List.Pairwise (fun e next => e.offset < next.offset) s
  /-- To resolve the run again changes nothing. -/
  resolved : resolve false s = .ok s
  /-- An operator has its operands just if a term follows it. -/
  ready : ∀ front o offset rest, s = front ++ .operator o offset :: rest →
    (Focus.mk front.reverse o offset rest).reduction?.isSome = startsWithTerm rest

theorem startsWithTerm_reverse (s : Sequence) :
    startsWithTerm s.reverse = endsInTerm false s := by
  obtain rfl | ⟨front, e, rfl⟩ := List.eq_nil_or_concat s
  · rfl
  · rw [List.concat_eq_append, endsInTerm_append, List.reverse_append]
    rfl

theorem InRounds.of_settled {s : Sequence} (settled : Settled false s)
    (increasing : List.Pairwise (fun e next => e.offset < next.offset) s) : InRounds s := by
  have hplace (front : Sequence) (o : Operator) (offset : Nat) (rest : Sequence)
      (hs : s = front ++ .operator o offset :: rest) :
      endsInTerm false front = true ∨ o.isUnary = true := by
    rw [hs, settled_append] at settled
    exact settled.2.1
  refine ⟨?_, increasing, resolve_of_settled settled, ?_⟩
  · intro front b offset rest hs
    exact endsInTerm_iff_exists.mp ((hplace front (.binary b) offset rest hs).resolve_right nofun)
  · intro front o offset rest hs
    refine isSome_reduction? ?_ offset rest
    rw [startsWithTerm_reverse]
    exact hplace front o offset rest hs

/-- A new term takes one of the offsets of the pieces that it replaces. -/
theorem Reduces.offset_sublist {s s' : Sequence} (h : Reduces s s') :
    (List.map Element.offset s').Sublist (List.map Element.offset s) := by
  cases h with
  | unary o offset _ _ _ =>
      simp only [List.map_append, List.map_cons]
      exact .append (.refl _) (.cons_cons _ (.cons _ (.refl _)))
  | binary o offset _ _ _ _ =>
      simp only [List.map_append, List.map_cons]
      exact .append (.refl _) (.cons_cons _ (.cons _ (.cons _ (.refl _))))

theorem InRounds.reduces {s s' : Sequence} (h : InRounds s) (reduces : Reduces s s') :
    InRounds s' := by
  refine .of_settled (reduces.settled (settled_of_resolve h.resolved).1) ?_
  have hoffsets := List.pairwise_map.mpr h.increasing
  exact List.pairwise_map.mp (hoffsets.sublist reduces.offset_sublist)

/-- A run from which so many rounds lead to another. -/
inductive After : Sequence → Nat → Sequence → Prop where
  | start (s : Sequence) : After s 0 s
  | round {s seen s' : Sequence} {r : Reduction} {k : Nat} (reduced : round s = .reduced seen r)
      (rest : After r.sequence k s') : After s (k + 1) s'

theorem After.inRounds {s s' : Sequence} {k : Nat} (h : After s k s') (first : InRounds s) :
    InRounds s' := by
  induction h with
  | start s => exact first
  | round reduced rest ih =>
      obtain ⟨hresolve, hreduces⟩ := reduces_of_round reduced
      obtain rfl := Except.ok.inj (hresolve.symm.trans first.resolved)
      exact ih (first.reduces hreduces)

theorem After.operatorCount {s s' : Sequence} {k : Nat} (h : After s k s') :
    operatorCount s' + k = operatorCount s := by
  induction h with
  | start s => rfl
  | round reduced rest ih =>
      have hround := (counts_of_round reduced).1
      omega

/-- The rounds come to an end, and what a run condenses to is decided there. -/
theorem exists_last (s : Sequence) :
    ∃ k s', After s k s' ∧ (∀ seen r, round s' ≠ .reduced seen r) ∧ s.condense = s'.condense := by
  by_cases hs : ∃ seen r, round s = .reduced seen r
  · obtain ⟨seen, r, hround⟩ := hs
    have hshorter := length_lt_of_round hround
    obtain ⟨k, s', rest, hlast, hcondense⟩ := exists_last r.sequence
    exact ⟨k + 1, s', .round hround rest, hlast,
      (condense_of_round_reduced hround).trans hcondense⟩
  · exact ⟨0, s, .start s, by simpa using hs, rfl⟩
termination_by List.length s

/-- Of the run that a reading finds, only the first round can refuse anything. What is resolved
there is kept in all the rounds that follow, and there are at most as many as the run has
operators. -/
theorem rounds_of_scanned {limit : Option Nat} {session : Session} {s seen : Sequence}
    (scanned : (Reading.sequence limit).outcome session = .ok (some s))
    (resolves : resolve false s = .ok seen) :
    (∀ k s', After s k s' →
      (∃ seen', resolve false s' = .ok seen' ∧ (0 < k → seen' = s') ∧ InRounds seen') ∧
        operatorCount s' + k = operatorCount s ∧
        ∀ seen' r, round s' = .reduced seen' r →
          operatorCount s' = operatorCount r.sequence + 1 ∧
            List.length s' = List.length r.sequence + r.operator.arity) ∧
      ∃ k s', k ≤ operatorCount s ∧ After s k s' ∧ (∀ seen' r, round s' ≠ .reduced seen' r) ∧
        s.condense = s'.condense := by
  obtain ⟨settled, hseen⟩ := settled_of_resolve resolves
  have hincreasing : List.Pairwise (fun e next => e.offset < next.offset) seen := by
    obtain ⟨text, rest, place, spells⟩ := Reading.spells_of_sequence scanned
    obtain ⟨precedes, _⟩ := spells.wellFormed place
    have hoffsets := List.pairwise_map.mpr (precedes.imp Element.Precedes.begins)
    rw [← map_offset_settle false s, ← hseen] at hoffsets
    exact List.pairwise_map.mp hoffsets
  have hfirst := InRounds.of_settled settled hincreasing
  refine ⟨?_, ?_⟩
  · intro k s' after
    refine ⟨?_, after.operatorCount, fun _ _ => counts_of_round⟩
    cases after with
    | start => exact ⟨seen, resolves, nofun, hfirst⟩
    | round reduced rest =>
        obtain ⟨hresolve, hreduces⟩ := reduces_of_round reduced
        obtain rfl := Except.ok.inj (hresolve.symm.trans resolves)
        have hkept := rest.inRounds (hfirst.reduces hreduces)
        exact ⟨s', hkept.resolved, fun _ => rfl, hkept⟩
  · obtain ⟨k, s', after, last, condenses⟩ := exists_last s
    have hcount := after.operatorCount
    exact ⟨k, s', by omega, after, last, condenses⟩

/-- A sign before a power whose exponent has a sign and a group, and a function at the end. -/
theorem rounds_of_scanned_signed_power :
    ∃ s seen, (Reading.sequence none).outcome (.start "-2^-(1+2)*ln 3") = .ok (some s) ∧
      resolve false s = .ok seen ∧ seen ≠ s ∧ operatorCount s = 5 ∧
      ∀ k s', After s k s' → operatorCount s' + k = 5 ∧
        ∃ seen', resolve false s' = .ok seen' ∧ (0 < k → seen' = s') ∧ InRounds seen' := by
  have hscan : scan "-2^-(1+2)*ln 3" = .ok
      [.token .minus 0, .term (.numeral ⟨.plus, [2], [], none, by simp⟩) 1, .token .caret 2,
        .token .minus 3,
        .group
          [.term (.numeral ⟨.plus, [1], [], none, by simp⟩) 5, .token .plus 6,
            .term (.numeral ⟨.plus, [2], [], none, by simp⟩) 7]
          (.binary .add (.numeral ⟨.plus, [1], [], none, by simp⟩)
            (.numeral ⟨.plus, [2], [], none, by simp⟩)) 4,
        .token .star 9, .token .ln 10, .term (.numeral ⟨.plus, [3], [], none, by simp⟩) 13] := by
    decide +kernel
  have scanned := sequence_of_scan hscan
  refine ⟨_, _, scanned, rfl, by simp, rfl, ?_⟩
  intro k s' after
  obtain ⟨hrest, hafter, _⟩ := (rounds_of_scanned scanned rfl).1 k s' after
  exact ⟨hafter, hrest⟩

end Sequence
end LineCalc

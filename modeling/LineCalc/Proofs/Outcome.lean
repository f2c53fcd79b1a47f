import LineCalc.Proofs.Reduction

/-!
How the condensation of a run ends, read off the run itself. Three things are kept by every
reduction of a settled run: whether it ends with a term, its trailing run of operators, and the
place of its first junction, where an operand begins directly behind a term. A run that ends with a
term never gets stuck and ends as terms, two of them exactly when it has a junction. A run that ends
with an operator gets stuck on its trailing operators. The last theorem says the same of positions
in a run of terms and tokens.
-/

namespace LineCalc

namespace Element

/-- Does an operand begin here, once a term stands before? -/
def startsOperand : Element → Bool
  | .term .. | .group .. => true
  | .token t _ => t == .ln || t == .log
  | .operator o _ => o.isUnary

@[simp]
theorem startsOperand_settle_true (e : Element) :
    (e.settle true).startsOperand = e.startsOperand := by
  cases e with
  | token t _ => cases t <;> rfl
  | term _ _ | group _ _ _ | operator _ _ => rfl

theorem startsOperand_of_isTerm {e : Element} (h : e.isTerm = true) : e.startsOperand = true := by
  cases e with
  | term _ _ | group _ _ _ => rfl
  | token _ _ | operator _ _ => cases h

end Element

namespace Sequence

/-- The offset of the first operand that begins directly behind a term. -/
def junction? : Bool → Sequence → Option Nat
  | _, [] => none
  | afterTerm, e :: rest =>
      if afterTerm && e.startsOperand then some e.offset else junction? e.isTerm rest

theorem junction?_settle (afterTerm : Bool) (s : Sequence) :
    junction? afterTerm (settle afterTerm s) = junction? afterTerm s := by
  induction s generalizing afterTerm with
  | nil => rfl
  | cons e rest ih =>
      cases afterTerm with
      | true => simp [settle, junction?, ih]
      | false => simp [settle, junction?, ih]

theorem junction?_append (afterTerm : Bool) (s s' : Sequence) :
    junction? afterTerm (s ++ s') =
      (junction? afterTerm s).or (junction? (endsInTerm afterTerm s) s') := by
  induction s generalizing afterTerm with
  | nil => rfl
  | cons e rest ih =>
      simp only [List.cons_append, junction?, endsInTerm, ih]
      split <;> rfl

theorem junction?_of_isTerm {e : Element} (h : e.isTerm = true) (afterTerm : Bool)
    (rest : Sequence) :
    junction? afterTerm (e :: rest) = if afterTerm then some e.offset else junction? true rest := by
  simp [junction?, Element.startsOperand_of_isTerm h, h]

theorem Reduces.junction?_eq {s s' : Sequence} (h : Reduces s s') (afterTerm : Bool) :
    junction? afterTerm s' = junction? afterTerm s := by
  cases h with
  | @unary pre post x t o offset operand _ _ =>
      have hx := Element.isTerm_of_term? operand
      rw [junction?_append, junction?_append]
      congr 1
      rw [junction?_of_isTerm rfl]
      cases endsInTerm afterTerm pre with
      | true => rfl
      | false => exact (junction?_of_isTerm hx false post).symm
  | @binary pre post l x a b o offset left right _ _ =>
      have hl := Element.isTerm_of_term? left
      have hx := Element.isTerm_of_term? right
      rw [junction?_append, junction?_append]
      congr 1
      rw [junction?_of_isTerm rfl, junction?_of_isTerm hl]
      cases endsInTerm afterTerm pre with
      | true => rfl
      | false => exact (junction?_of_isTerm hx false post).symm

theorem Reduces.endsInTerm_eq {s s' : Sequence} (h : Reduces s s') (afterTerm : Bool) :
    endsInTerm afterTerm s' = endsInTerm afterTerm s := by
  cases h with
  | unary o offset operand _ _ =>
      simp [endsInTerm, Element.isTerm_of_term? operand]
  | binary o offset _ right _ _ =>
      simp [endsInTerm, Element.isTerm_of_term? right]

/-- The operators of a run behind its last term. -/
def trailing : Sequence → Sequence
  | [] => []
  | e :: rest => if (e :: rest).any Element.isTerm then trailing rest else e :: rest

theorem trailing_append_cons {e : Element} (h : e.isTerm = true) (s s' : Sequence) :
    trailing (s ++ e :: s') = trailing s' := by
  induction s with
  | nil => simp [trailing, h]
  | cons a s ih => simpa [trailing, h] using ih

theorem trailing_of_forall_not_isTerm {s : Sequence} (h : ∀ e ∈ s, e.isTerm = false) :
    trailing s = s := by
  cases s with
  | nil => rfl
  | cons e rest =>
      have hnone : (e :: rest).any Element.isTerm = false := by simpa using h
      simp only [trailing, hnone, Bool.false_eq_true, if_false]

theorem trailing_append {s s' : Sequence} (h : s = [] ∨ endsInTerm false s = true)
    (hs' : ∀ e ∈ s', e.isTerm = false) : trailing (s ++ s') = s' := by
  cases h with
  | inl hnil => rw [hnil]; exact trailing_of_forall_not_isTerm hs'
  | inr hends =>
      obtain ⟨front, e, rfl, he⟩ := endsInTerm_iff_exists.mp hends
      rw [List.append_assoc, List.singleton_append, trailing_append_cons he,
        trailing_of_forall_not_isTerm hs']

theorem exists_append_trailing (s : Sequence) :
    ∃ front, s = front ++ trailing s ∧ (front = [] ∨ endsInTerm false front = true) ∧
      ∀ e ∈ trailing s, e.isTerm = false := by
  induction s with
  | nil => exact ⟨[], rfl, .inl rfl, by simp [trailing]⟩
  | cons e rest ih =>
      obtain ⟨front, hsplit, hfront, htrailing⟩ := ih
      simp only [trailing]
      split
      next hany =>
        refine ⟨e :: front, by rw [List.cons_append, ← hsplit], .inr ?_, htrailing⟩
        cases hfront with
        | inr hfront =>
            cases front with
            | nil => cases hfront
            | cons a front => exact hfront
        | inl hnil =>
            -- nothing but operators follows, so the term is the first element
            rw [hnil, List.nil_append] at hsplit
            have hnone : rest.any Element.isTerm = false := by
              rw [hsplit]
              simpa using htrailing
            simpa [hnil, endsInTerm, hnone] using hany
      next hnone => exact ⟨[], rfl, .inl rfl, by simpa using hnone⟩

theorem trailing_of_terms {s : Sequence} (h : ∀ e ∈ s, e.isTerm = true) : trailing s = [] := by
  induction s with
  | nil => rfl
  | cons e rest ih =>
      obtain ⟨he, hrest⟩ := List.forall_mem_cons.mp h
      exact (trailing_append_cons he [] rest).trans (ih hrest)

theorem Reduces.trailing_eq {s s' : Sequence} (h : Reduces s s') : trailing s' = trailing s := by
  cases h with
  | @unary pre post x t o offset operand _ _ =>
      rw [trailing_append_cons rfl]
      have := trailing_append_cons (Element.isTerm_of_term? operand)
        (pre ++ [.operator (.unary o) offset]) post
      simpa using this.symm
  | @binary pre post l x a b o offset _ right _ _ =>
      rw [trailing_append_cons rfl]
      have := trailing_append_cons (Element.isTerm_of_term? right)
        (pre ++ [l, .operator (.binary o) offset]) post
      simpa using this.symm

theorem endsInTerm_of_forall_not_isTerm {s : Sequence} (h : ∀ e ∈ s, e.isTerm = false) :
    endsInTerm false s = false := by
  induction s with
  | nil => rfl
  | cons e rest ih =>
      obtain ⟨he, hrest⟩ := List.forall_mem_cons.mp h
      simpa [endsInTerm, he] using ih hrest

theorem endsInTerm_iff_trailing {s : Sequence} (hs : s ≠ []) (afterTerm : Bool) :
    endsInTerm afterTerm s = true ↔ trailing s = [] := by
  induction s generalizing afterTerm with
  | nil => exact absurd rfl hs
  | cons e rest ih =>
      simp only [trailing, endsInTerm]
      split
      next hany =>
        cases rest with
        | nil => simpa [endsInTerm, trailing] using hany
        | cons e' rest => exact ih (by simp) e.isTerm
      next hnone =>
        have hterms : ∀ x ∈ e :: rest, x.isTerm = false := by simpa using hnone
        obtain ⟨he, hrest⟩ := List.forall_mem_cons.mp hterms
        simp [he, endsInTerm_of_forall_not_isTerm hrest]

/-- In a settled run that offers no reduction only operators follow an operator. -/
private theorem isTerm_of_ready_eq_nil {afterTerm : Bool} {s : Sequence}
    (h : Settled afterTerm s) (hs : ready s = []) (hstart : startsWithTerm s = false) :
    ∀ e ∈ s, e.isTerm = false := by
  induction s generalizing afterTerm with
  | nil => simp
  | cons e rest ih =>
      cases e with
      | term _ _ | group _ _ _ => cases hstart
      | token _ _ => exact h.1.elim
      | operator o offset =>
          simp only [ready] at hs
          split at hs
          next => cases hs
          next hrest =>
            exact List.forall_mem_cons.mpr ⟨rfl, ih h.2 hs (Bool.eq_false_iff.mpr hrest)⟩

/-- A settled run that offers no reduction is a run of terms with operators behind it. -/
theorem exists_terms_append_trailing {afterTerm : Bool} {s : Sequence}
    (h : Settled afterTerm s) (hs : ready s = []) :
    ∃ terms, s = terms ++ trailing s ∧ ∀ e ∈ terms, e.isTerm = true := by
  induction s generalizing afterTerm with
  | nil => exact ⟨[], rfl, by simp⟩
  | cons e rest ih =>
      cases he : e.isTerm with
      | true =>
          rw [ready_cons_of_isTerm he] at hs
          obtain ⟨terms, hrest, hterms⟩ := ih h.2 hs
          refine ⟨e :: terms, ?_, List.forall_mem_cons.mpr ⟨he, hterms⟩⟩
          have htrailing : trailing (e :: rest) = trailing rest := trailing_append_cons he [] rest
          rw [htrailing, List.cons_append, ← hrest]
      | false =>
          cases e with
          | term _ _ | group _ _ _ => cases he
          | token _ _ => exact h.1.elim
          | operator o offset =>
              simp only [ready] at hs
              split at hs
              next => cases hs
              next hstart =>
                have hrest := isTerm_of_ready_eq_nil h.2 hs (Bool.eq_false_iff.mpr hstart)
                have hnone : rest.any Element.isTerm = false := by simpa using hrest
                exact ⟨[], by simp [trailing, hnone], by simp⟩

/-- The operators of a run with their offsets. -/
def operators : Sequence → List (Operator × Nat)
  | [] => []
  | .operator o offset :: rest => (o, offset) :: operators rest
  | _ :: rest => operators rest

theorem map_foci (before : List Element) (s : Sequence) :
    (foci before s).map (fun f => (f.operator, f.offset)) = operators s := by
  induction s generalizing before with
  | nil => rfl
  | cons e rest ih => cases e <;> simp [foci, operators, ih]

theorem operators_append_of_isTerm {s : Sequence} (h : ∀ e ∈ s, e.isTerm = true)
    (s' : Sequence) : operators (s ++ s') = operators s' := by
  induction s with
  | nil => rfl
  | cons e rest ih =>
      obtain ⟨he, hrest⟩ := List.forall_mem_cons.mp h
      cases e with
      | operator _ _ => cases he
      | term _ _ | group _ _ _ | token _ _ => exact ih hrest

private theorem soleTerm_of_terms {s : Sequence} (hs : s ≠ []) (h : ∀ e ∈ s, e.isTerm = true) :
    match junction? false s with
    | some offset => s.soleTerm = .error (.missingOperator offset)
    | none => ∃ t, s.soleTerm = .ok t := by
  cases s with
  | nil => exact absurd rfl hs
  | cons e rest =>
      obtain ⟨he, hrest⟩ := List.forall_mem_cons.mp h
      rw [junction?_of_isTerm he]
      cases rest with
      | nil =>
          obtain ⟨t, ht⟩ := Option.isSome_iff_exists.mp he
          simp [junction?, soleTerm, ht]
      | cons next rest =>
          rw [junction?_of_isTerm (hrest next List.mem_cons_self)]
          rfl

/-- The fault of a stuck run names, of its operators, the one whose turn it would be. -/
private theorem stuck_operator {s : Sequence} {f : Focus}
    (hf : Operator.first? Focus.operator (foci [] s) = some f) :
    ∃ before after, operators s = before ++ (f.operator, f.offset) :: after ∧
      (∀ q ∈ before, f.operator.overtakes q.1 = true) ∧
      ∀ q ∈ after, q.1.overtakes f.operator = false := by
  obtain ⟨fs, fs', hsplit, hbefore, hafter⟩ := Operator.first?_split hf
  refine ⟨fs.map fun f => (f.operator, f.offset), fs'.map fun f => (f.operator, f.offset), ?_,
    by simpa using hbefore, by simpa using hafter⟩
  rw [← map_foci [] s, hsplit, List.map_append, List.map_cons]

theorem condense_of_endsInTerm {s : Sequence} (h : Settled false s)
    (hs : endsInTerm false s = true) :
    match junction? false s with
    | some offset => s.condense = .error (.missingOperator offset)
    | none => ∃ t, s.condense = .ok t := by
  revert hs
  refine condense_induction
    (motive := fun s r => endsInTerm false s = true →
      match junction? false s with
      | some offset => r = .error (.missingOperator offset)
      | none => ∃ t, r = .ok t) ?_ ?_ ?_ s h
  · intro s hterms hs
    exact soleTerm_of_terms (by intro hnil; subst s; cases hs) hterms
  · intro s f hsettled hready hf hs
    obtain ⟨terms, hsplit, hterms⟩ := exists_terms_append_trailing hsettled hready
    have hne : s ≠ [] := by intro hnil; subst s; cases hs
    rw [(endsInTerm_iff_trailing hne false).mp hs] at hsplit
    obtain ⟨before, after, hops, _⟩ := stuck_operator hf
    rw [hsplit, operators_append_of_isTerm hterms] at hops
    simp [operators] at hops
  · intro s s' _ hreduces ih hs
    rw [← hreduces.junction?_eq]
    exact ih (by rw [hreduces.endsInTerm_eq, hs])

theorem condense_of_trailing {s : Sequence} (h : Settled false s) (hs : trailing s ≠ []) :
    ∃ before o offset after, operators (trailing s) = before ++ (o, offset) :: after ∧
      (∀ q ∈ before, o.overtakes q.1 = true) ∧ (∀ q ∈ after, q.1.overtakes o = false) ∧
      s.condense = .error (.missingOperand o.token.text offset) := by
  revert hs
  refine condense_induction
    (motive := fun s r => trailing s ≠ [] →
      ∃ before o offset after, operators (trailing s) = before ++ (o, offset) :: after ∧
        (∀ q ∈ before, o.overtakes q.1 = true) ∧ (∀ q ∈ after, q.1.overtakes o = false) ∧
        r = .error (.missingOperand o.token.text offset)) ?_ ?_ ?_ s h
  · intro s hterms hs
    exact absurd (trailing_of_terms hterms) hs
  · intro s f hsettled hready hf hs
    obtain ⟨terms, hsplit, hterms⟩ := exists_terms_append_trailing hsettled hready
    obtain ⟨before, after, hops, hbefore, hafter⟩ := stuck_operator hf
    rw [hsplit, operators_append_of_isTerm hterms] at hops
    exact ⟨before, f.operator, f.offset, after, hops, hbefore, hafter, rfl⟩
  · intro s s' _ hreduces ih hs
    rw [← hreduces.trailing_eq] at hs ⊢
    exact ih hs

end Sequence
end LineCalc

import LineCalc.Sequence.Condensation

/-!
Whose turn it is. Of several operators in reading order the tightest has its turn first; among
equally tight ones the last, if their kind groups from the right, and otherwise the first. Which of
the two it is depends on the rank alone, so the choice is a choice among ranks.
-/

namespace LineCalc
namespace Operator

theorem groupsRight_iff (o : Operator) : o.groupsRight = true ↔ 4 ≤ o.rank := by
  cases o with
  | unary u => cases u <;> decide
  | binary b => cases b <;> decide

theorem overtakes_iff (later earlier : Operator) :
    later.overtakes earlier = true ↔
      earlier.rank < later.rank ∨ earlier.rank = later.rank ∧ 4 ≤ later.rank := by
  simp [overtakes, groupsRight_iff]

theorem overtakes_eq_false_iff (later earlier : Operator) :
    later.overtakes earlier = false ↔
      later.rank ≤ earlier.rank ∧ (earlier.rank = later.rank → later.rank < 4) := by
  rw [← Bool.not_eq_true, overtakes_iff]
  omega

variable {α : Type} (operator : α → Operator)

/-- The winner of a choice from the left that starts with `best`. -/
private theorem foldl_prefer_split (xs : List α) (best : α) :
    ∃ before x after, xs.foldl (prefer operator) (some best) = some x ∧
      best :: xs = before ++ x :: after ∧
      (∀ y ∈ before, (operator x).overtakes (operator y) = true) ∧
      ∀ y ∈ after, (operator y).overtakes (operator x) = false := by
  induction xs generalizing best with
  | nil => exact ⟨[], best, [], rfl, rfl, by simp, by simp⟩
  | cons next xs ih =>
      cases h : (operator next).overtakes (operator best) with
      | true =>
          obtain ⟨before, x, after, hx, hsplit, hbefore, hafter⟩ := ih next
          refine ⟨best :: before, x, after, ?_, ?_, ?_, hafter⟩
          · simpa [prefer, h] using hx
          · rw [hsplit]; rfl
          · intro y hy
            cases List.mem_cons.mp hy with
            | inr hy => exact hbefore y hy
            | inl hy =>
                -- `best` lost to `next`, which is the winner or lost to it
                subst y
                cases before with
                | nil =>
                    cases hsplit
                    exact h
                | cons b before =>
                    cases hsplit
                    have hnext := hbefore next List.mem_cons_self
                    rw [overtakes_iff] at h hnext ⊢
                    omega
      | false =>
          obtain ⟨before, x, after, hx, hsplit, hbefore, hafter⟩ := ih best
          have hfold : (next :: xs).foldl (prefer operator) (some best) = some x := by
            simpa [prefer, h] using hx
          cases before with
          | nil =>
              cases hsplit
              exact ⟨[], best, next :: xs, hfold, rfl, by simp,
                List.forall_mem_cons.mpr ⟨h, hafter⟩⟩
          | cons b before =>
              cases hsplit
              refine ⟨best :: next :: before, x, after, hfold, rfl, ?_, hafter⟩
              have hbest := hbefore best List.mem_cons_self
              refine List.forall_mem_cons.mpr ⟨hbest, List.forall_mem_cons.mpr ⟨?_, ?_⟩⟩
              · rw [overtakes_eq_false_iff] at h
                rw [overtakes_iff] at hbest ⊢
                omega
              · exact fun y hy => hbefore y (List.mem_cons_of_mem _ hy)

theorem first?_eq_none (xs : List α) :
    first? operator xs = none ↔ xs = [] := by
  cases xs with
  | nil => simp [first?]
  | cons x xs =>
      obtain ⟨_, y, _, hy, _⟩ := foldl_prefer_split operator xs x
      simp [first?, prefer, hy]

variable {operator} in
/-- The one whose turn it is overtakes all before it and is overtaken by none after it. -/
theorem first?_split {xs : List α} {x : α} (h : first? operator xs = some x) :
    ∃ before after, xs = before ++ x :: after ∧
      (∀ y ∈ before, (operator x).overtakes (operator y) = true) ∧
      ∀ y ∈ after, (operator y).overtakes (operator x) = false := by
  cases xs with
  | nil => simp [first?] at h
  | cons y ys =>
      obtain ⟨before, z, after, hz, hsplit, hbefore, hafter⟩ :=
        foldl_prefer_split operator ys y
      have hx : first? operator (y :: ys) = some z := hz
      obtain rfl := Option.some.inj (hx.symm.trans h)
      exact ⟨before, after, hsplit, hbefore, hafter⟩

end Operator

namespace Operator

variable {α β : Type}

theorem first?_map (operator : β → Operator) (f : α → β) (xs : List α) :
    first? operator (xs.map f) = (first? (operator ∘ f) xs).map f := by
  have hfold (best : Option α) : (xs.map f).foldl (prefer operator) (best.map f) =
      (xs.foldl (prefer (operator ∘ f)) best).map f := by
    induction xs generalizing best with
    | nil => rfl
    | cons x xs ih =>
        have hprefer : prefer operator (best.map f) (f x) =
            (prefer (operator ∘ f) best x).map f := by
          cases best with
          | none => rfl
          | some best =>
              simp only [prefer, Option.map_some, Function.comp]
              split <;> rfl
        rw [List.map_cons, List.foldl_cons, List.foldl_cons, hprefer, ih]
  exact hfold none

/-- What becomes of the choice among those of which something becomes. -/
theorem first?_filterMap {operator : α → Operator} {operator' : β → Operator} {f : α → Option β}
    (keeps : ∀ x y, f x = some y → operator' y = operator x) (xs : List α) :
    first? operator' (xs.filterMap f) =
      (first? operator (xs.filter fun x => (f x).isSome)).bind f := by
  have hfold (best : Option α) (hbest : ∀ b ∈ best, (f b).isSome) :
      (xs.filterMap f).foldl (prefer operator') (best.bind f) =
        ((xs.filter fun x => (f x).isSome).foldl (prefer operator) best).bind f := by
    induction xs generalizing best with
    | nil => rfl
    | cons x xs ih =>
        cases hx : f x with
        | none => simpa [hx] using ih best hbest
        | some y =>
            have hprefer : prefer operator' (best.bind f) y = (prefer operator best x).bind f := by
              cases best with
              | none => exact hx.symm
              | some b =>
                  obtain ⟨y', hb⟩ := Option.isSome_iff_exists.mp (hbest b rfl)
                  simp only [prefer, Option.bind_some, hb, keeps x y hx, keeps b y' hb]
                  split
                  · exact hx.symm
                  · exact hb.symm
            have hsome : ∀ b ∈ prefer operator best x, (f b).isSome := by
              intro b hb
              cases best with
              | none =>
                  cases hb
                  simp [hx]
              | some best =>
                  cases hb
                  split
                  · simp [hx]
                  · exact hbest best rfl
            simpa [hx, hprefer] using ih (prefer operator best x) hsome
  refine hfold none ?_
  intro b hb
  cases hb

end Operator
end LineCalc

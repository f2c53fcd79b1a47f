import LineCalc.Proofs.Outcome

/-!
The outcome of a condensation as a statement about positions in a run of terms and tokens, before
anything is resolved or reduced. A misplaced token is found first, then an operator that lacks its
operand at the end of the run, then two operands with nothing between them; any other run condenses.
-/

namespace LineCalc
namespace Sequence

/-- Does a term stand directly before a position? -/
def followsTerm (s : Sequence) : Nat → Bool
  | 0 => false
  | i + 1 => (s[i]?.map Element.isTerm).getD false

/-- A token that can only stand behind a term stands elsewhere. -/
def Misplaced (s : Sequence) (i : Nat) : Prop :=
  followsTerm s i = false ∧
    ∃ t offset, s[i]? = some (.token t offset) ∧ t.isInfixOnly = true

/-- An operand begins directly behind a term. -/
def Junction (s : Sequence) (i : Nat) : Prop :=
  followsTerm s i = true ∧ ∃ e, s[i]? = some e ∧ e.startsOperand = true

/-- A position from which on there are only tokens. -/
def Dangling (s : Sequence) (i : Nat) : Prop :=
  i < s.length ∧ ∀ j, i ≤ j → j < s.length → ∃ t offset, s[j]? = some (.token t offset)

/-- The rank of the operator that a token is in its place. -/
def rankAt (s : Sequence) (i : Nat) : Nat :=
  match s[i]? with
  | some (.token t _) => (t.use (followsTerm s i)).rank
  | _ => 0

/-- Of the operators that end a run, the rightmost of the tightest. -/
structure Blocking (s : Sequence) (i : Nat) : Prop where
  dangling : Dangling s i
  greatest : ∀ j, Dangling s j → rankAt s j ≤ rankAt s i
  rightmost : ∀ j, i < j → Dangling s j → rankAt s j < rankAt s i

structure First (P : Nat → Prop) (i : Nat) : Prop where
  holds : P i
  least : ∀ j, j < i → ¬ P j

/-- The four ways in which a condensation can end. -/
inductive Outcome (s : Sequence) : Except Fault Term → Prop where
  | unexpectedOperator {i : Nat} {t : Token} {offset : Nat} (first : First (Misplaced s) i)
      (found : s[i]? = some (.token t offset)) :
      Outcome s (.error (.unexpectedOperator t.text offset))
  | missingOperand {i : Nat} {t : Token} {offset : Nat} (placed : ∀ i, ¬ Misplaced s i)
      (blocking : Blocking s i) (found : s[i]? = some (.token t offset)) :
      Outcome s (.error (.missingOperand t.text offset))
  | missingOperator {i : Nat} {e : Element} (placed : ∀ i, ¬ Misplaced s i)
      (closed : followsTerm s s.length = true) (first : First (Junction s) i)
      (found : s[i]? = some e) : Outcome s (.error (.missingOperator e.offset))
  | condensed {t : Term} (placed : ∀ i, ¬ Misplaced s i)
      (closed : followsTerm s s.length = true) (joined : ∀ i, ¬ Junction s i) :
      Outcome s (.ok t)

theorem First.unique {P : Nat → Prop} {i j : Nat} (hi : First P i) (hj : First P j) : i = j := by
  apply Nat.le_antisymm
  · exact Nat.le_of_not_lt fun hlt => hi.least j hlt hj.holds
  · exact Nat.le_of_not_lt fun hlt => hj.least i hlt hi.holds

theorem Blocking.unique {s : Sequence} {i j : Nat} (hi : Blocking s i) (hj : Blocking s j) :
    i = j := by
  apply Nat.le_antisymm
  · refine Nat.le_of_not_lt fun hlt => ?_
    exact Nat.not_le_of_lt (hj.rightmost i hlt hi.dangling) (hi.greatest j hj.dangling)
  · refine Nat.le_of_not_lt fun hlt => ?_
    exact Nat.not_le_of_lt (hi.rightmost j hlt hj.dangling) (hj.greatest i hi.dangling)

/-- A run that ends with an operator does not end with a term. -/
theorem Dangling.not_closed {s : Sequence} {i : Nat} (h : Dangling s i) :
    followsTerm s s.length = false := by
  obtain ⟨hlt, htokens⟩ := h
  obtain ⟨t, offset, ht⟩ := htokens (s.length - 1) (by omega) (by omega)
  have hlength : s.length = s.length - 1 + 1 := by omega
  rw [hlength, followsTerm, ht]
  rfl

/-- A run that is at fault has no other outcome. -/
theorem Outcome.eq_of_error {s : Sequence} {fault : Fault} {result : Except Fault Term}
    (h : Outcome s (.error fault)) (h' : Outcome s result) : result = .error fault := by
  cases h with
  | unexpectedOperator first found =>
      cases h' with
      | missingOperand placed | missingOperator placed | condensed placed =>
          exact absurd first.holds (placed _)
      | unexpectedOperator first' found' =>
          rw [first'.unique first, found] at found'
          cases found'
          rfl
  | missingOperand placed blocking found =>
      cases h' with
      | unexpectedOperator first => exact absurd first.holds (placed _)
      | missingOperator _ closed | condensed _ closed =>
          rw [blocking.dangling.not_closed] at closed
          cases closed
      | missingOperand _ blocking' found' =>
          rw [blocking'.unique blocking, found] at found'
          cases found'
          rfl
  | missingOperator placed closed first found =>
      cases h' with
      | unexpectedOperator first' => exact absurd first'.holds (placed _)
      | missingOperand _ blocking =>
          rw [blocking.dangling.not_closed] at closed
          cases closed
      | condensed _ _ joined => exact absurd first.holds (joined _)
      | missingOperator _ _ first' found' =>
          rw [first'.unique first, found] at found'
          cases found'
          rfl

theorem followsTerm_append {s : Sequence} {i : Nat} (hi : i ≤ s.length) (s' : Sequence) :
    followsTerm (s ++ s') i = followsTerm s i := by
  cases i with
  | zero => rfl
  | succ i => simp only [followsTerm, List.getElem?_append_left hi]

theorem followsTerm_length (s : Sequence) : followsTerm s s.length = endsInTerm false s := by
  cases List.eq_nil_or_concat s with
  | inl h => subst s; rfl
  | inr h =>
      obtain ⟨s, e, rfl⟩ := h
      simp [followsTerm, endsInTerm]

theorem followsTerm_length_append (s s' : Sequence) :
    followsTerm (s ++ s') s.length = endsInTerm false s := by
  rw [followsTerm_append (Nat.le_refl _), followsTerm_length]

theorem misplaced_append {s : Sequence} {i : Nat} (hi : i < s.length) (s' : Sequence) :
    Misplaced (s ++ s') i ↔ Misplaced s i := by
  simp only [Misplaced, followsTerm_append (Nat.le_of_lt hi), List.getElem?_append_left hi]

theorem junction_append {s : Sequence} {i : Nat} (hi : i < s.length) (s' : Sequence) :
    Junction (s ++ s') i ↔ Junction s i := by
  simp only [Junction, followsTerm_append (Nat.le_of_lt hi), List.getElem?_append_left hi]

theorem exists_append_of_getElem? {s : Sequence} {i : Nat} {e : Element} (h : s[i]? = some e) :
    ∃ pre post, s = pre ++ e :: post ∧ pre.length = i := by
  obtain ⟨hi, he⟩ := List.getElem?_eq_some_iff.mp h
  refine ⟨s.take i, s.drop (i + 1), ?_, by simp; omega⟩
  rw [← he, ← List.drop_eq_getElem_cons hi, List.take_append_drop]

private theorem exists_of_misplaced? {afterTerm : Bool} {s : Sequence}
    (unresolved : ∀ e ∈ s, e.isResolved = false) {t : Token} {offset : Nat}
    (h : misplaced? afterTerm s = some (t, offset)) :
    ∃ pre post, s = pre ++ .token t offset :: post ∧ t.isInfixOnly = true ∧
      endsInTerm afterTerm pre = false ∧ misplaced? afterTerm pre = none := by
  induction s generalizing afterTerm with
  | nil => cases h
  | cons e rest ih =>
      obtain ⟨he, hrest⟩ := List.forall_mem_cons.mp unresolved
      simp only [misplaced?] at h
      cases hm : e.misplaced? afterTerm with
      | some found =>
          rw [hm] at h
          cases h
          cases e with
          | operator _ _ => cases he
          | term _ _ | group _ _ _ => cases hm
          | token t' offset' =>
              simp only [Element.misplaced?, Option.ite_none_right_eq_some, Bool.and_eq_true,
                Bool.not_eq_true', Option.some.injEq, Prod.mk.injEq] at hm
              obtain ⟨⟨hbetween, hafter⟩, rfl, rfl⟩ := hm
              exact ⟨[], rest, rfl, hbetween, hafter, rfl⟩
      | none =>
          rw [hm] at h
          obtain ⟨pre, post, rfl, hbetween, hafter, hpre⟩ := ih hrest h
          exact ⟨e :: pre, post, rfl, hbetween, hafter, by simpa [misplaced?, hm] using hpre⟩

private theorem misplaced_length {pre post : Sequence} {t : Token} {offset : Nat}
    (hbetween : t.isInfixOnly = true) (hafter : endsInTerm false pre = false) :
    Misplaced (pre ++ .token t offset :: post) pre.length :=
  ⟨by rw [followsTerm_length_append, hafter], t, offset, by simp, hbetween⟩

private theorem misplaced?_eq_none_iff {s : Sequence}
    (unresolved : ∀ e ∈ s, e.isResolved = false) :
    misplaced? false s = none ↔ ∀ i, ¬ Misplaced s i := by
  constructor
  · intro h i hi
    obtain ⟨hafter, t, offset, ht, hbetween⟩ := hi
    obtain ⟨pre, post, rfl, rfl⟩ := exists_append_of_getElem? ht
    rw [followsTerm_length_append] at hafter
    simp [misplaced?_append, misplaced?, Element.misplaced?, hafter, hbetween] at h
  · intro h
    cases hm : misplaced? false s with
    | none => rfl
    | some found =>
        obtain ⟨pre, post, rfl, hbetween, hafter, _⟩ := exists_of_misplaced? unresolved hm
        exact absurd (misplaced_length hbetween hafter) (h pre.length)

private theorem exists_of_junction? {afterTerm : Bool} {s : Sequence} {offset : Nat}
    (h : junction? afterTerm s = some offset) :
    ∃ pre e post, s = pre ++ e :: post ∧ e.startsOperand = true ∧ e.offset = offset ∧
      endsInTerm afterTerm pre = true ∧ junction? afterTerm pre = none := by
  induction s generalizing afterTerm with
  | nil => cases h
  | cons e rest ih =>
      simp only [junction?] at h
      split at h
      next hfound =>
        obtain ⟨hafter, hstarts⟩ := Bool.and_eq_true_iff.mp hfound
        exact ⟨[], e, rest, rfl, hstarts, Option.some.inj h, hafter, rfl⟩
      next hnot =>
        obtain ⟨pre, e', post, rfl, hstarts, hoffset, hafter, hpre⟩ := ih h
        exact ⟨e :: pre, e', post, rfl, hstarts, hoffset, hafter,
          by simpa [junction?, hnot] using hpre⟩

private theorem junction_length {pre post : Sequence} {e : Element}
    (hstarts : e.startsOperand = true) (hafter : endsInTerm false pre = true) :
    Junction (pre ++ e :: post) pre.length :=
  ⟨by rw [followsTerm_length_append, hafter], e, by simp, hstarts⟩

private theorem junction?_eq_none_iff (s : Sequence) :
    junction? false s = none ↔ ∀ i, ¬ Junction s i := by
  constructor
  · intro h i hi
    obtain ⟨hafter, e, he, hstarts⟩ := hi
    obtain ⟨pre, post, rfl, rfl⟩ := exists_append_of_getElem? he
    rw [followsTerm_length_append] at hafter
    simp [junction?_append, junction?, hafter, hstarts] at h
  · intro h
    cases hj : junction? false s with
    | none => rfl
    | some offset =>
        obtain ⟨pre, e, post, rfl, hstarts, _, hafter, _⟩ := exists_of_junction? hj
        exact absurd (junction_length hstarts hafter) (h pre.length)

private theorem length_operators_settle {run : Sequence}
    (h : ∀ e ∈ run, ∃ t offset, e = .token t offset) (afterTerm : Bool) :
    (operators (settle afterTerm run)).length = run.length := by
  induction run generalizing afterTerm with
  | nil => rfl
  | cons e rest ih =>
      obtain ⟨⟨t, offset, rfl⟩, hrest⟩ := List.forall_mem_cons.mp h
      simp only [settle, Element.settle, operators, List.length_cons, ih hrest]

/-- In a run of tokens only the first can follow a term. -/
private theorem getElem?_operators_settle {run : Sequence}
    (h : ∀ e ∈ run, ∃ t offset, e = .token t offset) (afterTerm : Bool) {k : Nat} {t : Token}
    {offset : Nat} (hk : run[k]? = some (.token t offset)) :
    (operators (settle afterTerm run))[k]? =
      some (t.use (if k = 0 then afterTerm else false), offset) := by
  induction run generalizing afterTerm k with
  | nil => cases hk
  | cons e rest ih =>
      obtain ⟨⟨t', offset', rfl⟩, hrest⟩ := List.forall_mem_cons.mp h
      cases k with
      | zero =>
          cases hk
          rfl
      | succ k =>
          have := ih hrest false hk
          simpa [settle, Element.settle, operators] using this

private theorem followsTerm_length_add {front run : Sequence}
    (h : ∀ e ∈ run, ∃ t offset, e = .token t offset) (k : Nat) (hk : k < run.length) :
    followsTerm (front ++ run) (front.length + k) =
      if k = 0 then endsInTerm false front else false := by
  cases k with
  | zero => simpa using followsTerm_length_append front run
  | succ k =>
      obtain ⟨t, offset, ht⟩ := h run[k] (List.getElem_mem (by omega))
      have hget : (front ++ run)[front.length + k]? = some (.token t offset) := by
        rw [List.getElem?_append_right (by omega), Nat.add_sub_cancel_left,
          List.getElem?_eq_getElem (by omega), ht]
      simp [followsTerm, hget]

private theorem rankAt_length_add {front run : Sequence}
    (h : ∀ e ∈ run, ∃ t offset, e = .token t offset) {k : Nat} {q : Operator × Nat}
    (hk : (operators (settle (endsInTerm false front) run))[k]? = some q) :
    rankAt (front ++ run) (front.length + k) = q.1.rank := by
  obtain ⟨hlt, _⟩ := List.getElem?_eq_some_iff.mp hk
  rw [length_operators_settle h] at hlt
  obtain ⟨t, offset, ht⟩ := h run[k] (List.getElem_mem hlt)
  have hrun : run[k]? = some (.token t offset) := by rw [List.getElem?_eq_getElem hlt, ht]
  have hget : (front ++ run)[front.length + k]? = some (.token t offset) := by
    rw [List.getElem?_append_right (by omega), Nat.add_sub_cancel_left, hrun]
  have hq := getElem?_operators_settle h (endsInTerm false front) hrun
  obtain rfl := Option.some.inj (hk.symm.trans hq)
  simp only [rankAt, hget, followsTerm_length_add h k hlt]

private theorem dangling_iff {front run : Sequence}
    (h : ∀ e ∈ run, ∃ t offset, e = .token t offset)
    (hfront : front = [] ∨ endsInTerm false front = true) (i : Nat) :
    Dangling (front ++ run) i ↔ ∃ k, k < run.length ∧ i = front.length + k := by
  constructor
  · intro hi
    obtain ⟨hlt, htokens⟩ := hi
    rw [List.length_append] at hlt htokens
    by_cases hle : front.length ≤ i
    · exact ⟨i - front.length, by omega, by omega⟩
    · -- the term at the end of the front part is no token
      cases hfront with
      | inl hnil => simp [hnil] at hle
      | inr hends =>
          obtain ⟨front, e, rfl, he⟩ := endsInTerm_iff_exists.mp hends
          simp only [List.length_append, List.length_singleton] at hle htokens
          obtain ⟨t, offset, ht⟩ := htokens front.length (by omega) (by omega)
          simp at ht
          rw [ht] at he
          cases he
  · intro hi
    obtain ⟨k, hk, rfl⟩ := hi
    refine ⟨by rw [List.length_append]; omega, ?_⟩
    intro j hj hlt
    rw [List.length_append] at hlt
    obtain ⟨t, offset, ht⟩ := h run[j - front.length] (List.getElem_mem (by omega))
    refine ⟨t, offset, ?_⟩
    rw [List.getElem?_append_right (by omega), List.getElem?_eq_getElem (by omega), ht]

private theorem four_le_rank_use_false {t : Token} (h : t.isInfixOnly = false) :
    4 ≤ (t.use false).rank := by
  cases t with
  | ln | log | plus | minus => decide
  | caret | star | slash | percent | mod => cases h

/-- Behind the first token of a run that ends a sequence there are only prefix operators. -/
private theorem four_le_rank_of_later {front run : Sequence}
    (h : ∀ e ∈ run, ∃ t offset, e = .token t offset) (placed : ∀ i, ¬ Misplaced (front ++ run) i)
    {k : Nat} {q : Operator × Nat}
    (hk : (operators (settle (endsInTerm false front) run))[k + 1]? = some q) : 4 ≤ q.1.rank := by
  obtain ⟨hlt, _⟩ := List.getElem?_eq_some_iff.mp hk
  rw [length_operators_settle h] at hlt
  obtain ⟨t, offset, ht⟩ := h run[k + 1] (List.getElem_mem hlt)
  have hrun : run[k + 1]? = some (.token t offset) := by rw [List.getElem?_eq_getElem hlt, ht]
  have hq := getElem?_operators_settle h (endsInTerm false front) hrun
  obtain rfl := Option.some.inj (hk.symm.trans hq)
  refine four_le_rank_use_false (Bool.eq_false_iff.mpr ?_)
  intro hbetween
  refine placed (front.length + (k + 1)) ⟨?_, t, offset, ?_, hbetween⟩
  · rw [followsTerm_length_add h (k + 1) hlt, if_neg (Nat.succ_ne_zero k)]
  · rw [List.getElem?_append_right (by omega), Nat.add_sub_cancel_left, hrun]

/-- The operator whose turn it is has the greatest rank. -/
private theorem rank_le_of_turn {before after : List (Operator × Nat)} {o : Operator}
    {offset : Nat} (hbefore : ∀ q ∈ before, o.overtakes q.1 = true)
    (hafter : ∀ q ∈ after, q.1.overtakes o = false) :
    ∀ q ∈ before ++ (o, offset) :: after, q.1.rank ≤ o.rank := by
  intro q hq
  cases List.mem_append.mp hq with
  | inl hq =>
      have hturn := (Operator.overtakes_iff _ _).mp (hbefore q hq)
      omega
  | inr hq =>
      cases List.mem_cons.mp hq with
      | inl hq => exact hq ▸ Nat.le_refl _
      | inr hq => exact ((Operator.overtakes_eq_false_iff _ _).mp (hafter q hq)).1

/-- The operator whose turn it is among those that end a run is the one that blocks it. -/
private theorem blocking_of_turn {front run : Sequence}
    (h : ∀ e ∈ run, ∃ t offset, e = .token t offset)
    (hfront : front = [] ∨ endsInTerm false front = true)
    (placed : ∀ i, ¬ Misplaced (front ++ run) i) {before after : List (Operator × Nat)}
    {o : Operator} {offset : Nat}
    (hops : operators (settle (endsInTerm false front) run) = before ++ (o, offset) :: after)
    (hbefore : ∀ q ∈ before, o.overtakes q.1 = true)
    (hafter : ∀ q ∈ after, q.1.overtakes o = false) :
    Blocking (front ++ run) (front.length + before.length) := by
  have hlength := length_operators_settle h (endsInTerm false front)
  rw [hops, List.length_append, List.length_cons] at hlength
  have hrank {k : Nat} {q : Operator × Nat} (hk : (before ++ (o, offset) :: after)[k]? = some q) :
      rankAt (front ++ run) (front.length + k) = q.1.rank :=
    rankAt_length_add h (by rw [hops, hk])
  have hblocking : (before ++ (o, offset) :: after)[before.length]? = some (o, offset) := by simp
  refine ⟨(dangling_iff h hfront _).mpr ⟨before.length, by omega, rfl⟩, ?_, ?_⟩
  · intro j hj
    obtain ⟨k, hk, rfl⟩ := (dangling_iff h hfront j).mp hj
    have hget := List.getElem?_eq_getElem
      (show k < (before ++ (o, offset) :: after).length by
        rw [List.length_append, List.length_cons]
        omega)
    rw [hrank hblocking, hrank hget]
    exact rank_le_of_turn hbefore hafter _ (List.getElem_mem _)
  · intro j hij hj
    obtain ⟨k, hk, rfl⟩ := (dangling_iff h hfront j).mp hj
    obtain ⟨n, rfl⟩ : ∃ n, k = before.length + n + 1 := ⟨k - (before.length + 1), by omega⟩
    have hn : n < after.length := by omega
    have hget : (before ++ (o, offset) :: after)[before.length + n + 1]? = some after[n] := by
      rw [List.getElem?_append_right (by omega), Nat.add_assoc, Nat.add_sub_cancel_left,
        List.getElem?_cons_succ, List.getElem?_eq_getElem hn]
    -- an equally tight prefix operator further right would have its turn first
    have hfour := four_le_rank_of_later h placed (hops ▸ hget)
    have hturn := (Operator.overtakes_eq_false_iff _ _).mp
      (hafter after[n] (List.getElem_mem hn))
    rw [hrank hblocking, hrank hget]
    change after[n].1.rank < o.rank
    omega

private theorem token_of_mem_trailing {s : Sequence} (unresolved : ∀ e ∈ s, e.isResolved = false)
    {e : Element} (mem : e ∈ s) (h : e.isTerm = false) : ∃ t offset, e = .token t offset := by
  have hresolved := unresolved e mem
  cases e with
  | term _ _ | group _ _ _ => cases h
  | operator _ _ => cases hresolved
  | token t offset => exact ⟨t, offset, rfl⟩

private theorem trailing_settle {front run : Sequence}
    (hfront : front = [] ∨ endsInTerm false front = true) (hrun : ∀ e ∈ run, e.isTerm = false) :
    trailing (settle false (front ++ run)) = settle (endsInTerm false front) run := by
  rw [settle_append]
  apply trailing_append
  · cases hfront with
    | inl h => exact .inl (by rw [h]; rfl)
    | inr h => exact .inr (by rw [endsInTerm_settle, h])
  · intro e he
    have hmem := List.mem_map_of_mem (f := Element.isTerm) he
    rw [map_isTerm_settle] at hmem
    obtain ⟨e', he', heq⟩ := List.mem_map.mp hmem
    rw [← heq, hrun e' he']

/-- The condensation of a run that ends with an operator. -/
private theorem outcome_of_dangling {s : Sequence} (unresolved : ∀ e ∈ s, e.isResolved = false)
    (placed : ∀ i, ¬ Misplaced s i) (hs : s ≠ []) (hend : endsInTerm false s = false) :
    Outcome s (settle false s).condense := by
  have hne : trailing s ≠ [] := by
    intro hnil
    rw [(endsInTerm_iff_trailing hs false).mpr hnil] at hend
    cases hend
  have hsettled := settled_settle ((misplaced?_eq_none_iff unresolved).mpr placed)
  obtain ⟨front, hsplit, hfront, hrun⟩ := exists_append_trailing s
  generalize trailing s = run at hsplit hrun hne
  subst hsplit
  have htokens : ∀ e ∈ run, ∃ t offset, e = .token t offset := fun e he =>
    token_of_mem_trailing unresolved (List.mem_append_right front he) (hrun e he)
  have hlength := length_operators_settle htokens (endsInTerm false front)
  have htrailing := trailing_settle hfront hrun
  obtain ⟨before, o, offset, after, hops, hbefore, hafter, hcondense⟩ :=
    condense_of_trailing hsettled (by
      rw [htrailing]
      intro hnil
      rw [hnil] at hlength
      exact hne (List.length_eq_zero_iff.mp hlength.symm))
  rw [htrailing] at hops
  rw [hops, List.length_append, List.length_cons] at hlength
  -- the blocking operator is the use of the token in its place
  obtain ⟨t, offset', ht⟩ := htokens run[before.length] (List.getElem_mem (by omega))
  have hget : run[before.length]? = some (.token t offset') := by
    rw [List.getElem?_eq_getElem (by omega), ht]
  have huse := getElem?_operators_settle htokens (endsInTerm false front) hget
  rw [hops, List.getElem?_append_right (Nat.le_refl _), Nat.sub_self,
    List.getElem?_cons_zero] at huse
  obtain ⟨ho, rfl⟩ := Prod.mk.inj (Option.some.inj huse)
  have hfound : (front ++ run)[front.length + before.length]? = some (.token t offset) := by
    rw [List.getElem?_append_right (by omega), Nat.add_sub_cancel_left, hget]
  have hblocking := blocking_of_turn htokens hfront placed hops hbefore hafter
  have hresult := Outcome.missingOperand placed hblocking hfound
  rw [hcondense, ho, Token.token_use]
  exact hresult

/-- The condensation of a run in which a token cannot be used. -/
private theorem outcome_of_misplaced {s : Sequence} (unresolved : ∀ e ∈ s, e.isResolved = false)
    {t : Token} {offset : Nat} (hm : misplaced? false s = some (t, offset)) :
    Outcome s (.error (.unexpectedOperator t.text offset)) := by
  obtain ⟨pre, post, rfl, hbetween, hafter, hpre⟩ := exists_of_misplaced? unresolved hm
  refine .unexpectedOperator ⟨misplaced_length hbetween hafter, ?_⟩ (by simp)
  intro j hj
  rw [misplaced_append hj]
  have hunresolved : ∀ e ∈ pre, e.isResolved = false :=
    fun e he => unresolved e (List.mem_append_left _ he)
  exact (misplaced?_eq_none_iff hunresolved).mp hpre j

/-- The condensation of a run that ends with a term. -/
private theorem outcome_of_closed {s : Sequence} (unresolved : ∀ e ∈ s, e.isResolved = false)
    (hm : misplaced? false s = none) (hend : endsInTerm false s = true) :
    Outcome s (settle false s).condense := by
  have placed := (misplaced?_eq_none_iff unresolved).mp hm
  have closed : followsTerm s s.length = true := by rw [followsTerm_length, hend]
  have hresult := condense_of_endsInTerm (settled_settle hm)
    (by rw [endsInTerm_settle, hend])
  rw [junction?_settle] at hresult
  cases hj : junction? false s with
  | none =>
      rw [hj] at hresult
      obtain ⟨t, ht⟩ := hresult
      simp only [ht]
      exact .condensed placed closed ((junction?_eq_none_iff s).mp hj)
  | some offset =>
      rw [hj] at hresult
      obtain ⟨pre, e, post, rfl, hstarts, rfl, hafter, hpre⟩ := exists_of_junction? hj
      simp only [hresult]
      refine .missingOperator placed closed ⟨junction_length hstarts hafter, ?_⟩ (by simp)
      intro j hj
      rw [junction_append hj]
      exact (junction?_eq_none_iff pre).mp hpre j

theorem outcome_of_unresolved {s : Sequence} (nonempty : s ≠ [])
    (unresolved : ∀ e ∈ s, e.isResolved = false) : Outcome s s.condense := by
  rw [condense_eq]
  cases hm : misplaced? false s with
  | some found => exact outcome_of_misplaced unresolved hm
  | none =>
      cases hend : endsInTerm false s with
      | true => exact outcome_of_closed unresolved hm hend
      | false =>
          have placed := (misplaced?_eq_none_iff unresolved).mp hm
          exact outcome_of_dangling unresolved placed nonempty hend

/-- A condensation ends as the run itself tells, and where the run tells of a fault, with that
fault. -/
theorem condense_outcome (s : Sequence) (nonempty : s ≠ [])
    (unresolved : ∀ e ∈ s, e.isResolved = false) :
    Outcome s s.condense ∧ ∀ fault, Outcome s (.error fault) → s.condense = .error fault := by
  have houtcome := outcome_of_unresolved nonempty unresolved
  exact ⟨houtcome, fun _ h => h.eq_of_error houtcome⟩

theorem condense_outcome_dangling :
    [Element.term (.constant .e) 0, .token .minus 1, .token .ln 2] ≠ [] ∧
      Outcome [.term (.constant .e) 0, .token .minus 1, .token .ln 2]
        (condense [.term (.constant .e) 0, .token .minus 1, .token .ln 2]) :=
  ⟨by simp, (condense_outcome _ (by simp) (by simp [Element.isResolved])).1⟩

end Sequence
end LineCalc

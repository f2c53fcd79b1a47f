import LineCalc.Proofs.InOrder

/-!
Bare powers that become the base of another power, in a row of operands and operators. A `^` that
waits for a prefix operator in its exponent can be overtaken by a `^` further left, because a sign
binds less tightly. Whether that happens, and to which powers, can be told before the first merge,
and no merge changes the answer as long as no function stands directly before a power.
-/

namespace LineCalc

namespace UnaryOp

/-- A sign, and not the name of a function. -/
def isSign : UnaryOp → Bool
  | .plus | .minus => true
  | .ln | .log => false

theorem rank_eq (u : UnaryOp) : (Operator.unary u).rank = if u.isSign then 4 else 6 := by
  cases u <;> rfl

end UnaryOp

namespace BinaryOp

theorem eq_pow_of_rank {o : BinaryOp} (h : 4 < (Operator.binary o).rank) : o = .pow := by
  cases o <;> first | rfl | exact absurd h (by decide)

end BinaryOp

namespace Term

def isPower : Term → Bool
  | .binary .pow _ _ => true
  | _ => false

/-- Does a bare power stand as the base of another anywhere in the tree? -/
def hasLeftPower : Term → Bool
  | .numeral _ | .constant _ => false
  | .grouping t => t.hasLeftPower
  | .unary _ t => t.hasLeftPower
  | .binary o l r => (decide (o = .pow) && l.isPower) || l.hasLeftPower || r.hasLeftPower

theorem isPower_of_isLeaf {t : Term} (h : t.isLeaf = true) : t.isPower = false := by
  cases t with
  | numeral _ | constant _ | grouping _ => rfl
  | unary _ _ | binary _ _ _ => cases h

@[simp]
theorem isPower_unary (u : UnaryOp) (t : Term) : (Term.unary u t).isPower = false := rfl

@[simp]
theorem isPower_binary (o : BinaryOp) (l r : Term) :
    (Term.binary o l r).isPower = decide (o = .pow) := by
  cases o <;> rfl

end Term

namespace Piece

def startsWithPower : List Piece → Bool
  | [] => false
  | p :: _ => decide (p = .operator (.binary .pow))

/-- Is there a sign among the operators at the start? -/
def blocked : List Piece → Bool
  | .operator (.unary u) :: rest => u.isSign || blocked rest
  | .operator (.binary _) :: rest => blocked rest
  | _ => false

/-- Does an operand under functions stand at the start, as the base of a blocked power? -/
def blockedBase : List Piece → Bool
  | .operator (.unary u) :: rest => !u.isSign && blockedBase rest
  | .operand _ :: rest => startsWithPower rest && blocked rest
  | _ => false

/-- Has a power become the base of another, or is it bound to? -/
def doomed : List Piece → Bool
  | [] => false
  | .operand t :: rest => t.hasLeftPower || (t.isPower && startsWithPower rest) || doomed rest
  | .operator o :: rest => (decide (o = .binary .pow) && blockedBase rest) || doomed rest

def startsWithPowerOperand : List Piece → Bool
  | .operand t :: _ => t.isPower
  | _ => false

/-- No function stands directly before a power. -/
def FunctionsBind : List Piece → Prop
  | [] => True
  | .operator (.unary u) :: rest =>
      (u.isSign = true ∨ startsWithPowerOperand rest = false) ∧ FunctionsBind rest
  | _ :: rest => FunctionsBind rest

theorem ready_subset_cons (p : Piece) (ps : List Piece) : ready ps ⊆ ready (p :: ps) := by
  cases p with
  | operand _ => exact List.Subset.refl _
  | operator o =>
      simp only [ready]
      split
      next => exact List.subset_cons_self o _
      next => exact List.Subset.refl _

/-- Where an operand is to come, it is there or a unary operator is ready to make it. -/
theorem exists_ready_of_formed {ps : List Piece} (h : Formed false ps true) :
    startsWithOperand ps = true ∨
      ∃ u, .unary u ∈ ready ps ∧ (u.isSign = true → blocked ps = true) := by
  induction ps with
  | nil => cases h
  | cons p rest ih =>
      cases p with
      | operand _ => exact .inl rfl
      | operator o =>
          cases o with
          | binary _ => cases h.1
          | unary u =>
              refine .inr ?_
              cases ih h.2 with
              | inl hstart => exact ⟨u, by simp [ready, hstart], by simp +contextual [blocked]⟩
              | inr hready =>
                  obtain ⟨v, hv, hsign⟩ := hready
                  refine ⟨v, ready_subset_cons _ _ hv, ?_⟩
                  intro h
                  simp [blocked, hsign h]

/-- An operator whose turn comes before all those behind it, a power first of all, is at least as
tight as a power, and is a power itself only if the one behind it is blocked. -/
theorem rank_of_turn_before_power {ps : List Piece} {o : Operator} (formed : Formed true ps true)
    (start : startsWithPower ps = true) (after : ∀ e ∈ ready ps, e.overtakes o = false) :
    4 < o.rank ∧ (o = .binary .pow → blocked ps = true) := by
  obtain ⟨rest, rfl⟩ : ∃ rest, ps = .operator (.binary .pow) :: rest := by
    cases ps with
    | nil => cases start
    | cons p rest => exact ⟨rest, by rw [of_decide_eq_true start]⟩
  cases exists_ready_of_formed formed.2 with
  | inl hstart =>
      -- the power behind is ready, and would have its turn before another
      have hpow := (Operator.overtakes_eq_false_iff _ _).mp
        (after (.binary .pow) (by simp [ready, hstart]))
      have hrank : (Operator.binary .pow).rank = 5 := rfl
      refine ⟨by omega, ?_⟩
      intro ho
      subst ho
      omega
  | inr hready =>
      obtain ⟨u, hu, hsign⟩ := hready
      have hturn := (Operator.overtakes_eq_false_iff _ _).mp
        (after (.unary u) (ready_subset_cons _ _ hu))
      rw [u.rank_eq] at hturn
      cases hs : u.isSign with
      | true =>
          simp only [hs, if_true] at hturn
          refine ⟨by omega, ?_⟩
          intro _
          exact hsign hs
      | false =>
          simp only [hs, Bool.false_eq_true, if_false] at hturn
          refine ⟨by omega, ?_⟩
          intro ho
          have hrank : (Operator.binary .pow).rank = 5 := rfl
          subst ho
          omega

theorem startsWithPower_cons (p : Piece) (ps : List Piece) :
    startsWithPower (p :: ps) = decide (p = .operator (.binary .pow)) := rfl

theorem startsWithPower_append_congr (pre : List Piece) {ps ps' : List Piece}
    (h : startsWithPower ps = startsWithPower ps') :
    startsWithPower (pre ++ ps) = startsWithPower (pre ++ ps') := by
  cases pre with
  | nil => exact h
  | cons p pre => simp only [List.cons_append, startsWithPower]

theorem blocked_append_congr (pre : List Piece) {ps ps' : List Piece}
    (h : blocked ps = blocked ps') : blocked (pre ++ ps) = blocked (pre ++ ps') := by
  induction pre with
  | nil => exact h
  | cons p pre ih =>
      cases p with
      | operand _ => rfl
      | operator o => cases o <;> simp [blocked, ih]

/-- Behind an operand only the start of what follows matters. -/
theorem blockedBase_operand_congr (t : Term) (pre : List Piece) {ps ps' : List Piece}
    (start : startsWithPower ps = startsWithPower ps') (block : blocked ps = blocked ps') :
    blockedBase (.operand t :: (pre ++ ps)) = blockedBase (.operand t :: (pre ++ ps')) := by
  simp only [blockedBase, startsWithPower_append_congr pre start, blocked_append_congr pre block]

private theorem blockedBase_unary {pre post : List Piece} {t : Term} {u : UnaryOp} {o : Operator}
    (tight : 5 ≤ o.rank) (formed : Formed true post true)
    (before : ∀ e ∈ ready (.operator o :: pre), (Operator.unary u).overtakes e = true)
    (after : ∀ e ∈ ready post, e.overtakes (.unary u) = false) :
    blockedBase (pre ++ .operator (.unary u) :: .operand t :: post) =
      blockedBase (pre ++ .operand (.unary u t) :: post) := by
  induction pre generalizing o with
  | nil =>
      cases hs : u.isSign with
      | false => simp [blockedBase, hs]
      | true =>
          -- a sign has no turn before a power
          have hnot : startsWithPower post = false := by
            apply Bool.eq_false_iff.mpr
            intro hstart
            have hrank := (rank_of_turn_before_power formed hstart after).1
            simp [u.rank_eq, hs] at hrank
          simp [blockedBase, hs, hnot]
  | cons p pre ih =>
      cases p with
      | operator o' =>
          cases o' with
          | binary _ => rfl
          | unary v =>
              cases hv : v.isSign with
              | true => simp [blockedBase, hv]
              | false =>
                  have htight : 5 ≤ (Operator.unary v).rank := by simp [v.rank_eq, hv]
                  have hpre := ih htight fun e he => before e (ready_subset_cons _ _ he)
                  simpa [blockedBase, hv] using hpre
      | operand a =>
          -- the operator before is ready, so the one that overtakes it is a function
          have hturn := (Operator.overtakes_iff _ _).mp
            (before o (by simp [ready, startsWithOperand]))
          have hs : u.isSign = false := by
            apply Bool.eq_false_iff.mpr
            intro hs
            simp only [u.rank_eq, hs, if_true] at hturn
            omega
          apply blockedBase_operand_congr a pre
          · rfl
          · simp [blocked, hs]

private theorem doomed_unary {pre post : List Piece} {t : Term} {u : UnaryOp}
    (formed : Formed true post true)
    (bind : FunctionsBind (pre ++ .operator (.unary u) :: .operand t :: post))
    (before : ∀ e ∈ ready pre, (Operator.unary u).overtakes e = true)
    (after : ∀ e ∈ ready post, e.overtakes (.unary u) = false) :
    doomed (pre ++ .operator (.unary u) :: .operand t :: post) =
      doomed (pre ++ .operand (.unary u t) :: post) := by
  induction pre with
  | nil =>
      have hnot : (t.isPower && startsWithPower post) = false := by
        apply Bool.eq_false_iff.mpr
        intro hpower
        obtain ⟨ht, hstart⟩ := Bool.and_eq_true_iff.mp hpower
        have hrank := (rank_of_turn_before_power formed hstart after).1
        cases bind.1 with
        | inl hs => simp [u.rank_eq, hs] at hrank
        | inr hnot => simp [startsWithPowerOperand, ht] at hnot
      simp [doomed, hnot, Term.hasLeftPower]
  | cons p pre ih =>
      have hbind : FunctionsBind (pre ++ .operator (.unary u) :: .operand t :: post) := by
        cases p with
        | operand _ => exact bind
        | operator o => cases o with
          | unary _ => exact bind.2
          | binary _ => exact bind
      have hpre := ih hbind fun e he => before e (ready_subset_cons _ _ he)
      cases p with
      | operand a =>
          have hstart : startsWithPower (pre ++ .operator (.unary u) :: .operand t :: post) =
              startsWithPower (pre ++ .operand (.unary u t) :: post) :=
            startsWithPower_append_congr pre rfl
          simp only [List.cons_append, doomed, hpre, hstart]
      | operator o =>
          simp only [List.cons_append, doomed, hpre]
          by_cases ho : o = .binary .pow
          · have hrank : 5 ≤ o.rank := by rw [ho]; decide
            rw [blockedBase_unary hrank formed before after]
          · simp [ho]

private theorem blockedBase_binary {pre post : List Piece} {a b : Term} {o : BinaryOp}
    (h : blockedBase (pre ++ .operand (.binary o a b) :: post) = true) :
    blockedBase (pre ++ .operand a :: .operator (.binary o) :: .operand b :: post) = true ∨
      startsWithPower post = true ∧ blocked post = true := by
  induction pre with
  | nil => exact .inr (Bool.and_eq_true_iff.mp h)
  | cons p pre ih =>
      cases p with
      | operator o' =>
          cases o' with
          | binary _ => cases h
          | unary v =>
              obtain ⟨hv, hbase⟩ := Bool.and_eq_true_iff.mp h
              cases ih hbase with
              | inl hbase => exact .inl (Bool.and_eq_true_iff.mpr ⟨hv, hbase⟩)
              | inr hpost => exact .inr hpost
      | operand a' =>
          refine .inl ?_
          rw [← h]
          exact blockedBase_operand_congr a' pre rfl rfl

private theorem blockedBase_of_binary {pre post : List Piece} {a b : Term} {o : BinaryOp}
    (h : blockedBase (pre ++ .operand a :: .operator (.binary o) :: .operand b :: post) = true) :
    blockedBase (pre ++ .operand (.binary o a b) :: post) = true := by
  induction pre with
  | nil => simp [blockedBase, blocked] at h
  | cons p pre ih =>
      cases p with
      | operator o' =>
          cases o' with
          | binary _ => cases h
          | unary v =>
              obtain ⟨hv, hbase⟩ := Bool.and_eq_true_iff.mp h
              exact Bool.and_eq_true_iff.mpr ⟨hv, ih hbase⟩
      | operand a' =>
          rw [← h]
          exact blockedBase_operand_congr a' pre rfl rfl

/-- What the merge of a binary operator does to the fate of the operator and what follows it. -/
private theorem doomed_binary_head {post : List Piece} {a b : Term} {o : BinaryOp}
    (formed : Formed true post true)
    (after : ∀ e ∈ ready post, e.overtakes (.binary o) = false) :
    doomed (.operand a :: .operator (.binary o) :: .operand b :: post) =
      doomed (.operand (.binary o a b) :: post) := by
  cases hstart : startsWithPower post with
  | false =>
      simp only [doomed, blockedBase, hstart, Term.hasLeftPower, startsWithPower_cons,
        operator.injEq, Operator.binary.injEq, Bool.false_and, Bool.and_false, Bool.or_false,
        Bool.false_or]
      ac_rfl
  | true =>
      obtain ⟨hrank, hblocked⟩ := rank_of_turn_before_power formed hstart after
      obtain rfl := BinaryOp.eq_pow_of_rank hrank
      simp [doomed, blockedBase, hstart, hblocked rfl]

theorem doomed_append (pre : List Piece) {ps : List Piece} (h : doomed ps = true) :
    doomed (pre ++ ps) = true := by
  induction pre with
  | nil => exact h
  | cons p pre ih => cases p <;> simp [doomed, ih]

private theorem doomed_binary {pre post : List Piece} {a b : Term} {o : BinaryOp}
    (formed : Formed true post true)
    (after : ∀ e ∈ ready post, e.overtakes (.binary o) = false) :
    doomed (pre ++ .operand a :: .operator (.binary o) :: .operand b :: post) =
      doomed (pre ++ .operand (.binary o a b) :: post) := by
  induction pre with
  | nil => exact doomed_binary_head formed after
  | cons p pre ih =>
      cases p with
      | operand a' =>
          have hstart :
              startsWithPower (pre ++ .operand a :: .operator (.binary o) :: .operand b :: post) =
                startsWithPower (pre ++ .operand (.binary o a b) :: post) :=
            startsWithPower_append_congr pre rfl
          simp only [List.cons_append, doomed, ih, hstart]
      | operator o' =>
          simp only [List.cons_append, doomed, ih]
          cases hbase : blockedBase
              (pre ++ .operand a :: .operator (.binary o) :: .operand b :: post) with
          | true => rw [blockedBase_of_binary hbase]
          | false =>
              cases hbase' : blockedBase (pre ++ .operand (.binary o a b) :: post) with
              | false => rfl
              | true =>
                  -- the blocked power is the one that is merged, or stands in front of one
                  cases blockedBase_binary hbase' with
                  | inl h => rw [hbase] at h; cases h
                  | inr hpost =>
                      obtain ⟨hstart, _⟩ := hpost
                      have ho := BinaryOp.eq_pow_of_rank
                        (rank_of_turn_before_power formed hstart after).1
                      have hdoomed : doomed (pre ++ .operand (.binary o a b) :: post) = true :=
                        doomed_append pre (by simp [doomed, ho, hstart])
                      simp [hdoomed]

theorem Merges.doomed_eq {ps ps' : List Piece} (h : Merges ps ps') (formed : Formed false ps true)
    (bind : FunctionsBind ps) : doomed ps = doomed ps' := by
  cases h with
  | unary o before after =>
      obtain ⟨_, _, _, _, hpost⟩ := (formed_append _ _).mp formed
      exact doomed_unary hpost bind before after
  | binary o _ after =>
      obtain ⟨_, _, _, _, _, hpost⟩ := (formed_append _ _).mp formed
      exact doomed_binary hpost after

private theorem functionsBind_of_append (pre : List Piece) {ps : List Piece}
    (h : FunctionsBind (pre ++ ps)) : FunctionsBind ps := by
  induction pre with
  | nil => exact h
  | cons p pre ih =>
      cases p with
      | operand _ => exact ih h
      | operator o => cases o with
        | unary _ => exact ih h.2
        | binary _ => exact ih h

/-- Replacing what follows keeps functions bound, if it does not put a power behind a function. -/
private theorem functionsBind_append {pre ps ps' : List Piece} (h : FunctionsBind (pre ++ ps))
    (hps' : FunctionsBind ps')
    (last : ∀ front u, pre = front ++ [.operator (.unary u)] →
      u.isSign = true ∨ startsWithPowerOperand ps' = false) : FunctionsBind (pre ++ ps') := by
  induction pre with
  | nil => exact hps'
  | cons p pre ih =>
      have htail := functionsBind_of_append [p] h
      have hih := ih htail fun front u hfront => last (p :: front) u (by rw [hfront]; rfl)
      cases p with
      | operand _ => exact hih
      | operator o => cases o with
        | binary _ => exact hih
        | unary u =>
            refine ⟨?_, hih⟩
            cases pre with
            | nil => exact last [] u rfl
            | cons p pre => cases p <;> exact h.1

theorem Merges.functionsBind {ps ps' : List Piece} (h : Merges ps ps') (bind : FunctionsBind ps) :
    FunctionsBind ps' := by
  cases h with
  | @unary pre post t o before after =>
      have hpost : FunctionsBind post := (functionsBind_of_append pre bind).2
      exact functionsBind_append bind hpost fun _ _ _ => .inr rfl
  | @binary pre post a b o before after =>
      have hrest := functionsBind_of_append pre bind
      have hpost : FunctionsBind post := hrest
      refine functionsBind_append bind hpost ?_
      intro front u hfront
      -- a function at the end of the run before the left operand would have its turn first
      have hturn := (Operator.overtakes_iff _ _).mp (before (.unary u) (by
        rw [hfront, List.append_assoc]
        exact mem_ready_append front (.unary u) a []))
      rw [u.rank_eq] at hturn
      cases hs : u.isSign with
      | true => exact .inl rfl
      | false =>
          have ho : (Operator.binary o).rank ≤ 5 := by cases o <;> decide
          simp only [hs, Bool.false_eq_true, if_false] at hturn
          omega

/-- Whether a power becomes the base of another is settled before the first merge. -/
theorem Condenses.hasLeftPower_eq {ps : List Piece} {t : Term} (h : Condenses ps t)
    (bind : FunctionsBind ps) : t.hasLeftPower = doomed ps := by
  induction h with
  | done t => simp [doomed, startsWithPower]
  | step merges rest ih =>
      have hformed := (Condenses.step merges rest).formed
      rw [ih (merges.functionsBind bind), merges.doomed_eq hformed bind]

theorem functionsBind_of_leaves {ps : List Piece}
    (h : ∀ t, .operand t ∈ ps → t.isLeaf = true) : FunctionsBind ps := by
  induction ps with
  | nil => trivial
  | cons p ps ih =>
      have hrest := ih fun t ht => h t (List.mem_cons_of_mem p ht)
      cases p with
      | operand t => exact hrest
      | operator o => cases o with
        | binary _ => exact hrest
        | unary u =>
            refine ⟨.inr ?_, hrest⟩
            cases ps with
            | nil => rfl
            | cons p ps =>
                cases p with
                | operator _ => rfl
                | operand t =>
                    have hleaf := h t (List.mem_cons_of_mem _ List.mem_cons_self)
                    exact Term.isPower_of_isLeaf hleaf

end Piece
end LineCalc

import Mathlib.Data.List.Chain
import LineCalc.Proofs.Items
import LineCalc.Proofs.PowerChain

/-!
Which operations may stand bare under which. On the left of a binary operator an equally tight
operation will do, on its right only a tighter one. A power takes whatever is not looser than a
sign, but no sign for its base, a sign takes a sign and anything tighter, and a function takes what
another unary operator made. A row of pieces whose neighbours suit each other is kept so by every
merge: the operator whose turn it is binds more tightly than those on either side of it.
-/

namespace LineCalc

namespace BinaryOp

theorem rank_le (b : BinaryOp) : (Operator.binary b).rank ≤ 5 := by
  cases b <;> decide

/-- May an operation with the operator `q` stand bare on the left? -/
def AdmitsLeft : BinaryOp → Operator → Prop
  | .pow, q => 4 ≤ q.rank ∧ q ≠ .unary .plus ∧ q ≠ .unary .minus
  | o, q => (Operator.binary o).rank ≤ q.rank

theorem admitsLeft_of_rank_le {b : BinaryOp} {o : Operator}
    (h : (Operator.binary b).rank ≤ o.rank) : b.AdmitsLeft o := by
  cases b with
  | mul | div | rem | add | sub | mod => exact h
  | pow =>
      have htight : 5 ≤ o.rank := h
      refine ⟨by omega, ?_, ?_⟩
      · intro ho
        rw [ho] at htight
        exact absurd htight (by decide)
      · intro ho
        rw [ho] at htight
        exact absurd htight (by decide)

end BinaryOp

namespace Operator

/-- May an operation with the operator `q` stand bare as the only operand or on the right? -/
def AdmitsLast : Operator → Operator → Prop
  | .unary u, q => if u.isSign then 4 ≤ q.rank else q.isUnary = true
  | .binary .pow, q => 4 ≤ q.rank
  | .binary o, q => (binary o).rank < q.rank

theorem admitsLast_unary (o : Operator) (u : UnaryOp) : o.AdmitsLast (.unary u) := by
  have hu : 4 ≤ (unary u).rank := by cases u <;> decide
  cases o with
  | unary v =>
      cases hv : v.isSign with
      | true => simpa only [AdmitsLast, hv, if_true] using hu
      | false => simp [AdmitsLast, hv, isUnary]
  | binary b =>
      cases b with
      | pow => exact hu
      | mul | div | rem | add | sub | mod => exact Nat.lt_of_lt_of_le (by decide) hu

/-- What takes the turn from an operator further left may stand on its right. -/
theorem admitsLast_of_overtakes {o : Operator} {b : BinaryOp}
    (h : (binary b).overtakes o = true) : o.AdmitsLast (.binary b) := by
  rw [overtakes_iff] at h
  have hb := b.rank_le
  cases o with
  | unary u =>
      rw [u.rank_eq] at h
      cases hu : u.isSign with
      | true =>
          simp only [hu, if_true] at h
          simp only [AdmitsLast, hu, if_true]
          omega
      | false =>
          simp only [hu, Bool.false_eq_true, if_false] at h
          omega
  | binary o =>
      cases o with
      | pow =>
          have hpow : (binary .pow).rank = 5 := rfl
          change 4 ≤ (binary b).rank
          omega
      | mul | div | rem | add | sub | mod =>
          simp only [AdmitsLast, rank, precedence] at h ⊢
          omega

end Operator

namespace Term

/-- The operator of an operation without parentheses of its own. -/
def operator? : Term → Option Operator
  | .numeral _ | .constant _ | .grouping _ => none
  | .unary o _ => some (.unary o)
  | .binary o _ _ => some (.binary o)

/-- The tree and every tree in it, those in parentheses included. -/
def subterms : Term → List Term
  | .numeral n => [.numeral n]
  | .constant c => [.constant c]
  | .grouping t => .grouping t :: t.subterms
  | .unary o t => .unary o t :: t.subterms
  | .binary o l r => .binary o l r :: (l.subterms ++ r.subterms)

/-- The operator of a tree admits the operations that stand bare under it. -/
def Bound : Term → Prop
  | .numeral _ | .constant _ | .grouping _ => True
  | .unary o t => ∀ q ∈ t.operator?, (Operator.unary o).AdmitsLast q
  | .binary o l r =>
      (∀ q ∈ l.operator?, o.AdmitsLeft q) ∧ ∀ q ∈ r.operator?, (Operator.binary o).AdmitsLast q

/-- A sign with its operand, or that under functions: what follows would belong to the operand. -/
def isOpen : Term → Bool
  | .unary u t => u.isSign || t.isOpen
  | .numeral _ | .constant _ | .grouping _ | .binary .. => false

theorem operator?_of_isLeaf {t : Term} (h : t.isLeaf = true) : t.operator? = none := by
  cases t with
  | numeral _ | constant _ | grouping _ => rfl
  | unary _ _ | binary _ _ _ => cases h

theorem isOpen_of_isLeaf {t : Term} (h : t.isLeaf = true) : t.isOpen = false := by
  cases t with
  | numeral _ | constant _ | grouping _ => rfl
  | unary _ _ | binary _ _ _ => cases h

end Term

namespace Piece

/-- Neighbours of which the operator admits the operand. The base of a power is also no sign under
functions, since the power would have been reduced before those. -/
def Suits : Piece → Piece → Prop
  | .operand t, .operator (.binary b) =>
      (∀ q ∈ t.operator?, b.AdmitsLeft q) ∧ (b = .pow → t.isOpen = false)
  | .operator o, .operand t => ∀ q ∈ t.operator?, o.AdmitsLast q
  | .operand _, .operand _ | .operand _, .operator (.unary _) | .operator _, .operator _ => True

theorem suits_of_leaves {ps : List Piece} (h : ∀ t, .operand t ∈ ps → t.isLeaf = true) :
    ps.IsChain Suits := by
  induction ps with
  | nil => exact .nil
  | cons p ps ih =>
      refine List.isChain_cons.mpr ⟨?_, ih fun t ht => h t (List.mem_cons_of_mem p ht)⟩
      intro p' hp'
      have hmem := List.mem_cons_of_mem p (List.mem_of_mem_head? hp')
      cases p with
      | operand t =>
          have hleaf := h t List.mem_cons_self
          cases p' with
          | operand _ => trivial
          | operator o =>
              cases o with
              | unary _ => trivial
              | binary b =>
                  simp [Suits, Term.operator?_of_isLeaf hleaf, Term.isOpen_of_isLeaf hleaf]
      | operator o =>
          cases p' with
          | operator _ => trivial
          | operand t => simp [Suits, Term.operator?_of_isLeaf (h t hmem)]

/-- An operator whose turn comes before all those behind it is at least as tight as the first. -/
theorem rank_le_of_turn {ps : List Piece} {b : BinaryOp} {o : Operator}
    (formed : Formed false ps true)
    (after : ∀ e ∈ ready (.operator (.binary b) :: ps), e.overtakes o = false) :
    (Operator.binary b).rank ≤ o.rank := by
  cases exists_ready_of_formed formed with
  | inl hstart =>
      have hturn := after (.binary b) (by simp [ready, hstart])
      exact ((Operator.overtakes_eq_false_iff _ _).mp hturn).1
  | inr hready =>
      -- the binary operator waits for a unary one, which is as tight as a sign or tighter
      obtain ⟨u, hu, _⟩ := hready
      have hturn := after (.unary u) (ready_subset_cons _ _ hu)
      rw [Operator.overtakes_eq_false_iff] at hturn
      have hsign : 4 ≤ (Operator.unary u).rank := by cases u <;> decide
      have hb := b.rank_le
      omega

/-- What an operation that was just made has to do with the piece behind it. -/
private theorem suits_behind {post : List Piece} {t : Term} {o : Operator}
    (operation : t.operator? = some o) (formed : Formed true post true)
    (after : ∀ e ∈ ready post, e.overtakes o = false)
    (closed : 4 < o.rank → startsWithPower post = true → t.isOpen = false) :
    ∀ p ∈ post.head?, Suits (.operand t) p := by
  intro p hp
  cases post with
  | nil => cases hp
  | cons p' post =>
      cases hp
      cases p with
      | operand _ => trivial
      | operator o' =>
          cases o' with
          | unary _ => trivial
          | binary b =>
              have hrank := rank_le_of_turn formed.2 after
              refine ⟨?_, ?_⟩
              · intro q hq
                rw [operation] at hq
                cases hq
                exact BinaryOp.admitsLeft_of_rank_le hrank
              · intro hb
                subst hb
                exact closed hrank rfl

/-- A merge keeps neighbours suited. -/
theorem Merges.suits {ps ps' : List Piece} (h : Merges ps ps') (formed : Formed false ps true)
    (suits : ps.IsChain Suits) : ps'.IsChain Suits := by
  cases h with
  | @unary pre post t o before after =>
      obtain ⟨_, _, _, _, hpost⟩ := (formed_append _ _).mp formed
      obtain ⟨hpre, hrest, _⟩ := List.isChain_append.mp suits
      obtain ⟨hbehind, hchain⟩ := List.isChain_cons.mp (List.isChain_cons.mp hrest).2
      refine List.isChain_append.mpr ⟨hpre, List.isChain_cons.mpr ⟨?_, hchain⟩, ?_⟩
      · refine suits_behind rfl hpost after ?_
        intro htight hstart
        -- the operator is a function, and its operand stood before the power already
        have hsign : o.isSign = false := by
          apply Bool.eq_false_iff.mpr
          intro hsign
          simp [o.rank_eq, hsign] at htight
        have hoperand : t.isOpen = false := by
          cases post with
          | nil => cases hstart
          | cons p post =>
              rw [startsWithPower, decide_eq_true_eq] at hstart
              subst hstart
              exact (hbehind _ rfl).2 rfl
        simp [Term.isOpen, hsign, hoperand]
      · intro p _ p' hp'
        cases hp'
        cases p with
        | operand _ => trivial
        | operator o' =>
            intro q hq
            cases hq
            exact o'.admitsLast_unary o
  | @binary pre post a b o before after =>
      obtain ⟨_, _, _, _, _, hpost⟩ := (formed_append _ _).mp formed
      obtain ⟨hpre, hrest, _⟩ := List.isChain_append.mp suits
      have hoperand := (List.isChain_cons.mp (List.isChain_cons.mp hrest).2).2
      have hchain := (List.isChain_cons.mp hoperand).2
      refine List.isChain_append.mpr ⟨hpre, List.isChain_cons.mpr ⟨?_, hchain⟩, ?_⟩
      · exact suits_behind rfl hpost after fun _ _ => rfl
      · intro p hp p' hp'
        cases hp'
        cases p with
        | operand _ => trivial
        | operator o' =>
            obtain ⟨front, rfl⟩ := List.getLast?_eq_some_iff.mp hp
            have hready : o' ∈ ready (front ++ [.operator o'] ++ [.operand a]) := by
              rw [List.append_assoc]
              exact mem_ready_append front o' a []
            intro q hq
            cases hq
            exact Operator.admitsLast_of_overtakes (before o' hready)

end Piece

namespace Term

/-- The operator and the operands of a tree in a row. -/
def parts : Term → List Piece
  | .unary o t => [.operator (.unary o), .operand t]
  | .binary o l r => [.operand l, .operator (.binary o), .operand r]
  | .numeral n => [.operand (.numeral n)]
  | .constant c => [.operand (.constant c)]
  | .grouping t => [.operand (.grouping t)]

/-- The parts of every operation in the tree suit each other. -/
def Suited (t : Term) : Prop :=
  ∀ n ∈ t.subterms, n.parts.IsChain Piece.Suits

theorem suited_unary {o : UnaryOp} {t : Term} :
    (Term.unary o t).Suited ↔ (Term.unary o t).parts.IsChain Piece.Suits ∧ t.Suited := by
  simp [Suited, subterms]

theorem suited_binary {o : BinaryOp} {l r : Term} :
    (Term.binary o l r).Suited ↔
      (Term.binary o l r).parts.IsChain Piece.Suits ∧ l.Suited ∧ r.Suited := by
  simp [Suited, subterms, or_imp, forall_and]

theorem Suited.bound {t n : Term} (h : t.Suited) (mem : n ∈ t.subterms) : n.Bound := by
  have hparts := h n mem
  cases n with
  | numeral _ | constant _ | grouping _ => trivial
  | unary o t =>
      obtain ⟨hlast, _⟩ := List.isChain_cons_cons.mp hparts
      exact hlast
  | binary o l r =>
      obtain ⟨hleft, hrest⟩ := List.isChain_cons_cons.mp hparts
      obtain ⟨hlast, _⟩ := List.isChain_cons_cons.mp hrest
      exact ⟨hleft.1, hlast⟩

end Term

namespace Piece

theorem Merges.suited {ps ps' : List Piece} (h : Merges ps ps') (suits : ps.IsChain Suits)
    (operands : ∀ t, .operand t ∈ ps → t.Suited) : ∀ t, .operand t ∈ ps' → t.Suited := by
  intro t ht
  cases h with
  | @unary pre post t' o _ _ =>
      cases List.mem_append.mp ht with
      | inl hpre => exact operands t (List.mem_append_left _ hpre)
      | inr hrest =>
          cases List.mem_cons.mp hrest with
          | inr hpost => exact operands t (by simp [hpost])
          | inl hnew =>
              cases hnew
              have hparts : (Term.unary o t').parts.IsChain Suits :=
                suits.infix ⟨pre, post, by simp [Term.parts]⟩
              exact Term.suited_unary.mpr ⟨hparts, operands t' (by simp)⟩
  | @binary pre post a b o _ _ =>
      cases List.mem_append.mp ht with
      | inl hpre => exact operands t (List.mem_append_left _ hpre)
      | inr hrest =>
          cases List.mem_cons.mp hrest with
          | inr hpost => exact operands t (by simp [hpost])
          | inl hnew =>
              cases hnew
              have hparts : (Term.binary o a b).parts.IsChain Suits :=
                suits.infix ⟨pre, post, by simp [Term.parts]⟩
              exact Term.suited_binary.mpr ⟨hparts, operands a (by simp), operands b (by simp)⟩

theorem Condenses.suited {ps : List Piece} {t : Term} (h : Condenses ps t)
    (suits : ps.IsChain Suits) (operands : ∀ t, .operand t ∈ ps → t.Suited) : t.Suited := by
  induction h with
  | done t => exact operands t List.mem_cons_self
  | step merges rest ih =>
      have hformed := (Condenses.step merges rest).formed
      exact ih (merges.suits hformed suits) (merges.suited suits operands)

end Piece

namespace Sequence

theorem suited_of_leaves {s : Sequence} {t : Term} (condenses : s.condense = .ok t)
    (leaves : ∀ e ∈ s, ∀ t, e.term? = some t → t.isLeaf = true ∧ t.Suited) : t.Suited := by
  have hoperands (t : Term) (ht : .operand t ∈ pieces false s) : t.isLeaf = true ∧ t.Suited := by
    obtain ⟨e, he, hterm⟩ := term?_of_operand_mem ht
    exact leaves e he t hterm
  have hsuits := Piece.suits_of_leaves fun t ht => (hoperands t ht).1
  exact ((condense_eq_ok_iff s t).mp condenses).suited hsuits fun t ht => (hoperands t ht).2

/-- In the tree of a scanned run all operations suit their operands. -/
theorem suited_of_scanned {limit : Option Nat} {session : Session} {s : Sequence} {t : Term}
    (scanned : (Reading.sequence limit).outcome session = .ok (some s))
    (condenses : s.condense = .ok t) : t.Suited := by
  obtain ⟨text, rest, _, spells⟩ := Reading.spells_of_sequence scanned
  refine suited_of_leaves condenses ?_
  refine Spells.leaf_induction ?_ ?_ ?_ spells
  · simp [Term.Suited, Term.subterms, Term.parts]
  · simp [Term.Suited, Term.subterms, Term.parts]
  · intro body inner hbody hinner
    have hsuited := suited_of_leaves hinner hbody
    simpa [Term.Suited, Term.subterms, Term.parts] using hsuited

/-- In the tree of a scanned run every operator admits the operations that stand bare under it. -/
theorem bound_of_scanned {limit : Option Nat} {session : Session} {s : Sequence} {t : Term}
    (scanned : (Reading.sequence limit).outcome session = .ok (some s))
    (condenses : s.condense = .ok t) : ∀ n ∈ t.subterms, n.Bound :=
  fun _ mem => (suited_of_scanned scanned condenses).bound mem

/-- A power under a sign, with a function for its base and a sign in its exponent. -/
theorem bound_of_scanned_signed_exponent :
    ∃ s t, (Reading.sequence none).outcome (.start "(1-2)*-ln 3^-4 mod 5") = .ok (some s) ∧
      s.condense = .ok t ∧ ∀ n ∈ t.subterms, n.Bound := by
  have hparse : parse "(1-2)*-ln 3^-4 mod 5" = .ok
      (.binary .mod
        (.binary .mul
          (.grouping (.binary .sub (.numeral ⟨.plus, [1], [], none, by simp⟩)
            (.numeral ⟨.plus, [2], [], none, by simp⟩)))
          (.unary .minus (.binary .pow (.unary .ln (.numeral ⟨.plus, [3], [], none, by simp⟩))
            (.unary .minus (.numeral ⟨.plus, [4], [], none, by simp⟩)))))
        (.numeral ⟨.plus, [5], [], none, by simp⟩)) := by
    decide +kernel
  obtain ⟨s, hscan, hcondense⟩ := scan_of_parse hparse
  have hsequence := sequence_of_scan hscan
  exact ⟨s, _, hsequence, hcondense, bound_of_scanned hsequence hcondense⟩

end Sequence
end LineCalc

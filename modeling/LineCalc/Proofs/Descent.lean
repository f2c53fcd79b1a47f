import LineCalc.Proofs.Overtaking
import LineCalc.Proofs.Precedence

/-!
Reading a run from the top down. The reader here goes through the items of a run once, from left to
right, and has one function for each level of the grammar: remainders, sums, products, operands with
signs, powers, and what functions are applied to. Operators of the three loosest levels group from
the left, and a `^` belongs to the innermost level that can take it. Such a reader decides at once
what condensing finds out in rounds. Where no power has a signed exponent and the exponent of
another power for its base, the two agree.
-/

namespace LineCalc

namespace Token

def sign? : Token → Option UnaryOp
  | .plus => some .plus
  | .minus => some .minus
  | _ => none

def function? : Token → Option UnaryOp
  | .ln => some .ln
  | .log => some .log
  | _ => none

def factor? : Token → Option BinaryOp
  | .star => some .mul
  | .slash => some .div
  | .percent => some .rem
  | _ => none

def summand? : Token → Option BinaryOp
  | .plus => some .add
  | .minus => some .sub
  | _ => none

def modulus? : Token → Option BinaryOp
  | .mod => some .mod
  | _ => none

end Token

namespace Descent

/-- A tree at the head of a row, and what follows it. -/
structure Found (row : List Item) where
  tree : Term
  rest : List Item
  shorter : rest.length < row.length

abbrev Reader := (row : List Item) → Option (Found row)

def startsWithSign : List Item → Bool
  | .token k :: _ => k.sign?.isSome
  | _ => false

mutual

/-- Signs before a power: `Un = (+|-) Un | Pow`. -/
def signed : Reader
  | .token k :: rest =>
    match k.sign? with
    | some o => (signed rest).map fun operand =>
        ⟨.unary o operand.tree, operand.rest, Nat.lt_succ_of_lt operand.shorter⟩
    | none => power (.token k :: rest)
  | row => power row
termination_by row => (row.length, 2)

/-- A power, if a `^` follows: `Pow = Fn | Fn ^ Un`. -/
def power (row : List Item) : Option (Found row) := do
  let base ← applied row
  match h : base.rest with
  | .token .caret :: rest =>
    have shorter : rest.length < row.length :=
      Nat.lt_of_succ_lt (by simpa [h] using base.shorter)
    (signed rest).map fun exponent =>
      ⟨.binary .pow base.tree exponent.tree, exponent.rest, exponent.shorter.trans shorter⟩
  | _ => some base
termination_by (row.length, 1)

/-- Functions before a term or a sign: `Fn = term | (ln|log) Fn | (ln|log) (+|-) Un`. -/
def applied : Reader
  | .term t :: rest => some ⟨t, rest, Nat.lt_succ_self _⟩
  | .token k :: rest =>
    match k.function? with
    | some o => (if startsWithSign rest then signed rest else applied rest).map fun operand =>
        ⟨.unary o operand.tree, operand.rest, Nat.lt_succ_of_lt operand.shorter⟩
    | none => none
  | [] => none
termination_by row => (row.length, 0)

end

section
variable (operand : Reader) (infix? : Token → Option BinaryOp)

/-- Goes on from the left operand while operators of the level follow. -/
def extend (row : List Item) (left : Found row) : Option (Found row) :=
  match h : left.rest with
  | .token k :: rest =>
    match infix? k with
    | some o => do
      let right ← operand rest
      have shorter : right.rest.length < left.rest.length := by
        rw [h]
        exact Nat.lt_succ_of_lt right.shorter
      extend row ⟨.binary o left.tree right.tree, right.rest, shorter.trans left.shorter⟩
    | none => some left
  | _ => some left
termination_by left.rest.length

/-- Operands with operators between them, grouped from the left. -/
def chain : Reader := fun row => do
  extend operand infix? row (← operand row)

end

/-- `Prod = Un ((*|/|%) Un)*` -/
def product : Reader :=
  chain signed Token.factor?

/-- `Sum = Prod ((+|-) Prod)*` -/
def sum : Reader :=
  chain product Token.summand?

/-- `Mod = Sum (mod Sum)*` -/
def remainder : Reader :=
  chain sum Token.modulus?

/-- The tree of a whole row. -/
def read (row : List Item) : Option Term :=
  match remainder row with
  | some ⟨t, [], _⟩ => some t
  | _ => none

/-- The reader finds the tree at the head of the row, and the rest behind it. -/
def Reads (reader : Reader) (row : List Item) (t : Term) (rest : List Item) : Prop :=
  ∃ shorter, reader row = some ⟨t, rest, shorter⟩

theorem reads_term (t : Term) (rest : List Item) : Reads applied (.term t :: rest) t rest :=
  ⟨Nat.lt_succ_self _, by rw [applied]⟩

theorem reads_function {u : UnaryOp} {row rest : List Item} {t : Term} (function : u.isSign = false)
    (h : Reads (if startsWithSign row then signed else applied) row t rest) :
    Reads applied (.token u.token :: row) (.unary u t) rest := by
  obtain ⟨shorter, h⟩ := h
  have hu : u.token.function? = some u := by cases u <;> first | rfl | cases function
  refine ⟨Nat.lt_succ_of_lt shorter, ?_⟩
  rw [applied]
  cases hstart : startsWithSign row with
  | true =>
      simp only [hstart, if_true] at h
      simp [hu, h]
  | false =>
      simp only [hstart, Bool.false_eq_true, if_false] at h
      simp [hu, h]

theorem reads_sign {u : UnaryOp} {row rest : List Item} {t : Term} (sign : u.isSign = true)
    (h : Reads signed row t rest) : Reads signed (.token u.token :: row) (.unary u t) rest := by
  obtain ⟨shorter, h⟩ := h
  have hu : u.token.sign? = some u := by cases u <;> first | rfl | cases sign
  refine ⟨Nat.lt_succ_of_lt shorter, ?_⟩
  rw [signed]
  simp [hu, h]

theorem reads_signed_of_power {row rest : List Item} {t : Term} (start : startsWithSign row = false)
    (h : Reads power row t rest) : Reads signed row t rest := by
  obtain ⟨shorter, h⟩ := h
  refine ⟨shorter, ?_⟩
  cases row with
  | nil => rw [signed, h]; simp
  | cons i row =>
      cases i with
      | term t => rw [signed, h]; simp
      | token k =>
          have hk : k.sign? = none := by simpa [startsWithSign] using start
          rw [signed]
          simp [hk, h]

/-- What follows an operand is looser than the rank, if it is an operator at all. -/
def Ends (rank : Nat) : List Item → Prop
  | .token k :: _ => (k.use true).rank < rank
  | .term _ :: _ | [] => True

theorem Ends.mono {m n : Nat} {rest : List Item} (h : Ends m rest) (hle : m ≤ n) : Ends n rest := by
  cases rest with
  | nil => trivial
  | cons i rest =>
      cases i with
      | term _ => trivial
      | token k => exact Nat.lt_of_lt_of_le h hle

theorem reads_power_of_applied {row rest : List Item} {t : Term} (ends : Ends 5 rest)
    (h : Reads applied row t rest) : Reads power row t rest := by
  obtain ⟨shorter, h⟩ := h
  refine ⟨shorter, ?_⟩
  rw [power, h]
  cases rest with
  | nil => rfl
  | cons i rest =>
      cases i with
      | term _ => rfl
      | token k =>
          cases k with
          | caret =>
              have hloose : (Token.caret.use true).rank < 5 := ends
              exact absurd hloose (by decide)
          | ln | log | plus | minus | star | slash | percent | mod => rfl

theorem reads_power {row rest rest' : List Item} {l r : Term}
    (base : Reads applied row l (.token .caret :: rest)) (exponent : Reads signed rest r rest') :
    Reads power row (.binary .pow l r) rest' := by
  obtain ⟨shorter, hbase⟩ := base
  obtain ⟨shorter', hexponent⟩ := exponent
  refine ⟨shorter'.trans (Nat.lt_of_succ_lt shorter), ?_⟩
  rw [power, hbase]
  simp [hexponent]

end Descent

namespace Term

/-- The terms and tokens of a tree from left to right. -/
def items (t : Term) : List Item :=
  t.inOrder.map Piece.item

theorem items_of_isLeaf {t : Term} (h : t.isLeaf = true) : t.items = [.term t] := by
  rw [items, inOrder_of_isLeaf h]
  rfl

theorem items_unary (u : UnaryOp) (t : Term) :
    (Term.unary u t).items = .token u.token :: t.items := rfl

theorem items_binary (b : BinaryOp) (l r : Term) :
    (Term.binary b l r).items = l.items ++ .token b.token :: r.items := by
  simp [items, inOrder, Piece.item, Operator.token]

/-- The rank of the operator that stands bare at the top, above all ranks for a leaf. -/
def tightness (t : Term) : Nat :=
  (t.operator?.map Operator.rank).getD 7

theorem tightness_of_isLeaf {t : Term} (h : t.isLeaf = true) : t.tightness = 7 := by
  simp [tightness, operator?_of_isLeaf h]

theorem tightness_unary (u : UnaryOp) (t : Term) :
    (Term.unary u t).tightness = if u.isSign then 4 else 6 :=
  u.rank_eq

theorem exists_sign_of_tightness {t : Term} (h : t.tightness = 4) :
    ∃ u operand, t = .unary u operand ∧ u.isSign = true := by
  cases t with
  | numeral _ | constant _ | grouping _ => cases h
  | binary b l r => cases b <;> cases h
  | unary u operand =>
      refine ⟨u, operand, rfl, ?_⟩
      cases u <;> first | rfl | cases h

theorem tightness_pos (t : Term) : 0 < t.tightness := by
  cases t with
  | numeral _ | constant _ | grouping _ => exact Nat.zero_lt_succ _
  | unary u _ => cases u <;> exact Nat.zero_lt_succ _
  | binary b _ _ => cases b <;> exact Nat.zero_lt_succ _

/-- A tree whose operations stand on the levels that the grammar gives them. -/
def Stratified : Term → Prop
  | .numeral _ | .constant _ | .grouping _ => True
  | .unary u t =>
      (if u.isSign then 4 ≤ t.tightness else t.tightness = 4 ∨ 6 ≤ t.tightness) ∧ t.Stratified
  | .binary .pow l r =>
      (6 ≤ l.tightness ∧ l.isOpen = false ∧ 4 ≤ r.tightness) ∧ l.Stratified ∧ r.Stratified
  | .binary o l r =>
      ((Operator.binary o).rank ≤ l.tightness ∧ (Operator.binary o).rank < r.tightness) ∧
        l.Stratified ∧ r.Stratified

theorem stratified_of_loose {o : BinaryOp} {l r : Term} (loose : (Operator.binary o).rank < 4)
    (h : (Term.binary o l r).Stratified) :
    (Operator.binary o).rank ≤ l.tightness ∧ (Operator.binary o).rank < r.tightness ∧
      l.Stratified ∧ r.Stratified := by
  cases o with
  | pow => exact absurd loose (by decide)
  | mul | div | rem | add | sub | mod => exact ⟨h.1.1, h.1.2, h.2⟩

end Term

namespace Descent

theorem startsWithSign_items {t : Term} (h : 6 ≤ t.tightness) (rest : List Item) :
    startsWithSign (t.items ++ rest) = false := by
  cases t with
  | numeral _ | constant _ | grouping _ => rfl
  | unary u t =>
      cases u with
      | ln | log => rfl
      | plus | minus => exact absurd h (by simp only [Term.tightness, Term.operator?]; decide)
  | binary b l r =>
      have hb := b.rank_le
      simp only [Term.tightness, Term.operator?, Option.map_some, Option.getD_some] at h
      omega

theorem startsWithSign_sign {u : UnaryOp} (h : u.isSign = true) (t : Term) (rest : List Item) :
    startsWithSign ((Term.unary u t).items ++ rest) = true := by
  cases u with
  | plus | minus => rfl
  | ln | log => cases h

/-- A tree is read back on each tight level that it can stand on. -/
structure ReadBack (t : Term) : Prop where
  applied : 6 ≤ t.tightness → ∀ rest, (t.isOpen = true → Ends 5 rest) →
    Reads applied (t.items ++ rest) t rest
  power : 5 ≤ t.tightness → ∀ rest, Ends 5 rest → Reads power (t.items ++ rest) t rest
  signed : 4 ≤ t.tightness → ∀ rest, Ends 5 rest → Reads signed (t.items ++ rest) t rest

theorem ReadBack.of_applied {t : Term} (tight : 6 ≤ t.tightness)
    (h : ∀ rest, (t.isOpen = true → Ends 5 rest) → Reads Descent.applied (t.items ++ rest) t rest) :
    ReadBack t := by
  have hpower (rest : List Item) (ends : Ends 5 rest) :
      Reads Descent.power (t.items ++ rest) t rest :=
    reads_power_of_applied ends (h rest fun _ => ends)
  refine ⟨fun _ => h, fun _ => hpower, fun _ rest ends => ?_⟩
  exact reads_signed_of_power (startsWithSign_items tight rest) (hpower rest ends)

private theorem readBack_leaf {t : Term} (h : t.isLeaf = true) : ReadBack t := by
  refine .of_applied (by simp [Term.tightness_of_isLeaf h]) ?_
  intro rest _
  rw [Term.items_of_isLeaf h]
  exact reads_term t rest

private theorem readBack_unary {u : UnaryOp} {t : Term} (h : (Term.unary u t).Stratified)
    (operand : ReadBack t) : ReadBack (.unary u t) := by
  have htight := Term.tightness_unary u t
  cases hu : u.isSign with
  | true =>
      simp only [hu, if_true] at htight
      have hoperand : 4 ≤ t.tightness := by simpa [hu] using h.1
      refine ⟨fun hle => by omega, fun hle => by omega, fun _ rest ends => ?_⟩
      exact reads_sign hu (operand.signed hoperand rest ends)
  | false =>
      simp only [hu, Bool.false_eq_true, if_false] at htight
      have hoperand : t.tightness = 4 ∨ 6 ≤ t.tightness := by simpa [hu] using h.1
      refine .of_applied (by omega) ?_
      intro rest ends
      rw [Term.items_unary, List.cons_append]
      apply reads_function hu
      cases hoperand with
      | inr htight' =>
          rw [startsWithSign_items htight']
          exact operand.applied htight' rest fun hopen =>
            ends (by simpa [Term.isOpen, hu] using hopen)
      | inl hsign =>
          -- a sign takes all that follows its operand, and so does the function before it
          obtain ⟨v, t', rfl, hv⟩ := Term.exists_sign_of_tightness hsign
          have hopen : (Term.unary u (.unary v t')).isOpen = true := by simp [Term.isOpen, hv]
          rw [startsWithSign_sign hv]
          exact operand.signed (by omega) rest (ends hopen)

private theorem readBack_binary {b : BinaryOp} {l r : Term} (h : (Term.binary b l r).Stratified)
    (left : ReadBack l) (right : ReadBack r) : ReadBack (.binary b l r) := by
  have htight : (Term.binary b l r).tightness = (Operator.binary b).rank := rfl
  cases b with
  | mul | div | rem | add | sub | mod =>
      have hrank : (Term.binary _ l r).tightness < 4 := htight.trans_lt (by decide)
      refine ⟨fun hle => by omega, fun hle => by omega, fun hle => by omega⟩
  | pow =>
      obtain ⟨⟨hbase, hclosed, hexponent⟩, _⟩ := h
      have hrank : (Operator.binary .pow).rank = 5 := rfl
      have hpower (rest : List Item) (ends : Ends 5 rest) :
          Reads Descent.power ((Term.binary .pow l r).items ++ rest) (.binary .pow l r) rest := by
        rw [Term.items_binary, List.append_assoc, List.cons_append]
        refine reads_power (left.applied hbase _ ?_) (right.signed hexponent rest ends)
        intro hopen
        rw [hclosed] at hopen
        cases hopen
      refine ⟨fun hle => by omega, fun _ => hpower, fun _ rest ends => ?_⟩
      refine reads_signed_of_power ?_ (hpower rest ends)
      rw [Term.items_binary, List.append_assoc]
      exact startsWithSign_items hbase _

theorem readBack_of_stratified {t : Term} (h : t.Stratified) : ReadBack t := by
  induction t with
  | numeral _ | constant _ | grouping _ _ => exact readBack_leaf rfl
  | unary u t ih => exact readBack_unary h (ih h.2)
  | binary b l r ihl ihr =>
      cases b with
      | pow | mul | div | rem | add | sub | mod => exact readBack_binary h (ihl h.2.1) (ihr h.2.2)

/-- The reader reads back all trees that are at least so tight. -/
def Complete (rank : Nat) (reader : Reader) : Prop :=
  ∀ t : Term, t.Stratified → rank ≤ t.tightness → ∀ rest, Ends rank rest →
    Reads reader (t.items ++ rest) t rest

theorem complete_signed : Complete 4 signed := by
  intro t stratified tight rest ends
  exact (readBack_of_stratified stratified).signed tight rest (ends.mono (by decide))

/-- The operators of the level are the binary operators of the rank. -/
def IsLevel (rank : Nat) (infix? : Token → Option BinaryOp) : Prop :=
  ∀ k o, infix? k = some o ↔ k = o.token ∧ (Operator.binary o).rank = rank

theorem isLevel_factor : IsLevel 3 Token.factor? := by
  intro k o
  cases k <;> cases o <;> decide

theorem isLevel_summand : IsLevel 2 Token.summand? := by
  intro k o
  cases k <;> cases o <;> decide

theorem isLevel_modulus : IsLevel 1 Token.modulus? := by
  intro k o
  cases k <;> cases o <;> decide

section
variable {operand : Reader} {infix? : Token → Option BinaryOp} {rank : Nat}

theorem extend_of_ends {row rest : List Item} {t : Term} (shorter : rest.length < row.length)
    (level : IsLevel rank infix?) (ends : Ends rank rest) :
    extend operand infix? row ⟨t, rest, shorter⟩ = some ⟨t, rest, shorter⟩ := by
  rw [extend]
  cases rest with
  | nil => rfl
  | cons i rest =>
      cases i with
      | term _ => rfl
      | token k =>
          have hnone : infix? k = none := by
            cases hk : infix? k with
            | none => rfl
            | some o =>
                have hlower : (k.use true).rank < rank := ends
                obtain ⟨rfl, hrank⟩ := (level k o).mp hk
                rw [o.use_token, hrank] at hlower
                exact absurd hlower (Nat.lt_irrefl rank)
          simp [hnone]

/-- The left operands of a level are read first, down to the leftmost. -/
theorem chain_eq_extend (complete : Complete (rank + 1) operand) (level : IsLevel rank infix?)
    (loose : rank < 4) {t : Term} (stratified : t.Stratified) (tight : rank ≤ t.tightness)
    {rest : List Item} (ends : Ends (rank + 1) rest) :
    ∃ shorter, chain operand infix? (t.items ++ rest) =
      extend operand infix? (t.items ++ rest) ⟨t, rest, shorter⟩ := by
  have tighter {t : Term} (stratified : t.Stratified) (tight : rank < t.tightness)
      {rest : List Item} (ends : Ends (rank + 1) rest) :
      ∃ shorter, chain operand infix? (t.items ++ rest) =
        extend operand infix? (t.items ++ rest) ⟨t, rest, shorter⟩ := by
    obtain ⟨shorter, hread⟩ := complete t stratified tight rest ends
    exact ⟨shorter, by simp [chain, hread]⟩
  -- along the left spine, as far down as operations stand on the level itself
  induction t generalizing rest with
  | numeral _ | constant _ | grouping _ _ =>
      exact tighter stratified (by rw [Term.tightness_of_isLeaf rfl]; omega) ends
  | unary u t _ =>
      refine tighter stratified ?_ ends
      rw [Term.tightness_unary]
      split <;> omega
  | binary o l r ihl _ =>
      by_cases hrank : (Operator.binary o).rank = rank
      · obtain ⟨hleft, hright, hl, hr⟩ := Term.stratified_of_loose (by omega) stratified
        have hbehind : Ends (rank + 1) (.token o.token :: (r.items ++ rest)) := by
          change (o.token.use true).rank < rank + 1
          rw [o.use_token]
          omega
        obtain ⟨shorter, hchain⟩ := ihl hl (by omega) hbehind
        obtain ⟨shorter', hread⟩ := complete r hr (by omega) rest ends
        rw [Term.items_binary, List.append_assoc, List.cons_append, hchain, extend]
        simp only [(level o.token o).mpr ⟨rfl, hrank⟩, hread, Option.bind_eq_bind, Option.bind_some]
        refine ⟨?_, trivial⟩
        simp only [List.length_append, List.length_cons]
        omega
      · have hrank' : (Operator.binary o).rank = (Term.binary o l r).tightness := rfl
        exact tighter stratified (by omega) ends

theorem complete_chain (complete : Complete (rank + 1) operand) (level : IsLevel rank infix?)
    (loose : rank < 4) :
    Complete rank (chain operand infix?) := by
  intro t stratified tight rest ends
  obtain ⟨shorter, hchain⟩ :=
    chain_eq_extend complete level loose stratified tight (ends.mono (Nat.le_succ rank))
  exact ⟨shorter, hchain.trans (extend_of_ends shorter level ends)⟩

end

theorem complete_product : Complete 3 product :=
  complete_chain complete_signed isLevel_factor (by decide)

theorem complete_sum : Complete 2 sum :=
  complete_chain complete_product isLevel_summand (by decide)

theorem complete_remainder : Complete 1 remainder :=
  complete_chain complete_sum isLevel_modulus (by decide)

/-- The reader gives a tree of the grammar back from what it says. -/
theorem read_items {t : Term} (h : t.Stratified) : read t.items = some t := by
  have hread := complete_remainder t h t.tightness_pos [] trivial
  rw [List.append_nil] at hread
  obtain ⟨shorter, hread⟩ := hread
  rw [read, hread]

example : read [.token .ln, .token .minus, .term (.constant .pi), .token .caret,
    .term (.constant .e)] =
      some (.unary .ln (.unary .minus (.binary .pow (.constant .pi) (.constant .e)))) := by
  cbv

end Descent
end LineCalc

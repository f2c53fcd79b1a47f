import LineCalc.Proofs.Diagnosis
import LineCalc.Proofs.InOrder
import LineCalc.Proofs.Scanned

/-!
What a run says, and where its tree says the same. An item is a term or a token without its offset.
Reading the tree of a scanned run from left to right gives the items of the run again, none lost,
none twice and none moved, and the operator that a token became is the one use that the token has in
its place: its binary use behind a term, and its unary use anywhere else.
-/

namespace LineCalc

inductive Item where
  | term (t : Term)
  | token (k : Token)
deriving DecidableEq

namespace Element

def item : Element → Item
  | .term t _ => .term t
  | .group _ inner _ => .term (.grouping inner)
  | .token k _ => .token k
  | .operator o _ => .token o.token

end Element

namespace Piece

/-- An operator is told by its token alone. -/
def item : Piece → Item
  | .operand t => .term t
  | .operator o => .token o.token

@[simp]
theorem item_piece (afterTerm : Bool) (e : Element) : (e.piece afterTerm).item = e.item := by
  cases e with
  | token k offset => exact congrArg Item.token (k.token_use afterTerm)
  | term _ _ | group _ _ _ | operator _ _ => rfl

end Piece

/-- A token has at most one use of either kind. -/
theorem Operator.filter_candidates (o : Operator) :
    (candidates o.token).filter (fun q => q.isUnary == o.isUnary) = [o] := by
  cases o with
  | unary u => cases u <;> rfl
  | binary b => cases b <;> rfl

namespace Sequence

theorem map_item_pieces (afterTerm : Bool) (s : Sequence) :
    (pieces afterTerm s).map Piece.item = s.map Element.item := by
  induction s generalizing afterTerm with
  | nil => rfl
  | cons e rest ih => simp [pieces, ih]

/-- A piece depends on the element and on what stands directly before it. -/
theorem getElem?_pieces (s : Sequence) (i : Nat) :
    (pieces false s)[i]? = s[i]?.map fun e => e.piece (followsTerm s i) := by
  have hbehind (afterTerm : Bool) (s : Sequence) (i : Nat) : (pieces afterTerm s)[i]? =
      s[i]?.map fun e => e.piece (if i = 0 then afterTerm else followsTerm s i) := by
    induction s generalizing afterTerm i with
    | nil => rfl
    | cons e rest ih =>
        cases i with
        | zero => rfl
        | succ i => cases i <;> simp [pieces, ih, followsTerm]
  rw [hbehind]
  cases i <;> rfl

/-- In infix notation the operators behind a term are the binary ones. -/
theorem isUnary_of_formed {afterTerm stop : Bool} {s : Sequence} {i : Nat} {o : Operator}
    (formed : Piece.Formed afterTerm (pieces afterTerm s) stop)
    (found : (pieces afterTerm s)[i]? = some (.operator o)) :
    o.isUnary = !(if i = 0 then afterTerm else followsTerm s i) := by
  induction s generalizing afterTerm i with
  | nil => cases found
  | cons e rest ih =>
      have hrest : Piece.Formed e.isTerm (pieces e.isTerm rest) stop := by
        cases e with
        | term _ _ | group _ _ _ | token _ _ | operator _ _ => exact formed.2
      cases i with
      | zero =>
          have hpiece : e.piece afterTerm = .operator o := Option.some.inj found
          rw [pieces, hpiece] at formed
          exact formed.1
      | succ i =>
          have hfound := ih hrest found
          cases i with
          | zero => exact hfound
          | succ i => exact hfound

/-- What holds of numerals and constants, and of a group once it holds in the run inside, holds of
every term that was scanned. -/
theorem Spells.leaf_induction {motive : Term → Prop} (numeral : ∀ n, motive (.numeral n))
    (constant : ∀ c, motive (.constant c))
    (group : ∀ body inner, (∀ e ∈ body, ∀ t, e.term? = some t → t.isLeaf = true ∧ motive t) →
      condense body = .ok inner → motive (.grouping inner))
    {offset : Nat} {s : Sequence} {text : List Char} (h : Spells offset s text) :
    ∀ e ∈ s, ∀ t, e.term? = some t → t.isLeaf = true ∧ motive t := by
  induction h with
  | nil _ => simp
  | leaf _ leaf _ _ ih =>
      refine List.forall_mem_cons.mpr ⟨?_, ih⟩
      intro t ht
      cases leaf with
      | token _ _ => cases ht
      | constant _ _ =>
          cases ht
          exact ⟨rfl, constant _⟩
      | numeral _ _ _ =>
          cases ht
          exact ⟨rfl, numeral _⟩
  | group _ _ _ _ condenses _ _ ihbody ihrest =>
      refine List.forall_mem_cons.mpr ⟨?_, ihrest⟩
      intro t ht
      cases ht
      exact ⟨rfl, group _ _ ihbody condenses⟩

theorem Spells.isLeaf {offset : Nat} {s : Sequence} {text : List Char} (h : Spells offset s text) :
    ∀ e ∈ s, ∀ t, e.term? = some t → t.isLeaf = true := by
  intro e he t ht
  have hleaf := leaf_induction (motive := fun _ => True) (fun _ => trivial) (fun _ => trivial)
    (fun _ _ _ _ => trivial) h
  exact (hleaf e he t ht).1

/-- The tree of a run says the same as the run. -/
theorem map_item_inOrder {s : Sequence} {t : Term} (condenses : s.condense = .ok t)
    (leaves : ∀ e ∈ s, ∀ t, e.term? = some t → t.isLeaf = true) :
    t.inOrder.map Piece.item = s.map Element.item := by
  rw [inOrder_of_condense condenses leaves, map_item_pieces]

/-- The operator in the place of a token. -/
theorem role_of_condense {s : Sequence} {t : Term} (condenses : s.condense = .ok t)
    (leaves : ∀ e ∈ s, ∀ t, e.term? = some t → t.isLeaf = true) {i : Nat} {k : Token} {offset : Nat}
    (found : s[i]? = some (.token k offset)) :
    ∃ o, t.inOrder[i]? = some (.operator o) ∧
      (Operator.candidates k).filter (fun q => q.isUnary == !followsTerm s i) = [o] := by
  have hformed := (exists_condense_iff s).mp ⟨t, condenses⟩
  have hpiece : (pieces false s)[i]? = some (.operator (k.use (followsTerm s i))) := by
    rw [getElem?_pieces, found]
    rfl
  have hrole : (k.use (followsTerm s i)).isUnary = !followsTerm s i := by
    rw [isUnary_of_formed hformed hpiece]
    cases i <;> rfl
  refine ⟨k.use (followsTerm s i), ?_, ?_⟩
  · rw [inOrder_of_condense condenses leaves, hpiece]
  · have hsole := Operator.filter_candidates (k.use (followsTerm s i))
    rwa [Token.token_use, hrole] at hsole

/-- The tree of a scanned run reads as the run, and every token has become its use of the kind that
its left neighbour asks for. -/
theorem inOrder_of_scanned {limit : Option Nat} {session : Session} {s : Sequence} {t : Term}
    (scanned : (Reading.sequence limit).outcome session = .ok (some s))
    (condenses : s.condense = .ok t) :
    t.inOrder.map Piece.item = s.map Element.item ∧
      ∀ i k offset, s[i]? = some (.token k offset) → ∃ o, t.inOrder[i]? = some (.operator o) ∧
        (Operator.candidates k).filter (fun q => q.isUnary == !followsTerm s i) = [o] := by
  obtain ⟨text, rest, _, spells⟩ := Reading.spells_of_sequence scanned
  exact ⟨map_item_inOrder condenses spells.isLeaf,
    fun i k offset found => role_of_condense condenses spells.isLeaf found⟩

theorem inOrder_of_scanned_signs :
    ∃ s t, (Reading.sequence none).outcome (.start "2--ln(3)") = .ok (some s) ∧
      s.condense = .ok t ∧ t.inOrder.map Piece.item = s.map Element.item ∧
      ∀ i k offset, s[i]? = some (.token k offset) → ∃ o, t.inOrder[i]? = some (.operator o) ∧
        (Operator.candidates k).filter (fun q => q.isUnary == !followsTerm s i) = [o] := by
  have hparse : parse "2--ln(3)" = .ok (.binary .sub (.numeral ⟨.plus, [2], [], none, by simp⟩)
      (.unary .minus (.unary .ln (.grouping (.numeral ⟨.plus, [3], [], none, by simp⟩))))) := by
    decide +kernel
  obtain ⟨s, hscan, hcondense⟩ := scan_of_parse hparse
  have hsequence := sequence_of_scan hscan
  exact ⟨s, _, hsequence, hcondense, inOrder_of_scanned hsequence hcondense⟩

end Sequence
end LineCalc

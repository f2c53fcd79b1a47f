import LineCalc.Proofs.Parentheses
import LineCalc.Proofs.TokenizedText

/-!
The explicit text of a tree determines the tree, also one that no line spells, with numerals that
have a minus of their own. Up to its second parenthesis a text shows what its outermost node is;
from there on the operands follow, each in parentheses of its own. So a text is read from the left
without looking back, and where a tree ends does not depend on what follows it.
-/

namespace LineCalc

theorem Constant.eq_of_chars {c d : Constant} (h : c.chars = d.chars) : c = d := by
  revert h
  cases c <;> cases d <;> decide

theorem UnaryOp.eq_of_chars {o p : UnaryOp} (h : o.token.chars = p.token.chars) : o = p := by
  revert h
  cases o <;> cases p <;> decide

theorem BinaryOp.eq_of_joint {o p : BinaryOp} (h : o.joint = p.joint) : o = p := by
  revert h
  cases o <;> cases p <;> decide

/-- No constant is shown as a numeral is. -/
theorem Numeral.chars_ne_constant (n : Numeral) (c : Constant) : n.chars ≠ c.chars := by
  intro h
  have hread := n.read_chars
  rw [h] at hread
  cases c <;> cases hread

/-- The outermost node of a tree without its operands; of a binary operation, that it is one. -/
inductive Node where
  | numeral (n : Numeral)
  | constant (c : Constant)
  | grouping
  | unary (o : UnaryOp)
  | binary

def Term.node : Term → Node
  | .numeral n => .numeral n
  | .constant c => .constant c
  | .grouping _ => .grouping
  | .unary o _ => .unary o
  | .binary .. => .binary

namespace Node

/-- What stands between the first two parentheses of the explicit text. -/
def lead : Node → List Char
  | .numeral n => n.chars
  | .constant c => c.chars
  | .grouping => [' ']
  | .unary o => o.token.chars
  | .binary => []

/-- The second parenthesis closes the text of a leaf, and otherwise opens an operand. -/
def next : Node → Char
  | .numeral _ | .constant _ => ')'
  | .grouping | .unary _ | .binary => '('

theorem unparenthesized_lead (a : Node) : Unparenthesized a.lead := by
  cases a with
  | numeral n => exact n.unparenthesized_chars
  | constant c => exact c.unparenthesized_chars
  | grouping => decide
  | unary o => exact o.token.unparenthesized_chars
  | binary => decide

theorem isParenthesis_next (a : Node) : isParenthesis a.next = true := by
  cases a <;> rfl

/-- A node can be told from its first characters. -/
theorem eq_of_lead {a b : Node} (lead : a.lead = b.lead) (next : a.next = b.next) : a = b := by
  cases a with
  | numeral m =>
      cases b with
      | numeral n => exact congrArg Node.numeral (Numeral.eq_of_chars_eq lead)
      | constant c => exact absurd lead (m.chars_ne_constant c)
      | grouping | unary _ | binary => cases next
  | constant c =>
      cases b with
      | numeral n => exact absurd lead.symm (n.chars_ne_constant c)
      | constant d => exact congrArg Node.constant (Constant.eq_of_chars lead)
      | grouping | unary _ | binary => cases next
  | grouping =>
      cases b with
      | numeral _ | constant _ => cases next
      | grouping => rfl
      | unary o => cases o <;> cases lead
      | binary => cases lead
  | unary o =>
      cases b with
      | numeral _ | constant _ => cases next
      | grouping => cases o <;> cases lead
      | unary p => exact congrArg Node.unary (UnaryOp.eq_of_chars lead)
      | binary => cases o <;> cases lead
  | binary =>
      cases b with
      | numeral _ | constant _ => cases next
      | grouping => cases lead
      | unary o => cases o <;> cases lead
      | binary => rfl

end Node

/-- A text without parentheses can be told from one that begins with a parenthesis. -/
theorem append_inj_of_parenthesis {front front' text text' : List Char} {c c' : Char}
    (plain : Unparenthesized front) (plain' : Unparenthesized front')
    (hc : isParenthesis c = true) (hc' : isParenthesis c' = true)
    (h : front ++ c :: text = front' ++ c' :: text') :
    front = front' ∧ c = c' ∧ text = text' := by
  have hhead {c : Char} (hc : isParenthesis c = true) (text : List Char) :
      ∀ d ∈ (c :: text).head?, (!isParenthesis d) = false := by
    intro d hd
    cases hd
    rw [hc]
    rfl
  have hfront {front : List Char} (plain : Unparenthesized front) :
      ∀ d ∈ front, (!isParenthesis d) = true := by
    intro d hd
    rw [plain d hd]
    rfl
  obtain ⟨hsame, htail⟩ :=
    append_inj_of_head (hfront plain) (hfront plain') (hhead hc text) (hhead hc' text') h
  exact ⟨hsame, List.cons.inj htail⟩

namespace Term

section
variable (rest : List Char)

theorem explicit_grouping (t : Term) :
    (grouping t).render .explicit ++ rest =
      '(' :: ' ' :: (t.render .explicit ++ ' ' :: ')' :: rest) := by
  simp [render]

theorem explicit_unary (o : UnaryOp) (t : Term) :
    (unary o t).render .explicit ++ rest =
      '(' :: (o.token.chars ++ (t.render .explicit ++ ')' :: rest)) := by
  simp [render, Style.wrap, Operator.fill_unary]

theorem explicit_binary (o : BinaryOp) (l r : Term) :
    (binary o l r).render .explicit ++ rest =
      '(' :: (l.render .explicit ++ (o.joint ++ (r.render .explicit ++ ')' :: rest))) := by
  simp [render, Style.wrap, Operator.fill_joint]

theorem exists_explicit_eq_cons (t : Term) :
    ∃ tail, t.render .explicit ++ rest = '(' :: tail := by
  cases t with
  | numeral _ | constant _ => exact ⟨_, rfl⟩
  | grouping t => exact ⟨_, explicit_grouping rest t⟩
  | unary o t => exact ⟨_, explicit_unary rest o t⟩
  | binary o l r => exact ⟨_, explicit_binary rest o l r⟩

/-- Every text begins with its outermost node, between two parentheses. -/
theorem exists_explicit_eq_node (t : Term) :
    ∃ tail, t.render .explicit ++ rest = '(' :: (t.node.lead ++ t.node.next :: tail) := by
  cases t with
  | numeral n => exact ⟨rest, by simp [render, Style.wrap, node, Node.lead, Node.next]⟩
  | constant c => exact ⟨rest, by simp [render, Style.wrap, node, Node.lead, Node.next]⟩
  | grouping t =>
      obtain ⟨tail, htail⟩ := exists_explicit_eq_cons (' ' :: ')' :: rest) t
      exact ⟨tail, by rw [explicit_grouping, htail]; rfl⟩
  | unary o t =>
      obtain ⟨tail, htail⟩ := exists_explicit_eq_cons (')' :: rest) t
      exact ⟨tail, by rw [explicit_unary, htail]; rfl⟩
  | binary o l r =>
      obtain ⟨tail, htail⟩ :=
        exists_explicit_eq_cons (o.joint ++ (r.render .explicit ++ ')' :: rest)) l
      exact ⟨tail, by rw [explicit_binary, htail]; rfl⟩

end

theorem node_eq_of_explicit {t u : Term} {rest rest' : List Char}
    (h : t.render .explicit ++ rest = u.render .explicit ++ rest') : t.node = u.node := by
  obtain ⟨tail, ht⟩ := exists_explicit_eq_node rest t
  obtain ⟨tail', hu⟩ := exists_explicit_eq_node rest' u
  rw [ht, hu] at h
  obtain ⟨lead, next, _⟩ := append_inj_of_parenthesis t.node.unparenthesized_lead
    u.node.unparenthesized_lead t.node.isParenthesis_next u.node.isParenthesis_next
    (List.cons.inj h).2
  exact Node.eq_of_lead lead next

/-- What stands between the operands can be told where the second one begins. -/
theorem joint_inj {o p : BinaryOp} {r r' : Term} {rest rest' : List Char}
    (h : o.joint ++ (r.render .explicit ++ rest) = p.joint ++ (r'.render .explicit ++ rest')) :
    o = p ∧ r.render .explicit ++ rest = r'.render .explicit ++ rest' := by
  obtain ⟨tail, hr⟩ := exists_explicit_eq_cons rest r
  obtain ⟨tail', hr'⟩ := exists_explicit_eq_cons rest' r'
  rw [hr, hr'] at h ⊢
  obtain ⟨joint, _, htail⟩ :=
    append_inj_of_parenthesis o.unparenthesized_joint p.unparenthesized_joint rfl rfl h
  exact ⟨BinaryOp.eq_of_joint joint, congrArg _ htail⟩

theorem explicit_append_inj {t u : Term} {rest rest' : List Char}
    (h : t.render .explicit ++ rest = u.render .explicit ++ rest') : t = u ∧ rest = rest' := by
  induction t generalizing u rest rest' with
  | numeral n =>
      have hnode := node_eq_of_explicit h
      cases u with
      | numeral _ =>
          cases hnode
          exact ⟨rfl, List.append_cancel_left h⟩
      | constant _ | grouping _ | unary _ _ | binary _ _ _ => cases hnode
  | constant c =>
      have hnode := node_eq_of_explicit h
      cases u with
      | constant _ =>
          cases hnode
          exact ⟨rfl, List.append_cancel_left h⟩
      | numeral _ | grouping _ | unary _ _ | binary _ _ _ => cases hnode
  | grouping t ih =>
      have hnode := node_eq_of_explicit h
      cases u with
      | grouping u =>
          rw [explicit_grouping, explicit_grouping] at h
          obtain ⟨rfl, hrest⟩ := ih (List.cons.inj (List.cons.inj h).2).2
          exact ⟨rfl, (List.cons.inj (List.cons.inj hrest).2).2⟩
      | numeral _ | constant _ | unary _ _ | binary _ _ _ => cases hnode
  | unary o t ih =>
      have hnode := node_eq_of_explicit h
      cases u with
      | unary p u =>
          cases hnode
          rw [explicit_unary, explicit_unary] at h
          obtain ⟨rfl, hrest⟩ := ih (List.append_cancel_left (List.cons.inj h).2)
          exact ⟨rfl, (List.cons.inj hrest).2⟩
      | numeral _ | constant _ | grouping _ | binary _ _ _ => cases hnode
  | binary o l r ihl ihr =>
      have hnode := node_eq_of_explicit h
      cases u with
      | binary p l' r' =>
          rw [explicit_binary, explicit_binary] at h
          obtain ⟨rfl, hbehind⟩ := ihl (List.cons.inj h).2
          obtain ⟨rfl, hright⟩ := joint_inj hbehind
          obtain ⟨rfl, hrest⟩ := ihr hright
          exact ⟨rfl, (List.cons.inj hrest).2⟩
      | numeral _ | constant _ | grouping _ | unary _ _ => cases hnode

/-- Trees are the same if their explicit texts are. -/
theorem text_explicit_inj (t u : Term) : t.text .explicit = u.text .explicit ↔ t = u := by
  constructor
  · intro h
    have hrender : t.render .explicit ++ [] = u.render .explicit ++ [] := by
      rw [String.ofList_injective h]
    exact (explicit_append_inj hrender).1
  · intro h
    rw [h]

-- a negated numeral, and a numeral with a minus of its own
example : (unary .minus (.numeral ⟨.plus, [5], [], none, by simp⟩)).text .explicit = "(-(5))" ∧
    (numeral ⟨.minus, [5], [], none, by simp⟩).text .explicit = "(-5)" := by
  decide

end Term
end LineCalc

import LineCalc.Proofs.RoundTrip

/-!
The parentheses in the texts of a tree. Neither style drops or moves anything of an operation: its
operands stand in the slots of its shape, each once and in order, so the two texts of a tree are the
same but for parentheses. The pretty style writes one pair for each grouping, the explicit style
another for every node that is no grouping, and each pair encloses the text of its node.
-/

namespace LineCalc

def isParenthesis (c : Char) : Bool :=
  c == '(' || c == ')'

/-- No character of the text is a parenthesis. -/
def Unparenthesized (text : List Char) : Prop :=
  ∀ c ∈ text, isParenthesis c = false

instance (text : List Char) : Decidable (Unparenthesized text) :=
  List.decidableBAll (fun c => isParenthesis c = false) text

/-- The text without its parentheses. -/
def stripped (text : List Char) : List Char :=
  text.filter fun c => !isParenthesis c

/-- Every parenthesis that opens is closed, and none is closed before it opens. -/
structure Balanced (text : List Char) : Prop where
  opened : ∀ n, (text.take n).count ')' ≤ (text.take n).count '('
  closed : text.count '(' = text.count ')'

theorem stripped_append (text text' : List Char) :
    stripped (text ++ text') = stripped text ++ stripped text' :=
  List.filter_append ..

theorem Unparenthesized.count_eq_zero {text : List Char} (h : Unparenthesized text) :
    text.count '(' = 0 ∧ text.count ')' = 0 := by
  refine ⟨List.count_eq_zero.mpr ?_, List.count_eq_zero.mpr ?_⟩
  · intro hopen
    cases h '(' hopen
  · intro hclose
    cases h ')' hclose

theorem Unparenthesized.balanced {text : List Char} (h : Unparenthesized text) :
    Balanced text where
  opened n := by
    have hpart : Unparenthesized (text.take n) := fun c hc => h c (List.mem_of_mem_take hc)
    rw [hpart.count_eq_zero.2]
    exact Nat.zero_le _
  closed := by rw [h.count_eq_zero.1, h.count_eq_zero.2]

theorem Balanced.append {text text' : List Char} (h : Balanced text) (h' : Balanced text') :
    Balanced (text ++ text') where
  opened n := by
    simp only [List.take_append, List.count_append]
    exact Nat.add_le_add (h.opened n) (h'.opened (n - text.length))
  closed := by rw [List.count_append, List.count_append, h.closed, h'.closed]

theorem count_open_enclosed (text : List Char) :
    ('(' :: text ++ [')']).count '(' = text.count '(' + 1 := by
  simp

theorem Balanced.enclosed {text : List Char} (h : Balanced text) :
    Balanced ('(' :: text ++ [')']) where
  opened n := by
    cases n with
    | zero => exact Nat.le_refl 0
    | succ n =>
        -- the parenthesis that opens pays for the one that closes
        have hlast : ([')'].take (n - text.length)).count ')' ≤ 1 :=
          (List.take_sublist _ _).count_le ')'
        have hne : '(' ≠ ')' := by decide
        rw [List.cons_append, List.take_succ_cons, List.take_append, List.count_cons_self,
          List.count_cons_of_ne hne, List.count_append, List.count_append]
        have hpart := h.opened n
        omega
  closed := by
    rw [count_open_enclosed, h.closed]
    simp

namespace Style

/-- How many pairs of parentheses the style adds around a piece. -/
def pairs : Style → Nat
  | .pretty => 0
  | .explicit => 1

theorem stripped_wrap (style : Style) (piece : List Char) :
    stripped (style.wrap piece) = stripped piece := by
  cases style with
  | pretty => rfl
  | explicit => simp [wrap, stripped, isParenthesis]

theorem count_open_wrap (style : Style) (piece : List Char) :
    (style.wrap piece).count '(' = piece.count '(' + style.pairs := by
  cases style with
  | pretty => rfl
  | explicit => exact count_open_enclosed piece

theorem balanced_wrap (style : Style) {piece : List Char} (h : Balanced piece) :
    Balanced (style.wrap piece) := by
  cases style with
  | pretty => exact h
  | explicit => exact h.enclosed

end Style

theorem Numeral.unparenthesized_chars (n : Numeral) : Unparenthesized n.chars := by
  have hdigit (d : Digit) : isParenthesis d.char = false := by
    revert d
    decide
  intro c hc
  rcases Numeral.mem_chars hc with ⟨d, rfl⟩ | rfl | rfl | rfl
  · exact hdigit d
  · rfl
  · rfl
  · rfl

theorem Constant.unparenthesized_chars (c : Constant) : Unparenthesized c.chars := by
  cases c <;> decide

theorem Token.unparenthesized_chars (t : Token) : Unparenthesized t.chars := by
  cases t <;> decide

/-- What stands between the operands. -/
def BinaryOp.joint : BinaryOp → List Char
  | .pow => Token.caret.chars
  | o => ' ' :: (o.token.chars ++ [' '])

theorem BinaryOp.unparenthesized_joint (o : BinaryOp) : Unparenthesized o.joint := by
  cases o <;> decide

theorem Operator.fill_joint (o : BinaryOp) (x y : List Char) :
    fill (shape (.binary o)) [x, y] = x ++ (o.joint ++ y) := by
  cases o <;> simp [shape, fill, BinaryOp.joint, BinaryOp.token, Token.chars]

namespace Term

/-- The text of an inner tree between the parentheses of its grouping. -/
theorem render_grouping (style : Style) (t : Term) :
    (grouping t).render style = '(' :: ([' '] ++ (t.render style ++ [' '])) ++ [')'] := by
  simp [render]

/-- How many nodes are groupings. -/
def groupings : Term → Nat
  | .numeral _ | .constant _ => 0
  | .grouping t => t.groupings + 1
  | .unary _ t => t.groupings
  | .binary _ l r => l.groupings + r.groupings

/-- How many nodes are numerals, constants or operations. -/
def bareNodes : Term → Nat
  | .numeral _ | .constant _ => 1
  | .grouping t => t.bareNodes
  | .unary _ t => t.bareNodes + 1
  | .binary _ l r => l.bareNodes + r.bareNodes + 1

theorem stripped_render (t : Term) :
    stripped (t.render .explicit) = stripped (t.render .pretty) := by
  induction t with
  | numeral _ | constant _ => simp only [render, Style.stripped_wrap]
  | grouping t ih => simp only [render, stripped_append, ih]
  | unary o t ih =>
      simp only [render, Style.stripped_wrap, Operator.fill_unary, stripped_append, ih]
  | binary o l r ihl ihr =>
      simp only [render, Style.stripped_wrap, Operator.fill_joint, stripped_append, ihl, ihr]

theorem balanced_render (style : Style) (t : Term) : Balanced (t.render style) := by
  induction t with
  | numeral n => exact style.balanced_wrap n.unparenthesized_chars.balanced
  | constant c => exact style.balanced_wrap c.unparenthesized_chars.balanced
  | grouping t ih =>
      have hspace : Unparenthesized [' '] := by decide
      rw [render_grouping]
      exact (hspace.balanced.append (ih.append hspace.balanced)).enclosed
  | unary o t ih =>
      rw [render, Operator.fill_unary]
      exact style.balanced_wrap (o.token.unparenthesized_chars.balanced.append ih)
  | binary o l r ihl ihr =>
      rw [render, Operator.fill_joint]
      exact style.balanced_wrap (ihl.append (o.unparenthesized_joint.balanced.append ihr))

theorem count_open_render (style : Style) (t : Term) :
    (t.render style).count '(' = t.groupings + t.bareNodes * style.pairs := by
  induction t with
  | numeral n =>
      rw [render, Style.count_open_wrap, n.unparenthesized_chars.count_eq_zero.1, groupings,
        bareNodes, Nat.one_mul]
  | constant c =>
      rw [render, Style.count_open_wrap, c.unparenthesized_chars.count_eq_zero.1, groupings,
        bareNodes, Nat.one_mul]
  | grouping t ih =>
      have hspace : [' '].count '(' = 0 := by decide
      rw [render_grouping, count_open_enclosed, List.count_append, List.count_append, hspace, ih,
        groupings, bareNodes]
      omega
  | unary o t ih =>
      rw [render, Operator.fill_unary, Style.count_open_wrap, List.count_append,
        o.token.unparenthesized_chars.count_eq_zero.1, ih, groupings, bareNodes, Nat.add_mul]
      omega
  | binary o l r ihl ihr =>
      rw [render, Operator.fill_joint, Style.count_open_wrap, List.count_append, List.count_append,
        o.unparenthesized_joint.count_eq_zero.1, ihl, ihr, groupings, bareNodes, Nat.add_mul,
        Nat.add_mul]
      omega

/-- The explicit text of a tree is its pretty text with further pairs of parentheses, one for every
node that is no grouping. -/
theorem explicit_adds_parentheses (t : Term) :
    stripped (t.text .explicit).toList = stripped (t.text .pretty).toList ∧
      Balanced (t.text .explicit).toList ∧ Balanced (t.text .pretty).toList ∧
      (t.text .explicit).toList.count '(' =
        (t.text .pretty).toList.count '(' + t.bareNodes ∧
      (t.text .pretty).toList.count '(' = t.groupings := by
  have hpretty := count_open_render .pretty t
  have hexplicit := count_open_render .explicit t
  simp only [Style.pairs, Nat.mul_zero, Nat.mul_one, Nat.add_zero] at hpretty hexplicit
  simp only [text, String.toList_ofList]
  refine ⟨stripped_render t, balanced_render .explicit t, balanced_render .pretty t, ?_, hpretty⟩
  rw [hexplicit, hpretty]

end Term
end LineCalc

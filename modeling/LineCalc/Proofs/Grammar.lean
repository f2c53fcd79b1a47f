import LineCalc.Proofs.Scanning

/-!
The language of lines. The grammar is stated of characters alone, without elements, tokens or
numerals: an expression is operands with infix operators between them, an operand is an atom behind
prefix operators, and blanks may stand before each of these. A derivation counts the elements that
it puts in a row, because no more than a certain number may stand between two parentheses. A line
has a tree exactly if it is an expression and blanks.
-/

namespace LineCalc
namespace Grammar

def Prefix (text : List Char) : Prop :=
  text ∈ [['+'], ['-'], ['l', 'n'], ['l', 'o', 'g']]

def Infix (text : List Char) : Prop :=
  text ∈ [['+'], ['-'], ['*'], ['/'], ['%'], ['^'], ['m', 'o', 'd']]

/-- The names of the constants, in capitals or not. -/
def Name (text : List Char) : Prop :=
  text.map Char.toLower ∈ [['p', 'i'], ['e']]

def Digits (text : List Char) : Prop :=
  text ≠ [] ∧ ∀ c ∈ text, c.isDigit = true

/-- Digits with a point before, among or behind them, or without one. -/
inductive Magnitude : List Char → Prop where
  | whole {i : List Char} (integer : Digits i) : Magnitude i
  | pointed {i d : List Char} (integer : Digits i) (decimal : d = [] ∨ Digits d) :
      Magnitude (i ++ '.' :: d)
  | fraction {d : List Char} (decimal : Digits d) : Magnitude ('.' :: d)

inductive Scale : List Char → Prop where
  | none : Scale []
  | marked {marker : Char} {sign d : List Char} (isMarker : marker = 'e' ∨ marker = 'E')
      (isSign : sign = [] ∨ sign = ['+'] ∨ sign = ['-']) (digits : Digits d) :
      Scale (marker :: (sign ++ d))

inductive Unsigned : List Char → Prop where
  | intro {m x : List Char} (magnitude : Magnitude m) (scale : Scale x) : Unsigned (m ++ x)

inductive Symbol where
  | atom | operand | expression

/-- The elements of a text that a symbol derives are counted at its own level; a group is one. -/
inductive Derives : Symbol → Nat → List Char → Prop where
  | constant {w x : List Char} (blank : Blank w) (name : Name x) : Derives .atom 1 (w ++ x)
  | numeral {w x : List Char} (blank : Blank w) (unsigned : Unsigned x) : Derives .atom 1 (w ++ x)
  | group {n : Nat} {w x v : List Char} (blank : Blank w) (blank' : Blank v) (bounded : n ≤ 31)
      (inside : Derives .expression n x) : Derives .atom 1 (w ++ '(' :: (x ++ (v ++ [')'])))
  | bare {n : Nat} {x : List Char} (atom : Derives .atom n x) : Derives .operand n x
  | prefixed {n : Nat} {w p x : List Char} (blank : Blank w) (isPrefix : Prefix p)
      (operand : Derives .operand n x) : Derives .operand (1 + n) (w ++ (p ++ x))
  | single {n : Nat} {x : List Char} (operand : Derives .operand n x) : Derives .expression n x
  | infixed {m n : Nat} {x w p y : List Char} (operand : Derives .operand m x) (blank : Blank w)
      (isInfix : Infix p) (rest : Derives .expression n y) :
      Derives .expression (m + (1 + n)) (x ++ (w ++ (p ++ y)))

/-- An expression and blanks. -/
def Accepts (line : String) : Prop :=
  ∃ n x w, Derives .expression n x ∧ Blank w ∧ line.toList = x ++ w

private theorem exists_digit {c : Char} (h : c.isDigit = true) : ∃ d, c = Digit.char d := by
  simp only [Char.isDigit, Bool.and_eq_true, decide_eq_true_eq, ge_iff_le, UInt32.le_iff_toNat_le]
    at h
  have hfound : Digit.ofChar? c = some ⟨c.toNat - '0'.toNat, by
      have : '9'.toNat = '0'.toNat + 9 := rfl
      have hle : c.toNat ≤ '9'.toNat := h.2
      omega⟩ := dif_pos h
  exact ⟨_, (Digit.char_of_ofChar? hfound).symm⟩

private theorem isDigit_char (d : Digit) : d.char.isDigit = true := by
  revert d
  decide

theorem digits_iff (text : List Char) :
    Digits text ↔ ∃ ds : List Digit, ds ≠ [] ∧ text = ds.map Digit.char := by
  constructor
  · intro h
    obtain ⟨hne, hall⟩ := h
    have hdigits : ∃ ds : List Digit, text = ds.map Digit.char := by
      clear hne
      induction text with
      | nil => exact ⟨[], rfl⟩
      | cons c text ih =>
          obtain ⟨hc, hrest⟩ := List.forall_mem_cons.mp hall
          obtain ⟨d, rfl⟩ := exists_digit hc
          obtain ⟨ds, rfl⟩ := ih hrest
          exact ⟨d :: ds, rfl⟩
    obtain ⟨ds, rfl⟩ := hdigits
    exact ⟨ds, by simpa using hne, rfl⟩
  · intro h
    obtain ⟨ds, hne, rfl⟩ := h
    refine ⟨by simpa using hne, ?_⟩
    intro c hc
    obtain ⟨d, _, rfl⟩ := List.mem_map.mp hc
    exact isDigit_char d

private theorem sign_iff (text : List Char) :
    text = [] ∨ text = ['+'] ∨ text = ['-'] ↔ ∃ sign : Sign, sign.Spells text := by
  constructor
  · intro h
    cases h with
    | inl h => exact ⟨.plus, h ▸ .unwritten⟩
    | inr h =>
        cases h with
        | inl h => exact ⟨.plus, h ▸ .plus⟩
        | inr h => exact ⟨.minus, h ▸ .minus⟩
  · intro h
    obtain ⟨sign, h⟩ := h
    cases h with
    | unwritten => exact .inl rfl
    | plus => exact .inr (.inl rfl)
    | minus => exact .inr (.inr rfl)

theorem scale_iff (text : List Char) :
    Scale text ↔ ∃ x : Option Exponent, Exponent.Spells x text := by
  constructor
  · intro h
    cases h with
    | none => exact ⟨none, .none⟩
    | @marked marker sign d isMarker isSign digits =>
        obtain ⟨s, hs⟩ := (sign_iff sign).mp isSign
        obtain ⟨ds, hne, rfl⟩ := (digits_iff d).mp digits
        exact ⟨some ⟨s, ds, hne⟩,
          .marked ⟨s, ds, hne⟩ (by simpa [Exponent.isMarker] using isMarker) hs⟩
  · intro h
    obtain ⟨x, h⟩ := h
    cases h with
    | none => exact .none
    | @marked marker sign x isMarker signSpells =>
        exact .marked (by simpa [Exponent.isMarker] using isMarker)
          ((sign_iff sign).mpr ⟨_, signSpells⟩) ((digits_iff _).mpr ⟨_, x.digits_ne_nil, rfl⟩)

theorem magnitude_iff (text : List Char) :
    Magnitude text ↔ ∃ (integer decimal : List Digit) (fraction : List Char),
      (integer ≠ [] ∨ decimal ≠ []) ∧ Numeral.FractionSpells decimal fraction ∧
        text = integer.map Digit.char ++ fraction := by
  constructor
  · intro h
    cases h with
    | whole integer =>
        obtain ⟨i, hi, rfl⟩ := (digits_iff _).mp integer
        exact ⟨i, [], [], .inl hi, .unwritten, (List.append_nil _).symm⟩
    | pointed integer decimal =>
        obtain ⟨i, hi, rfl⟩ := (digits_iff _).mp integer
        cases decimal with
        | inl hnil => exact ⟨i, [], ['.'], .inl hi, .pointed [], by rw [hnil]⟩
        | inr decimal =>
            obtain ⟨d, _, rfl⟩ := (digits_iff _).mp decimal
            exact ⟨i, d, _, .inl hi, .pointed d, rfl⟩
    | fraction decimal =>
        obtain ⟨d, hd, rfl⟩ := (digits_iff _).mp decimal
        exact ⟨[], d, _, .inr hd, .pointed d, rfl⟩
  · intro h
    obtain ⟨integer, decimal, fraction, hne, hfraction, rfl⟩ := h
    cases integer with
    | nil =>
        have hdecimal := hne.resolve_left (absurd rfl)
        cases hfraction with
        | unwritten => exact absurd rfl hdecimal
        | pointed _ => exact .fraction ((digits_iff _).mpr ⟨decimal, hdecimal, rfl⟩)
    | cons d integer =>
        have hinteger : Digits ((d :: integer).map Digit.char) :=
          (digits_iff _).mpr ⟨d :: integer, by simp, rfl⟩
        cases hfraction with
        | unwritten =>
            rw [List.append_nil]
            exact .whole hinteger
        | pointed _ =>
            cases decimal with
            | nil => exact .pointed hinteger (.inl rfl)
            | cons d' decimal =>
                exact .pointed hinteger (.inr ((digits_iff _).mpr ⟨_, by simp, rfl⟩))

/-- The unsigned numerals are the spellings that do not begin with a sign. -/
theorem unsigned_iff (text : List Char) :
    Unsigned text ↔
      ∃ n : Numeral, n.Spells text ∧ ∀ c ∈ text.head?, Sign.ofChar? c = none := by
  constructor
  · intro h
    cases h with
    | intro magnitude scale =>
        obtain ⟨integer, decimal, fraction, hne, hfraction, rfl⟩ := (magnitude_iff _).mp magnitude
        obtain ⟨x, hx⟩ := (scale_iff _).mp scale
        refine ⟨⟨.plus, integer, decimal, x, hne⟩, ?_, ?_⟩
        · rw [List.append_assoc]
          exact .intro ⟨.plus, integer, decimal, x, hne⟩ .unwritten hfraction hx
        · rw [List.append_assoc]
          exact Numeral.not_sign_magnitude ⟨.plus, integer, decimal, x, hne⟩ hfraction _
  · intro h
    obtain ⟨n, hspells, unsigned⟩ := h
    cases hspells with
    | @intro sign fraction exponent n signSpells fractionSpells exponentSpells =>
        obtain ⟨numeralSign, integer, decimal, x, has_digits⟩ := n
        cases signSpells with
        | plus => cases unsigned '+' rfl
        | minus => cases unsigned '-' rfl
        | unwritten =>
            rw [List.nil_append, ← List.append_assoc]
            exact .intro ((magnitude_iff _).mpr ⟨_, _, _, has_digits, fractionSpells, rfl⟩)
              ((scale_iff _).mpr ⟨x, exponentSpells⟩)

/-- The prefix operators are the tokens with a use that stands before an operand. -/
theorem prefix_iff (text : List Char) :
    Prefix text ↔ ∃ t : Token, text = t.chars ∧ (t.use false).isUnary = true := by
  have hall : ∀ x ∈ [['+'], ['-'], ['l', 'n'], ['l', 'o', 'g']],
      ∃ t ∈ Token.all, x = t.chars ∧ (t.use false).isUnary = true := by decide
  constructor
  · intro h
    obtain ⟨t, _, ht⟩ := hall text h
    exact ⟨t, ht⟩
  · intro h
    obtain ⟨t, rfl, hunary⟩ := h
    cases t with
    | ln | log | plus | minus => simp [Prefix, Token.chars]
    | caret | star | slash | percent | mod => cases hunary

/-- The infix operators are the tokens with a use that stands between two operands. -/
theorem infix_iff (text : List Char) :
    Infix text ↔ ∃ t : Token, text = t.chars ∧ (t.use true).isUnary = false := by
  have hall : ∀ x ∈ [['+'], ['-'], ['*'], ['/'], ['%'], ['^'], ['m', 'o', 'd']],
      ∃ t ∈ Token.all, x = t.chars ∧ (t.use true).isUnary = false := by decide
  constructor
  · intro h
    obtain ⟨t, _, ht⟩ := hall text h
    exact ⟨t, ht⟩
  · intro h
    obtain ⟨t, rfl, hbinary⟩ := h
    cases t with
    | caret | plus | minus | star | slash | percent | mod => simp [Infix, Token.chars]
    | ln | log => cases hbinary

theorem name_iff (text : List Char) :
    Name text ↔ ∃ k : Constant, text.map Char.toLower = k.chars := by
  constructor
  · intro h
    cases List.mem_cons.mp h with
    | inl h => exact ⟨.pi, h⟩
    | inr h => exact ⟨.e, List.mem_singleton.mp h⟩
  · intro h
    obtain ⟨k, h⟩ := h
    rw [Name, h]
    cases k <;> simp [Constant.chars]

/-- A prefix operator belongs to the first operand of an expression. -/
private theorem Derives.prepend {n : Nat} {w p x : List Char} (blank : Blank w)
    (isPrefix : Prefix p) (h : Derives .expression n x) :
    Derives .expression (1 + n) (w ++ (p ++ x)) := by
  cases h with
  | single operand => exact .single (.prefixed blank isPrefix operand)
  | infixed operand blank' isInfix rest =>
      have h := Derives.infixed (.prefixed blank isPrefix operand) blank' isInfix rest
      simpa only [List.append_assoc, Nat.add_assoc] using h

/-- What may stand behind an operand: nothing, or an infix operator and an expression. -/
private def Continues (n : Nat) (text : List Char) : Prop :=
  (n = 0 ∧ text = []) ∨
    ∃ m w p y, Blank w ∧ Infix p ∧ Derives .expression m y ∧ n = 1 + m ∧ text = w ++ (p ++ y)

private theorem Derives.extend {n : Nat} {x y : List Char} (atom : Derives .atom 1 x)
    (rest : Continues n y) : Derives .expression (1 + n) (x ++ y) := by
  cases rest with
  | inl hnil =>
      obtain ⟨rfl, rfl⟩ := hnil
      rw [List.append_nil]
      exact .single (.bare atom)
  | inr hbetween =>
      obtain ⟨m, w, p, y, blank, isInfix, rest, rfl, rfl⟩ := hbetween
      exact .infixed (.bare atom) blank isInfix rest

private theorem derives_of_spells {offset : Nat} {s : Sequence} {text : List Char}
    (h : Sequence.Spells offset s text) :
    (Piece.Formed false (Sequence.pieces false s) true →
      Derives .expression (List.length s) text) ∧
    (Piece.Formed true (Sequence.pieces true s) true → Continues (List.length s) text) := by
  induction h with
  | nil offset =>
      refine ⟨?_, fun _ => .inl ⟨rfl, rfl⟩⟩
      intro formed
      cases formed
  | @leaf offset e s w spelling text blank leaf stands rest ih =>
      rw [List.length_cons, Nat.add_comm]
      cases leaf with
      | token t p =>
          refine ⟨?_, ?_⟩
          · intro formed
            exact Derives.prepend blank ((prefix_iff _).mpr ⟨t, rfl, formed.1⟩) (ih.1 formed.2)
          · intro formed
            exact .inr ⟨_, w, t.chars, text, blank, (infix_iff _).mpr ⟨t, rfl, formed.1⟩,
              ih.1 formed.2, rfl, rfl⟩
      | constant p letters =>
          refine ⟨?_, fun formed => absurd formed.1 (by simp)⟩
          intro formed
          rw [← List.append_assoc]
          exact Derives.extend (.constant blank ((name_iff _).mpr ⟨_, letters⟩)) (ih.2 formed.2)
      | numeral p spells unsigned =>
          refine ⟨?_, fun formed => absurd formed.1 (by simp)⟩
          intro formed
          rw [← List.append_assoc]
          exact Derives.extend (.numeral blank ((unsigned_iff _).mpr ⟨_, spells, unsigned⟩))
            (ih.2 formed.2)
  | @group offset body s inner w inside v text blank blank' nonempty bounded condenses spells rest
      ihbody ihrest =>
      rw [List.length_cons, Nat.add_comm (List.length s) 1]
      refine ⟨?_, fun formed => absurd formed.1 (by simp)⟩
      intro formed
      have hbody := ihbody.1 ((Sequence.exists_condense_iff body).mp ⟨inner, condenses⟩)
      have hgroup := Derives.extend (.group blank blank' bounded hbody) (ihrest.2 formed.2)
      simpa only [List.append_assoc, List.cons_append, List.nil_append] using hgroup

private theorem formed_of_isTerm {e : Element} (h : e.isTerm = true) :
    Piece.Formed false (Sequence.pieces false [e]) true := by
  cases e with
  | term _ _ | group _ _ _ => exact ⟨rfl, rfl⟩
  | token _ _ | operator _ _ => cases h

private theorem spells_of_derives {symbol : Symbol} {n : Nat} {text : List Char}
    (h : Derives symbol n text) (offset : Nat) :
    ∃ s, Sequence.Spells offset s text ∧ List.length s = n ∧
      Piece.Formed false (Sequence.pieces false s) true := by
  induction h generalizing offset with
  | @constant w x blank name =>
      obtain ⟨k, letters⟩ := (name_iff x).mp name
      exact ⟨[.term (.constant k) (offset + w.length)],
        Sequence.spells_leaf blank (.constant _ letters) rfl, rfl, formed_of_isTerm rfl⟩
  | @numeral w x blank unsigned =>
      obtain ⟨n, spells, unsigned⟩ := (unsigned_iff x).mp unsigned
      exact ⟨[.term (.numeral n) (offset + w.length)],
        Sequence.spells_leaf blank (.numeral _ spells unsigned) rfl, rfl, formed_of_isTerm rfl⟩
  | @group n w x v blank blank' bounded inside ih =>
      obtain ⟨body, spells, rfl, hformed⟩ := ih (offset + w.length + 1)
      obtain ⟨inner, condenses⟩ := (Sequence.exists_condense_iff body).mpr hformed
      have hne : body ≠ [] := by
        intro hnil
        subst hnil
        cases hformed
      exact ⟨[.group body inner (offset + w.length)],
        .group blank blank' hne bounded condenses spells (.nil _), rfl, formed_of_isTerm rfl⟩
  | bare _ ih => exact ih offset
  | single _ ih => exact ih offset
  | @prefixed n w p x blank isPrefix operand ih =>
      obtain ⟨t, rfl, hunary⟩ := (prefix_iff p).mp isPrefix
      obtain ⟨s, spells, rfl, hformed⟩ := ih (offset + (w.length + t.chars.length))
      exact ⟨.token t (offset + w.length) :: s, .leaf blank (.token t _) rfl spells,
        Nat.add_comm _ 1, hunary, hformed⟩
  | @infixed m n x w p y operand blank isInfix rest ihoperand ihrest =>
      obtain ⟨t, rfl, hbinary⟩ := (infix_iff p).mp isInfix
      obtain ⟨s, spells, rfl, hformed⟩ := ihoperand offset
      obtain ⟨s', spells', rfl, hformed'⟩ :=
        ihrest (offset + x.length + (w.length + t.chars.length))
      have hend : Sequence.endsInTerm false s = true :=
        ((Sequence.formed_pieces_iff false s).mp hformed).2.1
      refine ⟨s ++ .token t (offset + x.length + w.length) :: s',
        spells.append (.leaf blank (.token t _) rfl spells'), ?_, ?_⟩
      · simp only [List.length_append, List.length_cons]
        omega
      · rw [Sequence.pieces_append, hend, Piece.formed_append]
        exact ⟨true, hformed, hbinary, hformed'⟩

/-- A line has a tree exactly if the grammar accepts it. -/
theorem exists_parse_iff (line : String) : (∃ t, parse line = .ok t) ↔ Accepts line := by
  constructor
  · intro h
    obtain ⟨t, ht⟩ := h
    obtain ⟨s, text, w, hline, blank, spells, hcondense⟩ := (parse_eq_ok_iff line t).mp ht
    have hformed := (Sequence.exists_condense_iff s).mp ⟨t, hcondense⟩
    exact ⟨_, text, w, (derives_of_spells spells).1 hformed, blank, hline⟩
  · intro h
    obtain ⟨n, text, w, derives, blank, hline⟩ := h
    obtain ⟨s, spells, _, hformed⟩ := spells_of_derives derives 0
    obtain ⟨t, hcondense⟩ := (Sequence.exists_condense_iff s).mpr hformed
    exact ⟨t, (parse_eq_ok_iff line t).mpr ⟨s, text, w, hline, blank, spells, hcondense⟩⟩

end Grammar
end LineCalc

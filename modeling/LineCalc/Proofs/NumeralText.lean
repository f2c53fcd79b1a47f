import LineCalc.Numeral.Reader

/-!
The spellings of a numeral. A plus sign, a point without digits behind it and the case of the
exponent marker may differ between spellings of one numeral; all else is fixed by its digits. The
reader finds a numeral exactly where one of its spellings stands and could take nothing more from
what follows, and the text that a numeral is shown as is one of its spellings.
-/

namespace LineCalc

namespace Digit

/-- Does a text begin with something other than a digit, if with anything? -/
def Ends (text : List Char) : Prop :=
  ∀ c ∈ text.head?, ofChar? c = none

theorem leading_append {text : List Char} (h : Ends text) (digits : List Digit) :
    leading (digits.map char ++ text) = (digits, text) := by
  induction digits with
  | cons d digits ih => simp [leading, ofChar?_char, ih]
  | nil =>
      cases text with
      | nil => rfl
      | cons c rest => simp [leading, h c rfl]

theorem ends_leading (text : List Char) : Ends (leading text).2 := by
  induction text with
  | nil =>
      intro c hc
      cases hc
  | cons c rest ih =>
      cases h : ofChar? c with
      | some d => simpa [leading, h] using ih
      | none =>
          intro c' hc
          rw [leading, h] at hc
          cases hc
          exact h

theorem not_sign_char (d : Digit) : Sign.ofChar? d.char = none := by
  revert d
  decide

end Digit

namespace Sign

inductive Spells : Sign → List Char → Prop where
  | unwritten : Spells .plus []
  | plus : Spells .plus ['+']
  | minus : Spells .minus ['-']

theorem spells_chars (sign : Sign) : sign.Spells sign.chars := by
  cases sign with
  | plus => exact .unwritten
  | minus => exact .minus

theorem leading_append {sign : Sign} {spelling text : List Char} (h : sign.Spells spelling)
    (ends : ∀ c ∈ text.head?, ofChar? c = none) :
    leading (spelling ++ text) = (sign, text) := by
  cases h with
  | plus => rfl
  | minus => rfl
  | unwritten =>
      cases text with
      | nil => rfl
      | cons c rest => simp [leading, ends c rfl]

theorem spells_of_leading (text : List Char) :
    ∃ spelling, text = spelling ++ (leading text).2 ∧ (leading text).1.Spells spelling := by
  cases text with
  | nil => exact ⟨[], rfl, .unwritten⟩
  | cons c rest =>
      by_cases hplus : c = '+'
      · exact ⟨['+'], by rw [hplus]; rfl, by rw [hplus]; exact .plus⟩
      · by_cases hminus : c = '-'
        · exact ⟨['-'], by rw [hminus]; rfl, by rw [hminus]; exact .minus⟩
        · have hnone : ofChar? c = none := by simp [ofChar?]
          exact ⟨[], by simp [leading, hnone], by simpa [leading, hnone] using .unwritten⟩

end Sign

namespace Exponent

/-- The spellings of an exponent, and of none at all. -/
inductive Spells : Option Exponent → List Char → Prop where
  | none : Spells none []
  | marked {marker : Char} {sign : List Char} (x : Exponent) (isMarker : isMarker marker = true)
      (signSpells : x.sign.Spells sign) :
      Spells (some x) (marker :: (sign ++ x.digits.map Digit.char))

theorem spells_chars (x : Option Exponent) : Spells x ((x.map chars).getD []) := by
  cases x with
  | none => exact .none
  | some x => exact .marked x rfl x.sign.spells_chars

theorem not_digit_of_isMarker {c : Char} (h : isMarker c = true) : Digit.ofChar? c = none := by
  cases Bool.or_eq_true_iff.mp h with
  | inl h => rw [beq_iff_eq.mp h]; rfl
  | inr h => rw [beq_iff_eq.mp h]; rfl

end Exponent

namespace Numeral

/-- The spellings of the digits behind the point, or of none. -/
inductive FractionSpells : List Digit → List Char → Prop where
  | unwritten : FractionSpells [] []
  | pointed (digits : List Digit) : FractionSpells digits ('.' :: digits.map Digit.char)

inductive Spells : Numeral → List Char → Prop where
  | intro {sign fraction exponent : List Char} (n : Numeral) (signSpells : n.sign.Spells sign)
      (fractionSpells : FractionSpells n.decimal fraction)
      (exponentSpells : Exponent.Spells n.exponent exponent) :
      Spells n (sign ++ (n.integer.map Digit.char ++ (fraction ++ exponent)))

/-- Does a text begin with something that cannot belong to a numeral, if with anything? -/
def Ends (text : List Char) : Prop :=
  ∀ c ∈ text.head?, Digit.ofChar? c = none ∧ c ≠ '.' ∧ Exponent.isMarker c = false

/-- Does a text begin with nothing that a spelling before it could take? Behind an exponent that is
a digit, behind a point also an exponent marker, and before either also a point. -/
def EndsBefore (spelling text : List Char) : Prop :=
  ∀ c ∈ text.head?, Digit.ofChar? c = none ∧
    (spelling.any Exponent.isMarker = true ∨
      Exponent.isMarker c = false ∧ ('.' ∈ spelling ∨ c ≠ '.'))

theorem Ends.endsBefore {text : List Char} (h : Ends text) (spelling : List Char) :
    EndsBefore spelling text := by
  intro c hc
  obtain ⟨hdigit, hpoint, hmarker⟩ := h c hc
  exact ⟨hdigit, .inr ⟨hmarker, .inr hpoint⟩⟩

theorem fractionSpells_decimal (n : Numeral) :
    FractionSpells n.decimal
      (if n.decimal = [] then [] else '.' :: n.decimal.map Digit.char) := by
  by_cases h : n.decimal = []
  · rw [if_pos h, h]
    exact .unwritten
  · rw [if_neg h]
    exact .pointed n.decimal

/-- The text that a numeral is shown as is a spelling of it. -/
theorem spells_chars (n : Numeral) : n.Spells n.chars := by
  have h := Spells.intro n n.sign.spells_chars n.fractionSpells_decimal
    (Exponent.spells_chars n.exponent)
  simpa only [chars, List.append_assoc] using h

/-- The characters that a numeral is shown with. -/
theorem mem_chars {n : Numeral} {c : Char} (h : c ∈ n.chars) :
    (∃ d, c = Digit.char d) ∨ c = '-' ∨ c = '.' ∨ c = 'E' := by
  have hdigits {digits : List Digit} (hc : c ∈ digits.map Digit.char) :
      ∃ d, c = Digit.char d := by
    obtain ⟨d, _, rfl⟩ := List.mem_map.mp hc
    exact ⟨d, rfl⟩
  have hsign {sign : Sign} (hc : c ∈ sign.chars) : c = '-' := by
    cases sign with
    | plus => cases hc
    | minus => exact List.mem_singleton.mp hc
  simp only [chars, List.mem_append] at h
  rcases h with ((h | h) | h) | h
  · exact .inr (.inl (hsign h))
  · exact .inl (hdigits h)
  · split at h
    next => cases h
    next =>
      cases List.mem_cons.mp h with
      | inl hpoint => exact .inr (.inr (.inl hpoint))
      | inr h => exact .inl (hdigits h)
  · cases hexponent : n.exponent with
    | none => simp [hexponent] at h
    | some x =>
        simp only [hexponent, Option.map_some, Option.getD_some, Exponent.chars, List.mem_cons,
          List.mem_append] at h
        rcases h with hmarker | h | h
        · exact .inr (.inr (.inr hmarker))
        · exact .inr (.inl (hsign h))
        · exact .inl (hdigits h)

private theorem plain_digits (digits : List Digit) :
    (digits.map Digit.char).any Exponent.isMarker = false ∧ '.' ∉ digits.map Digit.char := by
  have hdigit (d : Digit) : Exponent.isMarker d.char = false ∧ d.char ≠ '.' := by
    revert d
    decide
  refine ⟨?_, ?_⟩
  · rw [List.any_eq_false]
    intro c hc
    obtain ⟨d, _, rfl⟩ := List.mem_map.mp hc
    simp [(hdigit d).1]
  · intro hc
    obtain ⟨d, _, hd⟩ := List.mem_map.mp hc
    exact (hdigit d).2 hd

private theorem plain_sign {numeralSign : Sign} {sign : List Char} (h : numeralSign.Spells sign) :
    sign.any Exponent.isMarker = false ∧ '.' ∉ sign := by
  cases h <;> decide

private theorem pointed_fraction {digits : List Digit} {fraction : List Char}
    (h : FractionSpells digits fraction) :
    fraction.any Exponent.isMarker = false ∧ ('.' ∈ fraction ↔ fraction ≠ []) := by
  cases h with
  | unwritten => simp
  | pointed digits =>
      refine ⟨?_, by simp⟩
      rw [List.any_cons, (plain_digits digits).1]
      rfl

private theorem marked_exponent {x : Option Exponent} {exponent : List Char}
    (h : Exponent.Spells x exponent) : exponent.any Exponent.isMarker = true ↔ exponent ≠ [] := by
  cases h with
  | none => simp
  | marked x isMarker _ => simp [isMarker]

/-- What ends a spelling depends on how far the spelling goes. -/
theorem endsBefore_iff {n : Numeral} {sign fraction exponent text : List Char}
    (signSpells : n.sign.Spells sign) (fractionSpells : FractionSpells n.decimal fraction)
    (exponentSpells : Exponent.Spells n.exponent exponent) :
    EndsBefore (sign ++ (n.integer.map Digit.char ++ (fraction ++ exponent))) text ↔
      Digit.Ends text ∧ (exponent = [] → (∀ c ∈ text.head?, Exponent.isMarker c = false) ∧
        (fraction = [] → ∀ c ∈ text.head?, c ≠ '.')) := by
  have hsign := plain_sign signSpells
  have hdigits := plain_digits n.integer
  have hfraction := pointed_fraction fractionSpells
  have hexponent := marked_exponent exponentSpells
  cases text with
  | nil => simp [EndsBefore, Digit.Ends]
  | cons c rest =>
      by_cases hnil : exponent = []
      · simp [EndsBefore, Digit.Ends, hnil, hsign, hdigits, hfraction,
          Decidable.or_iff_not_imp_left]
      · simp [EndsBefore, Digit.Ends, hnil, hexponent]

private theorem not_sign_digits {digits : List Digit} (h : digits ≠ []) (text : List Char) :
    ∀ c ∈ (digits.map Digit.char ++ text).head?, Sign.ofChar? c = none := by
  cases digits with
  | nil => exact absurd rfl h
  | cons d digits =>
      intro c hc
      cases hc
      exact d.not_sign_char

theorem exponent_read_append {x : Option Exponent} {spelling text : List Char}
    (h : Exponent.Spells x spelling) (digits : Digit.Ends text)
    (unmarked : spelling = [] → ∀ c ∈ text.head?, Exponent.isMarker c = false) :
    Exponent.read (spelling ++ text) = x.map fun x => (some x, text) := by
  cases h with
  | none =>
      cases text with
      | nil => rfl
      | cons c rest => simp [Exponent.read, unmarked rfl c rfl]
  | @marked marker sign x isMarker signSpells =>
      have hsign := Sign.leading_append signSpells (not_sign_digits x.digits_ne_nil text)
      have hdigits := Digit.leading_append digits x.digits
      simp only [List.cons_append, List.append_assoc, Exponent.read, isMarker, if_true, hsign,
        hdigits, Option.map_some]
      rw [dif_pos x.digits_ne_nil]

private theorem digitEnds_exponent {x : Option Exponent} {exponent text : List Char}
    (hx : Exponent.Spells x exponent) (digits : Digit.Ends text) :
    Digit.Ends (exponent ++ text) := by
  cases hx with
  | none => exact digits
  | marked x isMarker _ =>
      intro c hc
      cases hc
      exact Exponent.not_digit_of_isMarker isMarker

/-- What follows the digits before the point does not begin with a digit. -/
private theorem digitEnds_fraction {digits : List Digit} {fraction text : List Char}
    (hf : FractionSpells digits fraction) (ends : Digit.Ends text) :
    Digit.Ends (fraction ++ text) := by
  cases hf with
  | unwritten => exact ends
  | pointed _ =>
      intro c hc
      cases hc
      rfl

theorem fraction_append {digits : List Digit} {fraction text : List Char}
    (hf : FractionSpells digits fraction) (ends : Digit.Ends text)
    (unpointed : fraction = [] → ∀ c ∈ text.head?, c ≠ '.') :
    Numeral.fraction (fraction ++ text) = (digits, text) := by
  cases hf with
  | pointed _ => exact Digit.leading_append ends digits
  | unwritten =>
      cases text with
      | nil => rfl
      | cons c rest =>
          have hc := unpointed rfl c rfl
          unfold Numeral.fraction
          split
          next h => exact absurd (List.cons.inj h).1 hc
          next => rfl

private theorem not_point_exponent {x : Option Exponent} {exponent text : List Char}
    (hx : Exponent.Spells x exponent) (unpointed : exponent = [] → ∀ c ∈ text.head?, c ≠ '.') :
    ∀ c ∈ (exponent ++ text).head?, c ≠ '.' := by
  cases hx with
  | none => exact unpointed rfl
  | marked x isMarker _ =>
      intro c hc hpoint
      cases hc
      rw [hpoint] at isMarker
      cases isMarker

/-- Where a numeral has no sign, its digits or its point come first. -/
theorem not_sign_magnitude (n : Numeral) {fraction : List Char}
    (hf : FractionSpells n.decimal fraction) (text : List Char) :
    ∀ c ∈ (n.integer.map Digit.char ++ (fraction ++ text)).head?, Sign.ofChar? c = none := by
  cases hinteger : n.integer with
  | cons d digits => exact not_sign_digits (by simp) _
  | nil =>
      cases hdecimal : n.decimal with
      | nil => exact absurd n.has_digits (by simp [hinteger, hdecimal])
      | cons d digits =>
          rw [hdecimal] at hf
          cases hf with
          | pointed _ =>
              intro c hc
              cases hc
              rfl

theorem read_append {n : Numeral} {spelling text : List Char} (h : n.Spells spelling)
    (ends : EndsBefore spelling text) : read (spelling ++ text) = (.found n, text) := by
  cases h with
  | @intro sign fraction exponent n signSpells fractionSpells exponentSpells =>
      obtain ⟨digits, bare⟩ := (endsBefore_iff signSpells fractionSpells exponentSpells).mp ends
      have hdigits := digitEnds_exponent exponentSpells digits
      have hsign := Sign.leading_append signSpells
        (not_sign_magnitude n fractionSpells (exponent ++ text))
      have hinteger := Digit.leading_append (digitEnds_fraction fractionSpells hdigits) n.integer
      have hfraction := fraction_append fractionSpells hdigits fun hf =>
        not_point_exponent exponentSpells fun hx => (bare hx).2 hf
      have hexponent := exponent_read_append exponentSpells digits fun hx => (bare hx).1
      obtain ⟨numeralSign, integer, decimal, x, has_digits⟩ := n
      simp only [List.append_assoc, read, hsign, hinteger, hfraction, hexponent]
      rw [dif_pos has_digits]
      cases exponentSpells <;> rfl

theorem fractionSpells_fraction (text : List Char) :
    ∃ spelling, text = spelling ++ (Numeral.fraction text).2 ∧
      FractionSpells (Numeral.fraction text).1 spelling ∧
      (spelling = [] → ∀ c ∈ (Numeral.fraction text).2.head?, c ≠ '.') := by
  unfold Numeral.fraction
  split
  next rest =>
    refine ⟨'.' :: (Digit.leading rest).1.map Digit.char, ?_, .pointed _, by simp⟩
    rw [List.cons_append, Digit.map_char_leading]
  next hpoint =>
    refine ⟨[], rfl, .unwritten, ?_⟩
    intro _ c hc hdot
    obtain ⟨rest, htext⟩ := List.head?_eq_some_iff.mp hc
    exact hpoint rest (hdot ▸ htext)

private theorem digitEnds_fraction_rest {text : List Char} (h : Digit.Ends text) :
    Digit.Ends (Numeral.fraction text).2 := by
  unfold Numeral.fraction
  split
  next rest => exact Digit.ends_leading rest
  next => exact h

theorem exponentSpells_read {text rest : List Char} {x : Exponent}
    (h : Exponent.read text = some (some x, rest)) :
    ∃ spelling, text = spelling ++ rest ∧ Exponent.Spells (some x) spelling ∧
      Digit.Ends rest := by
  cases text with
  | nil => cases h
  | cons c text =>
      simp only [Exponent.read] at h
      split at h
      next isMarker =>
        split at h
        next digits_ne_nil =>
          cases h
          obtain ⟨sign, htext, signSpells⟩ := Sign.spells_of_leading text
          refine ⟨c :: (sign ++ (Digit.leading (Sign.leading text).2).1.map Digit.char), ?_,
            .marked ⟨_, _, digits_ne_nil⟩ isMarker signSpells, Digit.ends_leading _⟩
          rw [List.cons_append, List.append_assoc, Digit.map_char_leading, ← htext]
        next => cases h
      next => cases h

private theorem unmarked_of_exponent_read {text : List Char} (h : Exponent.read text = none) :
    ∀ c ∈ text.head?, Exponent.isMarker c = false := by
  intro c hc
  obtain ⟨rest, rfl⟩ := List.head?_eq_some_iff.mp hc
  cases hmarker : Exponent.isMarker c with
  | false => rfl
  | true =>
      simp only [Exponent.read, hmarker, if_true] at h
      split at h <;> cases h

theorem spells_of_read {n : Numeral} {text rest : List Char} (h : read text = (.found n, rest)) :
    ∃ spelling, text = spelling ++ rest ∧ n.Spells spelling ∧ EndsBefore spelling rest := by
  obtain ⟨sign, htext, signSpells⟩ := Sign.spells_of_leading text
  have hinteger := Digit.map_char_leading (Sign.leading text).2
  obtain ⟨fraction, hfraction, fractionSpells, hpoint⟩ :=
    fractionSpells_fraction (Digit.leading (Sign.leading text).2).2
  have hdigits := digitEnds_fraction_rest (Digit.ends_leading (Sign.leading text).2)
  simp only [read] at h
  split at h
  next has_digits =>
    split at h
    next hread =>
      cases h
      refine ⟨_, ?_, .intro ⟨_, _, _, none, has_digits⟩ signSpells fractionSpells .none, ?_⟩
      · rw [List.append_nil, List.append_assoc, List.append_assoc, ← hfraction, hinteger, ← htext]
      · refine (endsBefore_iff signSpells fractionSpells .none).mpr ⟨hdigits, fun _ => ?_⟩
        exact ⟨unmarked_of_exponent_read hread, hpoint⟩
    next x rest' hread =>
      cases h
      obtain ⟨exponent, hexponent, exponentSpells, hends⟩ := exponentSpells_read hread
      refine ⟨_, ?_, .intro ⟨_, _, _, some x, has_digits⟩ signSpells fractionSpells
        exponentSpells, ?_⟩
      · rw [List.append_assoc, List.append_assoc, List.append_assoc, ← hexponent, ← hfraction,
          hinteger, ← htext]
      · refine (endsBefore_iff signSpells fractionSpells exponentSpells).mpr ⟨hends, ?_⟩
        intro hnil
        rw [hnil] at exponentSpells
        cases exponentSpells
    next => cases h
  next =>
    split at h
    next => cases h
    next => cases h

/-- A numeral is read back from what it is shown as. -/
theorem read_chars (n : Numeral) : read n.chars = (.found n, []) := by
  have hends : EndsBefore n.chars [] := by
    intro c hc
    cases hc
  have hread := read_append n.spells_chars hends
  rwa [List.append_nil] at hread

/-- Numerals that are shown alike are the same. -/
theorem eq_of_chars_eq {m n : Numeral} (h : m.chars = n.chars) : m = n := by
  have hread := m.read_chars
  rw [h, n.read_chars] at hread
  cases hread
  rfl

end Numeral
end LineCalc

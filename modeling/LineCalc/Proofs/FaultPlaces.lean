import LineCalc.Proofs.Failing
import LineCalc.Proofs.Safety

/-!
Where faults point to. A fault that ends the parsing of a line says where it was found, and the line
bears it out: a token that cannot be used stands where the fault says, an operator is missing before
a character of the line, a malformed numeral is a part of the line that begins like one, and what
was left over is the line from there on. A run that is read has each of its elements at the offset
that the element keeps, and groups are read at offsets of the same line, so this holds at every
depth.
-/

namespace LineCalc

/-- At the offset there is a character, and it is not blank. -/
def Visible (input : List Char) (offset : Nat) : Prop :=
  ∃ c, input[offset]? = some c ∧ isBlank c = false

/-- The line has at the place of the fault what the fault says. Internal faults are not among the
cases. -/
inductive Fault.Located (input : List Char) : Fault → Prop where
  | malformed {detail : String} {start stop : Nat} {c : Char} (found : input[start]? = some c)
      (begins : c.isDigit = true ∨ c = '.') (nonempty : start < stop)
      (within : stop ≤ input.length) : Located input (.malformed detail ⟨start, stop⟩)
  | noExpression {offset : Nat} (blank : Blank (input.take offset))
      (stops : offset = input.length ∨ Visible input offset) : Located input (.noExpression offset)
  | trailingInput {offset : Nat} (visible : Visible input offset) :
      Located input (.trailingInput offset (String.ofList (input.drop offset)))
  | missingOperand {t : Token} {offset : Nat} (spelled : t.chars <+: input.drop offset) :
      Located input (.missingOperand t.text offset)
  | unexpectedOperator {t : Token} {offset : Nat} (spelled : t.chars <+: input.drop offset) :
      Located input (.unexpectedOperator t.text offset)
  | missingOperator {offset : Nat} (inside : 0 < offset) (visible : Visible input offset) :
      Located input (.missingOperator offset)

/-- The element is found where it says that it stands. -/
def Element.Stands (input : List Char) (e : Element) : Prop :=
  Visible input e.offset ∧ ∀ t, e.token? = some t → t.chars <+: input.drop e.offset

theorem visible_of_drop {input rest : List Char} {offset : Nat} {c : Char}
    (h : input.drop offset = c :: rest) (hc : isBlank c = false) : Visible input offset := by
  refine ⟨c, ?_, hc⟩
  rw [← List.head?_drop, h]
  rfl

theorem drop_blanks (input : List Char) (offset : Nat) :
    input.drop (offset + Lexing.blanks (input.drop offset)) = Lexing.content (input.drop offset) :=
  List.drop_drop.symm

/-- Behind the blanks stands a character that is not blank, unless the line ends there. -/
theorem visible_of_content {input : List Char} {offset : Nat}
    (h : Lexing.content (input.drop offset) ≠ []) :
    Visible input (offset + Lexing.blanks (input.drop offset)) := by
  obtain ⟨c, rest, hcontent⟩ := List.exists_cons_of_ne_nil h
  exact visible_of_drop ((drop_blanks input offset).trans hcontent)
    (Lexing.isBlank_of_content hcontent)

theorem drop_of_append {input front rest : List Char} {offset : Nat}
    (h : input.drop offset = front ++ rest) : input.drop (offset + front.length) = rest := by
  rw [← List.drop_drop, h, List.drop_left]

/-- The run of a group stands behind the parenthesis that opens, and what follows the group behind
the one that closes. -/
theorem drop_of_group {input w inside v rest : List Char} {offset : Nat}
    (h : input.drop offset = w ++ '(' :: (inside ++ (v ++ ')' :: rest))) :
    input.drop (offset + w.length) = '(' :: (inside ++ (v ++ ')' :: rest)) ∧
      input.drop (offset + w.length + 1) = inside ++ (v ++ ')' :: rest) ∧
      input.drop (offset + (w.length + 1 + inside.length + (v.length + 1))) = rest := by
  have hopen := drop_of_append h
  have hinside : input.drop (offset + w.length + 1) = inside ++ (v ++ ')' :: rest) := by
    rw [← List.drop_drop, hopen]
    rfl
  refine ⟨hopen, hinside, ?_⟩
  have hclose := drop_of_append (drop_of_append hinside)
  have hlength : offset + (w.length + 1 + inside.length + (v.length + 1)) =
      offset + w.length + 1 + inside.length + v.length + 1 := by omega
  rw [hlength, ← List.drop_drop, hclose]
  rfl

namespace Sequence

theorem Spells.le_offset {offset : Nat} {s : Sequence} {text : List Char}
    (h : Spells offset s text) : ∀ e ∈ s, offset ≤ e.offset := by
  induction h with
  | nil _ => simp
  | leaf _ _ stands _ ih =>
      refine List.forall_mem_cons.mpr ⟨?_, ?_⟩
      · rw [stands]
        exact Nat.le_add_right _ _
      · exact fun e he => Nat.le_trans (Nat.le_add_right _ _) (ih e he)
  | group _ _ _ _ _ _ _ _ ih =>
      refine List.forall_mem_cons.mpr ⟨Nat.le_add_right _ _, ?_⟩
      exact fun e he => Nat.le_trans (Nat.le_add_right _ _) (ih e he)

/-- Every element takes a character, so the later ones begin later. -/
theorem Spells.lt_offset {offset : Nat} {e : Element} {s : Sequence} {text : List Char}
    (h : Spells offset (e :: s) text) : ∀ e' ∈ s, offset < e'.offset := by
  intro e' he'
  cases h with
  | leaf _ leaf _ rest =>
      obtain ⟨c, tail, rfl, _⟩ := leaf.head
      have hle := rest.le_offset e' he'
      simp only [List.length_cons] at hle
      omega
  | group _ _ _ _ _ _ rest =>
      have hle := rest.le_offset e' he'
      omega

theorem Spells.stands {input : List Char} {offset : Nat} {s : Sequence} {text : List Char}
    (h : Spells offset s text) {tail : List Char} (place : input.drop offset = text ++ tail) :
    ∀ e ∈ s, e.Stands input := by
  induction h generalizing tail with
  | nil _ => simp
  | @leaf offset e s w spelling text _ leaf stands _ ih =>
      rw [List.append_assoc, List.append_assoc] at place
      have hdrop := drop_of_append place
      have hrest := drop_of_append hdrop
      rw [Nat.add_assoc] at hrest
      rw [← stands] at hdrop
      refine List.forall_mem_cons.mpr ⟨⟨?_, ?_⟩, ih hrest⟩
      · obtain ⟨c, front, rfl, hc, _⟩ := leaf.head
        exact visible_of_drop hdrop hc
      · intro t ht
        rw [hdrop]
        cases leaf with
        | token _ _ =>
            cases ht
            exact List.prefix_append _ _
        | constant _ _ | numeral _ _ _ => cases ht
  | @group offset body s inner w inside v text _ _ _ _ _ _ _ _ ih =>
      have hplace : input.drop offset = w ++ '(' :: (inside ++ (v ++ ')' :: (text ++ tail))) := by
        simpa using place
      obtain ⟨hdrop, _, hrest⟩ := drop_of_group hplace
      refine List.forall_mem_cons.mpr ⟨⟨visible_of_drop hdrop (by decide), ?_⟩, ih hrest⟩
      intro t ht
      cases ht

/-- A run that stands in the line and does not condense is at fault where the fault says. -/
theorem Spells.located {input : List Char} {offset : Nat} {s : Sequence} {text tail : List Char}
    (h : Spells offset s text) (place : input.drop offset = text ++ tail) (nonempty : s ≠ [])
    {fault : Fault} (fails : s.condense = .error fault) : fault.Located input := by
  have hstands := h.stands place
  have houtcome := outcome_of_unresolved nonempty h.unresolved
  rw [fails] at houtcome
  cases houtcome with
  | unexpectedOperator first found =>
      exact .unexpectedOperator ((hstands _ (List.mem_of_getElem? found)).2 _ rfl)
  | missingOperand placed blocking found =>
      exact .missingOperand ((hstands _ (List.mem_of_getElem? found)).2 _ rfl)
  | @missingOperator i e placed closed first found =>
      refine .missingOperator ?_ (hstands e (List.mem_of_getElem? found)).1
      -- the element follows a term, so it is not the first one
      cases i with
      | zero => cases first.holds.1
      | succ i =>
          cases s with
          | nil => cases found
          | cons e' s =>
              have hlt := h.lt_offset e (List.mem_of_getElem? (i := i) (by simpa using found))
              exact Nat.lt_of_le_of_lt (Nat.zero_le _) hlt

end Sequence

namespace Numeral

/-- What fails to be a numeral begins like one. -/
theorem head_of_malformed {text : List Char} {flaw : Flaw} (h : (read text).1 = .malformed flaw) :
    ∃ c rest, text = c :: rest ∧ ((Sign.ofChar? c).isSome = true ∨ (Digit.ofChar? c).isSome = true ∨
      c = '.' ∨ Exponent.isMarker c = true) := by
  cases text with
  | nil => cases h
  | cons c rest =>
      refine ⟨c, rest, rfl, ?_⟩
      refine Classical.byContradiction fun hnot => ?_
      simp only [not_or, Bool.not_eq_true, Option.isSome_eq_false_iff, Option.isNone_iff_eq_none]
        at hnot
      obtain ⟨hsign, hdigit, hpoint, hmarker⟩ := hnot
      have hcommitted : isCommitted (c :: rest) = false := by
        simp [isCommitted, hpoint, hmarker]
      have hfraction := (plain_of_not_committed hcommitted).1
      simp [read, Sign.leading, hsign, Digit.leading, hdigit, hfraction, hcommitted] at h

end Numeral

namespace Lexing

private theorem isDigit_of_ofChar? {c : Char} (h : (Digit.ofChar? c).isSome = true) :
    c.isDigit = true := by
  obtain ⟨d, hd⟩ := Option.isSome_iff_exists.mp h
  rw [← Digit.char_of_ofChar? hd]
  clear hd h
  revert d
  decide

/-- A sign would have been read as a token. -/
theorem exists_token?_of_sign {c : Char} (h : (Sign.ofChar? c).isSome = true) (rest : List Char) :
    ∃ t, token? (c :: rest) = some t := by
  unfold Sign.ofChar? at h
  split at h
  next => exact ⟨.plus, token?_eq_some_iff.mpr ⟨rest, rfl⟩⟩
  next => exact ⟨.minus, token?_eq_some_iff.mpr ⟨rest, rfl⟩⟩
  next => cases h

/-- An exponent marker would have been read as a constant. -/
theorem exists_constant?_of_isMarker {c : Char} (h : Exponent.isMarker c = true)
    (rest : List Char) : ∃ k, constant? (c :: rest) = some k := by
  have hname : [c].map Char.toLower = Constant.e.chars := by
    simp only [Exponent.isMarker, Bool.or_eq_true, beq_iff_eq] at h
    cases h with
    | inl h => subst h; rfl
    | inr h => subst h; rfl
  exact ⟨.e, constant?_eq_some_iff.mpr ⟨[c], ⟨rest, rfl⟩, hname⟩⟩

section
variable {input : List Char}

theorem located_of_numeral {offset : Nat} {text : List Char} {fault : Fault}
    (place : input.drop offset = text) (noToken : token? (content text) = none)
    (noConstant : constant? (content text) = none) (h : numeral offset text = .error fault) :
    fault.Located input := by
  rw [numeral] at h
  cases hread : (Numeral.read (content text)).1 with
  | absent => rw [hread] at h; cases h
  | found n => rw [hread] at h; cases h
  | malformed flaw =>
      rw [hread] at h
      cases h
      obtain ⟨c, rest, hcontent, hc⟩ := Numeral.head_of_malformed hread
      have hdrop : input.drop (offset + blanks text) = c :: rest := by
        rw [← List.drop_drop, place]
        exact hcontent
      have hfound : input[offset + blanks text]? = some c := by
        rw [← List.head?_drop, hdrop]
        rfl
      have hlength : offset + blanks text < input.length :=
        (List.getElem?_eq_some_iff.mp hfound).1
      have htext : text.length = input.length - offset := by rw [← place, List.length_drop]
      refine .malformed hfound ?_ (by omega) (by omega)
      rw [hcontent] at noToken noConstant
      rcases hc with hsign | hdigit | hpoint | hmarker
      · obtain ⟨t, ht⟩ := exists_token?_of_sign hsign rest
        rw [noToken] at ht
        cases ht
      · exact .inl (isDigit_of_ofChar? hdigit)
      · exact .inr hpoint
      · obtain ⟨k, hk⟩ := exists_constant?_of_isMarker hmarker rest
        rw [noConstant] at hk
        cases hk

theorem Fails.located {offset : Nat} {text : List Char} {fault : Fault}
    (h : Fails offset text fault) (place : input.drop offset = text) : fault.Located input := by
  induction h with
  | numeral noToken noConstant fails =>
      exact located_of_numeral place noToken noConstant fails
  | run nonempty spells fails rest => exact spells.located place nonempty fails
  | later n _ ih => exact ih (by rw [← List.drop_drop, place])

end

end Lexing

/-- Where no expression is found, only blanks have been passed. -/
theorem located_noExpression (input : List Char) :
    Fault.Located input (.noExpression (Lexing.blanks input)) := by
  obtain ⟨w, hinput, hblank, hlength⟩ := Lexing.exists_blank_append input
  refine .noExpression ?_ ?_
  · rw [hlength, hinput, List.take_left]
    exact hblank
  · by_cases hcontent : Lexing.content input = []
    · rw [hcontent, List.append_nil] at hinput
      exact .inl (by rw [hlength, ← hinput])
    · have hvisible : Visible input (0 + Lexing.blanks input) := visible_of_content hcontent
      rw [Nat.zero_add] at hvisible
      exact .inr hvisible

theorem located_of_scan {line : String} {fault : Fault} (h : scan line = .error fault) :
    fault.Located line.toList := by
  rw [scan_eq] at h
  cases hfound : Lexing.sequence none 0 line.toList with
  | error fault' =>
      rw [hfound] at h
      cases h
      exact (Lexing.fails_of_sequence hfound).located rfl
  | ok found =>
      rw [hfound] at h
      cases found with
      | none =>
          cases h
          exact located_noExpression line.toList
      | some found =>
          obtain ⟨s, n⟩ := found
          simp only at h
          split at h
          next => cases h
          next hcontent =>
            cases h
            rw [← drop_blanks]
            exact .trailingInput (visible_of_content hcontent)

/-- A line that has no tree is at fault where the fault says. -/
theorem located_of_parse {line : String} {fault : Fault} (h : parse line = .error fault) :
    fault.Located line.toList := by
  rcases Step.cases_of_bind h with hscan | ⟨s, hscan, h⟩
  · exact located_of_scan hscan
  · obtain ⟨text, w, hline, _, hne, hspells⟩ := spells_of_scan hscan
    exact hspells.located hline hne h

/-- Two groups deep, behind a tab. -/
theorem located_of_parse_nested :
    parse "\t2*( 1 + (pi %))" = .error (.missingOperand "%" 13) ∧
      Fault.Located "\t2*( 1 + (pi %))".toList (.missingOperand "%" 13) := by
  have h : parse "\t2*( 1 + (pi %))" = .error (.missingOperand "%" 13) := by decide +kernel
  exact ⟨h, located_of_parse h⟩

end LineCalc

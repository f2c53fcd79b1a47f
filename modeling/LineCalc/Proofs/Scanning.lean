import LineCalc.Proofs.Pieces
import LineCalc.Proofs.Scanned

/-!
A spelling is read back as the run that it spells, provided that each numeral ends before what
follows it and that no element stands behind the run; together with what is read this says exactly
which runs and lines are read. In infix notation a numeral always ends, because only blanks, an
operator or a closing parenthesis may stand behind it. How deep groups may stand inside each other
is no restriction, since each takes characters of its own.
-/

namespace LineCalc

namespace Lexing

theorem elementsBy_congr {find find' : Nat → List Char → Find Group} {text : List Char}
    (h : ∀ offset rest, List.length rest ≤ text.length → find offset rest = find' offset rest)
    (most offset : Nat) :
    elementsBy find most offset text = elementsBy find' most offset text := by
  induction most generalizing offset text with
  | zero => rfl
  | succ most ih =>
      have hih (m : Nat) := @ih (text.drop m)
        (fun offset rest hrest => h offset rest (by simp at hrest; omega)) (offset + m)
      simp only [elementsBy, elementBy, h offset text (Nat.le_refl _), hih]

private theorem length_lt_of_content {c : Char} {text rest : List Char}
    (h : content text = c :: rest) : rest.length < text.length := by
  have hle := congrArg List.length h
  simp only [content, List.length_drop, List.length_cons] at hle
  omega

/-- Inside its parentheses a group looks for groups in shorter texts only. -/
theorem groupAround_congr {find find' : Nat → List Char → Find Group} {text : List Char}
    (h : ∀ offset rest, List.length rest < text.length → find offset rest = find' offset rest)
    (offset : Nat) : groupAround find offset text = groupAround find' offset text := by
  rw [groupAround, groupAround]
  split
  next rest hcontent =>
    have hlength := length_lt_of_content hcontent
    have hsequence (offset : Nat) : sequenceBy find (some groupLimit) offset rest =
        sequenceBy find' (some groupLimit) offset rest := by
      simp only [sequenceBy, Option.getD_some]
      rw [elementsBy_congr fun offset inside hinside => h offset inside (by omega)]
    rw [hsequence]
  next => rfl

/-- More groups inside each other than there are characters are never read. -/
theorem groupWithin_congr {depth depth' : Nat} {text : List Char} (h : text.length < depth)
    (h' : text.length < depth') (offset : Nat) :
    groupWithin depth offset text = groupWithin depth' offset text := by
  induction depth generalizing depth' offset text with
  | zero => exact absurd h (Nat.not_lt_zero _)
  | succ depth ih =>
      cases depth' with
      | zero => exact absurd h' (Nat.not_lt_zero _)
      | succ depth' =>
          rw [groupWithin, groupWithin]
          exact groupAround_congr (fun offset rest hrest => ih (by omega) (by omega) offset) offset

/-- The run between parentheses is read like any other. -/
theorem group_eq (offset : Nat) (text : List Char) :
    group offset text = groupAround group offset text := by
  rw [group, groupWithin]
  exact groupAround_congr
    (fun offset rest hrest => groupWithin_congr hrest (Nat.lt_succ_self _) offset) offset

/-- An element is missing where neither a group nor any leaf is found. -/
theorem elementBy_eq_none_iff {find : Nat → List Char → Find Group} {offset : Nat}
    {text : List Char} :
    elementBy find offset text = .ok none ↔
      find offset text = .ok none ∧ token? (content text) = none ∧
        constant? (content text) = none ∧ (Numeral.read (content text)).1 = .absent := by
  simp only [elementBy, token, constant, numeral]
  cases find offset text with
  | error fault => simp [bind, Except.bind]
  | ok found =>
      cases found with
      | some found => simp [Step.ok_bind, pure, Except.pure]
      | none =>
          cases token? (content text) with
          | some t => simp [Step.ok_bind, pure, Except.pure]
          | none =>
              cases constant? (content text) with
              | some k => simp [Step.ok_bind, pure, Except.pure]
              | none =>
                  cases (Numeral.read (content text)).1 <;>
                    simp [bind, Except.bind, pure, Except.pure]

theorem group_content {offset : Nat} {text : List Char} (h : group offset text = .ok none) :
    group (offset + blanks text) (content text) = .ok none := by
  rw [group_eq, groupAround] at h ⊢
  rw [content_content, blanks_content, Nat.add_zero]
  split at h
  next rest _ =>
    obtain ⟨found, hbody, h⟩ := Step.exists_of_bind h
    simp only [hbody, Step.ok_bind]
    cases found with
    | none => rfl
    | some found =>
        obtain ⟨closed, hclose, h⟩ := Step.exists_of_bind h
        simp only [hclose, Step.ok_bind]
        cases closed with
        | none => rfl
        | some closed => cases h
  next => rfl

/-- Where no element stands behind blanks, there is none without them. -/
theorem elementBy_content {offset : Nat} {text : List Char}
    (h : elementBy group offset text = .ok none) :
    elementBy group (offset + blanks text) (content text) = .ok none := by
  rw [elementBy_eq_none_iff] at h ⊢
  rw [content_content]
  exact ⟨group_content h.1, h.2⟩

theorem elementsBy_of_none {find : Nat → List Char → Find Group} {offset : Nat} {text : List Char}
    (h : elementBy find offset text = .ok none) (most : Nat) :
    elementsBy find most offset text = .ok ([], 0) := by
  cases most with
  | zero => rfl
  | succ most =>
      simp only [elementsBy, h]
      rfl

/-- Where no element stands, no run does, with a limit or without. -/
theorem sequence_of_none {offset : Nat} {text : List Char}
    (h : elementBy group offset text = .ok none) (limit : Option Nat) :
    sequence limit offset text = .ok none := by
  simp only [sequence, sequenceBy, elementsBy_of_none h]
  rfl

theorem group_of_head {text : List Char} (h : (content text).head? ≠ some '(') (offset : Nat) :
    group offset text = .ok none := by
  rw [group_eq, groupAround]
  split
  next hcontent => simp [hcontent] at h
  next => rfl

theorem token?_of_head {c : Char} (h : ∀ t : Token, t.chars.head? ≠ some c) (rest : List Char) :
    token? (c :: rest) = none := by
  cases hfound : token? (c :: rest) with
  | none => rfl
  | some t =>
      obtain ⟨tail, htail⟩ := token?_eq_some_iff.mp hfound
      have hhead := congrArg List.head? htail
      cases hchars : t.chars with
      | nil => cases t <;> cases hchars
      | cons d chars =>
          rw [hchars] at hhead
          exact absurd (by rw [hchars]; exact hhead) (h t)

private theorem token?_of_letter {c : Char} (h : c.toLower = 'p' ∨ c.toLower = 'e')
    (rest : List Char) : token? (c :: rest) = none := by
  apply token?_of_head
  intro t ht
  cases t <;> cases ht <;> exact absurd h (by decide)

private theorem token?_of_magnitude {c : Char} (h : c = '.' ∨ ∃ d, c = Digit.char d)
    (rest : List Char) : token? (c :: rest) = none := by
  have hdigit (t : Token) (d : Digit) : t.chars.head? ≠ some d.char := by
    revert d
    cases t <;> decide
  apply token?_of_head
  intro t ht
  cases h with
  | inl hpoint =>
      subst hpoint
      cases t <;> cases ht
  | inr h =>
      obtain ⟨d, rfl⟩ := h
      exact hdigit t d ht

private theorem constant?_of_magnitude {c : Char} (h : c = '.' ∨ ∃ d, c = Digit.char d)
    (rest : List Char) : constant? (c :: rest) = none := by
  have hdigit (d : Digit) : ¬ (d.char.toLower = 'p' ∨ d.char.toLower = 'e') := by
    revert d
    decide
  cases hfound : constant? (c :: rest) with
  | none => rfl
  | some k =>
      obtain ⟨name, hprefix, hname⟩ := constant?_eq_some_iff.mp hfound
      obtain ⟨c', name, rfl, hc⟩ := Constant.head_name hname
      obtain ⟨rfl, _⟩ := List.cons_prefix_cons.mp hprefix
      cases h with
      | inl hpoint =>
          subst hpoint
          exact absurd hc (by decide)
      | inr h =>
          obtain ⟨d, rfl⟩ := h
          exact absurd hc (hdigit d)

/-- A leaf is found where it is spelled, if a numeral ends there. -/
theorem elementBy_of_leaf {e : Element} {w spelling tail : List Char} {offset : Nat}
    (blank : Blank w) (leaf : e.LeafScans spelling tail) (stands : e.offset = offset + w.length) :
    elementBy group offset (w ++ (spelling ++ tail)) =
      .ok (some (e, w.length + spelling.length)) := by
  obtain ⟨spells, ends⟩ := leaf
  obtain ⟨c, rest, hspelling, hblank, hopen, _⟩ := spells.head
  have hcontent : content (w ++ (spelling ++ tail)) = spelling ++ tail := by
    rw [hspelling]
    exact content_append_cons blank hblank _
  have hblanks : blanks (w ++ (spelling ++ tail)) = w.length := by
    rw [hspelling]
    exact blanks_append_cons blank hblank _
  have hgroup : group offset (w ++ (spelling ++ tail)) = .ok none :=
    group_of_head (by rw [hcontent, hspelling]; simpa using hopen) offset
  simp only [elementBy, hgroup, Step.ok_bind]
  cases spells with
  | token t p =>
      have htoken := token?_eq_some_iff.mpr (List.prefix_append t.chars tail)
      simp only [token, hcontent, htoken, hblanks]
      rw [← stands]
      rfl
  | @constant k _ p letters =>
      obtain ⟨c', rest', rfl, hc⟩ := Constant.head_name letters
      have htoken := token?_of_letter hc (rest' ++ tail)
      have hconstant := constant?_eq_some_iff.mpr
        ⟨c' :: rest', List.prefix_append _ tail, letters⟩
      have hlength : k.chars.length = (c' :: rest').length := by
        rw [← letters, List.length_map]
      rw [List.cons_append] at hcontent hconstant hblanks ⊢
      simp only [token, constant, hcontent, htoken, hconstant, hblanks]
      rw [← stands, ← hlength]
      rfl
  | @numeral n _ p numeralSpells unsigned =>
      obtain ⟨c', rest', rfl, hc⟩ := Numeral.head_spelling numeralSpells unsigned
      have htoken := token?_of_magnitude hc (rest' ++ tail)
      have hconstant := constant?_of_magnitude hc (rest' ++ tail)
      have hread := Numeral.read_append numeralSpells (ends n rfl)
      rw [List.cons_append] at hcontent hread hblanks ⊢
      have hlength : (c' :: (rest' ++ tail)).length - tail.length = (c' :: rest').length := by
        simp only [List.length_cons, List.length_append]
        omega
      simp only [token, constant, numeral, numeralLength, hcontent, htoken, hconstant, hread,
        hblanks, hlength]
      rw [← stands]
      rfl

/-- Is there nothing in a text that an element could begin with, before a parenthesis closes? -/
def Stops (text : List Char) : Prop :=
  ∀ c ∈ (content text).head?, c = ')'

/-- No leaf begins with a parenthesis. -/
theorem elementBy_of_parenthesis {offset : Nat} {text rest : List Char} {c : Char}
    (hcontent : content text = c :: rest) (hc : c = '(' ∨ c = ')')
    (hgroup : group offset text = .ok none) : elementBy group offset text = .ok none := by
  rw [elementBy_eq_none_iff, hcontent]
  refine ⟨hgroup, ?_⟩
  cases hc with
  | inl h =>
      subst h
      exact ⟨token?_of_head (by intro t; cases t <;> decide) rest, rfl, rfl⟩
  | inr h =>
      subst h
      exact ⟨token?_of_head (by intro t; cases t <;> decide) rest, rfl, rfl⟩

theorem elementBy_of_stops {text : List Char} (h : Stops text) (offset : Nat) :
    elementBy group offset text = .ok none := by
  have hhead : (content text).head? ≠ some '(' := by
    intro hopen
    exact absurd (h '(' hopen) (by decide)
  have hgroup := group_of_head hhead offset
  cases hcontent : content text with
  | cons c rest =>
      exact elementBy_of_parenthesis hcontent (.inr (h c (by rw [hcontent]; rfl))) hgroup
  | nil =>
      rw [elementBy_eq_none_iff, hcontent]
      exact ⟨hgroup, rfl, rfl, rfl⟩

private theorem ends_cons {c : Char} (h : Digit.ofChar? c = none ∧ c ≠ '.' ∧
    Exponent.isMarker c = false) (rest : List Char) : Numeral.Ends (c :: rest) := by
  intro d hd
  cases hd
  exact h

theorem ends_of_isBlank {c : Char} (h : isBlank c = true) (rest : List Char) :
    Numeral.Ends (c :: rest) := by
  simp only [isBlank, Bool.or_eq_true, beq_iff_eq, or_assoc] at h
  apply ends_cons
  cases h with
  | inl h => subst h; decide
  | inr h =>
      cases h with
      | inl h => subst h; decide
      | inr h =>
          cases h with
          | inl h => subst h; decide
          | inr h => subst h; decide

theorem Stops.ends {text : List Char} (h : Stops text) : Numeral.Ends text := by
  cases text with
  | nil =>
      intro c hc
      cases hc
  | cons c rest =>
      cases hblank : isBlank c with
      | true => exact ends_of_isBlank hblank rest
      | false =>
          have hc := h c (by rw [content_of_not_isBlank hblank]; rfl)
          subst hc
          exact ends_cons (by decide) rest

theorem stops_of_closing {v : List Char} (blank : Blank v) (rest : List Char) :
    Stops (v ++ ')' :: rest) := by
  intro c hc
  rw [content_append_cons blank (by decide)] at hc
  cases hc
  rfl

theorem stops_of_blank {v : List Char} (blank : Blank v) : Stops v := by
  intro c hc
  rw [(content_eq_nil_iff v).mpr blank] at hc
  cases hc

end Lexing

namespace Sequence

open Lexing

private theorem formed_tail {afterTerm : Bool} {e : Element} {s : Sequence}
    (h : Piece.Formed afterTerm (pieces afterTerm (e :: s)) true) :
    Piece.Formed e.isTerm (pieces e.isTerm s) true := by
  cases e with
  | term _ _ | group _ _ _ | token _ _ | operator _ _ => exact h.2

/-- A numeral ends before the elements that may follow it in infix notation. -/
theorem Spells.ends {offset : Nat} {s : Sequence} {text tail : List Char}
    (h : Spells offset s text) (formed : Piece.Formed true (pieces true s) true)
    (stops : Stops tail) : Numeral.Ends (text ++ tail) := by
  cases h with
  | nil => exact stops.ends
  | group _ _ _ _ _ _ _ => cases formed.1
  | @leaf _ _ _ w _ _ blank leaf _ _ =>
      cases w with
      | cons c w => exact ends_of_isBlank (blank c List.mem_cons_self) _
      | nil =>
          cases leaf with
          | constant _ _ => cases formed.1
          | numeral _ _ _ => cases formed.1
          | token t _ =>
              have hbinary := formed.1
              cases t with
              | ln | log => cases hbinary
              | caret | plus | minus | star | slash | percent | mod =>
                  exact ends_cons (by decide) _

/-- A spelling is read if the run is infix notation and nothing follows that an element could
take. -/
theorem Spells.scans {offset : Nat} {s : Sequence} {text : List Char} (h : Spells offset s text)
    {afterTerm : Bool} (formed : Piece.Formed afterTerm (pieces afterTerm s) true)
    {tail : List Char} (stops : Stops tail) : Scans tail offset s text := by
  induction h generalizing afterTerm tail with
  | nil offset => exact .nil tail offset
  | @leaf offset e s w spelling text blank leaf stands rest ih =>
      have htail := formed_tail formed
      refine .leaf blank ⟨leaf, ?_⟩ stands (ih htail stops)
      intro n hn
      rw [Element.isTerm_of_term? hn] at htail
      exact (rest.ends htail stops).endsBefore spelling
  | @group offset body s inner w inside v text blank blank' nonempty bounded condenses _ _ ihbody
      ih =>
      have hbody := ihbody ((exists_condense_iff body).mp ⟨inner, condenses⟩)
        (stops_of_closing blank' (text ++ tail))
      exact .group blank blank' nonempty bounded condenses hbody (ih (formed_tail formed) stops)

private theorem elementsBy_cons {find : Nat → List Char → Find Group} {offset n : Nat}
    {front text : List Char} {e : Element} {s : Sequence} {most : Nat}
    (element : elementBy find offset (front ++ text) = .ok (some (e, front.length)))
    (others : Lexing.elementsBy find most (offset + front.length) text = .ok (s, n)) :
    Lexing.elementsBy find (most + 1) offset (front ++ text) = .ok (e :: s, front.length + n) := by
  simp only [Lexing.elementsBy, element, Step.ok_bind, List.drop_left, others]
  rfl

/-- Once the run between the parentheses is read, it decides what becomes of the group. -/
theorem group_of_body {offset : Nat} {w inside v tail : List Char} {body : Sequence}
    (blank : Blank w) (blank' : Blank v) (nonempty : body ≠ [])
    (elements : Lexing.elementsBy group groupLimit (offset + w.length + 1)
      (inside ++ (v ++ ')' :: tail)) = .ok (body, inside.length)) :
    group offset (w ++ '(' :: (inside ++ (v ++ ')' :: tail))) =
      body.condense.map fun inner =>
        some (⟨body, inner⟩, w.length + 1 + inside.length + (v.length + 1)) := by
  have hopen : isBlank '(' = false := by decide
  have hcontent := content_append_cons blank hopen (inside ++ (v ++ ')' :: tail))
  have hblanks := blanks_append_cons blank hopen (inside ++ (v ++ ')' :: tail))
  have hclosing : isBlank ')' = false := by decide
  have hclose := content_append_cons blank' hclosing tail
  have hblanks' := blanks_append_cons blank' hclosing tail
  cases body with
  | nil => exact absurd rfl nonempty
  | cons e es =>
      simp only [group_eq, groupAround, hcontent, hblanks, sequenceBy, Option.getD_some, elements,
        Step.ok_bind]
      simp only [pure, Except.pure, Step.ok_bind, List.drop_left, groupBody, hclose, hblanks']
      cases condense (e :: es) <;> rfl

theorem length_group (w inside v : List Char) :
    (w ++ '(' :: (inside ++ (v ++ [')']))).length =
      w.length + 1 + inside.length + (v.length + 1) := by
  simp only [List.length_append, List.length_cons, List.length_nil]
  omega

/-- A group is an element of the text up to its closing parenthesis. -/
private theorem elementBy_of_body {offset : Nat} {w inside v : List Char} {body : Sequence}
    {inner : Term} (blank : Blank w) (blank' : Blank v) (nonempty : body ≠ [])
    (condenses : body.condense = .ok inner) (tail : List Char)
    (elements : Lexing.elementsBy group groupLimit (offset + w.length + 1)
      (inside ++ (v ++ ')' :: tail)) = .ok (body, inside.length)) :
    elementBy group offset ((w ++ '(' :: (inside ++ (v ++ [')']))) ++ tail) =
      .ok (some (.group body inner (offset + w.length),
        (w ++ '(' :: (inside ++ (v ++ [')']))).length)) := by
  have hgroup := group_of_body blank blank' nonempty elements
  rw [condenses] at hgroup
  have hsplit : (w ++ '(' :: (inside ++ (v ++ [')']))) ++ tail =
      w ++ '(' :: (inside ++ (v ++ ')' :: tail)) := by simp
  have hopen : isBlank '(' = false := by decide
  have hblanks := blanks_append_cons blank hopen (inside ++ (v ++ ')' :: tail))
  rw [hsplit, length_group]
  simp only [elementBy, hgroup, hblanks]
  rfl

theorem Scans.elementsBy {rest : List Char} {offset : Nat} {s : Sequence} {text : List Char}
    (h : Scans rest offset s text) {most : Nat} (many : List.length s ≤ most)
    (last : List.length s < most →
      elementBy Lexing.group (offset + text.length) rest = .ok none) :
    Lexing.elementsBy Lexing.group most offset (text ++ rest) = .ok (s, text.length) := by
  induction h generalizing most with
  | nil rest offset =>
      cases most with
      | zero => rfl
      | succ most =>
          exact elementsBy_of_none (last (Nat.succ_pos most)) _
  | @leaf rest offset e s w spelling text blank leaf stands others ih =>
      cases most with
      | zero => cases many
      | succ most =>
          have helement := elementBy_of_leaf blank leaf stands
          rw [← List.length_append] at ih helement
          rw [← List.append_assoc] at helement last ⊢
          have hothers := ih (Nat.le_of_succ_le_succ many) fun hlt => by
            rw [Nat.add_assoc, ← List.length_append]
            exact last (Nat.succ_lt_succ hlt)
          rw [List.append_assoc, elementsBy_cons helement hothers, ← List.length_append]
  | @group rest offset body s inner w inside v text blank blank' nonempty bounded condenses _ _
      ihbody ih =>
      cases most with
      | zero => cases many
      | succ most =>
          have hstops := stops_of_closing blank' (text ++ rest)
          have hbody := ihbody bounded fun _ => elementBy_of_stops hstops _
          have helement := elementBy_of_body blank blank' nonempty condenses _ hbody
          have hsplit : w ++ '(' :: (inside ++ (v ++ ')' :: text)) =
              (w ++ '(' :: (inside ++ (v ++ [')']))) ++ text := by simp
          rw [← length_group] at ih
          rw [hsplit] at last ⊢
          have hothers := ih (Nat.le_of_succ_le_succ many) fun hlt => by
            rw [Nat.add_assoc, ← List.length_append]
            exact last (Nat.succ_lt_succ hlt)
          rw [List.append_assoc, elementsBy_cons helement hothers, ← List.length_append]

/-- A run may be divided anywhere, and each part is read from its part of the text. -/
theorem Scans.split {s' : Sequence} {rest : List Char} {offset : Nat} {s : Sequence}
    {text : List Char} (h : Scans rest offset (s ++ s') text) :
    ∃ front back, text = front ++ back ∧ Scans (back ++ rest) offset s front ∧
      Scans rest (offset + front.length) s' back := by
  induction s generalizing offset text with
  | nil => exact ⟨[], text, rfl, .nil _ offset, h⟩
  | cons e s ih =>
      cases h with
      | @leaf _ _ _ _ w spelling text blank leaf stands others =>
          obtain ⟨front, back, rfl, hfront, hback⟩ := ih others
          rw [List.append_assoc] at leaf
          refine ⟨w ++ (spelling ++ front), back, by simp, .leaf blank leaf stands hfront, ?_⟩
          simpa only [List.length_append, Nat.add_assoc] using hback
      | @group _ _ body _ inner w content v text blank blank' nonempty bounded condenses inside
          others =>
          obtain ⟨front, back, rfl, hfront, hback⟩ := ih others
          rw [List.append_assoc] at inside
          refine ⟨w ++ '(' :: (content ++ (v ++ ')' :: front)), back, by simp,
            .group blank blank' nonempty bounded condenses inside hfront, ?_⟩
          have hlength : (w ++ '(' :: (content ++ (v ++ ')' :: front))).length =
              w.length + 1 + content.length + (v.length + 1) + front.length := by
            simp only [List.length_append, List.length_cons]
            omega
          rwa [hlength, ← Nat.add_assoc offset]

end Sequence

namespace Lexing

/-- Which elements are found in a row, and how many characters they take. -/
theorem elementsBy_eq_ok_iff {most offset n : Nat} {text : List Char} {s : Sequence} :
    elementsBy group most offset text = .ok (s, n) ↔
      ∃ taken rest, text = taken ++ rest ∧ n = taken.length ∧ List.length s ≤ most ∧
        Sequence.Scans rest offset s taken ∧
        (List.length s < most → elementBy group (offset + n) rest = .ok none) := by
  constructor
  · intro h
    obtain ⟨taken, rest, rfl, rfl, hmany, hscans⟩ := sound_group.elementsBy h
    refine ⟨taken, rest, rfl, rfl, hmany, hscans, ?_⟩
    intro hfewer
    have hnone := elementBy_of_elementsBy h hfewer
    rwa [List.drop_left] at hnone
  · intro h
    obtain ⟨taken, rest, rfl, rfl, hmany, hscans, hlast⟩ := h
    exact hscans.elementsBy hmany hlast

private theorem sequence_eq_some_iff_elementsBy {limit : Option Nat} {offset n : Nat}
    {text : List Char} {s : Sequence} :
    sequence limit offset text = .ok (some (s, n)) ↔
      s ≠ [] ∧ elementsBy group (limit.getD (text.length + 1)) offset text = .ok (s, n) := by
  simp only [sequence, sequenceBy]
  cases elementsBy group (limit.getD (text.length + 1)) offset text with
  | error fault => simp [bind, Except.bind]
  | ok found =>
      obtain ⟨es, m⟩ := found
      simp only [Step.ok_bind, Except.ok.injEq, Prod.mk.injEq]
      cases es with
      | nil =>
          constructor
          · intro h
            cases h
          · intro h
            exact absurd h.2.1.symm h.1
      | cons e es =>
          constructor
          · intro h
            cases h
            exact ⟨by simp, rfl, rfl⟩
          · intro h
            rw [← h.2.1, ← h.2.2]
            rfl

/-- Which run is found. Without a limit it goes on until no element is found. -/
theorem sequence_eq_some_iff {limit : Option Nat} {offset n : Nat} {text : List Char}
    {s : Sequence} :
    sequence limit offset text = .ok (some (s, n)) ↔
      ∃ taken rest, text = taken ++ rest ∧ n = taken.length ∧ s ≠ [] ∧
        (∀ most ∈ limit, List.length s ≤ most) ∧ Sequence.Scans rest offset s taken ∧
        ((∀ most ∈ limit, List.length s < most) →
          elementBy group (offset + n) rest = .ok none) := by
  rw [sequence_eq_some_iff_elementsBy, elementsBy_eq_ok_iff]
  constructor
  · intro h
    obtain ⟨nonempty, taken, rest, rfl, rfl, hmany, hscans, hlast⟩ := h
    refine ⟨taken, rest, rfl, rfl, nonempty, ?_, hscans, ?_⟩
    · intro most hmost
      cases hmost
      exact hmany
    · intro hfewer
      refine hlast ?_
      cases limit with
      | some most => exact hfewer most rfl
      | none =>
          have hlength := hscans.spells.length_le
          simp only [Option.getD_none, List.length_append]
          omega
  · intro h
    obtain ⟨taken, rest, rfl, rfl, nonempty, hmany, hscans, hlast⟩ := h
    refine ⟨nonempty, taken, rest, rfl, rfl, ?_, hscans, ?_⟩
    · cases limit with
      | some most => exact hmany most rfl
      | none =>
          have hlength := hscans.spells.length_le
          simp only [Option.getD_none, List.length_append]
          omega
    · intro hfewer
      refine hlast ?_
      intro most hmost
      cases hmost
      exact hfewer

end Lexing

/-- A line is scanned as the run that is read from it to its last blanks. -/
theorem scan_eq_ok_iff {input : String} {s : Sequence} :
    scan input = .ok s ↔
      ∃ text w, input.toList = text ++ w ∧ Blank w ∧ s ≠ [] ∧ Sequence.Scans w 0 s text := by
  constructor
  · exact scans_of_scan
  · intro h
    obtain ⟨text, w, hinput, hblank, nonempty, hscans⟩ := h
    have hsequence : Lexing.sequence none 0 (text ++ w) = .ok (some (s, text.length)) := by
      refine Lexing.sequence_eq_some_iff.mpr ⟨text, w, rfl, rfl, nonempty, by simp, hscans, ?_⟩
      exact fun _ => Lexing.elementBy_of_stops (Lexing.stops_of_blank hblank) _
    simp only [scan_eq, hinput, hsequence, List.drop_left]
    rw [if_pos ((Lexing.content_eq_nil_iff w).mpr hblank)]

theorem scan_of_spells {input : String} {s : Sequence} {text w : List Char}
    (hinput : input.toList = text ++ w) (blank : Blank w) (spells : Sequence.Spells 0 s text)
    (nonempty : s ≠ []) (formed : Piece.Formed false (Sequence.pieces false s) true) :
    scan input = .ok s :=
  scan_eq_ok_iff.mpr ⟨text, w, hinput, blank, nonempty,
    spells.scans formed (Lexing.stops_of_blank blank)⟩

/-- A line has a tree if and only if it spells a run that condenses to it, and blanks. -/
theorem parse_eq_ok_iff (input : String) (t : Term) :
    parse input = .ok t ↔
      ∃ s text w, input.toList = text ++ w ∧ Blank w ∧ Sequence.Spells 0 s text ∧
        s.condense = .ok t := by
  constructor
  · intro h
    obtain ⟨s, hscan, hcondense⟩ := scan_of_parse h
    obtain ⟨text, w, hinput, blank, _, spells⟩ := spells_of_scan hscan
    exact ⟨s, text, w, hinput, blank, spells, hcondense⟩
  · intro h
    obtain ⟨s, text, w, hinput, blank, spells, hcondense⟩ := h
    have hformed := (Sequence.exists_condense_iff s).mp ⟨t, hcondense⟩
    have hne : s ≠ [] := by
      intro hnil
      subst hnil
      cases hformed
    rw [parse, scan_of_spells hinput blank spells hne hformed]
    exact hcondense

end LineCalc

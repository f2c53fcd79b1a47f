import LineCalc.Proofs.Places

/-!
A whole line between parentheses. The parenthesis that closes ends the last element just as the end
of the line does, so between parentheses the same run is read one place further on, up to the limit
that holds there. A run within the limit makes the line a single group, which has the tree or the
fault of the run; beyond the limit there is no group, and nothing else begins with a parenthesis.
-/

namespace LineCalc

namespace Sequence

open Lexing

/-- Behind its blanks a run begins with something other than a parenthesis that closes. -/
theorem Spells.head?_content {offset : Nat} {s : Sequence} {text : List Char}
    (h : Spells offset s text) (nonempty : s ≠ []) (rest : List Char) :
    (content (text ++ rest)).head? ≠ some ')' := by
  cases h with
  | nil => exact absurd rfl nonempty
  | leaf blank leaf _ _ =>
      obtain ⟨c, tail, rfl, hblank, _, hclose⟩ := leaf.head
      rw [List.append_assoc, List.append_assoc, List.cons_append, content_append_cons blank hblank]
      simpa using hclose
  | group blank _ _ _ _ _ _ =>
      rw [List.append_assoc, List.cons_append, content_append_cons blank (by decide)]
      simp

end Sequence

namespace Lexing

/-- There is no group where the run between parentheses goes on at the limit. -/
theorem group_of_unclosed {offset n : Nat} {text tail : List Char} {body : Sequence}
    (hcontent : content text = '(' :: tail)
    (elements : elementsBy group groupLimit (offset + blanks text + 1) tail = .ok (body, n))
    (unclosed : (content (tail.drop n)).head? ≠ some ')') : group offset text = .ok none := by
  have hbody : groupBody body (tail.drop n) = .ok none := by
    rw [groupBody]
    split
    next h => simp [h] at unclosed
    next => rfl
  rw [group_eq, groupAround, hcontent]
  cases body with
  | nil =>
      simp only [sequenceBy, Option.getD_some, elements, Step.ok_bind]
      rfl
  | cons e body =>
      simp only [sequenceBy, Option.getD_some, elements, Step.ok_bind]
      simp only [pure, Except.pure, Step.ok_bind, hbody]

end Lexing

private theorem scan_of_element_error {line : String} {fault : Fault}
    (h : Lexing.elementBy Lexing.group 0 line.toList = .error fault) :
    scan line = .error fault := by
  simp only [scan_eq, Lexing.sequence, Lexing.sequenceBy, Option.getD_none, Lexing.elementsBy, h]
  rfl

private theorem scan_of_no_element {line : String}
    (h : Lexing.elementBy Lexing.group 0 line.toList = .ok none) :
    scan line = .error (.noExpression (Lexing.blanks line.toList)) := by
  rw [scan_eq, Lexing.sequence_of_none h]

/-- The tree of a group by itself. -/
theorem Sequence.condense_group (body : Sequence) (inner : Term) (offset : Nat) :
    condense [.group body inner offset] = .ok (.grouping inner) :=
  condense_of_round_finished rfl

/-- Behind the parenthesis that opens, the run is read one place further on. -/
private theorem elementsBy_parenthesized {s : Sequence} {text w : List Char} (blank : Blank w)
    (hscans : Sequence.Scans w 0 s text) (many : List.length s ≤ groupLimit) :
    Lexing.elementsBy Lexing.group groupLimit 1 (text ++ (w ++ [')'])) =
      .ok (s.move (· + 1), text.length) := by
  have hstops := Lexing.stops_of_closing blank []
  refine (hscans.move 1 hstops.ends).elementsBy (by simpa using many) fun _ => ?_
  exact Lexing.elementBy_of_stops hstops _

/-- A run within the limit decides about the line. -/
private theorem parse_of_within {line : String} {s : Sequence} {text w : List Char}
    (hline : line.toList = '(' :: (text ++ (w ++ [')']))) (blank : Blank w) (nonempty : s ≠ [])
    (hscans : Sequence.Scans w 0 s text) (many : List.length s ≤ groupLimit) :
    parse line = (s.condense.map Term.grouping).mapError (Fault.move (· + 1)) := by
  have hnonempty : s.move (· + 1) ≠ [] := by simpa using nonempty
  have hcondense := Sequence.condense_move (· + 1) nonempty
  cases h : s.condense with
  | ok inner =>
      rw [h] at hcondense
      have hstops := Lexing.stops_of_closing blank []
      have hgroup := Sequence.Scans.group blank_nil blank hnonempty (by simpa using many) hcondense
        (hscans.move 1 hstops.ends) (.nil [] _)
      have hscan := scan_eq_ok_iff.mpr ⟨_, [], by rw [hline, List.append_nil]; rfl, blank_nil,
        List.cons_ne_nil _ _, hgroup⟩
      rw [parse, hscan]
      exact Sequence.condense_group _ inner _
  | error fault =>
      rw [h] at hcondense
      have hgroup : Lexing.group 0 line.toList = .error (fault.move (· + 1)) := by
        have hbody := Sequence.group_of_body blank_nil blank hnonempty
          (elementsBy_parenthesized blank hscans many)
        rw [hcondense] at hbody
        rw [hline]
        exact hbody
      have helement : Lexing.elementBy Lexing.group 0 line.toList =
          .error (fault.move (· + 1)) := by
        simp only [Lexing.elementBy, hgroup]
        rfl
      rw [parse, scan_of_element_error helement]
      rfl

/-- A longer run leaves no group and nothing else. -/
private theorem parse_of_beyond {line : String} {s : Sequence} {text w : List Char}
    (hline : line.toList = '(' :: (text ++ (w ++ [')']))) (blank : Blank w)
    (hscans : Sequence.Scans w 0 s text) (many : groupLimit < List.length s) :
    parse line = .error (.noExpression 0) := by
  have hstops := Lexing.stops_of_closing blank []
  have hmoved := hscans.move 1 hstops.ends
  have hmany : groupLimit < List.length (s.move (· + 1)) := by simpa using many
  generalize s.move (· + 1) = run at hmoved hmany
  rw [← List.take_append_drop groupLimit run] at hmoved
  obtain ⟨front, back, rfl, hfront, hback⟩ := hmoved.split
  have hlength : List.length (run.take groupLimit) = groupLimit := by
    rw [List.length_take]
    omega
  have helements := hfront.elementsBy (Nat.le_of_eq hlength) fun h =>
    absurd hlength (Nat.ne_of_lt h)
  have hrest : run.drop groupLimit ≠ [] := by
    rw [ne_eq, List.drop_eq_nil_iff]
    omega
  have hcontent : Lexing.content line.toList = '(' :: (front ++ (back ++ (w ++ [')']))) := by
    rw [hline, Lexing.content_of_not_isBlank (by decide), List.append_assoc]
  have hblanks : Lexing.blanks line.toList = 0 := by
    rw [hline, Lexing.blanks_of_not_isBlank (by decide)]
  have hgroup : Lexing.group 0 line.toList = .ok none := by
    refine Lexing.group_of_unclosed hcontent (by rw [hblanks]; exact helements) ?_
    rw [List.drop_left]
    exact hback.spells.head?_content hrest _
  have helement := Lexing.elementBy_of_parenthesis hcontent (.inl rfl) hgroup
  rw [parse, scan_of_no_element helement, hblanks]
  rfl

private theorem scan_row (n : Nat) :
    scan (String.ofList (List.replicate (n + 1) 'e')) =
      .ok ((List.range' 0 (n + 1)).map (Element.term (.constant .e))) := by
  have hscans (n offset : Nat) : Sequence.Scans [] offset
      ((List.range' offset n).map (Element.term (.constant .e))) (List.replicate n 'e') := by
    induction n generalizing offset with
    | zero => exact .nil [] offset
    | succ n ih =>
        have hleaf := @Element.LeafScans.constant .e ['e'] rfl offset (List.replicate n 'e' ++ [])
        exact .leaf blank_nil hleaf rfl (ih (offset + 1))
  exact scan_eq_ok_iff.mpr
    ⟨_, [], by rw [String.toList_ofList, List.append_nil], blank_nil, by simp, hscans _ 0⟩

/-- A line between parentheses has the tree of the line as a grouping, or its fault one place
further on; if it has more elements than are read between parentheses, there is no expression. -/
theorem parse_parenthesized {line : String} {s : Sequence} (scanned : scan line = .ok s) :
    parse ("(" ++ line ++ ")") =
      if List.length s ≤ 31 then ((parse line).map Term.grouping).mapError (Fault.move (· + 1))
      else .error (.noExpression 0) := by
  obtain ⟨text, w, hline, blank, nonempty, hscans⟩ := scans_of_scan scanned
  have hinput : ("(" ++ line ++ ")").toList = '(' :: (text ++ (w ++ [')'])) := by
    simp [hline]
  split
  next many =>
    rw [parse_of_within hinput blank nonempty hscans many, parse.eq_def line, scanned]
    rfl
  next many => exact parse_of_beyond hinput blank hscans (Nat.lt_of_not_le many)

/-- As many elements as are read between parentheses, and one more. -/
theorem parse_parenthesized_at_limit :
    ∃ s s', scan (String.ofList (List.replicate 31 'e')) = .ok s ∧
      parse ("(" ++ String.ofList (List.replicate 31 'e') ++ ")") = .error (.missingOperator 2) ∧
      scan (String.ofList (List.replicate 32 'e')) = .ok s' ∧
      parse ("(" ++ String.ofList (List.replicate 32 'e') ++ ")") = .error (.noExpression 0) := by
  have hparse : parse (String.ofList (List.replicate 31 'e')) = .error (.missingOperator 1) := by
    rw [parse, scan_row]
    exact Sequence.condense_of_round_finished rfl
  refine ⟨_, _, scan_row 30, ?_, scan_row 31, ?_⟩
  · rw [parse_parenthesized (scan_row 30), hparse]
    rfl
  · rw [parse_parenthesized (scan_row 31)]
    rfl

end LineCalc

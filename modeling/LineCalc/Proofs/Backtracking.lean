import Mathlib.Logic.Function.Iterate
import LineCalc.Proofs.Safety

/-!
Reading on trial leaves no trace but what was read. Wherever a reading begins, beyond the end of the
input too and under any marks, it leaves the marks as they were, and either takes at least one
character of the input or leaves the cursor where it was. The same holds of a numeral that is read
one character at a time. So the unread input is shorter after each element of a run and inside each
parenthesis that opens, and as many turns of the loop, or groups inside each other, as there are
characters left and one more are always enough: whatever stood for further ones would not be asked.
-/

namespace LineCalc

/-- Where a reading on trial may leave a cursor. -/
inductive Disciplined {ε α : Type} (c : Cursor) : EStateM.Result ε Session (Option α) → Prop where
  | found {a : α} {s : Session} (input : s.cursor.input = c.input)
      (marks : s.cursor.marks = c.marks) (moved : c.offset < s.cursor.offset)
      (within : s.cursor.offset ≤ c.size) : Disciplined c (.ok (some a) s)
  | absent {s : Session} (cursor : s.cursor = c) : Disciplined c (.ok none s)
  | failed {e : ε} {s : Session} (cursor : s.cursor = c) : Disciplined c (.error e s)

theorem Disciplined.guarded {α : Type} {c : Cursor} {r : Reading (Option α)} {s : Session}
    (h : Disciplined c (r s)) : Disciplined c (Step.guarded r s) := by
  simp only [Step.guarded]
  generalize r s = result at h
  cases h with
  | found input marks moved within => exact .found input marks moved within
  | absent cursor => exact .absent cursor
  | failed cursor => exact .failed cursor

namespace Lexing

/-- What is found takes at least one character, and no more than there are. -/
def Takes {α : Type} (text : List Char) (found : Find α) : Prop :=
  ∀ a n, found = .ok (some (a, n)) → 0 < n ∧ n ≤ text.length

private theorem takes_of_content {text front rest : List Char} {n : Nat}
    (hcontent : content text = front ++ rest) (nonempty : front ≠ [])
    (hn : n = blanks text + front.length) : 0 < n ∧ n ≤ text.length := by
  obtain ⟨w, htext, _, hlength⟩ := exists_blank_append text
  have hfront := List.length_pos_iff.mpr nonempty
  rw [htext, hcontent]
  simp only [List.length_append]
  omega

theorem takes_token (offset : Nat) (text : List Char) : Takes text (token offset text) := by
  intro a n h
  obtain ⟨t, p⟩ := a
  obtain ⟨rest, hcontent, _, hn⟩ := spells_of_token h
  obtain ⟨c, tail, htoken, _⟩ := t.head_chars
  exact takes_of_content hcontent (by simp [htoken]) hn

theorem takes_constant (text : List Char) : Takes text (constant text) := by
  intro k n h
  obtain ⟨name, rest, hcontent, hname, hn⟩ := spells_of_constant h
  obtain ⟨c, tail, rfl, _⟩ := Constant.head_name hname
  exact takes_of_content hcontent (List.cons_ne_nil c tail) hn

theorem takes_numeral (offset : Nat) (text : List Char) : Takes text (numeral offset text) := by
  intro x n h
  obtain ⟨spelling, rest, hcontent, hspells, _, hn⟩ := spells_of_numeral h
  exact takes_of_content hcontent (Numeral.spelling_ne_nil hspells) hn

theorem Sound.takes {find : Nat → List Char → Find Group} (sound : Sound find) (offset : Nat)
    (text : List Char) : Takes text (find offset text) := by
  intro g n h
  obtain ⟨inside, v, rest, hcontent, _, _, _, _, _, hn⟩ := sound h
  have hsplit : content text = '(' :: (inside ++ (v ++ [')'])) ++ rest := by simp [hcontent]
  refine takes_of_content hsplit (List.cons_ne_nil _ _) ?_
  rw [hn]
  simp only [List.length_append, List.length_cons, List.length_nil]
  omega

theorem Sound.takes_sequence {find : Nat → List Char → Find Group} (sound : Sound find)
    (limit : Option Nat) (offset : Nat) (text : List Char) :
    Takes text (Lexing.sequenceBy find limit offset text) := by
  intro s n h
  obtain ⟨taken, rest, htext, hn, hne, _, hscans⟩ := sound.sequenceBy h
  have hpositive := List.length_pos_iff.mpr hne
  have hle := hscans.spells.length_le
  rw [htext, List.length_append]
  omega

theorem Sound.takes_element {find : Nat → List Char → Find Group} (sound : Sound find)
    (offset : Nat) (text : List Char) : Takes text (elementBy find offset text) := by
  intro e n h
  cases cases_of_elementBy h with
  | inl hgroup =>
      obtain ⟨g, hfound, _⟩ := hgroup
      exact sound.takes offset text g n hfound
  | inr hleaf =>
      obtain ⟨spelling, rest, hcontent, hleaf, _, hn⟩ := hleaf
      obtain ⟨c, tail, rfl, _⟩ := hleaf.spells.head
      exact takes_of_content hcontent (List.cons_ne_nil c tail) hn

end Lexing

namespace Cursor

theorem length_rest_contentOffset (c : Cursor) :
    (c.moveTo c.contentOffset).rest.length ≤ c.rest.length := by
  rw [rest_moveTo_contentOffset, Lexing.content, List.length_drop]
  exact Nat.sub_le _ _

theorem length_rest_advance {c : Cursor} {ch : Char} (h : c.rest.head? = some ch) :
    (c.advance 1).rest.length < c.rest.length := by
  obtain ⟨tail, htail⟩ := List.head?_eq_some_iff.mp h
  rw [rest_advance, htail]
  exact Nat.lt_succ_self _

end Cursor

theorem Answers.disciplined {α : Type} {c : Cursor} {r : EStateM.Result Fault Session (Option α)}
    {found : Find α} (h : Answers c r found) (takes : Lexing.Takes c.rest found) :
    Disciplined c r := by
  cases h with
  | absent cursor => exact .absent cursor
  | failed cursor => exact .failed cursor
  | @found a n s cursor =>
      obtain ⟨hpositive, hle⟩ := takes a n rfl
      rw [c.length_rest] at hle
      have hoffset : s.cursor.offset = c.offset + n := by rw [cursor, Cursor.offset_advance]
      exact .found (by rw [cursor]; rfl) (by rw [cursor]; rfl) (by omega) (by omega)

namespace Reading

open Step

section
variable {inner inner' : Reading (Option Group)} {find : Nat → List Char → Find Group}
  (answers : ∀ s, Answers s.cursor (inner' s) (find s.cursor.offset s.cursor.rest))

theorem runOf_congr {elements elements' : Reading Sequence} {s : Session}
    (h : elements s.mark = elements' s.mark) :
    reader.runOf elements s = reader.runOf elements' s := by
  simp only [Reader.runOf, attempt, bind_run, h]

theorem elementBy_congr {s : Session} (h : inner s = inner' s) :
    reader.elementBy inner s = reader.elementBy inner' s := by
  simp only [Reader.elementBy, bind_run, cursor_run, h]

include answers

/-- The elements of a run are read from where the run begins on. -/
theorem elementsBy_congr {most : Nat} {s : Session}
    (h : ∀ s', s'.cursor.rest.length ≤ s.cursor.rest.length → inner s' = inner' s') :
    reader.elementsBy inner most s = reader.elementsBy inner' most s := by
  induction most generalizing s with
  | zero => rfl
  | succ most ih =>
      have helement := elementBy_answers answers s
      simp only [Reader.elementsBy, bind_run, elementBy_congr (h s (Nat.le_refl _))]
      generalize reader.elementBy inner' s = r,
        Lexing.elementBy find s.cursor.offset s.cursor.rest = f at helement
      cases helement with
      | absent _ => rfl
      | failed _ => rfl
      | @found e n s₁ cursor =>
          have hshorter : s₁.cursor.rest.length ≤ s.cursor.rest.length := by
            rw [cursor, Cursor.rest_advance, List.length_drop]
            exact Nat.sub_le _ _
          have hrest := ih fun s' hs' => h s' (Nat.le_trans hs' hshorter)
          simp only [bind_run, hrest]

theorem sequenceBy_congr {limit : Option Nat} {s : Session}
    (h : ∀ s', s'.cursor.rest.length ≤ s.cursor.rest.length → inner s' = inner' s') :
    reader.sequenceBy inner limit s = reader.sequenceBy inner' limit s := by
  refine runOf_congr ?_
  simp only [bind_run, cursor_run]
  exact elementsBy_congr (s := s.mark) answers h

/-- Only behind the parenthesis that opens are other groups looked for. -/
theorem groupAround_congr {s : Session}
    (h : ∀ s', s'.cursor.rest.length < s.cursor.rest.length → inner s' = inner' s') :
    reader.groupAround inner s = reader.groupAround inner' s := by
  have hbody (s₁ : Session) (hs₁ : s₁.cursor.rest.length < s.cursor.rest.length) :
      reader.sequenceBy inner (some groupLimit) s₁ =
        reader.sequenceBy inner' (some groupLimit) s₁ :=
    sequenceBy_congr answers fun s' hs' => h s' (Nat.lt_of_le_of_lt hs' hs₁)
  have hskip : reader.skipBlanks s.mark = .ok () _ := skipBlanks_run s.mark
  simp only [Reader.groupAround, attempt, bind_run, hskip, next_run]
  split
  next hopen =>
    rw [bind_run, bind_run, hbody]
    exact Nat.lt_of_lt_of_le (Cursor.length_rest_advance hopen)
      s.mark.cursor.length_rest_contentOffset
  next => rfl

end

/-- However deep the calls inside each other might go on, there are no more than one for each
character that is left and one more. -/
theorem iterate_groupAround (bottom : Reading (Option Group)) {n depth : Nat} {s : Session}
    (hn : s.cursor.rest.length < n) (hdepth : s.cursor.rest.length < depth) :
    (reader.groupAround^[n] bottom) s = reader.groupWithin depth s := by
  induction n generalizing depth s with
  | zero => exact absurd hn (Nat.not_lt_zero _)
  | succ n ih =>
      cases depth with
      | zero => exact absurd hdepth (Nat.not_lt_zero _)
      | succ depth =>
          -- both unfold once, and what is read inside has fewer characters left
          rw [Function.iterate_succ_apply', Reader.groupWithin]
          refine groupAround_congr (groupWithin_answers depth) ?_
          intro s' hs'
          exact ih (Nat.lt_of_lt_of_le hs' (Nat.le_of_lt_succ hn))
            (Nat.lt_of_lt_of_le hs' (Nat.le_of_lt_succ hdepth))

/-- One turn of the loop, behind so many elements; the other turns are `again`. -/
def turn (limit : Option Nat) (again : Nat → Reading Sequence) (count : Nat) : Reading Sequence :=
  if limit.all (count < ·) then do
    match ← element with
    | none => return []
    | some e => return e :: (← again (count + 1))
  else
    return []

theorem runOf_eq_sequence {elements : Reading Sequence} {limit : Option Nat} {s : Session}
    (h : elements s.mark =
      reader.elementsBy group (limit.getD (s.mark.cursor.rest.length + 1)) s.mark) :
    reader.runOf elements s = sequence limit s :=
  runOf_congr h

theorem length_rest_of_element {s s' : Session} {e : Element} (h : element s = .ok (some e) s') :
    s'.cursor.rest.length < s.cursor.rest.length := by
  have hanswers := elementBy_answers group_answers s
  have htakes := Lexing.sound_group.takes_element s.cursor.offset s.cursor.rest
  rw [element] at h
  rw [h] at hanswers
  generalize Lexing.elementBy Lexing.group s.cursor.offset s.cursor.rest = f at hanswers htakes
  cases hanswers with
  | @found _ n _ cursor =>
      obtain ⟨hpositive, hle⟩ := htakes e n rfl
      rw [cursor, Cursor.rest_advance, List.length_drop]
      omega

/-- The other turns are asked only where an element has been taken. -/
theorem turn_eq_elementsBy {limit : Option Nat} {again : Nat → Reading Sequence} {count most : Nat}
    {s : Session} (within : limit.all (count < ·) = true)
    (h : ∀ s', s'.cursor.rest.length < s.cursor.rest.length →
      again (count + 1) s' = reader.elementsBy group most s') :
    turn limit again count s = reader.elementsBy group (most + 1) s := by
  have helements : reader.elementsBy group (most + 1) s =
      (element >>= fun
        | none => return []
        | some e => return e :: (← reader.elementsBy group most)) s := rfl
  rw [helements, turn, if_pos within, bind_run, bind_run]
  cases helement : element s with
  | error fault s' => rfl
  | ok found s' =>
      cases found with
      | none => rfl
      | some e =>
          simp only [bind_run, h s' (length_rest_of_element helement)]

/-- The turns end by themselves, with a limit or without one. What is to spare counts only where
there is no limit. -/
theorem iterate_turn (limit : Option Nat) (bottom : Nat → Reading Sequence) (count : Nat)
    {n spare : Nat} {s : Session} (hn : s.cursor.rest.length < n)
    (hspare : s.cursor.rest.length < spare) :
    ((turn limit)^[n] bottom count) s =
      reader.elementsBy group ((limit.map (· - count)).getD spare) s := by
  induction n generalizing spare count s with
  | zero => exact absurd hn (Nat.not_lt_zero _)
  | succ n ih =>
      rw [Function.iterate_succ_apply']
      cases limit with
      | none =>
          cases spare with
          | zero => exact absurd hspare (Nat.not_lt_zero _)
          | succ spare =>
              refine turn_eq_elementsBy rfl ?_
              intro s' hs'
              exact ih _ (Nat.lt_of_lt_of_le hs' (Nat.le_of_lt_succ hn))
                (Nat.lt_of_lt_of_le hs' (Nat.le_of_lt_succ hspare))
      | some limit =>
          by_cases hcount : count < limit
          · have hleft : limit - count = limit - (count + 1) + 1 := by omega
            rw [Option.map_some, Option.getD_some, hleft]
            refine turn_eq_elementsBy (by simpa using hcount) ?_
            intro s' hs'
            exact ih _ (Nat.lt_of_lt_of_le hs' (Nat.le_of_lt_succ hn)) (Nat.lt_trans hs' hspare)
          · have hnone : limit - count = 0 := by omega
            rw [Option.map_some, Option.getD_some, hnone, turn, if_neg (by simpa using hcount)]
            rfl

theorem disciplined_numeral (s : Session) : Disciplined s.cursor (numeral s) :=
  (numeral_answers s).disciplined (Lexing.takes_numeral _ _)

/-- Every reading on trial keeps the discipline, a numeral also where its characters are read one by
one. Neither the recursion of groups nor the loop of a run, with a limit or without one, goes deeper
than one more than the characters that are left. -/
theorem backtracks (s : Session) :
    (Disciplined s.cursor (numeral s) ∧ Disciplined s.cursor (constant s) ∧
      Disciplined s.cursor (token s) ∧ Disciplined s.cursor (group s) ∧
      ∀ limit, Disciplined s.cursor (sequence limit s)) ∧
    (∀ parseFloat, Guarded.TakesDecimals parseFloat →
      Disciplined s.cursor (Guarded.numeral parseFloat s)) ∧
    (∀ bottom extra, (reader.groupAround^[s.cursor.rest.length + 1 + extra] bottom) s = group s) ∧
    ∀ limit bottom extra,
      reader.runOf ((turn limit)^[s.cursor.rest.length + 1 + extra] bottom 0) s =
        sequence limit s := by
  refine ⟨⟨disciplined_numeral s, ?_, ?_, ?_, ?_⟩, ?_, ?_, ?_⟩
  · exact (constant_answers s).disciplined (Lexing.takes_constant _)
  · exact (token_answers s).disciplined (Lexing.takes_token _ _)
  · exact (group_answers s).disciplined (Lexing.sound_group.takes _ _)
  · intro limit
    exact (sequence_answers limit s).disciplined (Lexing.sound_group.takes_sequence limit _ _)
  · intro parseFloat takes
    rw [Guarded.numeral_eq takes]
    exact (disciplined_numeral s).guarded
  · intro bottom extra
    exact iterate_groupAround bottom (by omega) (Nat.lt_succ_self _)
  · intro limit bottom extra
    apply runOf_eq_sequence
    have henough : s.mark.cursor.rest.length < s.cursor.rest.length + 1 + extra := by
      have hrest : s.mark.cursor.rest = s.cursor.rest := rfl
      rw [hrest]
      omega
    have hturns := iterate_turn limit bottom 0 henough (Nat.lt_succ_self s.mark.cursor.rest.length)
    cases limit <;> exact hturns

/-- A numeral that ends with the input, under a mark, so that the character put back is none. -/
theorem backtracks_at_end :
    Guarded.TakesDecimals Numeral.valueOf? ∧
      Disciplined ⟨" 2.5E3".toList, 0, [7]⟩
        (Guarded.numeral Numeral.valueOf? ⟨⟨" 2.5E3".toList, 0, [7]⟩, []⟩) := by
  obtain ⟨_, hnumeral, _⟩ := backtracks ⟨⟨" 2.5E3".toList, 0, [7]⟩, []⟩
  exact ⟨Numeral.takesDecimals_valueOf?, hnumeral _ Numeral.takesDecimals_valueOf?⟩

end Reading
end LineCalc

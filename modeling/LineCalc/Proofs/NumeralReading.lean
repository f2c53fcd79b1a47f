import Mathlib.Tactic.Push
import LineCalc.Proofs.Backtracking

/-!
Which texts are numerals. A text is described by the sign at its head, the digits that follow as far
as they go, a point with the digits behind it, and an exponent marker with a sign and digits of its
own. From the description it follows whether there is a numeral, which one, and where it ends, or
which digits are missing. Every text has such a description, and the reading of a numeral decides as
the description says: what it finds it leaves behind it, and otherwise it does not move. The text
that a numeral is shown as is among those that are read, so no two numerals are shown alike.
-/

namespace LineCalc

/-- A sign as it stands before the rest of a text, a plus in no character where none stands. -/
structure Sign.Leads (sign : Sign) (spelling rest : List Char) : Prop where
  spells : sign.Spells spelling
  unwritten : spelling = [] → ∀ c ∈ rest.head?, ofChar? c = none

theorem Sign.Leads.leading {sign : Sign} {spelling rest : List Char}
    (h : sign.Leads spelling rest) : Sign.leading (spelling ++ rest) = (sign, rest) := by
  obtain ⟨spells, unwritten⟩ := h
  cases spells with
  | plus => rfl
  | minus => rfl
  | unwritten => exact leading_append .unwritten (unwritten rfl)

theorem Sign.exists_leads (text : List Char) :
    ∃ sign spelling rest, text = spelling ++ rest ∧ Sign.Leads sign spelling rest := by
  obtain ⟨spelling, htext, spells⟩ := Sign.spells_of_leading text
  refine ⟨(Sign.leading text).1, spelling, (Sign.leading text).2, htext, spells, ?_⟩
  intro hnil c hc
  rw [hnil, List.nil_append] at htext
  rw [← htext] at hc
  obtain ⟨tail, rfl⟩ := List.head?_eq_some_iff.mp hc
  cases hsign : Sign.ofChar? c with
  | none => rfl
  | some sign =>
      -- a sign would have been taken off
      simp only [Sign.leading, hsign] at htext
      exact absurd (congrArg List.length htext) (by simp)

theorem Digit.exists_ends (text : List Char) :
    ∃ (digits : List Digit) (rest : List Char), text = digits.map char ++ rest ∧ Ends rest :=
  ⟨_, _, (map_char_leading text).symm, ends_leading text⟩

namespace Numeral

/-- A text begins with a sign, if there is one, and digits as far as they go, and, if a point
follows, with the point and the digits behind it as far as they go. -/
inductive Begins : List Char → Sign → List Digit → Option (List Digit) → List Char → Prop where
  | unpointed {sign : Sign} {spelling : List Char} {integer : List Digit} {rest : List Char}
      (leads : sign.Leads spelling (integer.map Digit.char ++ rest)) (ends : Digit.Ends rest)
      (unpointed : ∀ c ∈ rest.head?, c ≠ '.') :
      Begins (spelling ++ (integer.map Digit.char ++ rest)) sign integer none rest
  | pointed {sign : Sign} {spelling : List Char} {integer decimal : List Digit} {rest : List Char}
      (leads : sign.Leads spelling
        (integer.map Digit.char ++ '.' :: (decimal.map Digit.char ++ rest)))
      (ends : Digit.Ends rest) :
      Begins (spelling ++ (integer.map Digit.char ++ '.' :: (decimal.map Digit.char ++ rest))) sign
        integer (some decimal) rest

/-- Does a text begin with an exponent marker? -/
def Marked (text : List Char) : Prop :=
  ∃ c ∈ text.head?, Exponent.isMarker c = true

/-- What a text is as a numeral, and what stands in it behind the last character that counts. -/
inductive Described (text : List Char) : Verdict → List Char → Prop where
  /-- There are no digits, and neither a point nor a marker either. -/
  | absent {sign : Sign} {rest : List Char} (begins : Begins text sign [] none rest)
      (unmarked : ¬ Marked rest) : Described text .absent rest
  /-- There is a point or a marker, and there are no digits before it and none behind the point. -/
  | noDigits {sign : Sign} {fraction : Option (List Digit)} {rest : List Char}
      (begins : Begins text sign [] fraction rest) (empty : fraction.getD [] = [])
      (committed : fraction.isSome ∨ Marked rest) : Described text (.malformed .noDigits) rest
  | plain {sign : Sign} {integer : List Digit} {fraction : Option (List Digit)} {rest : List Char}
      (begins : Begins text sign integer fraction rest)
      (digits : integer ≠ [] ∨ fraction.getD [] ≠ []) (unmarked : ¬ Marked rest) :
      Described text (.found ⟨sign, integer, fraction.getD [], none, digits⟩) rest
  | noExponentDigits {sign exponentSign : Sign} {integer : List Digit}
      {fraction : Option (List Digit)} {marker : Char} {spelling rest : List Char}
      (begins : Begins text sign integer fraction (marker :: (spelling ++ rest)))
      (digits : integer ≠ [] ∨ fraction.getD [] ≠ []) (marks : Exponent.isMarker marker = true)
      (leads : exponentSign.Leads spelling rest) (ends : Digit.Ends rest) :
      Described text (.malformed .noExponentDigits) rest
  | scaled {sign exponentSign : Sign} {integer exponentDigits : List Digit}
      {fraction : Option (List Digit)} {marker : Char} {spelling rest : List Char}
      (begins : Begins text sign integer fraction
        (marker :: (spelling ++ (exponentDigits.map Digit.char ++ rest))))
      (digits : integer ≠ [] ∨ fraction.getD [] ≠ []) (marks : Exponent.isMarker marker = true)
      (leads : exponentSign.Leads spelling (exponentDigits.map Digit.char ++ rest))
      (nonempty : exponentDigits ≠ []) (ends : Digit.Ends rest) :
      Described text (.found ⟨sign, integer, fraction.getD [],
        some ⟨exponentSign, exponentDigits, nonempty⟩, digits⟩) rest

theorem exists_begins (text : List Char) :
    ∃ sign integer fraction rest, Begins text sign integer fraction rest := by
  obtain ⟨sign, spelling, magnitude, rfl, leads⟩ := Sign.exists_leads text
  obtain ⟨integer, tail, rfl, ends⟩ := Digit.exists_ends magnitude
  by_cases hpoint : ∀ c ∈ tail.head?, c ≠ '.'
  · exact ⟨sign, integer, none, tail, .unpointed leads ends hpoint⟩
  · push Not at hpoint
    obtain ⟨c, hc, rfl⟩ := hpoint
    obtain ⟨behind, rfl⟩ := List.head?_eq_some_iff.mp hc
    obtain ⟨decimal, rest, rfl, ends'⟩ := Digit.exists_ends behind
    exact ⟨sign, integer, some decimal, rest, .pointed leads ends'⟩

theorem exists_described (text : List Char) : ∃ verdict rest, Described text verdict rest := by
  obtain ⟨sign, integer, fraction, rest, begins⟩ := exists_begins text
  by_cases digits : integer ≠ [] ∨ fraction.getD [] ≠ []
  · by_cases marked : Marked rest
    · obtain ⟨marker, hmarker, marks⟩ := marked
      obtain ⟨behind, rfl⟩ := List.head?_eq_some_iff.mp hmarker
      obtain ⟨exponentSign, spelling, tail, rfl, leads⟩ := Sign.exists_leads behind
      obtain ⟨exponentDigits, rest, rfl, ends⟩ := Digit.exists_ends tail
      by_cases nonempty : exponentDigits = []
      · subst nonempty
        exact ⟨_, rest, .noExponentDigits begins digits marks leads ends⟩
      · exact ⟨_, rest, .scaled begins digits marks leads nonempty ends⟩
    · exact ⟨_, rest, .plain begins digits marked⟩
  · push Not at digits
    obtain ⟨rfl, empty⟩ := digits
    by_cases committed : fraction.isSome ∨ Marked rest
    · exact ⟨_, rest, .noDigits begins empty committed⟩
    · push Not at committed
      obtain ⟨hnone, unmarked⟩ := committed
      obtain rfl := Option.not_isSome_iff_eq_none.mp hnone
      exact ⟨_, rest, .absent begins unmarked⟩

theorem Begins.exists_append {text rest : List Char} {sign : Sign} {integer : List Digit}
    {fraction : Option (List Digit)} (h : Begins text sign integer fraction rest) :
    ∃ taken, text = taken ++ rest := by
  cases h with
  | @unpointed _ spelling integer _ _ _ _ => exact ⟨spelling ++ integer.map Digit.char, by simp⟩
  | @pointed _ spelling integer decimal _ _ _ =>
      exact ⟨spelling ++ (integer.map Digit.char ++ '.' :: decimal.map Digit.char), by simp⟩

/-- A description counts the characters from the start of the text on. -/
theorem Described.exists_append {text rest : List Char} {verdict : Verdict}
    (h : Described text verdict rest) : ∃ taken, text = taken ++ rest := by
  cases h with
  | absent begins _ => exact begins.exists_append
  | noDigits begins _ _ => exact begins.exists_append
  | plain begins _ _ => exact begins.exists_append
  | @noExponentDigits _ _ _ _ marker spelling rest begins _ _ _ _ =>
      obtain ⟨taken, rfl⟩ := begins.exists_append
      exact ⟨taken ++ marker :: spelling, by simp⟩
  | @scaled _ _ _ exponentDigits _ marker spelling rest begins _ _ _ _ _ =>
      obtain ⟨taken, rfl⟩ := begins.exists_append
      exact ⟨taken ++ marker :: (spelling ++ exponentDigits.map Digit.char), by simp⟩

theorem isCommitted_iff {text : List Char} :
    isCommitted text = true ↔ (∃ rest, text = '.' :: rest) ∨ Marked text := by
  cases text with
  | nil => simp [isCommitted, Marked]
  | cons c rest => simp [isCommitted, Marked]

namespace Begins

variable {text rest : List Char} {sign : Sign} {integer : List Digit}
  {fraction : Option (List Digit)}

theorem sign_eq (h : Begins text sign integer fraction rest) : (Sign.leading text).1 = sign := by
  cases h with
  | unpointed leads _ _ => rw [leads.leading]
  | pointed leads _ => rw [leads.leading]

/-- The digits before the point, and those behind it. -/
theorem digits_eq (h : Begins text sign integer fraction rest) :
    (Digit.leading (Sign.leading text).2).1 = integer ∧
      Numeral.fraction (Digit.leading (Sign.leading text).2).2 = (fraction.getD [], rest) ∧
      (isCommitted (Digit.leading (Sign.leading text).2).2 = true ↔
        fraction.isSome ∨ Marked rest) := by
  cases h with
  | unpointed leads ends unpointed =>
      have hfraction := fraction_append .unwritten ends fun _ => unpointed
      rw [leads.leading, Digit.leading_append ends]
      refine ⟨rfl, hfraction, ?_⟩
      rw [isCommitted_iff]
      have hpoint : ¬ ∃ behind, rest = '.' :: behind := by
        rintro ⟨behind, rfl⟩
        exact unpointed '.' rfl rfl
      simp [hpoint]
  | @pointed _ _ _ decimal _ leads ends =>
      have hpoint : Digit.Ends ('.' :: (decimal.map Digit.char ++ rest)) := by
        intro c hc
        cases hc
        rfl
      have hfraction := fraction_append (.pointed decimal) ends (by simp)
      rw [leads.leading, Digit.leading_append hpoint]
      refine ⟨rfl, hfraction, ?_⟩
      simp [isCommitted]

end Begins

theorem exponent_read_of_not_marked {text : List Char} (h : ¬ Marked text) :
    Exponent.read text = none := by
  cases text with
  | nil => rfl
  | cons c rest =>
      have hc : Exponent.isMarker c = false := by simpa [Marked] using h
      rw [Exponent.read, hc]
      rfl

theorem Described.read_eq {text rest : List Char} {verdict : Verdict}
    (h : Described text verdict rest) : read text = (verdict, rest) := by
  cases h with
  | absent begins unmarked =>
      obtain ⟨hinteger, hfraction, hcommitted⟩ := begins.digits_eq
      have hplain : isCommitted (Digit.leading (Sign.leading text).2).2 = false := by
        simpa [unmarked] using hcommitted
      simp [read, hinteger, hfraction, hplain]
  | noDigits begins empty committed =>
      obtain ⟨hinteger, hfraction, hcommitted⟩ := begins.digits_eq
      simp [read, hinteger, hfraction, empty, hcommitted.mpr committed]
  | plain begins digits unmarked =>
      obtain ⟨hinteger, hfraction, _⟩ := begins.digits_eq
      simp only [read, hinteger, hfraction, begins.sign_eq, exponent_read_of_not_marked unmarked]
      rw [dif_pos digits]
  | noExponentDigits begins digits marks leads ends =>
      obtain ⟨hinteger, hfraction, _⟩ := begins.digits_eq
      have hread := Digit.leading_append ends []
      rw [List.map_nil, List.nil_append] at hread
      simp only [read, hinteger, hfraction, begins.sign_eq, Exponent.read, marks, if_true,
        leads.leading, hread]
      rw [dif_pos digits]
      rfl
  | @scaled _ _ _ exponentDigits _ _ _ _ begins digits marks leads nonempty ends =>
      obtain ⟨hinteger, hfraction, _⟩ := begins.digits_eq
      simp only [read, hinteger, hfraction, begins.sign_eq, Exponent.read, marks, if_true,
        leads.leading, Digit.leading_append ends exponentDigits]
      rw [dif_pos digits, dif_pos nonempty]

variable {ε : Type}

/-- A reading decides as it should when a text of so many characters from the start on counts. It
moves only to behind what it finds, and a fault spans the text and the character that was read after
it, if there was one. -/
inductive Decides (wrap : Fault → ε) (c : Cursor) (start length : Nat) :
    Verdict → EStateM.Result ε Session (Option Numeral) → Prop where
  | absent {s : Session} (cursor : s.cursor = c) :
      Decides wrap c start length .absent (.ok none s)
  | malformed {flaw : Flaw} {s : Session} (cursor : s.cursor = c) :
      Decides wrap c start length (.malformed flaw)
        (.error (wrap (.malformed flaw.detail ⟨start, min (start + length + 1) c.size⟩)) s)
  | found {n : Numeral} {s : Session} (cursor : s.cursor = c.moveTo (start + length)) :
      Decides wrap c start length (.found n) (.ok (some n) s)

theorem Decides.guarded {c : Cursor} {start length : Nat} {verdict : Verdict}
    {r : Reading (Option Numeral)} {s : Session}
    (h : Decides id c start length verdict (r s)) :
    Decides Failure.fault c start length verdict (Step.guarded r s) := by
  simp only [Step.guarded]
  generalize r s = result at h
  cases h with
  | absent cursor => exact .absent cursor
  | malformed cursor => exact .malformed cursor
  | found cursor => exact .found cursor

/-- What a numeral is shown as begins with no blank. -/
theorem visible_append (n : Numeral) (rest : List Char) :
    ∀ c ∈ (n.chars ++ rest).head?, isBlank c = false := by
  cases hsign : n.sign with
  | minus =>
      intro c hc
      simp only [chars, hsign, Sign.chars, List.cons_append, List.head?_cons] at hc
      cases hc
      rfl
  | plus =>
      have hleaf := Element.LeafSpells.numeral 0 n.spells_chars (unsigned_chars hsign)
      obtain ⟨c, tail, hchars, hblank, _⟩ := hleaf.head
      rw [hchars]
      intro d hd
      cases hd
      exact hblank

end Numeral

namespace Lexing

theorem content_of_head {text : List Char} (h : ∀ c ∈ text.head?, isBlank c = false) :
    content text = text ∧ blanks text = 0 := by
  cases text with
  | nil => exact ⟨rfl, rfl⟩
  | cons c rest =>
      have hc := h c rfl
      exact ⟨content_of_not_isBlank hc rest, blanks_of_not_isBlank hc rest⟩

end Lexing

namespace Reading

theorem numeral_decides {s : Session} {w taken rest : List Char} {verdict : Numeral.Verdict}
    (unread : s.cursor.rest = w ++ (taken ++ rest)) (blank : Blank w)
    (visible : ∀ c ∈ (taken ++ rest).head?, isBlank c = false)
    (read : Numeral.read (taken ++ rest) = (verdict, rest)) :
    Numeral.Decides id s.cursor (s.cursor.offset + w.length) taken.length verdict (numeral s) := by
  obtain ⟨hcontent, hblanks⟩ := Lexing.content_of_head visible
  have hanswers := numeral_answers s
  have hlength : Lexing.numeralLength (taken ++ rest) = taken.length := by
    rw [Lexing.numeralLength, read, List.length_append, Nat.add_sub_cancel]
  rw [unread, Lexing.numeral, Lexing.content_append blank, Lexing.blanks_append blank, hcontent,
    hblanks, hlength, read, Nat.add_zero] at hanswers
  generalize numeral s = result at hanswers ⊢
  cases verdict with
  | absent =>
      cases hanswers with
      | absent cursor => exact .absent cursor
  | found n =>
      cases hanswers with
      | found cursor =>
          refine .found ?_
          rw [cursor, Cursor.advance, Nat.add_assoc]
  | malformed flaw =>
      -- something stands there, so that the text lies within the input
      have hnonempty : (taken ++ rest).length ≠ 0 := by
        intro hnil
        rw [List.length_eq_zero_iff.mp hnil] at read
        cases read
      have hsize := s.cursor.length_rest
      have hlengths := congrArg List.length unread
      simp only [List.length_append] at hnonempty hlengths
      have hspan : max (s.cursor.offset + w.length)
          (min (s.cursor.offset + w.length + taken.length + 1)
            (s.cursor.offset + (w ++ (taken ++ rest)).length)) =
          min (s.cursor.offset + w.length + taken.length + 1) s.cursor.size := by
        simp only [List.length_append]
        omega
      rw [hspan] at hanswers
      cases hanswers with
      | failed cursor => exact .malformed cursor

/-- Behind the blanks there is a description of the text, and the reading of a numeral decides by
it, also when it reads one character at a time and puts the last one back. -/
theorem numeral_described (s : Session) {w text : List Char} (unread : s.cursor.rest = w ++ text)
    (blank : Blank w) (visible : ∀ c ∈ text.head?, isBlank c = false) :
    (∃ verdict taken rest, text = taken ++ rest ∧ Numeral.Described text verdict rest) ∧
      ∀ {verdict : Numeral.Verdict} {taken rest : List Char}, text = taken ++ rest →
        Numeral.Described text verdict rest →
          Numeral.Decides id s.cursor (s.cursor.offset + w.length) taken.length verdict
            (numeral s) ∧
          ∀ parseFloat, Guarded.TakesDecimals parseFloat →
            Numeral.Decides Failure.fault s.cursor (s.cursor.offset + w.length) taken.length verdict
              (Guarded.numeral parseFloat s) := by
  refine ⟨?_, ?_⟩
  · obtain ⟨verdict, rest, described⟩ := Numeral.exists_described text
    obtain ⟨taken, htext⟩ := described.exists_append
    exact ⟨verdict, taken, rest, htext, described⟩
  · rintro verdict taken rest rfl described
    have hdecides := numeral_decides unread blank visible described.read_eq
    refine ⟨hdecides, ?_⟩
    intro parseFloat takes
    rw [Guarded.numeral_eq takes]
    exact hdecides.guarded

/-- Within a line and under a mark, an exponent that the end of the input cuts short. -/
theorem numeral_described_cut :
    (⟨"1+  5.2e-".toList, 2, [0]⟩ : Cursor).rest = [' ', ' '] ++ ['5', '.', '2', 'e', '-'] ∧
      Numeral.Described ['5', '.', '2', 'e', '-'] (.malformed .noExponentDigits) [] ∧
      Guarded.TakesDecimals Numeral.valueOf? ∧
      (∃ s, numeral ⟨⟨"1+  5.2e-".toList, 2, [0]⟩, []⟩ =
        .error (.malformed Numeral.Flaw.noExponentDigits.detail ⟨4, 9⟩) s) ∧
      ∃ s, Guarded.numeral Numeral.valueOf? ⟨⟨"1+  5.2e-".toList, 2, [0]⟩, []⟩ =
        .error (.fault (.malformed Numeral.Flaw.noExponentDigits.detail ⟨4, 9⟩)) s := by
  have hunread : (⟨"1+  5.2e-".toList, 2, [0]⟩ : Cursor).rest =
      [' ', ' '] ++ ['5', '.', '2', 'e', '-'] := by decide
  have hbegins : Numeral.Begins ['5', '.', '2', 'e', '-'] .plus [5] (some [2]) ['e', '-'] := by
    refine @Numeral.Begins.pointed .plus [] [5] [2] ['e', '-'] ⟨.unwritten, ?_⟩ ?_
    · intro _ c hc
      cases hc
      rfl
    · intro c hc
      cases hc
      rfl
  have hdescribed : Numeral.Described ['5', '.', '2', 'e', '-'] (.malformed .noExponentDigits)
      [] := by
    refine @Numeral.Described.noExponentDigits _ _ .minus [5] (some [2]) 'e' ['-'] [] hbegins
      (.inl (by simp)) rfl ⟨.minus, by simp⟩ ?_
    intro c hc
    cases hc
  have htext : ['5', '.', '2', 'e', '-'] = ['5', '.', '2', 'e', '-'] ++ [] := rfl
  obtain ⟨hdecides, hguarded⟩ :=
    (numeral_described ⟨⟨"1+  5.2e-".toList, 2, [0]⟩, []⟩ hunread (by decide)
      (by intro c hc; cases hc; rfl)).2 htext hdescribed
  refine ⟨hunread, hdescribed, Numeral.takesDecimals_valueOf?, ?_, ?_⟩
  · generalize numeral _ = result at hdecides ⊢
    cases hdecides with
    | malformed cursor => exact ⟨_, rfl⟩
  · have hdecides' := hguarded _ Numeral.takesDecimals_valueOf?
    generalize Guarded.numeral _ _ = result at hdecides' ⊢
    cases hdecides' with
    | malformed cursor => exact ⟨_, rfl⟩

/-- The text that a numeral is shown as is read as that numeral, up to the first character behind it
that cannot belong to a numeral, and it is the text of no other. -/
theorem numeral_text (n : Numeral) {s : Session} {rest : List Char}
    (unread : s.cursor.rest = n.text.toList ++ rest) (ends : Numeral.Ends rest) :
    (∃ s', numeral s = .ok (some n) s' ∧ s'.cursor = s.cursor.advance n.text.length ∧
      s'.cursor.rest = rest) ∧ ∀ m : Numeral, m.text = n.text → m = n := by
  have hread := Numeral.read_append n.spells_chars (ends.endsBefore n.chars)
  have hchars : n.text.toList = n.chars := String.toList_ofList
  rw [hchars] at unread
  refine ⟨?_, ?_⟩
  · have hdecides :=
      @numeral_decides s [] n.chars rest _ unread blank_nil (n.visible_append rest) hread
    generalize numeral s = result at hdecides ⊢
    cases hdecides with
    | @found _ s' cursor =>
        have hcursor : s'.cursor = s.cursor.advance n.text.length := by
          rw [cursor, ← hchars, String.length_toList]
          rfl
        refine ⟨s', rfl, hcursor, ?_⟩
        rw [hcursor, Cursor.rest_advance, unread, ← String.length_toList, hchars, List.drop_left]
  · intro m hm
    exact Numeral.eq_of_chars_eq (String.ofList_injective hm)

/-- Every part that a numeral can have, behind a plus sign that is a token. -/
theorem numeral_text_signed_exponent :
    ∃ n : Numeral, n.text = "-007.50E-08" ∧ Numeral.Ends [')', '.'] ∧
      ∃ s', numeral ⟨⟨"+-007.50E-08).".toList, 1, []⟩, []⟩ = .ok (some n) s' ∧
        s'.cursor.rest = [')', '.'] := by
  let n : Numeral := ⟨.minus, [0, 0, 7], [5, 0], some ⟨.minus, [0, 8], by simp⟩, by simp⟩
  have htext : n.text = "-007.50E-08" := by decide
  have hends : Numeral.Ends [')', '.'] := by
    intro c hc
    cases hc
    decide
  have hunread : (⟨"+-007.50E-08).".toList, 1, []⟩ : Cursor).rest =
      n.text.toList ++ [')', '.'] := by
    rw [htext]
    decide
  obtain ⟨⟨s', hs', _, hrest⟩, _⟩ :=
    numeral_text n (s := ⟨⟨"+-007.50E-08).".toList, 1, []⟩, []⟩) hunread hends
  exact ⟨n, htext, hends, s', hs', hrest⟩

end Reading
end LineCalc

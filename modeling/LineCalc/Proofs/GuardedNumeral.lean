import LineCalc.Proofs.GuardedRounds
import LineCalc.Proofs.Spelling

/-!
Reading a numeral with guards, one character at a time. The character that was read last decides
what is read next, one character behind the numeral has been read when its end is known, and that
one is put back. The digits then have to be a floating-point number for the parser at hand. Where
that parser takes all plain decimals, the guarded reading is the reading, with the same session at
its end.
-/

namespace LineCalc

namespace Step

variable {α β : Type}

/-- The same step with its faults as failures. -/
def guarded (r : Reading α) : Step Failure α := fun s =>
  match r s with
  | .ok a s => .ok a s
  | .error fault s => .error (.fault fault) s

/-- Steps that are the same one after the other are the same together. It is enough that the second
is the same where the first may lead. -/
theorem bind_eq_guarded_of {g : Step Failure α} {r : Reading α} {g' : α → Step Failure β}
    {r' : α → Reading β} (h : g = guarded r)
    (h' : ∀ a s s', r s = .ok a s' → g' a s' = guarded (r' a) s') :
    (g >>= g') = guarded (r >>= r') := by
  funext s
  simp only [h, guarded, bind_run]
  cases hr : r s with
  | error fault s' => rfl
  | ok a s' => exact h' a s s' hr

theorem bind_eq_guarded {g : Step Failure α} {r : Reading α} {g' : α → Step Failure β}
    {r' : α → Reading β} (h : g = guarded r) (h' : ∀ a, g' a = guarded (r' a)) :
    (g >>= g') = guarded (r >>= r') :=
  bind_eq_guarded_of h fun a _ s' _ => congrFun (h' a) s'

/-- What is the same on trial is the same with the end of the trial. -/
theorem attempt_eq_guarded {g : Step Failure (Option α)} {r : Reading (Option α)} {s : Session}
    (h : g s.mark = guarded r s.mark) :
    attempt (.fault ∘ .cursor) g s = guarded (attempt .cursor r) s := by
  simp only [attempt, guarded, h]
  cases r s.mark with
  | error fault s =>
      simp only [settle]
      cases s.restore <;> rfl
  | ok found s =>
      cases found with
      | none =>
          simp only [settle]
          cases s.restore <;> rfl
      | some a =>
          simp only [settle]
          cases s.unmark <;> rfl

end Step

namespace Numeral

/-- The text that is read as a floating-point number: zero stands before a bare point. -/
def mantissaChars (n : Numeral) : List Char :=
  n.sign.chars ++ (if n.integer = [] then ['0'] else n.integer.map Digit.char) ++
    if n.decimal = [] then [] else '.' :: n.decimal.map Digit.char

end Numeral

theorem Sign.leading_suffix (text : List Char) : (Sign.leading text).2 <:+ text := by
  obtain ⟨spelling, htext, _⟩ := Sign.spells_of_leading text
  exact ⟨spelling, htext.symm⟩

theorem Digit.leading_suffix (text : List Char) : (Digit.leading text).2 <:+ text :=
  ⟨_, Digit.map_char_leading text⟩

theorem Numeral.fraction_suffix (text : List Char) : (Numeral.fraction text).2 <:+ text := by
  obtain ⟨spelling, htext, _⟩ := Numeral.fractionSpells_fraction text
  exact ⟨spelling, htext.symm⟩

/-- What is not committed has neither a point nor a marker at its head. -/
theorem Numeral.plain_of_not_committed {text : List Char} (h : isCommitted text = false) :
    fraction text = ([], text) ∧ Exponent.read text = none := by
  cases text with
  | nil => exact ⟨rfl, rfl⟩
  | cons c text =>
      obtain ⟨hpoint, hmarker⟩ := Bool.or_eq_false_iff.mp h
      refine ⟨?_, ?_⟩
      · unfold fraction
        split
        next heq =>
          rw [(List.cons.inj heq).1] at hpoint
          cases hpoint
        next => rfl
      · rw [Exponent.read, hmarker]
        rfl

namespace Guarded

open Step

/-- The parser takes every plain decimal: digits, with a minus before them or none, and with a point
and digits behind them or none. -/
def TakesDecimals (parseFloat : List Char → Option Float) : Prop :=
  ∀ (sign : Sign) (whole fraction : List Digit), whole ≠ [] →
    (parseFloat (sign.chars ++ whole.map Digit.char ++
      if fraction = [] then [] else '.' :: fraction.map Digit.char)).isSome

/-- Reads up to the first character that is not blank, which is among the given unread ones. -/
def contentIn : List Char → Step Failure (Option Char)
  | [] => next
  | _ :: unread => do
    let last ← next
    if last.any isBlank then contentIn unread else return last

/-- A sign, if one was read last, and the character that is read last now. -/
def sign (last : Option Char) : Step Failure (Sign × Option Char) := do
  match last.bind Sign.ofChar? with
  | some sign => return (sign, ← next)
  | none => return (.plus, last)

/-- Digits, from the one that was read last on, and the character that is read last now. -/
def digitsIn : List Char → Option Char → Step Failure (List Digit × Option Char)
  | unread, last => do
    match last.bind Digit.ofChar? with
    | none => return ([], last)
    | some d =>
      let last ← next
      match unread with
      | [] => return ([d], last)
      | _ :: unread =>
        let (ds, last) ← digitsIn unread last
        return (d :: ds, last)

def digits (last : Option Char) : Step Failure (List Digit × Option Char) := do
  digitsIn (← cursor).rest last

/-- The digits behind a point, none if no point was read last. -/
def fraction (last : Option Char) : Step Failure (List Digit × Option Char) := do
  if last = some '.' then
    let last ← next
    digits last
  else
    return ([], last)

def malformed {α : Type} (flaw : Numeral.Flaw) (start : Nat) : Step Failure α := do
  let c ← cursor
  throw (.fault (.malformed flaw.detail ⟨start, max start (min c.offset c.size)⟩))

/-- The numeral that was read up to the last character, which is put back. -/
def finish (parseFloat : List Char → Option Float) (n : Numeral) :
    Step Failure (Option Numeral) := do
  tryMove (.fault ∘ .cursor) Cursor.pushBack
  match parseFloat n.mantissaChars with
  | none => throw (.fault (.unreadableFloat (String.ofList n.mantissaChars)))
  | some _ =>
    log (.numeral n)
    return some n

/-- The rest of a numeral whose digits beside the point have been read. -/
def exponentOf (parseFloat : List Char → Option Float) (start : Nat) (sign : Sign)
    (integer decimal : List Digit) (h : integer ≠ [] ∨ decimal ≠ []) (last : Option Char) :
    Step Failure (Option Numeral) := do
  if last.any Exponent.isMarker then
    let last ← next
    let (exponentSign, last) ← Guarded.sign last
    let (exponentDigits, _) ← digits last
    if hx : exponentDigits ≠ [] then
      finish parseFloat ⟨sign, integer, decimal, some ⟨exponentSign, exponentDigits, hx⟩, h⟩
    else
      malformed .noExponentDigits start
  else
    finish parseFloat ⟨sign, integer, decimal, none, h⟩

def numeralBody (parseFloat : List Char → Option Float) : Step Failure (Option Numeral) := do
  let last ← contentIn (← cursor).rest
  let start ← MonadExcept.ofExcept (minus (← cursor).offset 1)
  let (sign, last) ← sign last
  let (integer, last) ← digits last
  if last.any fun c => c == '.' || Exponent.isMarker c then
    let (decimal, last) ← fraction last
    if h : integer ≠ [] ∨ decimal ≠ [] then
      exponentOf parseFloat start sign integer decimal h last
    else
      malformed .noDigits start
  else
    if h : integer ≠ [] then
      finish parseFloat ⟨sign, integer, [], none, .inl h⟩
    else
      return none

def numeral (parseFloat : List Char → Option Float) : Step Failure (Option Numeral) :=
  attempt (.fault ∘ .cursor) (numeralBody parseFloat)

/-- The session when all of the content before the given end of it has been read, and one character
more. -/
def ahead (s : Session) (text : List Char) : Session :=
  s.withCursor (s.cursor.moveTo
    (s.cursor.contentOffset + ((Lexing.content s.cursor.rest).length - text.length) + 1))

variable {s : Session} {text : List Char}

theorem rest_ahead (h : text <:+ Lexing.content s.cursor.rest) :
    (ahead s text).cursor.rest = text.tail := by
  obtain ⟨front, hfront⟩ := h
  have hcontent : s.cursor.input.drop s.cursor.contentOffset = front ++ text :=
    s.cursor.rest_moveTo_contentOffset.trans hfront.symm
  have hlength : (Lexing.content s.cursor.rest).length - text.length = front.length := by
    rw [← hfront, List.length_append, Nat.add_sub_cancel]
  change s.cursor.input.drop (_ + _ + 1) = _
  rw [hlength, Nat.add_assoc, ← List.drop_drop, hcontent, ← List.drop_drop, List.drop_left,
    List.drop_one]

theorem next_ahead {c : Char} (h : c :: text <:+ Lexing.content s.cursor.rest) :
    (next : Step Failure (Option Char)) (ahead s (c :: text)) =
      .ok text.head? (ahead s text) := by
  have hlength := h.length_le
  rw [List.length_cons] at hlength
  have hoffset : (ahead s (c :: text)).cursor.offset + 1 = (ahead s text).cursor.offset := by
    change s.cursor.contentOffset + ((Lexing.content s.cursor.rest).length - (text.length + 1)) +
      1 + 1 = s.cursor.contentOffset + ((Lexing.content s.cursor.rest).length - text.length) + 1
    omega
  have hadvance : (ahead s (c :: text)).withCursor ((ahead s (c :: text)).cursor.advance 1) =
      ahead s text := by
    rw [Cursor.advance, hoffset]
    rfl
  rw [next_run, rest_ahead h, hadvance]
  rfl

theorem contentIn_run (s : Session) :
    contentIn s.cursor.rest s =
      .ok (Lexing.content s.cursor.rest).head? (ahead s (Lexing.content s.cursor.rest)) := by
  generalize htext : s.cursor.rest = text
  induction text generalizing s with
  | nil =>
      rw [contentIn, next_run, htext]
      simp [ahead, htext, Cursor.contentOffset_eq, Lexing.content, Lexing.blanks, Cursor.advance]
  | cons c text ih =>
      have hrest : (s.withCursor (s.cursor.advance 1)).cursor.rest = text := by
        change (s.cursor.advance 1).rest = text
        rw [Cursor.rest_advance, htext, List.drop_one, List.tail_cons]
      simp only [contentIn, bind_run, next_run, htext, List.head?_cons, Option.any_some]
      by_cases hc : isBlank c = true
      · have hblanks : Lexing.blanks (c :: text) = Lexing.blanks text + 1 := by
          simp [Lexing.blanks, hc]
        have hcontent : Lexing.content (c :: text) = Lexing.content text := by
          rw [Lexing.content, hblanks, List.drop_succ_cons, Lexing.content]
        have hoffset : (s.withCursor (s.cursor.advance 1)).cursor.contentOffset =
            s.cursor.contentOffset := by
          rw [Cursor.contentOffset_eq, hrest, Cursor.contentOffset_eq, htext, hblanks]
          exact Nat.add_right_comm _ 1 _
        rw [if_pos hc, ih _ hrest, hcontent]
        simp only [ahead, hoffset, hrest, htext, hcontent]
        rfl
      · have hcontent : Lexing.content (c :: text) = c :: text :=
          Lexing.content_of_not_isBlank (by simpa using hc) text
        have hblanks : Lexing.blanks (c :: text) = 0 :=
          Lexing.blanks_of_not_isBlank (by simpa using hc) text
        rw [if_neg hc, hcontent]
        simp only [ahead, htext, hcontent, Cursor.contentOffset_eq, hblanks]
        simp [Cursor.advance]
        rfl

theorem sign_ahead (h : text <:+ Lexing.content s.cursor.rest) :
    sign text.head? (ahead s text) =
      .ok ((Sign.leading text).1, (Sign.leading text).2.head?) (ahead s (Sign.leading text).2) := by
  cases text with
  | nil => rfl
  | cons c text =>
      cases hc : Sign.ofChar? c with
      | none => simp [sign, Sign.leading, hc]; rfl
      | some sign =>
          simp only [Guarded.sign, Sign.leading, List.head?_cons, Option.bind_some, hc, bind_run,
            next_ahead h]
          rfl

theorem digitsIn_ahead (h : text <:+ Lexing.content s.cursor.rest) :
    digitsIn text.tail text.head? (ahead s text) =
      .ok ((Digit.leading text).1, (Digit.leading text).2.head?)
        (ahead s (Digit.leading text).2) := by
  induction text with
  | nil => rfl
  | cons c text ih =>
      have hrest := ih ((List.suffix_cons c text).trans h)
      rw [List.tail_cons, List.head?_cons, digitsIn.eq_def]
      cases hc : Digit.ofChar? c with
      | none => simp [Digit.leading, hc]; rfl
      | some d =>
          simp only [Option.bind_some, hc, bind_run, next_ahead h, Digit.leading]
          cases text with
          | nil => rfl
          | cons c' text =>
              rw [List.tail_cons] at hrest
              simp only [bind_run, hrest]
              rfl

theorem digits_ahead (h : text <:+ Lexing.content s.cursor.rest) :
    digits text.head? (ahead s text) =
      .ok ((Digit.leading text).1, (Digit.leading text).2.head?)
        (ahead s (Digit.leading text).2) := by
  simp only [digits, bind_run, cursor_run, rest_ahead h]
  exact digitsIn_ahead h

theorem fraction_ahead (h : text <:+ Lexing.content s.cursor.rest) :
    fraction text.head? (ahead s text) =
      .ok ((Numeral.fraction text).1, (Numeral.fraction text).2.head?)
        (ahead s (Numeral.fraction text).2) := by
  cases text with
  | nil => rfl
  | cons c text =>
      by_cases hc : c = '.'
      · subst hc
        rw [fraction, List.head?_cons, if_pos rfl, bind_run, next_ahead h]
        exact digits_ahead ((List.suffix_cons _ text).trans h)
      · have hfraction : Numeral.fraction (c :: text) = ([], c :: text) := by
          unfold Numeral.fraction
          split
          next heq => exact absurd (List.cons.inj heq).1 hc
          next => rfl
        rw [fraction, if_neg (by simpa using hc), hfraction]
        rfl

/-- The end of a reading that stopped before the given end of the content. A numeral that was found
ends there, and otherwise one character more has been read. -/
def conclude (s : Session) :
    Numeral.Verdict × List Char → EStateM.Result Failure Session (Option Numeral)
  | (.absent, text) => .ok none (ahead s text)
  | (.malformed flaw, text) =>
    .error (.fault (.malformed flaw.detail ⟨s.cursor.contentOffset,
      max s.cursor.contentOffset (min (ahead s text).cursor.offset s.cursor.size)⟩)) (ahead s text)
  | (.found n, text) =>
    .ok (some n) ((s.withCursor (s.cursor.moveTo (s.cursor.contentOffset +
      ((Lexing.content s.cursor.rest).length - text.length)))).log (.numeral n))

variable {parseFloat : List Char → Option Float}

theorem finish_ahead (takes : TakesDecimals parseFloat) (n : Numeral) :
    finish parseFloat n (ahead s text) = conclude s (.found n, text) := by
  have hsome : (parseFloat n.mantissaChars).isSome := by
    unfold Numeral.mantissaChars
    split
    · exact takes n.sign [0] n.decimal (by simp)
    · exact takes n.sign n.integer n.decimal ‹_›
  obtain ⟨x, hx⟩ := Option.isSome_iff_exists.mp hsome
  simp only [finish, hx]
  rfl

theorem exponentOf_ahead (takes : TakesDecimals parseFloat) {sign : Sign}
    {integer decimal : List Digit} (has : integer ≠ [] ∨ decimal ≠ [])
    (h : text <:+ Lexing.content s.cursor.rest) :
    exponentOf parseFloat s.cursor.contentOffset sign integer decimal has text.head?
        (ahead s text) =
      match Exponent.read text with
      | none => conclude s (.found ⟨sign, integer, decimal, none, has⟩, text)
      | some (some x, rest) => conclude s (.found ⟨sign, integer, decimal, some x, has⟩, rest)
      | some (none, rest) => conclude s (.malformed .noExponentDigits, rest) := by
  cases text with
  | nil => exact finish_ahead takes _
  | cons c text =>
      have hany : (c :: text).head?.any Exponent.isMarker = Exponent.isMarker c := rfl
      by_cases hc : Exponent.isMarker c = true
      · have hbehind := (List.suffix_cons c text).trans h
        have hdigits := (Sign.leading_suffix text).trans hbehind
        rw [exponentOf, if_pos (hany.trans hc), Exponent.read, if_pos hc]
        simp only [bind_run, next_ahead h, sign_ahead hbehind, digits_ahead hdigits]
        by_cases hx : (Digit.leading (Sign.leading text).2).1 ≠ []
        · rw [dif_pos hx, dif_pos hx]
          exact finish_ahead takes _
        · rw [dif_neg hx, dif_neg hx]
          rfl
      · rw [exponentOf, if_neg (by rwa [hany]), Exponent.read, if_neg hc]
        exact finish_ahead takes _

/-- Character by character the same is read as from the text at once. -/
theorem numeralBody_run (takes : TakesDecimals parseFloat) (s : Session) :
    numeralBody parseFloat s = conclude s (Numeral.read (Lexing.content s.cursor.rest)) := by
  generalize htext : Lexing.content s.cursor.rest = text
  have hlast := contentIn_run s
  rw [htext] at hlast
  have hstart : (MonadExcept.ofExcept (minus (ahead s text).cursor.offset 1) :
      Step Failure Nat) (ahead s text) = .ok s.cursor.contentOffset (ahead s text) := by
    have hoffset : (ahead s text).cursor.offset = s.cursor.contentOffset + 1 := by
      simp [ahead, htext, Session.withCursor, Cursor.moveTo]
    rw [hoffset, minus_of_le (Nat.le_add_left 1 _)]
    rfl
  -- what is behind each piece is an end of the content, which places the cursor
  have hsigned : text <:+ Lexing.content s.cursor.rest := htext ▸ List.suffix_refl text
  have hwhole := (Sign.leading_suffix text).trans hsigned
  have hpoint := (Digit.leading_suffix (Sign.leading text).2).trans hwhole
  have hmarker := (Numeral.fraction_suffix (Digit.leading (Sign.leading text).2).2).trans hpoint
  simp only [numeralBody, bind_run, cursor_run, hlast, hstart, sign_ahead hsigned,
    digits_ahead hwhole, Numeral.read]
  generalize Digit.leading (Sign.leading text).2 = integer at hpoint hmarker ⊢
  generalize (Sign.leading text).1 = sign
  have hcommitted : (integer.2.head?.any fun c => c == '.' || Exponent.isMarker c) =
      Numeral.isCommitted integer.2 := by
    cases integer.2 <;> rfl
  cases hcommits : Numeral.isCommitted integer.2 with
  | true =>
      rw [if_pos (hcommitted.trans hcommits)]
      simp only [bind_run, fraction_ahead hpoint]
      by_cases has : integer.1 ≠ [] ∨ (Numeral.fraction integer.2).1 ≠ []
      · rw [dif_pos has, dif_pos has, exponentOf_ahead takes has hmarker]
        cases Exponent.read (Numeral.fraction integer.2).2 with
        | none => rfl
        | some found => cases found with | mk x rest => cases x <;> rfl
      · rw [dif_neg has, dif_neg has]
        rfl
  | false =>
      obtain ⟨hnoPoint, hnoMarker⟩ := Numeral.plain_of_not_committed hcommits
      rw [if_neg (by simp [hcommitted, hcommits]), hnoPoint]
      by_cases has : integer.1 ≠ []
      · rw [dif_pos has, dif_pos (.inl has), hnoMarker]
        exact finish_ahead takes _
      · rw [dif_neg has, dif_neg (by simpa using has)]
        rfl

/-- Where the parser takes all plain decimals, no guard is needed in reading a numeral. -/
theorem numeral_eq (takes : TakesDecimals parseFloat) :
    numeral parseFloat = guarded Reading.numeral := by
  funext s
  refine attempt_eq_guarded ?_
  have hdrop : s.mark.cursor.input.drop s.mark.cursor.contentOffset =
      Lexing.content s.mark.cursor.rest := s.mark.cursor.rest_moveTo_contentOffset
  rw [numeralBody_run takes, guarded]
  simp only [bind_run, cursor_run, move_run, hdrop]
  cases Numeral.read (Lexing.content s.mark.cursor.rest) with
  | mk verdict rest => cases verdict <;> rfl

end Guarded
end LineCalc

import LineCalc.Calculator

/-!
Reading as a function of the text. What a reading finds, and how many characters it takes, depends
on the unread text alone and on the offset at which that text begins; marks, log and the text before
play no part. Each reading has a function of the same shape here that says what it finds, and a
theorem that the reading answers accordingly: it takes just those characters, or leaves the cursor
as it was.
-/

namespace LineCalc

/-- What stands at the head of a text, and how many characters of the text it takes. -/
abbrev Find (α : Type) := Except Fault (Option (α × Nat))

namespace Lexing

def blanks (text : List Char) : Nat :=
  (text.takeWhile isBlank).length

/-- The text behind its leading blanks. -/
def content (text : List Char) : List Char :=
  text.drop (blanks text)

def token? (text : List Char) : Option Token :=
  longest? Token.chars (Token.all.filter fun t => t.chars.isPrefixOf text)

def constant? (text : List Char) : Option Constant :=
  longest? Constant.chars (Constant.all.filter fun k =>
    Cursor.startsWithBy.matchesHead (fun a b => a.toLower == b.toLower) k.chars text)

def token (offset : Nat) (text : List Char) : Find (Token × Nat) :=
  .ok ((token? (content text)).map fun t =>
    ((t, offset + blanks text), blanks text + t.chars.length))

def constant (text : List Char) : Find Constant :=
  .ok ((constant? (content text)).map fun k => (k, blanks text + k.chars.length))

/-- The characters that are read as a numeral, or up to the place where it fails to be one. -/
def numeralLength (text : List Char) : Nat :=
  text.length - (Numeral.read text).2.length

def numeral (offset : Nat) (text : List Char) : Find Numeral :=
  let start := offset + blanks text
  match (Numeral.read (content text)).1 with
  | .absent => .ok none
  | .malformed flaw =>
    .error (.malformed flaw.detail
      ⟨start, max start (min (start + numeralLength (content text) + 1) (offset + text.length))⟩)
  | .found n => .ok (some (n, blanks text + numeralLength (content text)))

section
variable (group : Nat → List Char → Find Group)

def elementBy (offset : Nat) (text : List Char) : Except Fault (Option (Element × Nat)) := do
  match ← group offset text with
  | some (g, n) => return some (.group g.body g.inner (offset + blanks text), n)
  | none =>
    match ← token offset text with
    | some ((t, offset), n) => return some (.token t offset, n)
    | none =>
      match ← constant text with
      | some (k, n) => return some (.term (.constant k) (offset + blanks text), n)
      | none =>
        match ← numeral offset text with
        | some (x, n) => return some (.term (.numeral x) (offset + blanks text), n)
        | none => return none

def elementsBy : Nat → Nat → List Char → Except Fault (Sequence × Nat)
  | 0, _, _ => return ([], 0)
  | most + 1, offset, text => do
    match ← elementBy group offset text with
    | none => return ([], 0)
    | some (e, n) =>
      let rest ← elementsBy most (offset + n) (text.drop n)
      return (e :: rest.1, n + rest.2)

def sequenceBy (limit : Option Nat) (offset : Nat) (text : List Char) :
    Except Fault (Option (Sequence × Nat)) := do
  match ← elementsBy group (limit.getD (text.length + 1)) offset text with
  | ([], _) => return none
  | (e :: es, n) => return some (e :: es, n)

/-- What stands behind a parenthesis that opens, up to the one that closes. -/
def groupBody (body : Sequence) (rest : List Char) : Except Fault (Option (Group × Nat)) :=
  match content rest with
  | ')' :: _ => do
    let inner ← body.condense
    return some (⟨body, inner⟩, blanks rest + 1)
  | _ => return none

def groupAround (offset : Nat) (text : List Char) : Except Fault (Option (Group × Nat)) :=
  match content text with
  | '(' :: rest => do
    match ← sequenceBy group (some groupLimit) (offset + blanks text + 1) rest with
    | none => return none
    | some (body, n) =>
      match ← groupBody body (rest.drop n) with
      | none => return none
      | some (g, m) => return some (g, blanks text + 1 + n + m)
  | _ => return none

end

def groupWithin : Nat → Nat → List Char → Except Fault (Option (Group × Nat))
  | 0, _, _ => return none
  | depth + 1, offset, text => groupAround (groupWithin depth) offset text

def group (offset : Nat) (text : List Char) : Find Group :=
  groupWithin (text.length + 1) offset text

def sequence (limit : Option Nat) (offset : Nat) (text : List Char) : Find Sequence :=
  sequenceBy group limit offset text

end Lexing

section
variable {α : Type}

/-- A reading answers what is found: it takes the characters that were counted, or leaves the cursor
as it was. -/
inductive Answers (c : Cursor) : EStateM.Result Fault Session (Option α) → Find α → Prop where
  | found {a : α} {n : Nat} {s : Session} (cursor : s.cursor = c.advance n) :
      Answers c (.ok (some a) s) (.ok (some (a, n)))
  | absent {s : Session} (cursor : s.cursor = c) : Answers c (.ok none s) (.ok none)
  | failed {fault : Fault} {s : Session} (cursor : s.cursor = c) :
      Answers c (.error fault s) (.error fault)

theorem Answers.exists_of_found {c : Cursor} {r : EStateM.Result Fault Session (Option α)} {a : α}
    {n : Nat} (h : Answers c r (.ok (some (a, n)))) :
    ∃ s, r = .ok (some a) s ∧ s.cursor = c.advance n := by
  cases h with
  | found cursor => exact ⟨_, rfl, cursor⟩

theorem Answers.exists_of_absent {c : Cursor} {r : EStateM.Result Fault Session (Option α)}
    (h : Answers c r (.ok none)) : ∃ s, r = .ok none s ∧ s.cursor = c := by
  cases h with
  | absent cursor => exact ⟨_, rfl, cursor⟩

/-- What has been found is what stands there. -/
theorem Answers.exists_find {c : Cursor} {a : α} {s : Session} {f : Find α}
    (h : Answers c (.ok (some a) s) f) : ∃ n, f = .ok (some (a, n)) ∧ s.cursor = c.advance n := by
  cases h with
  | found cursor => exact ⟨_, rfl, cursor⟩

/-- The same of a reading that may leave the cursor anywhere when it finds nothing. -/
inductive Tries (c : Cursor) : EStateM.Result Fault Session (Option α) → Find α → Prop where
  | found {a : α} {n : Nat} {s : Session} (cursor : s.cursor = c.advance n) :
      Tries c (.ok (some a) s) (.ok (some (a, n)))
  | absent {s : Session} (offset : Nat) (cursor : s.cursor = c.moveTo offset) :
      Tries c (.ok none s) (.ok none)
  | failed {fault : Fault} {s : Session} (offset : Nat) (cursor : s.cursor = c.moveTo offset) :
      Tries c (.error fault s) (.error fault)

theorem answers_attempt {body : Reading (Option α)} {s : Session} {f : Find α}
    (h : Tries s.mark.cursor (body s.mark) f) :
    Answers s.cursor (Step.attempt .cursor body s) f := by
  generalize hr : body s.mark = r at h
  simp only [Step.attempt, hr]
  cases h with
  | found cursor =>
      rw [Step.settle_some (by rw [cursor]; rfl)]
      exact .found (by rw [cursor]; rfl)
  | absent offset cursor =>
      rw [Step.settle_none (by rw [cursor]; rfl)]
      exact .absent (by simp only [Session.log, Session.withCursor, cursor]; rfl)
  | failed offset cursor =>
      rw [Step.settle_error (by rw [cursor]; rfl)]
      exact .failed (by simp only [Session.log, Session.withCursor, cursor]; rfl)

end

namespace Step

variable {ε α β : Type}

theorem bind_run (x : Step ε α) (f : α → Step ε β) (s : Session) :
    (x >>= f) s =
      match x s with
      | .ok a s' => f a s'
      | .error e s' => .error e s' := by
  simp only [bind, EStateM.bind]
  cases x s <;> rfl

theorem ok_bind (a : α) (f : α → Except ε β) : (Except.ok a >>= f) = f a := rfl

theorem exists_of_bind {x : Except ε α} {f : α → Except ε β} {b : β} (h : (x >>= f) = .ok b) :
    ∃ a, x = .ok a ∧ f a = .ok b := by
  cases x with
  | error e => cases h
  | ok a => exact ⟨a, rfl, h⟩

theorem cases_of_bind {x : Except ε α} {f : α → Except ε β} {e : ε} (h : (x >>= f) = .error e) :
    x = .error e ∨ ∃ a, x = .ok a ∧ f a = .error e := by
  cases x with
  | error e' =>
      cases h
      exact .inl rfl
  | ok a => exact .inr ⟨a, rfl, h⟩

theorem cursor_run (s : Session) : (cursor : Step ε Cursor) s = .ok s.cursor s := rfl

theorem logAll_run (rs : List Record) (s : Session) :
    (logAll rs : Step ε Unit) s = .ok () (s.logAll rs) := rfl

theorem move_run (f : Cursor → Cursor) (s : Session) :
    (move f : Step ε Unit) s = .ok () (s.withCursor (f s.cursor)) := rfl

theorem next_run (s : Session) :
    (next : Step ε (Option Char)) s = .ok s.cursor.rest.head? (s.withCursor (s.cursor.advance 1)) :=
  rfl

end Step

namespace Cursor

theorem length_rest (c : Cursor) : c.rest.length = c.size - c.offset :=
  List.length_drop

theorem rest_moveTo_contentOffset (c : Cursor) :
    (c.moveTo c.contentOffset).rest = Lexing.content c.rest := by
  simp [rest, moveTo, contentOffset, Lexing.content, Lexing.blanks]

theorem contentOffset_eq (c : Cursor) : c.contentOffset = c.offset + Lexing.blanks c.rest := rfl

theorem advance_moveTo_contentOffset (c : Cursor) (count : Nat) :
    (c.moveTo c.contentOffset).advance count = c.advance (Lexing.blanks c.rest + count) := by
  simp [advance, moveTo, contentOffset_eq, Nat.add_assoc]

theorem advance_advance (c : Cursor) (m n : Nat) :
    (c.advance m).advance n = c.advance (m + n) := by
  simp [advance, moveTo, Nat.add_assoc]

theorem rest_advance (c : Cursor) (n : Nat) : (c.advance n).rest = c.rest.drop n := by
  simp [advance, moveTo, rest]

theorem offset_advance (c : Cursor) (n : Nat) : (c.advance n).offset = c.offset + n := rfl

/-- A text with characters begins only at places within the input. -/
theorem startsWithBy_eq (same : Char → Char → Bool) (c : Cursor) {text : List Char}
    (h : text ≠ []) :
    c.startsWithBy same text = startsWithBy.matchesHead same text c.rest := by
  by_cases hoffset : c.offset ≤ c.size
  · simp [startsWithBy, hoffset]
  · have hrest : c.rest = [] := List.drop_of_length_le (by simp only [size] at hoffset; omega)
    cases text with
    | nil => exact absurd rfl h
    | cons t text => simp [startsWithBy, hoffset, hrest, startsWithBy.matchesHead]

theorem matchesHead_beq (text rest : List Char) :
    startsWithBy.matchesHead (· == ·) text rest = text.isPrefixOf rest := by
  induction text generalizing rest with
  | nil => cases rest <;> rfl
  | cons t text ih =>
      cases rest with
      | nil => rfl
      | cons r rest => simp [startsWithBy.matchesHead, List.isPrefixOf, ih]

theorem longest?_token (c : Cursor) :
    longest? Token.chars (Token.all.filter fun t => c.startsWith t.chars) =
      Lexing.token? c.rest := by
  have hstarts : (fun t : Token => c.startsWith t.chars) = fun t => t.chars.isPrefixOf c.rest := by
    funext t
    rw [startsWith, startsWithBy_eq _ _ (by cases t <;> simp [Token.chars]), matchesHead_beq]
  rw [hstarts, Lexing.token?]

theorem longest?_constant (c : Cursor) :
    longest? Constant.chars (Constant.all.filter fun k => c.startsWithIgnoreCase k.chars) =
      Lexing.constant? c.rest := by
  have hstarts : (fun k : Constant => c.startsWithIgnoreCase k.chars) = fun k =>
      startsWithBy.matchesHead (fun a b => a.toLower == b.toLower) k.chars c.rest := by
    funext k
    rw [startsWithIgnoreCase, startsWithBy_eq _ _ (by cases k <;> simp [Constant.chars])]
  rw [hstarts, Lexing.constant?]

end Cursor

namespace Reading

open Step

theorem skipBlanks_run (s : Session) :
    skipBlanks s = .ok () (s.withCursor (s.cursor.moveTo s.cursor.contentOffset)) := by
  simp [skipBlanks, tryMove, Cursor.skipBlanks_eq]

/-- A session after the blanks, under the mark of a trial. -/
private def atContent (s : Session) : Session :=
  s.mark.withCursor (s.mark.cursor.moveTo s.mark.cursor.contentOffset)

private theorem skipBlanks_mark (s : Session) : skipBlanks s.mark = .ok () (atContent s) :=
  skipBlanks_run s.mark

private theorem rest_atContent (s : Session) :
    (atContent s).cursor.rest = Lexing.content s.cursor.rest :=
  s.mark.cursor.rest_moveTo_contentOffset

private theorem advance_atContent (s : Session) (count : Nat) :
    (atContent s).cursor.advance count =
      s.mark.cursor.advance (Lexing.blanks s.cursor.rest + count) :=
  s.mark.cursor.advance_moveTo_contentOffset count

theorem token_answers (s : Session) :
    Answers s.cursor (token s) (Lexing.token s.cursor.offset s.cursor.rest) := by
  refine answers_attempt ?_
  simp only [bind_run, skipBlanks_mark, cursor_run, Cursor.longest?_token, rest_atContent,
    Lexing.token]
  cases Lexing.token? (Lexing.content s.cursor.rest) with
  | none => exact .absent _ rfl
  | some t => exact .found (advance_atContent s t.chars.length)

theorem constant_answers (s : Session) :
    Answers s.cursor (constant s) (Lexing.constant s.cursor.rest) := by
  refine answers_attempt ?_
  simp only [bind_run, skipBlanks_mark, cursor_run, Cursor.longest?_constant, rest_atContent,
    Lexing.constant]
  cases Lexing.constant? (Lexing.content s.cursor.rest) with
  | none => exact .absent _ rfl
  | some k => exact .found (advance_atContent s k.chars.length)

/-- Only unread characters within the input fail to be a numeral. -/
private theorem offset_add_length_rest {c : Cursor} {flaw : Numeral.Flaw}
    (h : (Numeral.read (Lexing.content c.rest)).1 = .malformed flaw) :
    c.offset + c.rest.length = c.size := by
  by_cases hoffset : c.offset ≤ c.size
  · rw [c.length_rest]
    omega
  · have hrest : c.rest = [] :=
      List.drop_of_length_le (by simp only [Cursor.size] at hoffset; omega)
    rw [hrest] at h
    cases h

theorem numeral_answers (s : Session) :
    Answers s.cursor (numeral s) (Lexing.numeral s.cursor.offset s.cursor.rest) := by
  refine answers_attempt ?_
  have hdrop : s.mark.cursor.input.drop s.mark.cursor.contentOffset =
      Lexing.content s.cursor.rest := rest_atContent s
  simp only [bind_run, cursor_run, move_run, Lexing.numeral, hdrop]
  cases h : (Numeral.read (Lexing.content s.cursor.rest)).1 with
  | absent => exact .absent _ rfl
  | malformed flaw =>
      rw [offset_add_length_rest h]
      exact .failed _ rfl
  | found n =>
      exact .found (advance_atContent s (Lexing.numeralLength (Lexing.content s.cursor.rest)))

section
variable {group : Reading (Option Group)} {find : Nat → List Char → Find Group}

theorem elementBy_answers
    (h : ∀ s, Answers s.cursor (group s) (find s.cursor.offset s.cursor.rest)) (s : Session) :
    Answers s.cursor (reader.elementBy group s)
      (Lexing.elementBy find s.cursor.offset s.cursor.rest) := by
  simp only [Reader.elementBy, bind_run, cursor_run, Lexing.elementBy]
  have hgroup := h s
  generalize group s = r, find s.cursor.offset s.cursor.rest = f at hgroup
  cases hgroup with
  | failed cursor => exact .failed cursor
  | found cursor => exact .found cursor
  | @absent s₁ cursor₁ =>
      have htoken : Answers _ (reader.token s₁) _ := token_answers s₁
      rw [cursor₁] at htoken
      simp only [bind_run]
      generalize reader.token s₁ = r, Lexing.token s.cursor.offset s.cursor.rest = f at htoken
      cases htoken with
      | failed cursor => exact .failed cursor
      | found cursor => exact .found cursor
      | @absent s₂ cursor₂ =>
          have hconstant : Answers _ (reader.constant s₂) _ := constant_answers s₂
          rw [cursor₂] at hconstant
          simp only [bind_run]
          generalize reader.constant s₂ = r, Lexing.constant s.cursor.rest = f at hconstant
          cases hconstant with
          | failed cursor => exact .failed cursor
          | found cursor => exact .found cursor
          | @absent s₃ cursor₃ =>
              have hnumeral : Answers _ (reader.numeral s₃) _ := numeral_answers s₃
              rw [cursor₃] at hnumeral
              simp only [bind_run]
              generalize reader.numeral s₃ = r, Lexing.numeral s.cursor.offset s.cursor.rest = f
                at hnumeral
              cases hnumeral with
              | failed cursor => exact .failed cursor
              | found cursor => exact .found cursor
              | absent cursor => exact .absent cursor

/-- Elements in a row, of which there may be none; a failure may leave the cursor anywhere. -/
private inductive Reads (c : Cursor) :
    EStateM.Result Fault Session Sequence → Except Fault (Sequence × Nat) → Prop where
  | found {es : Sequence} {n : Nat} {s : Session} (cursor : s.cursor = c.advance n) :
      Reads c (.ok es s) (.ok (es, n))
  | failed {fault : Fault} {s : Session} (offset : Nat) (cursor : s.cursor = c.moveTo offset) :
      Reads c (.error fault s) (.error fault)

private theorem elementsBy_reads
    (h : ∀ s, Answers s.cursor (group s) (find s.cursor.offset s.cursor.rest)) (most : Nat)
    (s : Session) :
    Reads s.cursor (reader.elementsBy group most s)
      (Lexing.elementsBy find most s.cursor.offset s.cursor.rest) := by
  induction most generalizing s with
  | zero => exact .found rfl
  | succ most ih =>
      have helement := elementBy_answers h s
      simp only [Reader.elementsBy, bind_run, Lexing.elementsBy]
      generalize reader.elementBy group s = r,
        Lexing.elementBy find s.cursor.offset s.cursor.rest = f at helement
      cases helement with
      | failed cursor => exact .failed _ cursor
      | absent cursor => exact .found cursor
      | @found e n s₁ cursor₁ =>
          have hrest := ih s₁
          rw [cursor₁, Cursor.rest_advance, Cursor.offset_advance] at hrest
          simp only [bind_run, ok_bind]
          generalize reader.elementsBy group most s₁ = r,
            Lexing.elementsBy find most (s.cursor.offset + n) (s.cursor.rest.drop n) = f at hrest
          cases hrest with
          | failed offset cursor => exact .failed offset cursor
          | @found es m s₂ cursor₂ =>
              exact .found (by rw [cursor₂, Cursor.advance_advance])

theorem sequenceBy_answers
    (h : ∀ s, Answers s.cursor (group s) (find s.cursor.offset s.cursor.rest))
    (limit : Option Nat) (s : Session) :
    Answers s.cursor (reader.sequenceBy group limit s)
      (Lexing.sequenceBy find limit s.cursor.offset s.cursor.rest) := by
  refine answers_attempt ?_
  have hreads : Reads s.mark.cursor
      (reader.elementsBy group (limit.getD (s.mark.cursor.rest.length + 1)) s.mark)
      (Lexing.elementsBy find (limit.getD (s.cursor.rest.length + 1)) s.cursor.offset
        s.cursor.rest) := elementsBy_reads h _ s.mark
  simp only [bind_run, cursor_run, Lexing.sequenceBy]
  generalize reader.elementsBy group (limit.getD (s.mark.cursor.rest.length + 1)) s.mark = r,
    Lexing.elementsBy find (limit.getD (s.cursor.rest.length + 1)) s.cursor.offset
      s.cursor.rest = f at hreads
  cases hreads with
  | failed offset cursor => exact .failed offset cursor
  | @found es n s' cursor =>
      cases es with
      | nil => exact .absent _ cursor
      | cons e es => exact .found cursor

/-- The parenthesis that opens a group is the first character after the blanks. -/
private theorem next_atContent (s : Session) :
    (next : Reading (Option Char)) (atContent s) =
      .ok (Lexing.content s.cursor.rest).head?
        ((atContent s).withCursor ((atContent s).cursor.advance 1)) := by
  rw [next_run, rest_atContent]

private theorem cases_head? (text : List Char) (c : Char) :
    (∃ rest, text = c :: rest) ∨ text.head? ≠ some c := by
  cases text with
  | nil => simp
  | cons d rest =>
      by_cases h : d = c
      · exact .inl ⟨rest, by rw [h]⟩
      · simp [h]

theorem condense_run_ok {run : Sequence} {t : Term} (h : run.condense = .ok t) (s : Session) :
    condense run s = .ok t (s.logAll run.condensation.records) := by
  rw [Sequence.condense] at h
  simp only [condense, bind_run, logAll_run, h]
  rfl

theorem condense_run_error {run : Sequence} {fault : Fault} (h : run.condense = .error fault)
    (s : Session) : condense run s = .error fault (s.logAll run.condensation.records) := by
  rw [Sequence.condense] at h
  simp only [condense, bind_run, logAll_run, h]
  rfl

theorem groupAround_answers
    (h : ∀ s, Answers s.cursor (group s) (find s.cursor.offset s.cursor.rest)) (s : Session) :
    Answers s.cursor (reader.groupAround group s)
      (Lexing.groupAround find s.cursor.offset s.cursor.rest) := by
  refine answers_attempt ?_
  have hskip : reader.skipBlanks s.mark = .ok () (atContent s) := skipBlanks_mark s
  simp only [bind_run, hskip, next_atContent, Lexing.groupAround]
  cases cases_head? (Lexing.content s.cursor.rest) '(' with
  | inr hnot =>
      simp only [hnot, if_false]
      split
      next hcontent => simp [hcontent] at hnot
      next => exact .absent _ rfl
  | inl hopen =>
      obtain ⟨rest, hcontent⟩ := hopen
      -- the cursor behind the parenthesis
      have hstart := advance_atContent s 1
      generalize hs₁ : (atContent s).withCursor ((atContent s).cursor.advance 1) = s₁
      have hcursor : s₁.cursor = s.mark.cursor.advance (Lexing.blanks s.cursor.rest + 1) := by
        rw [← hs₁]
        exact hstart
      have hrest : s₁.cursor.rest = rest := by
        rw [hcursor, Cursor.rest_advance, ← List.drop_drop]
        exact (congrArg (List.drop 1) hcontent)
      have hoffset : s₁.cursor.offset = s.cursor.offset + Lexing.blanks s.cursor.rest + 1 := by
        rw [hcursor]
        exact (Nat.add_assoc _ _ _).symm
      have hbody := sequenceBy_answers h (some groupLimit) s₁
      rw [hrest, hoffset] at hbody
      simp only [hcontent, List.head?_cons, if_true, bind_run]
      generalize reader.sequenceBy group (some groupLimit) s₁ = r,
        Lexing.sequenceBy find (some groupLimit)
          (s.cursor.offset + Lexing.blanks s.cursor.rest + 1) rest = f at hbody
      cases hbody with
      | failed cursor => exact .failed _ (by rw [cursor, hcursor]; rfl)
      | absent cursor => exact .absent _ (by rw [cursor, hcursor]; rfl)
      | @found body n s₂ cursor =>
          have hrest₂ : (s₂.cursor.moveTo s₂.cursor.contentOffset).rest =
              Lexing.content (rest.drop n) := by
            rw [Cursor.rest_moveTo_contentOffset, cursor, Cursor.rest_advance, hrest]
          have hskip₂ : reader.skipBlanks s₂ = .ok () _ := skipBlanks_run s₂
          simp only [ok_bind, bind_run, hskip₂, next_run, Session.withCursor, hrest₂,
            Lexing.groupBody]
          cases cases_head? (Lexing.content (rest.drop n)) ')' with
          | inr hnot =>
              simp only [hnot, if_false]
              split
              next hclose => simp [hclose] at hnot
              next => exact .absent _ (by rw [cursor, hcursor]; rfl)
          | inl hclose =>
              obtain ⟨tail, hclose⟩ := hclose
              have hcondense : reader.condense body = condense body := rfl
              simp only [hclose, List.head?_cons, if_true, bind_run, hcondense]
              cases hinner : body.condense with
              | error fault =>
                  rw [condense_run_error hinner]
                  exact .failed _ (by rw [cursor, hcursor]; rfl)
              | ok inner =>
                  rw [condense_run_ok hinner]
                  refine .found ?_
                  change (s₂.cursor.moveTo s₂.cursor.contentOffset).advance 1 = _
                  rw [Cursor.advance_moveTo_contentOffset, cursor, Cursor.rest_advance, hrest,
                    hcursor, Cursor.advance_advance, Cursor.advance_advance]
                  simp only [Nat.add_assoc]

end

theorem groupWithin_answers (depth : Nat) (s : Session) :
    Answers s.cursor (reader.groupWithin depth s)
      (Lexing.groupWithin depth s.cursor.offset s.cursor.rest) := by
  induction depth generalizing s with
  | zero => exact .absent rfl
  | succ depth ih => exact groupAround_answers ih s

theorem group_answers (s : Session) :
    Answers s.cursor (group s) (Lexing.group s.cursor.offset s.cursor.rest) :=
  groupWithin_answers _ s

theorem sequence_answers (limit : Option Nat) (s : Session) :
    Answers s.cursor (sequence limit s)
      (Lexing.sequence limit s.cursor.offset s.cursor.rest) :=
  sequenceBy_answers group_answers limit s

theorem outcome_sequence (limit : Option Nat) (s : Session) :
    (sequence limit).outcome s =
      (Lexing.sequence limit s.cursor.offset s.cursor.rest).map (Option.map Prod.fst) := by
  have hanswers := sequence_answers limit s
  rw [outcome]
  generalize sequence limit s = r, Lexing.sequence limit s.cursor.offset s.cursor.rest = f
    at hanswers
  cases hanswers <;> rfl

end Reading

/-- A line is scanned if a run is found at its start and only blanks follow the run. -/
theorem scan_eq (input : String) :
    scan input =
      match Lexing.sequence none 0 input.toList with
      | .error fault => .error fault
      | .ok none => .error (.noExpression (Lexing.blanks input.toList))
      | .ok (some (s, n)) =>
        if Lexing.content (input.toList.drop n) = [] then .ok s
        else
          .error (.trailingInput (n + Lexing.blanks (input.toList.drop n))
            (String.ofList (Lexing.content (input.toList.drop n)))) := by
  have hsequence : Answers (Session.start input).cursor (Reading.sequence none (.start input))
      (Lexing.sequence none 0 input.toList) := Reading.sequence_answers none (.start input)
  simp only [scan, Reading.outcome, Reading.line, Step.bind_run]
  generalize Reading.sequence none (.start input) = r, Lexing.sequence none 0 input.toList = f
    at hsequence
  cases hsequence with
  | failed cursor => rfl
  | @absent s cursor =>
      simp only [Step.bind_run, Step.cursor_run, cursor, Cursor.contentOffset_eq]
      have hzero : (Session.start input).cursor.offset = 0 := rfl
      rw [hzero, Nat.zero_add]
      rfl
  | @found e n s cursor =>
      have hoffset : ((Session.start input).cursor.advance n).contentOffset =
          n + Lexing.blanks (input.toList.drop n) := by
        rw [Cursor.contentOffset_eq, Cursor.rest_advance, Cursor.offset_advance]
        exact congrArg (· + _) (Nat.zero_add n)
      have hsize : ((Session.start input).cursor.advance n).size = input.toList.length := rfl
      have hinput : ((Session.start input).cursor.advance n).input = input.toList := rfl
      have hcontent : input.toList.drop (n + Lexing.blanks (input.toList.drop n)) =
          Lexing.content (input.toList.drop n) := List.drop_drop.symm
      simp only [Step.bind_run, Step.cursor_run, cursor, hoffset, hsize, hinput, hcontent]
      by_cases h : n + Lexing.blanks (input.toList.drop n) < input.toList.length
      · have hne : ¬ Lexing.content (input.toList.drop n) = [] := by
          rw [← hcontent, List.drop_eq_nil_iff]
          omega
        rw [if_pos h, if_neg hne]
        rfl
      · have hnil : Lexing.content (input.toList.drop n) = [] := by
          rw [← hcontent, List.drop_eq_nil_iff]
          omega
        rw [if_neg h, if_pos hnil]
        rfl

/-- The run of a line is read from its start. -/
theorem sequence_of_scan {line : String} {s : Sequence} (h : scan line = .ok s) :
    (Reading.sequence none).outcome (.start line) = .ok (some s) := by
  simp only [scan, Reading.outcome, Reading.line, Step.bind_run] at h ⊢
  cases hr : Reading.sequence none (.start line) with
  | error fault s' => rw [hr] at h; cases h
  | ok found s' =>
      rw [hr] at h
      cases found with
      | none => cases h
      | some s =>
          simp only [Step.bind_run, Step.cursor_run] at h
          by_cases hlast : s'.cursor.contentOffset < s'.cursor.size
          · rw [if_pos hlast] at h
            cases h
          · rw [if_neg hlast] at h
            cases h
            rfl

theorem scan_of_parse {line : String} {t : Term} (h : parse line = .ok t) :
    ∃ s, scan line = .ok s ∧ s.condense = .ok t :=
  Step.exists_of_bind h

/-- The report on a line is made of its run and its tree. -/
theorem evaluate_eq (input : String) :
    evaluate input = do
      let s ← scan input
      let t ← s.condense
      return Evaluation.of s t := by
  simp only [evaluate, scan, Reading.outcome, Reading.evaluation, Step.bind_run]
  cases Reading.line (.start input) with
  | error fault s' => rfl
  | ok s s' =>
      simp only [Step.ok_bind]
      cases ht : s.condense with
      | error fault =>
          rw [Reading.condense_run_error ht]
          rfl
      | ok t =>
          rw [Reading.condense_run_ok ht]
          rfl

end LineCalc

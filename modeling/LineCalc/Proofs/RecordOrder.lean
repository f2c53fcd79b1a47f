import LineCalc.Proofs.Backtracking
import LineCalc.Proofs.Rounds
import LineCalc.Proofs.Scanning

/-!
The records of a line that has a value, in their order. Nothing is read twice on such a line: at
each element the readings that come before the right one find nothing and return once each, no group
is given up after its parenthesis has opened, and a run ends with one more element that is not
found, unless it holds as many as it may. Condensing a run takes one round for each operator. So the
kinds of the records are told from the run of the line alone.
-/

namespace LineCalc

/-- What a record is about. -/
inductive Record.Kind where
  | restored | constant | numeral | grouping | token | nothingFound | scanned | condensing
  | reduced | evaluated
deriving DecidableEq, Repr

def Record.kind : Record → Record.Kind
  | .restored .. => .restored
  | .constant _ => .constant
  | .numeral _ => .numeral
  | .grouping _ => .grouping
  | .token .. => .token
  | .nothingFound _ => .nothingFound
  | .scanned .. => .scanned
  | .condensing _ => .condensing
  | .reduced .. => .reduced
  | .evaluated .. => .evaluated

def Element.isToken : Element → Bool
  | .token .. => true
  | .term .. | .group .. | .operator .. => false

namespace Sequence

/-- One round for each token. -/
def roundKinds (s : Sequence) : List Record.Kind :=
  (List.replicate (s.countP Element.isToken) [.condensing, .reduced]).flatten

/-- An element that is not found: four readings return. -/
def missingKinds : List Record.Kind :=
  [.restored, .restored, .restored, .restored, .nothingFound]

/-- No element is looked for behind as many as there may be. -/
def endKinds (most : Nat) (s : Sequence) : List Record.Kind :=
  if List.length s = most then [] else missingKinds

end Sequence

namespace Element

mutual

/-- The readings that are tried before the right one return, a group's first. -/
def kinds : Element → List Record.Kind
  | .token .. => [.restored, .token]
  | .term (.constant _) _ => [.restored, .restored, .constant]
  | .term (.numeral _) _ => [.restored, .restored, .restored, .numeral]
  | .group body _ _ =>
    kindsAll body ++ Sequence.endKinds groupLimit body ++ [.scanned] ++
      Sequence.roundKinds body ++ [.grouping]
  | .term .. | .operator .. => []

def kindsAll : List Element → List Record.Kind
  | [] => []
  | e :: rest => kinds e ++ kindsAll rest

end

end Element

/-- A line is looked at behind its last element as well. -/
def Sequence.lineKinds (s : Sequence) : List Record.Kind :=
  Element.kindsAll s ++ missingKinds ++ [.scanned] ++ s.roundKinds ++ [.evaluated]

namespace Sequence

private theorem kinds_condensation {s : Sequence} {t : Term} (h : s.condense = .ok t) :
    s.condensation.records.map Record.kind =
      (List.replicate (operatorCount s) [.condensing, .reduced]).flatten := by
  cases hr : round s with
  | refused fault =>
      rw [condense_of_round_refused hr] at h
      cases h
  | stuck seen fault =>
      rw [condense_of_round_stuck hr] at h
      cases h
  | finished =>
      have hnone : operatorCount s = 0 := by
        rw [operatorCount, List.countP_eq_zero]
        intro e he
        simp [isTerm_of_round_finished hr e he]
      rw [condensation_eq, hr, hnone]
      rfl
  | reduced seen r =>
      rw [condense_of_round_reduced hr] at h
      have hshorter := length_lt_of_round hr
      have hrest := kinds_condensation h
      rw [condensation_eq, hr, (counts_of_round hr).1, List.replicate_succ, List.flatten_cons,
        ← hrest]
      rfl
termination_by List.length s

private theorem operatorCount_of_unresolved {s : Sequence}
    (unresolved : ∀ e ∈ s, e.isResolved = false) :
    operatorCount s = List.countP Element.isToken s := by
  refine List.countP_congr fun e he => ?_
  cases e with
  | operator _ _ => cases unresolved _ he
  | term _ _ | group _ _ _ | token _ _ => simp [Element.isToken]

/-- A run that was scanned and condenses takes as many rounds as it has tokens. -/
theorem roundKinds_eq {s : Sequence} {t : Term} (unresolved : ∀ e ∈ s, e.isResolved = false)
    (condenses : s.condense = .ok t) :
    s.condensation.records.map Record.kind = s.roundKinds := by
  rw [kinds_condensation condenses, operatorCount_of_unresolved unresolved, roundKinds]

end Sequence

namespace Session

/-- The kinds of the records so far, in the order of time. -/
def kinds (s : Session) : List Record.Kind :=
  s.records.reverse.map Record.kind

@[simp]
theorem kinds_mark (s : Session) : s.mark.kinds = s.kinds := rfl

@[simp]
theorem kinds_withCursor (s : Session) (c : Cursor) : (s.withCursor c).kinds = s.kinds := rfl

@[simp]
theorem kinds_log (s : Session) (r : Record) : (s.log r).kinds = s.kinds ++ [r.kind] := by
  simp [kinds, log]

@[simp]
theorem kinds_logAll (s : Session) (rs : List Record) :
    (s.logAll rs).kinds = s.kinds ++ rs.map Record.kind := by
  simp [kinds, logAll]

end Session

namespace Reading

open Step

/-- A step behind another answers only where the other has answered. -/
theorem exists_of_bind_run {ε α β : Type} {x : Step ε α} {f : α → Step ε β} {b : β}
    {s s' : Session} (h : (x >>= f) s = .ok b s') :
    ∃ a s₁, x s = .ok a s₁ ∧ f a s₁ = .ok b s' := by
  rw [bind_run] at h
  cases hx : x s with
  | error e s₁ => rw [hx] at h; cases h
  | ok a s₁ =>
      rw [hx] at h
      exact ⟨a, s₁, rfl, h⟩

/-- A trial that finds nothing leaves one return behind what was read in it. -/
theorem kinds_of_attempt {ε α : Type} {wrap : CursorFault → ε} {body : Step ε (Option α)}
    {found : Option α} {s s' : Session} (h : attempt wrap body s = .ok found s') :
    ∃ s₁, body s.mark = .ok found s₁ ∧
      s'.kinds = s₁.kinds ++ if found.isSome then [] else [.restored] := by
  simp only [attempt] at h
  cases hbody : body s.mark with
  | error e s₁ =>
      rw [hbody, settle] at h
      cases hs : s₁.restore <;> rw [hs] at h <;> cases h
  | ok found' s₁ =>
      rw [hbody] at h
      refine ⟨s₁, ?_⟩
      cases found' with
      | none =>
          rw [settle, Session.restore] at h
          cases hc : s₁.cursor.restore <;> rw [hc] at h <;> cases h
          exact ⟨rfl, by simp [Record.kind]⟩
      | some a =>
          rw [settle, Session.unmark] at h
          cases hc : s₁.cursor.unmark <;> rw [hc] at h <;> cases h
          exact ⟨rfl, by simp⟩

private theorem kinds_of_token {found : Option (Token × Nat)} {s s' : Session}
    (h : token s = .ok found s') :
    s'.kinds = s.kinds ++ if found.isSome then [] else [.restored] := by
  obtain ⟨s₁, hbody, hkinds⟩ := kinds_of_attempt h
  simp only [bind_run, skipBlanks_run, cursor_run] at hbody
  generalize longest? Token.chars _ = longest at hbody
  rw [hkinds]
  cases longest with
  | none =>
      cases hbody
      simp
  | some t =>
      cases hbody
      simp

private theorem kinds_of_constant {found : Option Constant} {s s' : Session}
    (h : constant s = .ok found s') :
    s'.kinds = s.kinds ++ if found.isSome then [.constant] else [.restored] := by
  obtain ⟨s₁, hbody, hkinds⟩ := kinds_of_attempt h
  simp only [bind_run, skipBlanks_run, cursor_run] at hbody
  generalize longest? Constant.chars _ = longest at hbody
  rw [hkinds]
  cases longest with
  | none =>
      cases hbody
      simp
  | some k =>
      cases hbody
      simp [Record.kind]

private theorem kinds_of_numeral {found : Option Numeral} {s s' : Session}
    (h : numeral s = .ok found s') :
    s'.kinds = s.kinds ++ if found.isSome then [.numeral] else [.restored] := by
  obtain ⟨s₁, hbody, hkinds⟩ := kinds_of_attempt h
  simp only [bind_run, cursor_run, move_run] at hbody
  generalize (Numeral.read _).1 = verdict at hbody
  rw [hkinds]
  cases verdict with
  | absent =>
      cases hbody
      simp
  | malformed flaw => cases hbody
  | found n =>
      cases hbody
      simp [Record.kind]

/-- Without a group, the other readings have their turns. -/
theorem kinds_of_elementBy {inner : Reading (Option Group)} {found : Option Element}
    {s s₁ s' : Session} (hgroup : inner s = .ok none s₁)
    (hkinds : s₁.kinds = s.kinds ++ [.restored])
    (h : reader.elementBy inner s = .ok found s') :
    s'.kinds = s.kinds ++ (found.map Element.kinds).getD Sequence.missingKinds := by
  obtain ⟨c, s₀, hcursor, h⟩ := exists_of_bind_run h
  cases hcursor
  obtain ⟨found₁, s₁', hinner, h⟩ := exists_of_bind_run h
  rw [hgroup] at hinner
  cases hinner
  obtain ⟨found₂, s₂, htoken, h⟩ := exists_of_bind_run h
  have hkinds₂ := kinds_of_token htoken
  cases found₂ with
  | some t =>
      cases h
      simp [hkinds₂, hkinds, Element.kinds, Record.kind]
  | none =>
      obtain ⟨found₃, s₃, hconstant, h⟩ := exists_of_bind_run h
      have hkinds₃ := kinds_of_constant hconstant
      cases found₃ with
      | some k =>
          cases h
          simp [hkinds₃, hkinds₂, hkinds, Element.kinds]
      | none =>
          obtain ⟨found₄, s₄, hnumeral, h⟩ := exists_of_bind_run h
          have hkinds₄ := kinds_of_numeral hnumeral
          cases found₄ with
          | some n =>
              cases h
              simp [hkinds₄, hkinds₃, hkinds₂, hkinds, Element.kinds]
          | none =>
              cases h
              simp [hkinds₄, hkinds₃, hkinds₂, hkinds, Sequence.missingKinds, Record.kind]

/-- Inside a group the readings are those of any other place. -/
theorem group_eq (s : Session) : group s = reader.groupAround group s := by
  refine groupAround_congr group_answers fun s' hs' => ?_
  have henough := Nat.lt_succ_self s'.cursor.rest.length
  have hless := iterate_groupAround (return none) henough hs'
  rw [← hless]
  exact iterate_groupAround (return none) henough henough

/-- Where no parenthesis opens, the trial of a group reads nothing. -/
theorem kinds_of_group_absent {s s' : Session}
    (closed : (Lexing.content s.cursor.rest).head? ≠ some '(') (h : group s = .ok none s') :
    s'.kinds = s.kinds ++ [.restored] := by
  rw [group_eq] at h
  obtain ⟨s₁, hbody, hkinds⟩ := kinds_of_attempt h
  have hhead : (s.mark.cursor.moveTo s.mark.cursor.contentOffset).rest.head? ≠ some '(' := by
    rw [Cursor.rest_moveTo_contentOffset]
    exact closed
  have hskip : reader.skipBlanks s.mark = .ok () _ := skipBlanks_run s.mark
  simp only [bind_run, hskip, next_run, Session.withCursor, hhead, if_false] at hbody
  cases hbody
  rw [hkinds]
  rfl

theorem exists_elements_of_sequenceBy {inner : Reading (Option Group)} {limit : Option Nat}
    {run : Sequence} {s s' : Session} (h : reader.sequenceBy inner limit s = .ok (some run) s') :
    ∃ s₁, reader.elementsBy inner (limit.getD (s.cursor.rest.length + 1)) s.mark = .ok run s₁ ∧
      s'.kinds = s₁.kinds ++ [.scanned] := by
  obtain ⟨s₂, hbody, hkinds⟩ := kinds_of_attempt h
  obtain ⟨es, s₁, helements, hbody⟩ := exists_of_bind_run hbody
  obtain ⟨c, s₀, hcursor, helements⟩ := exists_of_bind_run helements
  cases hcursor
  cases es with
  | nil => cases hbody
  | cons e es =>
      cases hbody
      exact ⟨s₁, helements, by simp [hkinds, Record.kind]⟩

theorem session_of_condense {run : Sequence} {t : Term} {s s' : Session}
    (h : condense run s = .ok t s') : s' = s.logAll run.condensation.records := by
  cases hcondense : run.condense with
  | error fault =>
      rw [condense_run_error hcondense] at h
      cases h
  | ok inner =>
      rw [condense_run_ok hcondense] at h
      cases h
      rfl

/-- A group that is found has been read once: its run, behind the parenthesis that opens, and then
the rounds of the run. -/
theorem exists_elements_of_group {g : Group} {s s' : Session} (h : group s = .ok (some g) s') :
    ∃ s₁ s₂, s₁.cursor.offset = s.cursor.offset + Lexing.blanks s.cursor.rest + 1 ∧
      s₁.cursor.rest = (Lexing.content s.cursor.rest).drop 1 ∧ s₁.kinds = s.kinds ∧
      reader.elementsBy group groupLimit s₁ = .ok g.body s₂ ∧
      s'.kinds = s₂.kinds ++ [.scanned] ++ g.body.condensation.records.map Record.kind ++
        [.grouping] := by
  rw [group_eq] at h
  obtain ⟨s₃, hbody, hkinds⟩ := kinds_of_attempt h
  obtain ⟨_, s₄, hskip, hbody⟩ := exists_of_bind_run hbody
  cases (skipBlanks_run _).symm.trans hskip
  obtain ⟨opening, s₀, hopen, hbody⟩ := exists_of_bind_run hbody
  rw [next_run] at hopen
  split at hbody
  next =>
    obtain ⟨found, s₂, hsequence, hbody⟩ := exists_of_bind_run hbody
    cases found with
    | none => cases hbody
    | some body =>
        obtain ⟨s₁, helements, hkinds₂⟩ := exists_elements_of_sequenceBy hsequence
        obtain ⟨_, s₅, hskip, hbody⟩ := exists_of_bind_run hbody
        cases (skipBlanks_run _).symm.trans hskip
        obtain ⟨closing, s₆, hclose, hbody⟩ := exists_of_bind_run hbody
        rw [next_run] at hclose
        cases hclose
        split at hbody
        next =>
          obtain ⟨inner, s₇, hcondense, hbody⟩ := exists_of_bind_run hbody
          cases session_of_condense hcondense
          cases hbody
          have hcursor := s.mark.cursor.advance_moveTo_contentOffset 1
          cases hopen
          refine ⟨_, s₁, ?_, ?_, ?_, helements, ?_⟩
          · exact congrArg Cursor.offset hcursor
          · change ((s.mark.cursor.moveTo s.mark.cursor.contentOffset).advance 1).rest = _
            rw [Cursor.rest_advance, Cursor.rest_moveTo_contentOffset]
            rfl
          · simp
          · simp [hkinds, hkinds₂, Record.kind]
        next => cases hbody
  next => cases hbody

/-- A leaf is read where it is spelled, and the readings before the right one return. -/
theorem exists_elementBy_of_leaf {e : Element} {w spelling tail : List Char} {s : Session}
    (blank : Blank w) (leaf : e.LeafScans spelling tail)
    (stands : e.offset = s.cursor.offset + w.length)
    (hrest : s.cursor.rest = w ++ (spelling ++ tail)) :
    ∃ s', reader.elementBy group s = .ok (some e) s' ∧
      s'.cursor = s.cursor.advance (w.length + spelling.length) ∧
      s'.kinds = s.kinds ++ e.kinds := by
  have hanswers := elementBy_answers group_answers s
  rw [hrest, Lexing.elementBy_of_leaf blank leaf stands] at hanswers
  obtain ⟨s', helement, hcursor⟩ := hanswers.exists_of_found
  refine ⟨s', helement, hcursor, ?_⟩
  obtain ⟨c, rest, hspelling, hblank, hopen, _⟩ := leaf.spells.head
  have hclosed : (Lexing.content s.cursor.rest).head? ≠ some '(' := by
    rw [hrest, hspelling, List.cons_append, Lexing.content_append_cons blank hblank]
    simpa using hopen
  have hgroup := group_answers s
  rw [Lexing.group_of_head hclosed] at hgroup
  obtain ⟨s₁, hgroup, _⟩ := hgroup.exists_of_absent
  exact kinds_of_elementBy hgroup (kinds_of_group_absent hclosed hgroup) helement

/-- Nothing is read where a run stops, and all four readings return. -/
theorem exists_elementBy_of_stops {s : Session} (stops : Lexing.Stops s.cursor.rest) :
    ∃ s', reader.elementBy group s = .ok none s' ∧ s'.kinds = s.kinds ++ Sequence.missingKinds := by
  have hanswers := elementBy_answers group_answers s
  rw [Lexing.elementBy_of_stops stops] at hanswers
  obtain ⟨s', helement, _⟩ := hanswers.exists_of_absent
  have hclosed : (Lexing.content s.cursor.rest).head? ≠ some '(' := by
    intro hopen
    exact absurd (stops '(' hopen) (by decide)
  have hgroup := group_answers s
  rw [Lexing.group_of_head hclosed] at hgroup
  obtain ⟨s₁, hgroup, _⟩ := hgroup.exists_of_absent
  exact ⟨s', helement, kinds_of_elementBy hgroup (kinds_of_group_absent hclosed hgroup) helement⟩

/-- The reading finds the run and logs each element of it once. -/
def ReadsOnce (most : Nat) (run : Sequence) (s : Session) : Prop :=
  ∃ s', reader.elementsBy group most s = .ok run s' ∧
    s'.kinds = s.kinds ++ Element.kindsAll run ++ Sequence.endKinds most run

private theorem readsOnce_cons {most : Nat} {e : Element} {es : Sequence} {s s₁ : Session}
    (element : reader.elementBy group s = .ok (some e) s₁) (hkinds : s₁.kinds = s.kinds ++ e.kinds)
    (others : ReadsOnce most es s₁) : ReadsOnce (most + 1) (e :: es) s := by
  obtain ⟨s', hothers, hkinds'⟩ := others
  refine ⟨s', ?_, ?_⟩
  · simp only [Reader.elementsBy, bind_run, element, hothers]
    rfl
  · simp [hkinds', hkinds, Element.kindsAll, Sequence.endKinds]

private theorem readsOnce_nil {most : Nat} {s : Session}
    (stops : 0 < most → Lexing.Stops s.cursor.rest) : ReadsOnce most [] s := by
  cases most with
  | zero => exact ⟨s, rfl, by simp [Element.kindsAll, Sequence.endKinds]⟩
  | succ most =>
      obtain ⟨s', hnone, hkinds⟩ := exists_elementBy_of_stops (stops (Nat.succ_pos most))
      refine ⟨s', ?_, ?_⟩
      · simp only [Reader.elementsBy, bind_run, hnone]
        rfl
      · simp [hkinds, Element.kindsAll, Sequence.endKinds]

/-- Where a run has been read between parentheses, the group is read with it. -/
theorem exists_elementBy_of_group {body : Sequence} {inner : Term} {w inside v tail : List Char}
    {s : Session} (blank : Blank w) (blank' : Blank v) (nonempty : body ≠ [])
    (bounded : List.length body ≤ groupLimit) (condenses : body.condense = .ok inner)
    (scans : Sequence.Scans (v ++ ')' :: tail) (s.cursor.offset + w.length + 1) body inside)
    (hrest : s.cursor.rest = w ++ '(' :: (inside ++ (v ++ ')' :: tail)))
    (elements : ∀ s₁ : Session, s₁.cursor.rest = inside ++ (v ++ ')' :: tail) →
      s₁.cursor.offset = s.cursor.offset + w.length + 1 →
      ReadsOnce groupLimit body s₁) :
    ∃ s',
      reader.elementBy group s = .ok (some (.group body inner (s.cursor.offset + w.length))) s' ∧
      s'.cursor = s.cursor.advance (w.length + 1 + inside.length + (v.length + 1)) ∧
      s'.kinds = s.kinds ++ (Element.group body inner (s.cursor.offset + w.length)).kinds := by
  have hopen : isBlank '(' = false := by decide
  have hcontent := Lexing.content_append_cons blank hopen (inside ++ (v ++ ')' :: tail))
  have hblanks := Lexing.blanks_append_cons blank hopen (inside ++ (v ++ ')' :: tail))
  have hstops := Lexing.stops_of_closing blank' tail
  have hfound := Sequence.group_of_body blank blank' nonempty
    (scans.elementsBy bounded fun _ => Lexing.elementBy_of_stops hstops _)
  rw [condenses] at hfound
  have hanswers := group_answers s
  rw [hrest, hfound] at hanswers
  obtain ⟨s', hgroup, hcursor⟩ := hanswers.exists_of_found
  obtain ⟨s₁, s₂, hoffset₁, hrest₁, hkinds₁, helements, hkinds'⟩ := exists_elements_of_group hgroup
  rw [hrest, hblanks] at hoffset₁
  rw [hrest, hcontent] at hrest₁
  obtain ⟨s₃, helements₃, hkinds₃⟩ := elements s₁ hrest₁ hoffset₁
  -- the run inside is read once only
  rw [helements] at helements₃
  cases helements₃
  refine ⟨s', ?_, hcursor, ?_⟩
  · simp only [Reader.elementBy, bind_run, cursor_run, hgroup, Cursor.contentOffset_eq, hrest,
      hblanks]
    rfl
  · rw [hkinds', Sequence.roundKinds_eq scans.spells.unresolved condenses, hkinds₃, hkinds₁]
    simp [Element.kinds]

end Reading

namespace Sequence

/-- A run is read from its text, and every element of it is read once. -/
theorem Scans.readsOnce {rest : List Char} {offset : Nat} {s : Sequence} {text : List Char}
    (h : Scans rest offset s text) {session : Session}
    (hrest : session.cursor.rest = text ++ rest) (hoffset : session.cursor.offset = offset)
    {most : Nat} (many : List.length s ≤ most)
    (stops : List.length s < most → Lexing.Stops rest) : Reading.ReadsOnce most s session := by
  induction h generalizing session most with
  | nil rest offset =>
      rw [List.nil_append] at hrest
      rw [← hrest] at stops
      exact Reading.readsOnce_nil stops
  | @leaf rest offset e s w spelling text blank leaf stands _ ih =>
      cases most with
      | zero => cases many
      | succ most =>
          subst hoffset
          rw [List.append_assoc, List.append_assoc] at hrest
          obtain ⟨session₁, helement, hcursor, hkinds⟩ :=
            Reading.exists_elementBy_of_leaf blank leaf stands hrest
          have hrest₁ : session₁.cursor.rest = text ++ rest := by
            rw [hcursor, Cursor.rest_advance, hrest, ← List.append_assoc, ← List.length_append,
              List.drop_left]
          have hoffset₁ := congrArg Cursor.offset hcursor
          exact Reading.readsOnce_cons helement hkinds (ih hrest₁ hoffset₁
            (Nat.le_of_succ_le_succ many) fun hfewer => stops (Nat.succ_lt_succ hfewer))
  | @group rest offset body s inner w content v text blank blank' nonempty bounded condenses
      inside _ ihbody ih =>
      cases most with
      | zero => cases many
      | succ most =>
          subst hoffset
          have hsplit : w ++ '(' :: (content ++ (v ++ ')' :: text)) ++ rest =
              w ++ '(' :: (content ++ (v ++ ')' :: (text ++ rest))) := by simp
          have hfront : w ++ '(' :: (content ++ (v ++ ')' :: (text ++ rest))) =
              (w ++ '(' :: (content ++ (v ++ [')']))) ++ (text ++ rest) := by simp
          rw [hsplit] at hrest
          have hstops := Lexing.stops_of_closing blank' (text ++ rest)
          obtain ⟨session₁, helement, hcursor, hkinds⟩ :=
            Reading.exists_elementBy_of_group blank blank' nonempty bounded condenses inside hrest
              fun _ hrest₁ hoffset₁ => ihbody hrest₁ hoffset₁ bounded fun _ => hstops
          have hrest₁ : session₁.cursor.rest = text ++ rest := by
            rw [hcursor, Cursor.rest_advance, hrest, hfront, ← length_group, List.drop_left]
          have hoffset₁ := congrArg Cursor.offset hcursor
          exact Reading.readsOnce_cons helement hkinds (ih hrest₁ hoffset₁
            (Nat.le_of_succ_le_succ many) fun hfewer => stops (Nat.succ_lt_succ hfewer))

end Sequence

/-- A line that was scanned has been read by one run from its start. -/
theorem Reading.sequence_of_line {s : Sequence} {session session' : Session}
    (h : line session = .ok s session') : sequence none session = .ok (some s) session' := by
  obtain ⟨found, session₁, hsequence, h⟩ := exists_of_bind_run h
  cases found with
  | none =>
      obtain ⟨c, session₂, hcursor, h⟩ := exists_of_bind_run h
      cases h
  | some s =>
      obtain ⟨c, session₂, hcursor, h⟩ := exists_of_bind_run h
      cases hcursor
      simp only at h
      split at h
      next => cases h
      next =>
        cases h
        exact hsequence

/-- A line that is scanned is read once, and once more behind its last element. -/
theorem Reading.exists_line_of_scan {line : String} {s : Sequence} (h : scan line = .ok s) :
    ∃ session, Reading.line (.start line) = .ok s session ∧
      session.kinds = Element.kindsAll s ++ Sequence.missingKinds ++ [.scanned] := by
  obtain ⟨text, w, hinput, blank, _, scans⟩ := scans_of_scan h
  cases hline : Reading.line (.start line) with
  | error fault session => simp only [scan, outcome, hline] at h; cases h
  | ok s' session =>
      simp only [scan, outcome, hline] at h
      cases h
      refine ⟨session, rfl, ?_⟩
      obtain ⟨session₁, helements, hkinds⟩ :=
        exists_elements_of_sequenceBy (sequence_of_line hline)
      have hrest : (Session.start line).mark.cursor.rest = text ++ w := hinput
      have hlength : List.length s < (Session.start line).mark.cursor.rest.length + 1 := by
        have hle := scans.spells.length_le
        rw [hrest, List.length_append]
        omega
      obtain ⟨session₂, helements₂, hkinds₂⟩ := scans.readsOnce hrest rfl (Nat.le_of_lt hlength)
        fun _ => Lexing.stops_of_blank blank
      cases helements.symm.trans helements₂
      have hstart : (Session.start line).mark.kinds = [] := rfl
      rw [hkinds, hkinds₂, hstart, Sequence.endKinds, if_neg (Nat.ne_of_lt hlength),
        List.nil_append]

/-- The kinds of the records of a line with a value, in their order, told from the run of the line.
The last record is the report. -/
theorem trace_of_evaluate {line : String} {report : Evaluation} (h : evaluate line = .ok report) :
    ∃ s, scan line = .ok s ∧ (trace line).map Record.kind = s.lineKinds ∧
      (trace line).getLast? = some (.evaluated line report) := by
  rw [evaluate_eq] at h
  obtain ⟨s, hscan, h⟩ := Step.exists_of_bind h
  obtain ⟨t, hcondense, h⟩ := Step.exists_of_bind h
  cases h
  obtain ⟨session, hline, hkinds⟩ := Reading.exists_line_of_scan hscan
  obtain ⟨_, _, _, _, _, spells⟩ := spells_of_scan hscan
  have hrounds := Sequence.roundKinds_eq spells.unresolved hcondense
  have htrace : trace line = session.records.reverse ++ s.condensation.records ++
      [.evaluated line (Evaluation.of s t)] := by
    simp only [trace, Reading.records, Reading.evaluation, Step.bind_run, hline,
      Reading.condense_run_ok hcondense]
    change ((session.logAll s.condensation.records).log _).records.reverse = _
    simp [Session.log, Session.logAll]
  refine ⟨s, hscan, ?_, ?_⟩
  · have hread : session.records.reverse.map Record.kind = _ := hkinds
    rw [htrace, List.map_append, List.map_append, hread, hrounds]
    rfl
  · rw [htrace, List.getLast?_concat]

end LineCalc

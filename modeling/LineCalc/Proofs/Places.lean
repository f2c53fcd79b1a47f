import LineCalc.Proofs.Scanning

/-!
Offsets are places and nothing else. A run can be moved, each offset in it replaced by another one,
and it is shown by the same text and condenses by the same rounds: to the same tree, or to the same
fault at the place that the fault's own was moved to. A text that begins further on is read as its
run moved on.
-/

namespace LineCalc

/-- The fault at other offsets. -/
def Fault.move (f : Nat → Nat) : Fault → Fault
  | .malformed detail span => .malformed detail ⟨f span.start, f span.stop⟩
  | .noExpression offset => .noExpression (f offset)
  | .trailingInput offset rest => .trailingInput (f offset) rest
  | .missingOperand token offset => .missingOperand token (f offset)
  | .unexpectedOperator token offset => .unexpectedOperator token (f offset)
  | .missingOperator offset => .missingOperator (f offset)
  | .ambiguousOperator token offset count => .ambiguousOperator token (f offset) count
  | .arityMismatch token expected got => .arityMismatch token expected got
  | .unreadableFloat text => .unreadableFloat text
  | .cursor fault => .cursor fault

namespace Element

mutual

/-- The element with all its offsets replaced, those inside a group as well. -/
def move (f : Nat → Nat) : Element → Element
  | .term t offset => .term t (f offset)
  | .group body inner offset => .group (moveAll f body) inner (f offset)
  | .token t offset => .token t (f offset)
  | .operator o offset => .operator o (f offset)

def moveAll (f : Nat → Nat) : List Element → List Element
  | [] => []
  | e :: rest => move f e :: moveAll f rest

end

@[simp]
theorem offset_move (f : Nat → Nat) (e : Element) : (e.move f).offset = f e.offset := by
  cases e <;> rfl

@[simp]
theorem term?_move (f : Nat → Nat) (e : Element) : (e.move f).term? = e.term? := by
  cases e <;> rfl

@[simp]
theorem isTerm_move (f : Nat → Nat) (e : Element) : (e.move f).isTerm = e.isTerm := by
  cases e <;> rfl

theorem LeafSpells.move (f : Nat → Nat) {e : Element} {spelling : List Char}
    (h : e.LeafSpells spelling) : (e.move f).LeafSpells spelling := by
  cases h with
  | token t offset => exact .token t _
  | constant offset letters => exact .constant _ letters
  | numeral offset spells unsigned => exact .numeral _ spells unsigned

end Element

namespace Sequence

/-- The run with all its offsets replaced. -/
def move (f : Nat → Nat) (s : Sequence) : Sequence :=
  Element.moveAll f s

theorem move_eq_map (f : Nat → Nat) (s : Sequence) : s.move f = s.map (Element.move f) := by
  induction s with
  | nil => rfl
  | cons e rest ih => exact congrArg (e.move f :: ·) ih

@[simp]
theorem move_nil (f : Nat → Nat) : Sequence.move f [] = [] := rfl

@[simp]
theorem move_cons (f : Nat → Nat) (e : Element) (s : Sequence) :
    Sequence.move f (e :: s) = e.move f :: s.move f := rfl

@[simp]
theorem length_move (f : Nat → Nat) (s : Sequence) :
    List.length (s.move f) = List.length s := by
  rw [move_eq_map, List.length_map]

@[simp]
theorem move_eq_nil_iff (f : Nat → Nat) (s : Sequence) : s.move f = [] ↔ s = [] := by
  rw [move_eq_map, List.map_eq_nil_iff]

end Sequence

mutual

theorem Element.move_id : ∀ e : Element, e.move id = e
  | .term .. => rfl
  | .group body inner offset => by
      simp only [Element.move, Element.moveAll_id body, id]
  | .token .. => rfl
  | .operator .. => rfl

theorem Element.moveAll_id : ∀ s : List Element, Element.moveAll id s = s
  | [] => rfl
  | e :: rest => by
      simp only [Element.moveAll, Element.move_id e, Element.moveAll_id rest]

end

mutual

theorem Element.render_move (f : Nat → Nat) : ∀ e : Element, (e.move f).render = e.render
  | .term .. => rfl
  | .group body _ _ => by
      simp only [Element.move, Element.render, Element.renderAll_move f body]
  | .token .. => rfl
  | .operator .. => rfl

theorem Element.renderAll_move (f : Nat → Nat) :
    ∀ s : List Element, Element.renderAll (Element.moveAll f s) = Element.renderAll s
  | [] => rfl
  | [e] => Element.render_move f e
  | e :: next :: rest => by
      have hrest := Element.renderAll_move f (next :: rest)
      simp only [Element.moveAll, Element.renderAll, Element.render_move f e] at hrest ⊢
      rw [hrest]

end

theorem Sequence.text_move (f : Nat → Nat) (s : Sequence) : (s.move f).text = s.text :=
  congrArg String.ofList (Element.renderAll_move f s)

theorem Operator.choose_move (f : Nat → Nat) (afterTerm : Bool) (t : Token) (offset : Nat)
    (uses : List Operator) :
    choose afterTerm t (f offset) uses =
      (choose afterTerm t offset uses).mapError (Fault.move f) := by
  unfold choose
  split
  next => rfl
  next o _ => cases h : afterTerm || o.isUnary <;> rfl
  next => rfl

theorem Element.resolve_move (f : Nat → Nat) (afterTerm : Bool) (e : Element) :
    (e.move f).resolve afterTerm =
      ((e.resolve afterTerm).map (Element.move f)).mapError (Fault.move f) := by
  cases e with
  | term _ _ | group _ _ _ => rfl
  | token t offset =>
      simp only [Element.move, Element.resolve, Operator.choose_move]
      cases Operator.choose afterTerm t offset (Operator.candidates t) <;> rfl
  | operator o offset =>
      simp only [Element.move, Element.resolve, Operator.choose_move]
      cases Operator.choose afterTerm o.token offset [o] <;> rfl

def Focus.move (f : Nat → Nat) (focus : Focus) : Focus :=
  ⟨Sequence.move f focus.before, focus.operator, f focus.offset, Sequence.move f focus.after⟩

def Reduction.move (f : Nat → Nat) (r : Reduction) : Reduction :=
  ⟨r.operator, Sequence.move f r.before, r.result, f r.offset, Sequence.move f r.after⟩

theorem Reduction.sequence_move (f : Nat → Nat) (r : Reduction) :
    (r.move f).sequence = r.sequence.move f := by
  simp [Reduction.sequence, Reduction.move, Sequence.move_eq_map, Element.move]

theorem Focus.reduction?_move (f : Nat → Nat) (focus : Focus) :
    (focus.move f).reduction? = focus.reduction?.map (Reduction.move f) := by
  obtain ⟨before, o, offset, after⟩ := focus
  cases after with
  | nil => cases o <;> cases before <;> rfl
  | cons r after =>
      cases o with
      | unary o =>
          simp only [Focus.move, Focus.reduction?, Sequence.move_cons, Element.term?_move]
          cases r.term? <;> rfl
      | binary o =>
          cases before with
          | nil => rfl
          | cons l before =>
              simp only [Focus.move, Focus.reduction?, Sequence.move_cons, Element.term?_move,
                Element.offset_move]
              cases l.term? <;> cases r.term? <;> rfl

namespace Sequence

def Round.move (f : Nat → Nat) : Round → Round
  | .finished => .finished
  | .refused fault => .refused (fault.move f)
  | .stuck seen fault => .stuck (seen.move f) (fault.move f)
  | .reduced seen r => .reduced (seen.move f) (r.move f)

theorem resolve_move (f : Nat → Nat) (afterTerm : Bool) (s : Sequence) :
    (s.move f).resolve afterTerm =
      ((s.resolve afterTerm).map (Sequence.move f)).mapError (Fault.move f) := by
  induction s generalizing afterTerm with
  | nil => rfl
  | cons e rest ih =>
      simp only [move_cons, resolve, Element.resolve_move, Element.isTerm_move, ih]
      cases e.resolve afterTerm with
      | error fault => rfl
      | ok resolved => cases resolve e.isTerm rest <;> rfl

theorem foci_move (f : Nat → Nat) (before : List Element) (s : Sequence) :
    foci (Sequence.move f before) (s.move f) = (foci before s).map (Focus.move f) := by
  induction s generalizing before with
  | nil => rfl
  | cons e rest ih =>
      have hrest := ih (e :: before)
      cases e with
      | operator _ _ => exact congrArg (_ :: ·) hrest
      | term _ _ | group _ _ _ | token _ _ => exact hrest

private theorem filterMap_reduction?_move (f : Nat → Nat) (foci : List Focus) :
    (foci.map (Focus.move f)).filterMap Focus.reduction? =
      (foci.filterMap Focus.reduction?).map (Reduction.move f) := by
  rw [List.filterMap_map, List.map_filterMap]
  congr 1
  funext focus
  exact focus.reduction?_move f

theorem round_move (f : Nat → Nat) (s : Sequence) : (s.move f).round = s.round.move f := by
  have hoperator : Reduction.operator ∘ Reduction.move f = Reduction.operator := rfl
  have hoperator' : Focus.operator ∘ Focus.move f = Focus.operator := rfl
  simp only [round, resolve_move]
  cases s.resolve false with
  | error fault => rfl
  | ok seen =>
      have hmoved : ((Except.ok seen).map (Sequence.move f)).mapError (Fault.move f) =
          .ok (seen.move f) := rfl
      have hfoci := foci_move f [] seen
      rw [move_nil] at hfoci
      simp only [hmoved, hfoci, filterMap_reduction?_move, Operator.first?_map, hoperator,
        hoperator']
      cases Operator.first? Reduction.operator ((foci [] seen).filterMap Focus.reduction?) with
      | some r => rfl
      | none => cases Operator.first? Focus.operator (foci [] seen) <;> rfl

private theorem soleTerm_move (f : Nat → Nat) {s : Sequence} (nonempty : s ≠ [])
    (terms : ∀ e ∈ s, e.isTerm = true) :
    (s.move f).soleTerm = s.soleTerm.mapError (Fault.move f) := by
  cases s with
  | nil => exact absurd rfl nonempty
  | cons e rest =>
      cases rest with
      | nil =>
          obtain ⟨t, ht⟩ := Option.isSome_iff_exists.mp (terms e List.mem_cons_self)
          simp only [move_cons, move_nil, soleTerm, Element.term?_move, ht]
          rfl
      | cons next rest =>
          simp only [move_cons, soleTerm, Element.offset_move]
          rfl

/-- A run that is moved condenses to the same tree, or to the moved fault. -/
theorem condense_move (f : Nat → Nat) {s : Sequence} (nonempty : s ≠ []) :
    (s.move f).condense = s.condense.mapError (Fault.move f) := by
  have hround := round_move f s
  cases h : s.round with
  | refused fault =>
      rw [h] at hround
      rw [condense_of_round_refused hround, condense_of_round_refused h]
      rfl
  | stuck seen fault =>
      rw [h] at hround
      rw [condense_of_round_stuck hround, condense_of_round_stuck h]
      rfl
  | reduced seen r =>
      rw [h] at hround
      have hlt := length_lt_of_round h
      rw [condense_of_round_reduced hround, condense_of_round_reduced h, Reduction.sequence_move]
      exact condense_move f (by simp [Reduction.sequence])
  | finished =>
      rw [h] at hround
      rw [condense_of_round_finished hround, condense_of_round_finished h]
      exact soleTerm_move f nonempty (isTerm_of_round_finished h)
termination_by List.length s

private theorem endsBefore_append {spelling text rest rest' : List Char}
    (h : Numeral.EndsBefore spelling (text ++ rest)) (ends : Numeral.Ends rest') :
    Numeral.EndsBefore spelling (text ++ rest') := by
  cases text with
  | nil => exact ends.endsBefore spelling
  | cons c text => exact h

/-- A text that begins later, before something else that ends a numeral, is read as the run moved
on. -/
theorem Scans.move {rest : List Char} {offset : Nat} {s : Sequence} {text : List Char}
    (h : Scans rest offset s text) (d : Nat) {rest' : List Char} (ends : Numeral.Ends rest') :
    Scans rest' (offset + d) (s.move (· + d)) text := by
  induction h generalizing rest' with
  | nil _ offset => exact .nil rest' (offset + d)
  | @leaf rest offset e s w spelling text blank leaf stands _ ih =>
      obtain ⟨spells, hends⟩ := leaf
      refine .leaf blank ⟨spells.move (· + d), ?_⟩ ?_ ?_
      · intro n hn
        rw [Element.term?_move] at hn
        exact endsBefore_append (hends n hn) ends
      · rw [Element.offset_move, stands, Nat.add_right_comm]
      · rw [Nat.add_right_comm]
        exact ih ends
  | @group rest offset body s inner w content v text blank blank' nonempty bounded condenses _ _
      ihbody ih =>
      have hcondenses : (body.move (· + d)).condense = .ok inner := by
        rw [condense_move _ nonempty, condenses]
        rfl
      have hbody := ihbody (Lexing.stops_of_closing blank' (text ++ rest')).ends
      have hothers := ih ends
      rw [Nat.add_right_comm] at hothers
      rw [Nat.add_right_comm, Nat.add_right_comm offset] at hbody
      have hgroup := Scans.group blank blank' (by simpa using nonempty) (by simpa using bounded)
        hcondenses hbody hothers
      rwa [Nat.add_right_comm offset] at hgroup

/-- What follows a run may be replaced by anything else that ends a numeral. -/
theorem Scans.before {rest : List Char} {offset : Nat} {s : Sequence} {text : List Char}
    (h : Scans rest offset s text) {rest' : List Char} (ends : Numeral.Ends rest') :
    Scans rest' offset s text := by
  have hmove : Scans rest' offset (s.move id) text := h.move 0 ends
  rwa [Sequence.move, Element.moveAll_id] at hmove

end Sequence
end LineCalc

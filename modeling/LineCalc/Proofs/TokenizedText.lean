import LineCalc.Proofs.Places

/-!
The tokenized text of a run says all about it but the offsets. Neither a comma nor a space stands in
the text of a leaf, so a leaf ends before the first of them, and a group ends where its inside does.
A run that was scanned can therefore be told from its text, and what becomes of it too.
-/

namespace LineCalc

/-- The fault with its offsets forgotten. -/
def Fault.unplaced (fault : Fault) : Fault :=
  fault.move fun _ => 0

/-- The element with its offset forgotten, and those inside it if it is a group. -/
def Element.unplaced (e : Element) : Element :=
  e.move fun _ => 0

/-- The run with its offsets forgotten, those inside groups as well. -/
def Sequence.unplaced (s : Sequence) : Sequence :=
  s.move fun _ => 0

theorem Element.unplaced_group (body : Sequence) (inner : Term) (offset : Nat) :
    (Element.group body inner offset).unplaced = .group body.unplaced inner 0 := rfl

theorem Sequence.unplaced_cons (e : Element) (s : Sequence) :
    Sequence.unplaced (e :: s) = e.unplaced :: s.unplaced := rfl

/-- Runs that differ in offsets only condense to the same tree, or to faults that differ in offsets
only. -/
theorem Sequence.condense_unplaced {s s' : Sequence} (nonempty : s ≠ []) (nonempty' : s' ≠ [])
    (same : s.unplaced = s'.unplaced) :
    s.condense.mapError Fault.unplaced = s'.condense.mapError Fault.unplaced := by
  have h := condense_move (fun _ => 0) nonempty
  have h' := condense_move (fun _ => 0) nonempty'
  rw [show s.move (fun _ => 0) = s'.move (fun _ => 0) from same] at h
  exact h.symm.trans h'

/-- Does a text begin with what separates elements, if with anything? -/
def Separates (text : List Char) : Prop :=
  ∀ c ∈ text.head?, c = ',' ∨ c = ' '

/-- Does a text begin with what comes before a parenthesis that closes, if with anything? -/
def Closes (text : List Char) : Prop :=
  ∀ c ∈ text.head?, c = ' '

/-- Can the character stand in the text of a leaf? -/
def isSolid (c : Char) : Bool :=
  c != ',' && c != ' '

/-- Characters that have a property can be told from a text behind them that begins with one that
has it not, if with any. -/
theorem append_inj_of_head {p : Char → Bool} {front front' text text' : List Char}
    (all : ∀ c ∈ front, p c = true) (all' : ∀ c ∈ front', p c = true)
    (head : ∀ c ∈ text.head?, p c = false) (head' : ∀ c ∈ text'.head?, p c = false)
    (h : front ++ text = front' ++ text') : front = front' ∧ text = text' := by
  have htake {front text : List Char} (all : ∀ c ∈ front, p c = true)
      (head : ∀ c ∈ text.head?, p c = false) : (front ++ text).takeWhile p = front := by
    rw [List.takeWhile_append_of_pos all]
    cases text with
    | nil => simp
    | cons c rest => simp [head c rfl]
  have hfront : front = front' := by
    rw [← htake all head, h, htake all' head']
  subst hfront
  exact ⟨rfl, List.append_cancel_left h⟩

theorem Separates.isSolid_head {text : List Char} (h : Separates text) :
    ∀ c ∈ text.head?, isSolid c = false := by
  intro c hc
  cases h c hc with
  | inl hcomma =>
      rw [hcomma]
      rfl
  | inr hspace =>
      rw [hspace]
      rfl

theorem append_inj_of_separates {front front' text text' : List Char}
    (solid : ∀ c ∈ front, isSolid c = true) (solid' : ∀ c ∈ front', isSolid c = true)
    (separates : Separates text) (separates' : Separates text')
    (h : front ++ text = front' ++ text') : front = front' ∧ text = text' :=
  append_inj_of_head solid solid' separates.isSolid_head separates'.isSolid_head h

namespace Numeral

theorem isSolid_chars (n : Numeral) : ∀ c ∈ n.chars, isSolid c = true := by
  have hdigit (d : Digit) : isSolid d.char = true := by
    revert d
    decide
  intro c hc
  rcases mem_chars hc with ⟨d, rfl⟩ | rfl | rfl | rfl
  · exact hdigit d
  · rfl
  · rfl
  · rfl

/-- A numeral without a sign begins unlike every other element. -/
theorem head_chars {n : Numeral} (h : n.sign = .plus) :
    ∃ c rest, n.chars = c :: rest ∧ c ≠ '"' ∧ c ≠ 'p' ∧ c ≠ 'e' ∧ c ≠ '(' := by
  have hdigit (d : Digit) : d.char ≠ '"' ∧ d.char ≠ 'p' ∧ d.char ≠ 'e' ∧ d.char ≠ '(' := by
    revert d
    decide
  obtain ⟨c, rest, hchars, hc⟩ := head_spelling n.spells_chars (unsigned_chars h)
  refine ⟨c, rest, hchars, ?_⟩
  cases hc with
  | inl hpoint => exact hpoint ▸ by decide
  | inr hdigits =>
      obtain ⟨d, rfl⟩ := hdigits
      exact hdigit d

end Numeral

namespace Element

/-- The leaf that a text shows, if it shows one. -/
def shown? : List Char → Option Element
  | '"' :: rest => (Token.all.find? fun t => t.chars ++ ['"'] == rest).map fun t => .token t 0
  | 'p' :: _ => some (.term (.constant .pi) 0)
  | 'e' :: _ => some (.term (.constant .e) 0)
  | text =>
    match (Numeral.read text).1 with
    | .found n => some (.term (.numeral n) 0)
    | _ => none

variable {e e' : Element} {spelling spelling' : List Char}

theorem LeafSpells.shown?_render (h : e.LeafSpells spelling) :
    shown? e.render = some e.unplaced := by
  cases h with
  | token t _ => cases t <;> rfl
  | @constant k _ _ _ => cases k <;> rfl
  | @numeral n _ _ spells unsigned =>
      have hread := n.read_chars
      obtain ⟨c, rest, hchars, hquote, hpi, he, _⟩ :=
        Numeral.head_chars (Numeral.sign_of_unsigned spells unsigned)
      change shown? n.chars = _
      rw [hchars] at hread ⊢
      unfold shown?
      split
      next h => exact absurd (List.cons.inj h).1 hquote
      next h => exact absurd (List.cons.inj h).1 hpi
      next h => exact absurd (List.cons.inj h).1 he
      next =>
        rw [hread]
        rfl

theorem LeafSpells.isSolid_render (h : e.LeafSpells spelling) :
    ∀ c ∈ e.render, isSolid c = true := by
  cases h with
  | token t _ => exact List.all_eq_true.mp (by cases t <;> rfl)
  | @constant k _ _ _ => exact List.all_eq_true.mp (by cases k <;> rfl)
  | @numeral n _ _ _ _ => exact n.isSolid_chars

/-- Only a group begins with a parenthesis. -/
theorem LeafSpells.head_render (h : e.LeafSpells spelling) :
    ∃ c rest, e.render = c :: rest ∧ c ≠ '(' := by
  cases h with
  | token t _ => exact ⟨_, _, rfl, by decide⟩
  | @constant k _ _ _ => cases k <;> exact ⟨_, _, rfl, by decide⟩
  | numeral _ spells unsigned =>
      obtain ⟨c, rest, hchars, _, _, _, hopen⟩ :=
        Numeral.head_chars (Numeral.sign_of_unsigned spells unsigned)
      exact ⟨c, rest, hchars, hopen⟩

/-- A leaf can be told from its text, whatever separates it from what follows. -/
theorem LeafSpells.render_append_inj (h : e.LeafSpells spelling) (h' : e'.LeafSpells spelling')
    {text text' : List Char} (separates : Separates text) (separates' : Separates text')
    (same : e.render ++ text = e'.render ++ text') :
    e.unplaced = e'.unplaced ∧ text = text' := by
  obtain ⟨hrender, htext⟩ :=
    append_inj_of_separates h.isSolid_render h'.isSolid_render separates separates' same
  refine ⟨?_, htext⟩
  have hshown := h.shown?_render
  rw [hrender, h'.shown?_render] at hshown
  exact (Option.some.inj hshown).symm

theorem render_group_append (body : List Element) (inner : Term) (offset : Nat)
    (text : List Char) :
    (group body inner offset).render ++ text =
      '(' :: ' ' :: (renderAll body ++ ' ' :: ')' :: text) := by
  simp [render]

theorem LeafSpells.render_append_ne (h : e.LeafSpells spelling) (body : List Element)
    (inner : Term) (offset : Nat) (text text' : List Char) :
    e.render ++ text ≠ (group body inner offset).render ++ text' := by
  obtain ⟨c, rest, hrender, hc⟩ := h.head_render
  rw [render_group_append, hrender]
  intro same
  exact hc (List.cons.inj same).1

/-- What is written behind an element of a run. -/
def renderMore : List Element → List Char
  | [] => []
  | e :: rest => ',' :: ' ' :: (e.render ++ renderMore rest)

theorem renderAll_cons (e : Element) (rest : List Element) :
    renderAll (e :: rest) = e.render ++ renderMore rest := by
  induction rest generalizing e with
  | nil => exact (List.append_nil _).symm
  | cons next rest ih =>
      rw [renderAll, ih next, renderMore, List.append_assoc]
      rfl

theorem renderMore_of_ne_nil {s : List Element} (h : s ≠ []) :
    renderMore s = ',' :: ' ' :: renderAll s := by
  cases s with
  | nil => exact absurd rfl h
  | cons e rest => rw [renderAll_cons, renderMore]

theorem renderMore_cons_append_inj {s s' : List Element} {text text' : List Char} :
    renderMore (e :: s) ++ text = renderMore (e' :: s') ++ text' ↔
      e.render ++ (renderMore s ++ text) = e'.render ++ (renderMore s' ++ text') := by
  simp only [renderMore, List.cons_append, List.cons.injEq, true_and, List.append_assoc]

end Element

theorem closes_space (text : List Char) : Closes (' ' :: text) := by
  intro c hc
  cases hc
  rfl

/-- A comma closes nothing. -/
theorem Closes.ne_renderMore {text : List Char} (h : Closes text) (e : Element) (s : Sequence)
    (text' : List Char) : text ≠ Element.renderMore (e :: s) ++ text' := by
  rintro rfl
  cases h ',' rfl

theorem Closes.separates_append {text : List Char} (h : Closes text) (s : Sequence) :
    Separates (Element.renderMore s ++ text) := by
  cases s with
  | nil => exact fun c hc => .inr (h c hc)
  | cons e rest =>
      intro c hc
      cases hc
      exact .inl rfl

namespace Sequence

open Element

/-- Scanned runs can be told from their texts, whatever closes them. -/
theorem Spells.unplaced_eq {offset offset' : Nat} {s s' : Sequence} {spelling spelling' : List Char}
    (h : Spells offset s spelling) (h' : Spells offset' s' spelling') {text text' : List Char}
    (closes : Closes text) (closes' : Closes text')
    (same : renderMore s ++ text = renderMore s' ++ text') :
    s.unplaced = s'.unplaced ∧ text = text' := by
  induction h generalizing offset' s' spelling' text text' with
  | nil _ =>
      cases s' with
      | nil => exact ⟨rfl, same⟩
      | cons e' s' => exact absurd same (closes.ne_renderMore e' s' text')
  | @leaf _ e s _ _ _ _ leaf _ _ ih =>
      cases h' with
      | nil => exact absurd same.symm (closes'.ne_renderMore e s text)
      | @leaf _ e' s' _ _ _ _ leaf' _ others' =>
          obtain ⟨hleaf, hrest⟩ := leaf.render_append_inj leaf' (closes.separates_append s)
            (closes'.separates_append s') (renderMore_cons_append_inj.mp same)
          obtain ⟨hs, htext⟩ := ih others' closes closes' hrest
          exact ⟨by rw [unplaced_cons, unplaced_cons, hleaf, hs], htext⟩
      | group _ _ _ _ _ _ _ =>
          have hrender := renderMore_cons_append_inj.mp same
          exact absurd hrender (leaf.render_append_ne _ _ _ _ _)
  | @group _ body s inner _ _ _ _ _ _ nonempty _ condenses _ _ ihbody ih =>
      cases h' with
      | nil => exact absurd same.symm (closes'.ne_renderMore _ s text)
      | leaf _ leaf' _ _ =>
          have hrender := renderMore_cons_append_inj.mp same
          exact absurd hrender.symm (leaf'.render_append_ne _ _ _ _ _)
      | @group _ body' s' inner' _ _ _ _ _ _ nonempty' _ condenses' inside' others' =>
          -- both runs inside begin behind a parenthesis and end before one
          have hinside : renderMore body ++ ' ' :: ')' :: (renderMore s ++ text) =
              renderMore body' ++ ' ' :: ')' :: (renderMore s' ++ text') := by
            have hgroups := renderMore_cons_append_inj.mp same
            rw [render_group_append, render_group_append] at hgroups
            rw [renderMore_of_ne_nil nonempty, renderMore_of_ne_nil nonempty']
            simpa using hgroups
          obtain ⟨hbody, hclosed⟩ := ihbody inside' (closes_space _) (closes_space _) hinside
          simp only [List.cons.injEq, true_and] at hclosed
          obtain ⟨hs, htext⟩ := ih others' closes closes' hclosed
          have hcondenses := condense_unplaced nonempty nonempty' hbody
          rw [condenses, condenses'] at hcondenses
          obtain rfl := Except.ok.inj hcondenses
          refine ⟨?_, htext⟩
          rw [unplaced_cons, unplaced_cons, unplaced_group, unplaced_group, hbody, hs]

theorem Spells.unplaced_eq_of_text {offset offset' : Nat} {s s' : Sequence}
    {spelling spelling' : List Char} (h : Spells offset s spelling)
    (h' : Spells offset' s' spelling') (nonempty : s ≠ []) (nonempty' : s' ≠ [])
    (same : s.text = s'.text) : s.unplaced = s'.unplaced := by
  have hrender : renderAll s = renderAll s' := String.ofList_injective same
  have hmore : renderMore s ++ [] = renderMore s' ++ [] := by
    rw [renderMore_of_ne_nil nonempty, renderMore_of_ne_nil nonempty', hrender]
  have closes : Closes [] := by
    intro c hc
    cases hc
  exact (h.unplaced_eq h' closes closes hmore).1

end Sequence

private theorem evaluate_of_scan {line : String} {s : Sequence} (h : scan line = .ok s) :
    evaluate line = s.condense.map (Evaluation.of s) := by
  rw [evaluate_eq, h, Step.ok_bind]
  cases s.condense <;> rfl

private theorem mapError_map {ε ε' α β : Type} (f : ε → ε') (g : α → β) (x : Except ε α) :
    (x.map g).mapError f = (x.mapError f).map g := by
  cases x <;> rfl

/-- Lines with the same tokenized text have runs that differ in offsets only. The runs condense to
the same tree or to faults that differ in offsets only, and the lines have the same report. -/
theorem scan_determined_by_text {a b : String} {s s' : Sequence} (scanned : scan a = .ok s)
    (scanned' : scan b = .ok s') (same : s.text = s'.text) :
    s.unplaced = s'.unplaced ∧
      s.condense.mapError Fault.unplaced = s'.condense.mapError Fault.unplaced ∧
      (evaluate a).mapError Fault.unplaced = (evaluate b).mapError Fault.unplaced := by
  obtain ⟨_, _, _, _, nonempty, spells⟩ := spells_of_scan scanned
  obtain ⟨_, _, _, _, nonempty', spells'⟩ := spells_of_scan scanned'
  have hunplaced := spells.unplaced_eq_of_text spells' nonempty nonempty' same
  have hcondense := Sequence.condense_unplaced nonempty nonempty' hunplaced
  refine ⟨hunplaced, hcondense, ?_⟩
  have hreport : Evaluation.of s = Evaluation.of s' := by
    funext t
    rw [Evaluation.of, Evaluation.of, same]
  rw [evaluate_of_scan scanned, evaluate_of_scan scanned', mapError_map, mapError_map, hcondense,
    hreport]

theorem scan_determined_by_text_relaid :
    ∃ s s', scan "-(1.+PI)*2e+1" = .ok s ∧ scan " - ( 1 + pi )* 2E1 " = .ok s' ∧ s ≠ s' ∧
      s.text = s'.text ∧ s.unplaced = s'.unplaced ∧
      s.condense.mapError Fault.unplaced = s'.condense.mapError Fault.unplaced ∧
      (evaluate "-(1.+PI)*2e+1").mapError Fault.unplaced =
        (evaluate " - ( 1 + pi )* 2E1 ").mapError Fault.unplaced := by
  have hscan : scan "-(1.+PI)*2e+1" = .ok
      [.token .minus 0,
        .group [.term (.numeral ⟨.plus, [1], [], none, by simp⟩) 2, .token .plus 4,
            .term (.constant .pi) 5]
          (.binary .add (.numeral ⟨.plus, [1], [], none, by simp⟩) (.constant .pi)) 1,
        .token .star 8,
        .term (.numeral ⟨.plus, [2], [], some ⟨.plus, [1], by simp⟩, by simp⟩) 9] := by
    decide +kernel
  have hscan' : scan " - ( 1 + pi )* 2E1 " = .ok
      [.token .minus 1,
        .group [.term (.numeral ⟨.plus, [1], [], none, by simp⟩) 5, .token .plus 7,
            .term (.constant .pi) 9]
          (.binary .add (.numeral ⟨.plus, [1], [], none, by simp⟩) (.constant .pi)) 3,
        .token .star 13,
        .term (.numeral ⟨.plus, [2], [], some ⟨.plus, [1], by simp⟩, by simp⟩) 15] := by
    decide +kernel
  refine ⟨_, _, hscan, hscan', by simp, rfl, ?_⟩
  exact scan_determined_by_text hscan hscan' rfl

end LineCalc

import LineCalc.Proofs.LetterCase

/-!
Other layouts of a line. Blanks may be inserted before any element, inside groups as well, before a
parenthesis that closes, and at the end of a line, and the letters of constants and of exponent
markers may change their case. The line is then read as the same run, with every offset moved to
where the character at it has gone, which is found by counting the characters that are not blank.
-/

namespace LineCalc

/-- Blanks, and the same blanks with others inserted. -/
def Widened (w w' : List Char) : Prop :=
  Blank w' ∧ w.Sublist w'

instance (w w' : List Char) : Decidable (Widened w w') :=
  inferInstanceAs (Decidable (Blank w' ∧ w.Sublist w'))

namespace Sequence

/-- Two texts of a run: as it is read at the offset with the rest behind it, and in another
layout. -/
inductive Varies : List Char → Nat → Sequence → List Char → List Char → Prop where
  | nil (rest : List Char) (offset : Nat) : Varies rest offset [] [] []
  | leaf {rest : List Char} {offset : Nat} {e : Element} {s : Sequence}
      {w w' spelling spelling' text text' : List Char} (widened : Widened w w')
      (leaf : e.LeafScans spelling (text ++ rest)) (recased : e.Recased spelling spelling')
      (stands : e.offset = offset + w.length)
      (others : Varies rest (offset + (w.length + spelling.length)) s text text') :
      Varies rest offset (e :: s) (w ++ (spelling ++ text)) (w' ++ (spelling' ++ text'))
  | group {rest : List Char} {offset : Nat} {body s : Sequence} {inner : Term}
      {w w' content content' v v' text text' : List Char} (widened : Widened w w')
      (widened' : Widened v v') (nonempty : body ≠ []) (bounded : List.length body ≤ groupLimit)
      (condenses : body.condense = .ok inner)
      (inside : Varies (v ++ ')' :: (text ++ rest)) (offset + w.length + 1) body content content')
      (others : Varies rest (offset + (w.length + 1 + content.length + (v.length + 1))) s text
        text') :
      Varies rest offset (.group body inner (offset + w.length) :: s)
        (w ++ '(' :: (content ++ (v ++ ')' :: text)))
        (w' ++ '(' :: (content' ++ (v' ++ ')' :: text')))

/-- The second line is the first, which is read as the run, in another layout. -/
def Relaid (s : Sequence) (line line' : String) : Prop :=
  ∃ text text' w w', line.toList = text ++ w ∧ line'.toList = text' ++ w' ∧ Widened w w' ∧
    Varies w 0 s text text'

end Sequence

/-- The number of characters that are not blank. -/
def visible (text : List Char) : Nat :=
  text.countP fun c => !isBlank c

/-- The offset of the character that is not blank and has so many of its kind before it. -/
def visibleAt : Nat → List Char → Nat
  | _, [] => 0
  | n, c :: rest =>
    if isBlank c then visibleAt n rest + 1
    else
      match n with
      | 0 => 0
      | n + 1 => visibleAt n rest + 1

/-- Where in the second line the character stands that stands in the first at the offset. -/
def place (line line' : String) (offset : Nat) : Nat :=
  visibleAt (visible (line.toList.take offset)) line'.toList

theorem visible_append (text text' : List Char) :
    visible (text ++ text') = visible text + visible text' :=
  List.countP_append

theorem visible_cons (c : Char) (text : List Char) :
    visible (c :: text) = visible text + if isBlank c then 0 else 1 := by
  rw [visible, List.countP_cons]
  cases isBlank c <;> rfl

theorem visible_of_blank {w : List Char} (h : Blank w) : visible w = 0 := by
  rw [visible, List.countP_eq_zero]
  intro c hc
  simp [h c hc]

theorem visible_of_recased {text text' : List Char} (h : Recased text text') :
    visible text' = visible text := by
  induction text generalizing text' with
  | nil => rw [List.map_eq_nil_iff.mp h]
  | cons c text ih =>
      obtain ⟨c', text', rfl, hc, htext⟩ := h.exists_cons
      simp only [visible, List.countP_cons, isBlank_eq hc] at ih ⊢
      rw [ih htext]

theorem visibleAt_visible {c : Char} (hc : isBlank c = false) (front rest : List Char) :
    visibleAt (visible front) (front ++ c :: rest) = front.length := by
  induction front with
  | nil => simp [visible, visibleAt, hc]
  | cons d front ih =>
      cases hd : isBlank d with
      | true =>
          have hvisible : visible (d :: front) = visible front := by simp [visible, hd]
          simp only [hvisible, List.cons_append, visibleAt, hd, if_true, ih, List.length_cons]
      | false =>
          have hvisible : visible (d :: front) = visible front + 1 := by simp [visible, hd]
          simp [hvisible, visibleAt, hd, ih]

namespace Widened

theorem blank {w w' : List Char} (h : Widened w w') : Blank w :=
  fun c hc => h.1 c (h.2.subset hc)

theorem visible_eq {w w' : List Char} (h : Widened w w') : visible w' = visible w := by
  rw [visible_of_blank h.1, visible_of_blank h.blank]

/-- Where blanks come first, no numeral goes on. -/
theorem follows {w w' tail tail' : List Char} (h : Widened w w') (follows : Follows tail tail') :
    Follows (w ++ tail) (w' ++ tail') := by
  cases w' with
  | nil =>
      rw [List.sublist_nil.mp h.2]
      exact follows
  | cons c w' => exact .inl (Lexing.ends_of_isBlank (h.1 c List.mem_cons_self) (w' ++ tail'))

/-- What stands behind the blanks is moved along with them. -/
theorem place_eq {w w' : List Char} (h : Widened w w') {line line' : String}
    {front front' tail tail' : List Char} {c : Char} (hline : line.toList = front ++ (w ++ tail))
    (hline' : line'.toList = front' ++ (w' ++ c :: tail')) (hc : isBlank c = false)
    (same : visible front = visible front') :
    place line line' (front.length + w.length) = front'.length + w'.length := by
  rw [← List.append_assoc] at hline hline'
  rw [← List.length_append, ← List.length_append, place, hline, List.take_left, hline',
    visible_append, ← h.visible_eq, same, ← visible_append]
  exact visibleAt_visible hc (front' ++ w') tail'

end Widened

namespace Sequence

theorem Varies.scans {rest : List Char} {offset : Nat} {s : Sequence} {text text' : List Char}
    (h : Varies rest offset s text text') : Scans rest offset s text := by
  induction h with
  | nil rest offset => exact .nil rest offset
  | leaf widened leaf _ stands _ ih => exact .leaf widened.blank leaf stands ih
  | group widened widened' nonempty bounded condenses _ _ ihbody ih =>
      exact .group widened.blank widened'.blank nonempty bounded condenses ihbody ih

theorem Scans.varies {rest : List Char} {offset : Nat} {s : Sequence} {text : List Char}
    (h : Scans rest offset s text) : Varies rest offset s text text := by
  induction h with
  | nil rest offset => exact .nil rest offset
  | leaf blank leaf stands _ ih =>
      exact .leaf ⟨blank, .refl _⟩ leaf ⟨.refl _, fun _ => rfl⟩ stands ih
  | group blank blank' nonempty bounded condenses _ _ ihbody ih =>
      exact .group ⟨blank, .refl _⟩ ⟨blank', .refl _⟩ nonempty bounded condenses ihbody ih

/-- Every line that is scanned has layouts, its own among them. -/
theorem relaid_self {line : String} {s : Sequence} (scanned : scan line = .ok s) :
    s.Relaid line line := by
  obtain ⟨text, w, hline, blank, _, hscans⟩ := scans_of_scan scanned
  exact ⟨text, text, w, w, hline, hline, ⟨blank, .refl w⟩, hscans.varies⟩

theorem Varies.visible_eq {rest : List Char} {offset : Nat} {s : Sequence}
    {text text' : List Char} (h : Varies rest offset s text text') :
    visible text' = visible text := by
  induction h with
  | nil _ _ => rfl
  | leaf widened _ recased _ _ ih =>
      simp only [visible_append, widened.visible_eq, visible_of_recased recased.1, ih]
  | group widened widened' _ _ _ _ _ ihbody ih =>
      simp only [visible_append, visible_cons, widened.visible_eq, widened'.visible_eq, ihbody, ih]

theorem Varies.follows {rest : List Char} {offset : Nat} {s : Sequence}
    {text text' : List Char} (h : Varies rest offset s text text') {rest' : List Char}
    (follows : Follows rest rest') : Follows (text ++ rest) (text' ++ rest') := by
  cases h with
  | nil => exact follows
  | leaf widened leaf recased _ _ =>
      simp only [List.append_assoc]
      refine widened.follows ?_
      obtain ⟨c, spelling, rfl, _⟩ := leaf.spells.head
      obtain ⟨c', spelling', rfl, hc, _⟩ := recased.1.exists_cons
      exact .inr (congrArg some hc)
  | group widened _ _ _ _ _ _ =>
      simp only [List.append_assoc]
      exact widened.follows (.inr rfl)

/-- In a line in another layout the run is read at the moved places. -/
theorem Varies.scans_place {line line' : String} {rest : List Char} {offset : Nat} {s : Sequence}
    {text text' : List Char} (h : Varies rest offset s text text')
    {front front' rest' : List Char} (hline : line.toList = front ++ (text ++ rest))
    (hline' : line'.toList = front' ++ (text' ++ rest')) (hoffset : front.length = offset)
    (same : visible front = visible front') (follows : Follows rest rest') :
    Scans rest' front'.length (s.move (place line line')) text' := by
  induction h generalizing front front' rest' with
  | nil _ _ => exact .nil rest' _
  | @leaf rest offset e s w w' spelling spelling' text text' widened leaf recased stands others
      ih =>
      subst hoffset
      have hleaf := leaf.recased recased (others.follows follows)
      obtain ⟨c, tail, hspelling, hc, _⟩ := hleaf.spells.head
      have hplace := widened.place_eq (by rw [hline, List.append_assoc])
        (by simpa [hspelling] using hline') hc same
      have hothers := @ih (front ++ (w ++ spelling)) (front' ++ (w' ++ spelling')) rest'
        (by simp [hline]) (by simp [hline']) (by simp)
        (by simp only [visible_append, same, widened.visible_eq, visible_of_recased recased.1])
        follows
      simp only [List.length_append] at hothers
      refine .leaf widened.1 ?_ ?_ hothers
      · exact ⟨hleaf.spells.move _, fun n hn => hleaf.ends n (by simpa using hn)⟩
      · rw [Element.offset_move, stands, hplace]
  | @group rest offset body s inner w w' content content' v v' text text' widened widened' nonempty
      bounded condenses inside others ihbody ih =>
      subst hoffset
      have hplace := widened.place_eq (by rw [hline, List.append_assoc])
        (by rw [hline', List.append_assoc]; rfl) (by decide : isBlank '(' = false) same
      have hbody := @ihbody (front ++ (w ++ ['('])) (front' ++ (w' ++ ['(']))
        (v' ++ ')' :: (text' ++ rest')) (by simp [hline]) (by simp [hline']) (by simp; omega)
        (by simp only [visible_append, same, widened.visible_eq])
        (.inl (Lexing.stops_of_closing widened'.1 (text' ++ rest')).ends)
      have hothers := @ih (front ++ (w ++ '(' :: (content ++ (v ++ [')']))))
        (front' ++ (w' ++ '(' :: (content' ++ (v' ++ [')'])))) rest' (by simp [hline])
        (by simp [hline']) (by simp; omega)
        (by simp only [visible_append, visible_cons, same, widened.visible_eq,
          widened'.visible_eq, inside.visible_eq])
        follows
      have hcondenses : (body.move (place line line')).condense = .ok inner := by
        rw [condense_move _ nonempty, condenses]
        rfl
      have hlength : (front' ++ (w' ++ ['('])).length = front'.length + w'.length + 1 := by
        simp [Nat.add_assoc]
      rw [hlength] at hbody
      rw [List.length_append, length_group] at hothers
      have hgroup := Scans.group widened.1 widened'.1 (by simpa using nonempty)
        (by simpa using bounded) hcondenses hbody hothers
      rwa [← hplace] at hgroup

end Sequence

/-- A line that is scanned is read as the same run in every layout, with each offset moved to the
place of its character. The run is shown by the same text, and it has the same tree, or the same
fault at the moved place. -/
theorem scan_relaid {line line' : String} {s : Sequence} (scanned : scan line = .ok s)
    (relaid : s.Relaid line line') :
    scan line' = .ok (s.move (place line line')) ∧
      (s.move (place line line')).text = s.text ∧
      parse line' = (parse line).mapError (Fault.move (place line line')) := by
  obtain ⟨_, _, _, _, nonempty, _⟩ := scans_of_scan scanned
  obtain ⟨text, text', w, w', hline, hline', widened, hvaries⟩ := relaid
  have hfollows : Follows w w' := .inl (Lexing.stops_of_blank widened.1).ends
  have hscans := hvaries.scans_place (show line.toList = [] ++ (text ++ w) from hline)
    (show line'.toList = [] ++ (text' ++ w') from hline') rfl rfl hfollows
  have hscan : scan line' = .ok (s.move (place line line')) :=
    scan_eq_ok_iff.mpr ⟨text', w', hline', widened.1, by simpa using nonempty, hscans⟩
  refine ⟨hscan, s.text_move _, ?_⟩
  rw [parse, hscan, parse.eq_def line, scanned]
  exact Sequence.condense_move _ nonempty

/-- Blanks at every kind of place, and letters of both kinds. -/
theorem scan_relaid_group :
    ∃ s : Sequence, scan "2E1*(pi-e)%" = .ok s ∧
      s.Relaid "2E1*(pi-e)%" " 2e1 *( PI -E\t) % " ∧
      parse "2E1*(pi-e)%" = .error (.missingOperand "%" 10) ∧
      parse " 2e1 *( PI -E\t) % " = .error (.missingOperand "%" 16) := by
  have hnumeral : (Element.term (.numeral ⟨.plus, [2], [], some ⟨.plus, [1], by simp⟩, by simp⟩)
      0).LeafScans ['2', 'E', '1'] ['*', '(', 'p', 'i', '-', 'e', ')', '%'] := by
    refine ⟨.numeral 0 (Numeral.spells_chars _) ?_, ?_⟩
    · intro c hc
      cases hc
      rfl
    · intro _ _ c hc
      cases hc
      decide
  have hbody : Sequence.Varies [')', '%'] 5
      [.term (.constant .pi) 5, .token .minus 7, .term (.constant .e) 8]
      ['p', 'i', '-', 'e'] [' ', 'P', 'I', ' ', '-', 'E'] :=
    .leaf (by decide : Widened [] [' ']) (.constant rfl 5 _)
      (by decide : Element.Recased _ ['p', 'i'] ['P', 'I']) rfl <|
    .leaf (by decide : Widened [] [' ']) (.token .minus 7 _)
      (by decide : Element.Recased _ ['-'] ['-']) rfl <|
    .leaf (by decide : Widened [] []) (.constant rfl 8 _)
      (by decide : Element.Recased _ ['e'] ['E']) rfl (.nil _ _)
  have hcondense : Sequence.condense
      [.term (.constant .pi) 5, .token .minus 7, .term (.constant .e) 8] =
        .ok (.binary .sub (.constant .pi) (.constant .e)) := by
    decide +kernel
  have hpercent : Sequence.Varies [] 10 [.token .percent 10] ['%'] [' ', '%'] :=
    .leaf (by decide : Widened [] [' ']) (.token .percent 10 _)
      (by decide : Element.Recased _ ['%'] ['%']) rfl (.nil _ _)
  have hgroup := @Sequence.Varies.group [] 4 _ _ _ [] [] _ _ [] ['\t'] ['%'] [' ', '%'] (by decide)
    (by decide) (by simp) (by decide) hcondense hbody hpercent
  have hvaries : Sequence.Varies [] 0 _ "2E1*(pi-e)%".toList " 2e1 *( PI -E\t) %".toList :=
    .leaf (by decide : Widened [] [' ']) hnumeral
      (by decide : Element.Recased _ ['2', 'E', '1'] ['2', 'e', '1']) rfl <|
    .leaf (by decide : Widened [] [' ']) (.token .star 3 _)
      (by decide : Element.Recased _ ['*'] ['*']) rfl hgroup
  have hscan := scan_eq_ok_iff.mpr
    ⟨_, [], (List.append_nil _).symm, blank_nil, by simp, hvaries.scans⟩
  have hrelaid : Sequence.Relaid _ "2E1*(pi-e)%" " 2e1 *( PI -E\t) % " :=
    ⟨_, _, [], [' '], rfl, rfl, by decide, hvaries⟩
  have hparse : parse "2E1*(pi-e)%" = .error (.missingOperand "%" 10) := by
    decide +kernel
  obtain ⟨_, _, hparse'⟩ := scan_relaid hscan hrelaid
  rw [hparse] at hparse'
  exact ⟨_, hscan, hrelaid, hparse, hparse'.trans (by decide)⟩

end LineCalc

import LineCalc.Proofs.FaultPlaces
import LineCalc.Proofs.Scanning

/-!
What a scanned run is made of. Each element stands in the input at the offset that it keeps, and the
next one begins behind all of it, the inside of a group included. No token has become an operator,
and no numeral has taken a sign. A group has a run inside that condensed to its tree, and the run is
made in the same way, so the same holds at every depth.
-/

namespace LineCalc

/-- The run between the parentheses of a group; no other element has anything inside. -/
def Element.body : Element → Sequence
  | .group body _ _ => body
  | .term .. | .token .. | .operator .. => []

/-- An element begins behind another and behind all that the other has inside. -/
structure Element.Precedes (e next : Element) : Prop where
  begins : e.offset < next.offset
  encloses : ∀ i ∈ e.body, i.offset < next.offset

mutual

/-- The element stands in the input where it says, as what it says. An operator does so nowhere. -/
inductive Element.WellFormed (input : List Char) : Element → Prop where
  | token {t : Token} {offset : Nat} (stands : t.chars <+: input.drop offset) :
      Element.WellFormed input (.token t offset)
  | constant {k : Constant} {name : List Char} {offset : Nat} (stands : name <+: input.drop offset)
      (letters : name.map Char.toLower = k.chars) :
      Element.WellFormed input (.term (.constant k) offset)
  | numeral {n : Numeral} {spelling : List Char} {offset : Nat}
      (stands : spelling <+: input.drop offset) (spells : n.Spells spelling)
      (unsigned : ∀ c ∈ spelling.head?, Sign.ofChar? c = none) (plus : n.sign = .plus) :
      Element.WellFormed input (.term (.numeral n) offset)
  | group {body : Sequence} {inner : Term} {offset : Nat} (stands : ['('] <+: input.drop offset)
      (condenses : body.condense = .ok inner) (bounded : List.length body ≤ groupLimit)
      (behind : ∀ e ∈ body, offset < e.offset) (run : Sequence.WellFormed input body) :
      Element.WellFormed input (.group body inner offset)

inductive Sequence.WellFormed (input : List Char) : Sequence → Prop where
  | intro {s : Sequence} (nonempty : s ≠ []) (increasing : List.Pairwise Element.Precedes s)
      (elements : ∀ e ∈ s, Element.WellFormed input e) : Sequence.WellFormed input s

end

namespace Element

variable {e : Element} {spelling : List Char}

theorem LeafSpells.body_eq (h : e.LeafSpells spelling) : e.body = [] := by
  cases h <;> rfl

theorem LeafSpells.wellFormed {input : List Char} (h : e.LeafSpells spelling)
    (stands : spelling <+: input.drop e.offset) : e.WellFormed input := by
  cases h with
  | token t _ => exact .token stands
  | constant _ letters => exact .constant stands letters
  | numeral _ spells unsigned =>
      exact .numeral stands spells unsigned (Numeral.sign_of_unsigned spells unsigned)

end Element

namespace Sequence

theorem Spells.offset_lt {offset : Nat} {s : Sequence} {text : List Char}
    (h : Spells offset s text) : ∀ e ∈ s, e.offset < offset + text.length := by
  induction h with
  | nil _ => simp
  | leaf _ leaf stands _ ih =>
      obtain ⟨c, rest, rfl, _⟩ := leaf.head
      simp only [List.length_append, List.length_cons] at ih ⊢
      refine List.forall_mem_cons.mpr ⟨by omega, ?_⟩
      intro e he
      have hrest := ih e he
      omega
  | group _ _ _ _ _ _ _ _ ih =>
      simp only [List.length_append, List.length_cons]
      refine List.forall_mem_cons.mpr ⟨?_, ?_⟩
      · change _ + _ < _
        omega
      · intro e he
        have hrest := ih e he
        omega

/-- A leaf ends before the next element begins. -/
theorem Spells.leaf_precedes {offset : Nat} {e : Element} {s : Sequence}
    {w spelling text : List Char} (leaf : e.LeafSpells spelling)
    (stands : e.offset = offset + w.length)
    (rest : Spells (offset + (w.length + spelling.length)) s text) : ∀ e' ∈ s, e.Precedes e' := by
  intro e' he'
  obtain ⟨c, tail, rfl, _⟩ := leaf.head
  have hle := rest.le_offset e' he'
  simp only [List.length_cons] at hle
  refine ⟨by omega, ?_⟩
  intro i hi
  rw [leaf.body_eq] at hi
  cases hi

/-- A group is closed before the next element begins. -/
theorem Spells.group_precedes {offset : Nat} {body s : Sequence} {inner : Term}
    {w inside v text : List Char} (spells : Spells (offset + w.length + 1) body inside)
    (rest : Spells (offset + (w.length + 1 + inside.length + (v.length + 1))) s text) :
    ∀ e ∈ s, (Element.group body inner (offset + w.length)).Precedes e := by
  intro e he
  have hle := rest.le_offset e he
  refine ⟨?_, ?_⟩
  · change offset + w.length < e.offset
    omega
  · intro i hi
    have hlt := spells.offset_lt i hi
    omega

/-- A run is well formed wherever in the input it is spelled. -/
theorem Spells.wellFormed {input : List Char} {offset : Nat} {s : Sequence} {text : List Char}
    (h : Spells offset s text) {tail : List Char} (place : input.drop offset = text ++ tail) :
    List.Pairwise Element.Precedes s ∧ ∀ e ∈ s, e.WellFormed input := by
  induction h generalizing tail with
  | nil _ => simp
  | @leaf offset e s w spelling text _ leaf stands rest ih =>
      rw [List.append_assoc, List.append_assoc] at place
      have hdrop := drop_of_append place
      have hrest := drop_of_append hdrop
      rw [Nat.add_assoc] at hrest
      rw [← stands] at hdrop
      obtain ⟨increasing, elements⟩ := ih hrest
      refine ⟨.cons (leaf_precedes leaf stands rest) increasing,
        List.forall_mem_cons.mpr ⟨leaf.wellFormed ?_, elements⟩⟩
      rw [hdrop]
      exact List.prefix_append _ _
  | @group offset body s inner w inside v text _ _ nonempty bounded condenses spells rest ihbody
      ih =>
      have hplace : input.drop offset = w ++ '(' :: (inside ++ (v ++ ')' :: (text ++ tail))) := by
        simpa using place
      obtain ⟨hdrop, hinside, hrest⟩ := drop_of_group hplace
      obtain ⟨increasing, elements⟩ := ih hrest
      obtain ⟨increasing', elements'⟩ := ihbody hinside
      refine ⟨.cons (group_precedes spells rest) increasing,
        List.forall_mem_cons.mpr ⟨.group ?_ condenses bounded ?_ ⟨nonempty, increasing', elements'⟩,
          elements⟩⟩
      · rw [hdrop]
        exact List.prefix_append ['('] _
      · intro e he
        have hle := spells.le_offset e he
        omega

end Sequence

namespace Reading

/-- Wherever a reading begins and with any limit, the run that it finds is well formed, and all of
it stands between where the reading began and where it ended. -/
theorem sequence_wellFormed {limit : Option Nat} {s s' : Session} {run : Sequence}
    (h : sequence limit s = .ok (some run) s') :
    run.WellFormed s.cursor.input ∧
      ∀ e ∈ run, s.cursor.offset ≤ e.offset ∧ e.offset < s'.cursor.offset := by
  have hanswers := sequence_answers limit s
  rw [h] at hanswers
  obtain ⟨n, hfound, hcursor⟩ := hanswers.exists_find
  obtain ⟨taken, rest, place, rfl, nonempty, _, scans, _⟩ :=
    Lexing.sequence_eq_some_iff.mp hfound
  obtain ⟨increasing, elements⟩ := scans.spells.wellFormed place
  refine ⟨⟨nonempty, increasing, elements⟩, ?_⟩
  intro e he
  rw [hcursor, Cursor.offset_advance]
  exact ⟨scans.spells.le_offset e he, scans.spells.offset_lt e he⟩

/-- A group inside a group, from within a line and under a mark, with the limit before the line is
read to its end. -/
theorem sequence_wellFormed_nested :
    ∃ run s', sequence (some 2) ⟨⟨"8 -(2*(PI)) e".toList, 1, [5]⟩, []⟩ = .ok (some run) s' ∧
      run.map Element.offset = [2, 3] ∧ Sequence.WellFormed "8 -(2*(PI)) e".toList run ∧
      ∀ e ∈ run, 1 ≤ e.offset ∧ e.offset < s'.cursor.offset := by
  have hrun : Lexing.sequence (some 2) 1 " -(2*(PI)) e".toList = .ok (some
      ([.token .minus 2,
        .group
          [.term (.numeral ⟨.plus, [2], [], none, by simp⟩) 4, .token .star 5,
            .group [.term (.constant .pi) 7] (.constant .pi) 6]
          (.binary .mul (.numeral ⟨.plus, [2], [], none, by simp⟩) (.grouping (.constant .pi))) 3],
        10)) := by
    decide +kernel
  have hanswers := sequence_answers (some 2) ⟨⟨"8 -(2*(PI)) e".toList, 1, [5]⟩, []⟩
  have hrest : (⟨"8 -(2*(PI)) e".toList, 1, [5]⟩ : Cursor).rest = " -(2*(PI)) e".toList := by
    decide
  rw [hrest, hrun] at hanswers
  obtain ⟨s', hsequence, _⟩ := hanswers.exists_of_found
  obtain ⟨wellFormed, within⟩ := sequence_wellFormed hsequence
  exact ⟨_, s', hsequence, rfl, wellFormed, within⟩

end Reading
end LineCalc

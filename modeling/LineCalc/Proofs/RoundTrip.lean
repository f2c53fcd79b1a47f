import LineCalc.Proofs.InOrder
import LineCalc.Proofs.Scanning

/-!
Reading back what was written. The pretty text of a tree puts no pair of parentheses that the line
did not have, so it spells a run with the same pieces at every level, and the same pieces become the
same tree.
-/

namespace LineCalc

namespace Sequence

/-- Blanks before a run belong to its first element. -/
theorem Spells.blank_append {offset : Nat} {s : Sequence} {v text : List Char} (blank : Blank v)
    (nonempty : s ≠ []) (h : Spells (offset + v.length) s text) : Spells offset s (v ++ text) := by
  have hblank {w : List Char} (hw : Blank w) : Blank (v ++ w) := by
    intro c hc
    cases List.mem_append.mp hc with
    | inl hc => exact blank c hc
    | inr hc => exact hw c hc
  generalize hstart : offset + v.length = start at h
  cases h with
  | nil => exact absurd rfl nonempty
  | @leaf _ e s w spelling text blank' leaf stands rest =>
      subst hstart
      rw [← List.append_assoc]
      refine .leaf (hblank blank') leaf ?_ ?_
      · rw [stands, List.length_append, Nat.add_assoc]
      · rw [List.length_append, Nat.add_assoc, ← Nat.add_assoc]
        exact rest
  | @group _ body s inner w inside v' text blank' blank'' hne bounded condenses spells rest =>
      subst hstart
      rw [Nat.add_assoc offset, ← List.length_append] at spells ⊢
      rw [← List.append_assoc]
      refine .group (hblank blank') blank'' hne bounded condenses spells ?_
      rw [List.length_append]
      simpa only [Nat.add_assoc] using rest

end Sequence

namespace Operator

theorem fill_unary (o : UnaryOp) (x : List Char) :
    fill (shape (.unary o)) [x] = o.token.chars ++ x := by
  cases o <;> simp [shape, fill, UnaryOp.token, Token.chars]

/-- The blanks that set off a binary operator are the same on either side. -/
theorem fill_binary (o : BinaryOp) (x y : List Char) :
    ∃ w, Blank w ∧ fill (shape (.binary o)) [x, y] = x ++ (w ++ (o.token.chars ++ (w ++ y))) := by
  cases o with
  | pow =>
      refine ⟨[], by simp [Blank], ?_⟩
      simp [shape, fill, BinaryOp.token, Token.chars]
  | mul | div | rem | add | sub | mod =>
      refine ⟨[' '], by simp [Blank, isBlank], ?_⟩
      simp [shape, fill, BinaryOp.token, Token.chars]

end Operator

namespace Term

/-- The pretty text of the tree, wherever it begins, spells one element that stands for the tree. -/
def Readable (t : Term) : Prop :=
  t.isLeaf = true ∧ ∀ offset, ∃ e, e.term? = some t ∧
    Sequence.Spells offset [e] (t.render .pretty)

theorem render_unary (o : UnaryOp) (t : Term) :
    (Term.unary o t).render .pretty = o.token.chars ++ t.render .pretty :=
  Operator.fill_unary o _

theorem render_binary (o : BinaryOp) (l r : Term) :
    ∃ w, Blank w ∧ (Term.binary o l r).render .pretty =
      l.render .pretty ++ (w ++ (o.token.chars ++ (w ++ r.render .pretty))) :=
  Operator.fill_binary o _ _

private theorem spells_of_readable {t : Term} (h : t.Readable) (offset : Nat) :
    ∃ s, Sequence.Spells offset s (t.render .pretty) ∧ Sequence.pieces false s = t.inOrder := by
  obtain ⟨hleaf, hspells⟩ := h
  obtain ⟨e, hterm, spells⟩ := hspells offset
  refine ⟨[e], spells, ?_⟩
  rw [inOrder_of_isLeaf hleaf, ← Element.piece_of_term? hterm false]
  rfl

/-- A tree with readable leaves is written as a run that reads as the tree. -/
theorem spells_render {t : Term} (leaves : ∀ l, .operand l ∈ t.inOrder → l.Readable)
    (offset : Nat) :
    ∃ s, Sequence.Spells offset s (t.render .pretty) ∧ Sequence.pieces false s = t.inOrder := by
  induction t generalizing offset with
  | numeral n => exact spells_of_readable (leaves _ List.mem_cons_self) offset
  | constant c => exact spells_of_readable (leaves _ List.mem_cons_self) offset
  | grouping t _ => exact spells_of_readable (leaves _ List.mem_cons_self) offset
  | unary o t ih =>
      obtain ⟨s, spells, hpieces⟩ := ih (fun l hl => leaves l (List.mem_cons_of_mem _ hl))
        (offset + (0 + o.token.chars.length))
      refine ⟨.token o.token offset :: s, ?_, ?_⟩
      · rw [render_unary]
        exact .leaf (w := []) (by simp [Blank]) (.token _ _) rfl spells
      · rw [inOrder, ← o.use_token, ← hpieces]
        rfl
  | binary o l r ihl ihr =>
      obtain ⟨w, blank, hrender⟩ := render_binary o l r
      obtain ⟨s, spells, hpieces⟩ := ihl
        (fun t ht => leaves t (List.mem_append_left _ ht)) offset
      obtain ⟨s', spells', hpieces'⟩ := ihr
        (fun t ht => leaves t (List.mem_append_right _ (List.mem_cons_of_mem _ ht)))
        (offset + (l.render .pretty).length + (w.length + o.token.chars.length) + w.length)
      have hformed := hpieces ▸ formed_inOrder l
      have hend := ((Sequence.formed_pieces_iff false s).mp hformed).2.1
      have hne : s' ≠ [] := by
        intro hnil
        have hformed' := hpieces' ▸ formed_inOrder r
        subst hnil
        cases hformed'
      refine ⟨s ++ .token o.token (offset + (l.render .pretty).length + w.length) :: s', ?_, ?_⟩
      · rw [hrender]
        exact spells.append (.leaf blank (.token _ _) rfl (spells'.blank_append blank hne))
      · rw [Sequence.pieces_append, hend, inOrder, hpieces, ← o.use_token, ← hpieces']
        rfl

end Term

namespace Sequence

/-- The tree of a run is written as a run of the same length that condenses to it again. -/
theorem exists_spells_render {s : Sequence} {t : Term} (condenses : s.condense = .ok t)
    (readable : ∀ e ∈ s, ∀ l, e.term? = some l → l.Readable) (offset : Nat) :
    ∃ s', Spells offset s' (t.render .pretty) ∧ List.length s' = List.length s ∧
      s'.condense = .ok t := by
  have horder : t.inOrder = pieces false s :=
    inOrder_of_condense condenses fun e he l hl => (readable e he l hl).1
  have hleaves (l : Term) (hl : .operand l ∈ t.inOrder) : l.Readable := by
    rw [horder] at hl
    obtain ⟨e, he, hterm⟩ := term?_of_operand_mem hl
    exact readable e he l hterm
  obtain ⟨s', spells, hpieces⟩ := Term.spells_render hleaves offset
  refine ⟨s', spells, ?_, ?_⟩
  · rw [← length_pieces false s', hpieces, horder, length_pieces]
  · rw [condense_eq_ok_iff, hpieces, horder, ← condense_eq_ok_iff, condenses]

/-- The terms of a run that is spelled can be written and read back. -/
theorem Spells.readable {offset : Nat} {s : Sequence} {text : List Char}
    (h : Spells offset s text) : ∀ e ∈ s, ∀ t, e.term? = some t → t.Readable := by
  induction h with
  | nil offset => simp
  | @leaf offset e s w spelling text blank leaf stands rest ih =>
      refine List.forall_mem_cons.mpr ⟨?_, ih⟩
      intro t ht
      cases leaf with
      | token _ _ => cases ht
      | @constant k _ p letters =>
          cases ht
          refine ⟨rfl, fun offset => ⟨.term (.constant k) offset, rfl, ?_⟩⟩
          exact spells_leaf (w := []) (by simp [Blank])
            (.constant offset (by cases k <;> decide)) rfl
      | @numeral n _ p spells unsigned =>
          cases ht
          refine ⟨rfl, fun offset => ⟨.term (.numeral n) offset, rfl, ?_⟩⟩
          have hsign := Numeral.sign_of_unsigned spells unsigned
          exact spells_leaf (w := []) (by simp [Blank])
            (.numeral offset n.spells_chars (Numeral.unsigned_chars hsign)) rfl
  | @group offset body s inner w inside v text blank blank' nonempty bounded condenses spells rest
      ihbody ihrest =>
      refine List.forall_mem_cons.mpr ⟨?_, ihrest⟩
      intro t ht
      cases ht
      refine ⟨rfl, ?_⟩
      intro offset
      obtain ⟨body', spells', hlength, condenses'⟩ :=
        exists_spells_render condenses ihbody (offset + 0 + 1 + 1)
      have hne : body' ≠ [] := by
        intro hnil
        rw [hnil] at hlength
        exact nonempty (List.length_eq_zero_iff.mp hlength.symm)
      refine ⟨.group body' inner offset, rfl, ?_⟩
      have hspace : Blank [' '] := by simp [Blank, isBlank]
      have hgroup := Spells.group (w := []) (by simp [Blank]) hspace hne (hlength ▸ bounded)
        condenses' (spells'.blank_append hspace hne) (.nil _)
      simpa [Term.render] using hgroup

end Sequence

private theorem parse_text {line : String} {t : Term} (h : parse line = .ok t) :
    parse (t.text .pretty) = .ok t := by
  obtain ⟨s, text, w, _, _, spells, condenses⟩ := (parse_eq_ok_iff line t).mp h
  obtain ⟨s', spells', _, condenses'⟩ :=
    Sequence.exists_spells_render condenses spells.readable 0
  refine (parse_eq_ok_iff _ t).mpr
    ⟨s', t.render .pretty, [], ?_, by simp [Blank], spells', condenses'⟩
  rw [Term.text, String.toList_ofList, List.append_nil]

theorem evaluate_of_parse {line : String} {t : Term} (h : parse line = .ok t) :
    ∃ s, evaluate line = .ok (Evaluation.of s t) := by
  obtain ⟨s, hscan, hcondense⟩ := scan_of_parse h
  refine ⟨s, ?_⟩
  rw [evaluate_eq, hscan]
  simp only [Step.ok_bind, hcondense]
  rfl

/-- A line that has a tree can be replaced by the pretty text of the tree. -/
theorem parse_pretty {line : String} {t : Term} (h : parse line = .ok t) :
    parse (t.text .pretty) = .ok t ∧
      ∃ report report', evaluate line = .ok report ∧ evaluate report.pretty = .ok report' ∧
        report'.pretty = report.pretty ∧ report'.value = report.value := by
  have hagain := parse_text h
  obtain ⟨s, hreport⟩ := evaluate_of_parse h
  obtain ⟨s', hreport'⟩ := evaluate_of_parse hagain
  exact ⟨hagain, .of s t, .of s' t, hreport, hreport', rfl, rfl⟩

theorem parse_pretty_signed_exponent :
    ∃ t, parse "( 2.50E1)^-ln e" = .ok t ∧ parse (t.text .pretty) = .ok t ∧
      ∃ report report', evaluate "( 2.50E1)^-ln e" = .ok report ∧
        evaluate report.pretty = .ok report' ∧ report'.pretty = report.pretty ∧
        report'.value = report.value := by
  have h : parse "( 2.50E1)^-ln e" = .ok
      (.binary .pow (.grouping (.numeral ⟨.plus, [2], [5, 0], some ⟨.plus, [1], by simp⟩, by simp⟩))
        (.unary .minus (.unary .ln (.constant .e)))) := by
    decide +kernel
  exact ⟨_, h, parse_pretty h⟩

end LineCalc

import LineCalc.Proofs.Spelling

/-!
What is read spells the run that it is read as. Each element takes the blanks before it and its own
spelling, and a group takes the spelling of its run and the blanks before the closing parenthesis.
A numeral has been read as far as it goes.
-/

namespace LineCalc

namespace Lexing

theorem spells_of_token {offset p n : Nat} {text : List Char} {t : Token}
    (h : token offset text = .ok (some ((t, p), n))) :
    ∃ rest, content text = t.chars ++ rest ∧ p = offset + blanks text ∧
      n = blanks text + t.chars.length := by
  simp only [token, Except.ok.injEq, Option.map_eq_some_iff, Prod.mk.injEq] at h
  obtain ⟨t', hfound, ⟨rfl, rfl⟩, rfl⟩ := h
  obtain ⟨rest, hrest⟩ := token?_eq_some_iff.mp hfound
  exact ⟨rest, hrest.symm, rfl, rfl⟩

theorem spells_of_constant {n : Nat} {text : List Char} {k : Constant}
    (h : constant text = .ok (some (k, n))) :
    ∃ name rest, content text = name ++ rest ∧ name.map Char.toLower = k.chars ∧
      n = blanks text + name.length := by
  simp only [constant, Except.ok.injEq, Option.map_eq_some_iff, Prod.mk.injEq] at h
  obtain ⟨k', hfound, rfl, rfl⟩ := h
  obtain ⟨name, ⟨rest, hrest⟩, hname⟩ := constant?_eq_some_iff.mp hfound
  exact ⟨name, rest, hrest.symm, hname, by rw [← hname, List.length_map]⟩

theorem spells_of_numeral {offset n : Nat} {text : List Char} {x : Numeral}
    (h : numeral offset text = .ok (some (x, n))) :
    ∃ spelling rest, content text = spelling ++ rest ∧ x.Spells spelling ∧
      Numeral.EndsBefore spelling rest ∧ n = blanks text + spelling.length := by
  cases hread : Numeral.read (content text) with
  | mk verdict rest =>
      simp only [numeral, numeralLength, hread] at h
      cases verdict with
      | absent => cases h
      | malformed flaw => cases h
      | found x' =>
          cases h
          obtain ⟨spelling, hspelling, hspells, hends⟩ := Numeral.spells_of_read hread
          refine ⟨spelling, rest, hspelling, hspells, hends, ?_⟩
          rw [hspelling, List.length_append, Nat.add_sub_cancel]

/-- A token would have been found where a sign stands. -/
private theorem unsigned_of_token? {spelling rest : List Char}
    (h : token? (spelling ++ rest) = none) : ∀ c ∈ spelling.head?, Sign.ofChar? c = none := by
  intro c hc
  cases spelling with
  | nil => cases hc
  | cons d spelling =>
      cases hc
      have hnot (t : Token) : ¬ t.chars <+: c :: spelling ++ rest := by
        intro hprefix
        rw [token?_eq_some_iff.mpr hprefix] at h
        cases h
      unfold Sign.ofChar?
      split
      next => exact absurd ⟨spelling ++ rest, rfl⟩ (hnot .plus)
      next => exact absurd ⟨spelling ++ rest, rfl⟩ (hnot .minus)
      next => rfl

theorem cases_of_elementBy {find : Nat → List Char → Find Group} {offset n : Nat}
    {text : List Char} {e : Element} (h : elementBy find offset text = .ok (some (e, n))) :
    (∃ g, find offset text = .ok (some (g, n)) ∧
      e = .group g.body g.inner (offset + blanks text)) ∨
    (∃ spelling rest, content text = spelling ++ rest ∧ e.LeafScans spelling rest ∧
      e.offset = offset + blanks text ∧ n = blanks text + spelling.length) := by
  obtain ⟨found, hgroup, h⟩ := Step.exists_of_bind h
  cases found with
  | some found =>
      cases h
      exact .inl ⟨_, hgroup, rfl⟩
  | none =>
      refine .inr ?_
      obtain ⟨found, htoken, h⟩ := Step.exists_of_bind h
      cases found with
      | some found =>
          cases h
          obtain ⟨rest, hcontent, hp, hn⟩ := spells_of_token htoken
          exact ⟨_, rest, hcontent, Element.LeafScans.token _ _ _, hp, hn⟩
      | none =>
          obtain ⟨found, hconstant, h⟩ := Step.exists_of_bind h
          cases found with
          | some found =>
              cases h
              obtain ⟨name, rest, hcontent, hname, hn⟩ := spells_of_constant hconstant
              exact ⟨name, rest, hcontent, Element.LeafScans.constant hname _ _, rfl, hn⟩
          | none =>
              obtain ⟨found, hnumeral, h⟩ := Step.exists_of_bind h
              cases found with
              | none => cases h
              | some found =>
                  cases h
                  obtain ⟨spelling, rest, hcontent, hspells, hends, hn⟩ :=
                    spells_of_numeral hnumeral
                  simp only [token, hcontent, Except.ok.injEq, Option.map_eq_none_iff] at htoken
                  exact ⟨spelling, rest, hcontent,
                    ⟨.numeral _ hspells (unsigned_of_token? htoken), fun _ _ => hends⟩, rfl, hn⟩

/-- Groups are found only where they are spelled. -/
def Sound (find : Nat → List Char → Find Group) : Prop :=
  ∀ {offset n : Nat} {text : List Char} {g : Group}, find offset text = .ok (some (g, n)) →
    ∃ inside v rest, content text = '(' :: (inside ++ (v ++ ')' :: rest)) ∧ Blank v ∧
      g.body ≠ [] ∧ List.length g.body ≤ groupLimit ∧ g.body.condense = .ok g.inner ∧
      Sequence.Scans (v ++ ')' :: rest) (offset + blanks text + 1) g.body inside ∧
      n = blanks text + 1 + inside.length + (v.length + 1)

/-- An element that is found, before a run that is read from what it took. -/
private theorem Sound.cons {find : Nat → List Char → Find Group} (sound : Sound find)
    {most offset m n : Nat} {text : List Char} {e : Element} {s : Sequence}
    (element : elementBy find offset text = .ok (some (e, m)))
    (others : ∃ taken rest, text.drop m = taken ++ rest ∧ n = taken.length ∧
      List.length s ≤ most ∧ Sequence.Scans rest (offset + m) s taken) :
    ∃ taken rest, text = taken ++ rest ∧ m + n = taken.length ∧
      List.length (e :: s) ≤ most + 1 ∧ Sequence.Scans rest offset (e :: s) taken := by
  obtain ⟨taken, rest, hdrop, hn, hmost, hscans⟩ := others
  obtain ⟨w, htext, hblank, hlength⟩ := exists_blank_append text
  cases cases_of_elementBy element with
  | inr hleaf =>
      obtain ⟨spelling, tail, hcontent, hleaf, hoffset, hm⟩ := hleaf
      rw [hcontent] at htext
      rw [hlength] at hoffset hm
      have htail : text.drop m = tail := by simp [htext, hm]
      rw [hm] at hscans
      rw [← htail, hdrop] at hleaf
      refine ⟨w ++ (spelling ++ taken), rest, ?_, ?_, Nat.succ_le_succ hmost,
        .leaf hblank hleaf hoffset hscans⟩
      · rw [List.append_assoc, List.append_assoc, ← hdrop, htail, htext]
      · simp only [List.length_append]
        omega
  | inl hgroup =>
      obtain ⟨g, hfound, rfl⟩ := hgroup
      obtain ⟨inside, v, tail, hcontent, hblank', hne, hbounded, hcondenses, hinside, hm⟩ :=
        sound hfound
      rw [hcontent] at htext
      rw [hlength] at hinside hm ⊢
      have htail : text.drop m = tail := by
        have hsplit : text = (w ++ '(' :: (inside ++ (v ++ [')']))) ++ tail := by simp [htext]
        rw [hsplit]
        apply List.drop_left'
        simp only [List.length_append, List.length_cons, List.length_nil]
        omega
      rw [hm] at hscans
      rw [← htail, hdrop] at hinside
      refine ⟨w ++ '(' :: (inside ++ (v ++ ')' :: taken)), rest, ?_, ?_, Nat.succ_le_succ hmost,
        .group hblank hblank' hne hbounded hcondenses hinside hscans⟩
      · rw [htext, ← htail, hdrop]
        simp
      · simp only [List.length_append, List.length_cons]
        omega

theorem Sound.elementsBy {find : Nat → List Char → Find Group} (sound : Sound find)
    {most offset n : Nat} {text : List Char} {s : Sequence}
    (h : elementsBy find most offset text = .ok (s, n)) :
    ∃ taken rest, text = taken ++ rest ∧ n = taken.length ∧ List.length s ≤ most ∧
      Sequence.Scans rest offset s taken := by
  induction most generalizing offset text s n with
  | zero =>
      cases h
      exact ⟨[], text, rfl, rfl, Nat.le_refl 0, .nil text offset⟩
  | succ most ih =>
      obtain ⟨found, helement, h⟩ := Step.exists_of_bind h
      cases found with
      | none =>
          cases h
          exact ⟨[], text, rfl, rfl, Nat.zero_le _, .nil text offset⟩
      | some found =>
          obtain ⟨others, hrest, h⟩ := Step.exists_of_bind h
          cases h
          exact sound.cons helement (ih hrest)

/-- Where fewer elements are found than were allowed, there is none behind them. -/
theorem elementBy_of_elementsBy {find : Nat → List Char → Find Group} {most offset n : Nat}
    {text : List Char} {s : Sequence} (h : elementsBy find most offset text = .ok (s, n))
    (fewer : List.length s < most) : elementBy find (offset + n) (text.drop n) = .ok none := by
  induction most generalizing offset text s n with
  | zero => cases fewer
  | succ most ih =>
      obtain ⟨found, helement, h⟩ := Step.exists_of_bind h
      cases found with
      | none =>
          cases h
          exact helement
      | some found =>
          obtain ⟨others, hrest, h⟩ := Step.exists_of_bind h
          cases h
          rw [← Nat.add_assoc, ← List.drop_drop]
          exact ih hrest (Nat.lt_of_succ_lt_succ fewer)

theorem Sound.sequenceBy {find : Nat → List Char → Find Group} (sound : Sound find)
    {limit : Option Nat} {offset n : Nat} {text : List Char} {s : Sequence}
    (h : sequenceBy find limit offset text = .ok (some (s, n))) :
    ∃ taken rest, text = taken ++ rest ∧ n = taken.length ∧ s ≠ [] ∧
      List.length s ≤ limit.getD (text.length + 1) ∧ Sequence.Scans rest offset s taken := by
  obtain ⟨found, helements, h⟩ := Step.exists_of_bind h
  obtain ⟨es, m⟩ := found
  cases es with
  | nil => cases h
  | cons e es =>
      cases h
      obtain ⟨taken, rest, htext, hn, hmost, hscans⟩ := sound.elementsBy helements
      exact ⟨taken, rest, htext, hn, by simp, hmost, hscans⟩

private theorem closes_of_groupBody {body : Sequence} {n : Nat} {text : List Char} {g : Group}
    (h : groupBody body text = .ok (some (g, n))) :
    ∃ v rest, text = v ++ ')' :: rest ∧ Blank v ∧ g.body = body ∧
      body.condense = .ok g.inner ∧ n = v.length + 1 := by
  obtain ⟨v, htext, hblank, hlength⟩ := exists_blank_append text
  simp only [groupBody] at h
  split at h
  next rest hcontent =>
    obtain ⟨inner, hcondense, h⟩ := Step.exists_of_bind h
    cases h
    exact ⟨v, rest, by rw [← hcontent, ← htext], hblank, rfl, hcondense, by rw [hlength]⟩
  next => cases h

theorem Sound.groupAround {find : Nat → List Char → Find Group} (sound : Sound find) :
    Sound (groupAround find) := by
  intro offset n text g h
  simp only [Lexing.groupAround] at h
  split at h
  next rest hcontent =>
    obtain ⟨found, hbody, h⟩ := Step.exists_of_bind h
    cases found with
    | none => cases h
    | some found =>
        obtain ⟨body, m⟩ := found
        obtain ⟨inside, tail, hrest, hm, hne, hbounded, hscans⟩ := sound.sequenceBy hbody
        have hdrop : rest.drop m = tail := by rw [hrest, hm, List.drop_left]
        obtain ⟨found, hclose, h⟩ := Step.exists_of_bind h
        rw [hdrop] at hclose
        cases found with
        | none => cases h
        | some found =>
            obtain ⟨g', k⟩ := found
            cases h
            obtain ⟨v, rest', htail, hblank, rfl, hcondenses, hk⟩ := closes_of_groupBody hclose
            refine ⟨inside, v, rest', by rw [hcontent, hrest, htail], hblank, hne,
              hbounded, hcondenses, htail ▸ hscans, ?_⟩
            rw [hm, hk]
  next => cases h

theorem sound_groupWithin (depth : Nat) : Sound (groupWithin depth) := by
  induction depth with
  | zero =>
      intro offset n text g h
      cases h
  | succ depth ih => exact ih.groupAround

theorem sound_group : Sound group :=
  fun h => sound_groupWithin _ h

end Lexing

/-- A run that is read spells the characters that it took. -/
theorem Reading.spells_of_sequence {limit : Option Nat} {session : Session} {s : Sequence}
    (h : (Reading.sequence limit).outcome session = .ok (some s)) :
    ∃ text rest, session.cursor.rest = text ++ rest ∧
      Sequence.Spells session.cursor.offset s text := by
  have hanswers := Reading.sequence_answers limit session
  simp only [Reading.outcome] at h
  generalize Reading.sequence limit session = result at h hanswers
  generalize hfound : Lexing.sequence limit session.cursor.offset session.cursor.rest = found
    at hanswers
  cases hanswers with
  | absent _ => cases h
  | failed _ => cases h
  | found _ =>
      cases h
      obtain ⟨text, rest, htext, _, _, _, hscans⟩ := Lexing.sound_group.sequenceBy hfound
      exact ⟨text, rest, htext, hscans.spells⟩

/-- A line that is scanned is read to its last blanks. -/
theorem scans_of_scan {input : String} {s : Sequence} (h : scan input = .ok s) :
    ∃ text w, input.toList = text ++ w ∧ Blank w ∧ s ≠ [] ∧ Sequence.Scans w 0 s text := by
  rw [scan_eq] at h
  cases hfound : Lexing.sequence none 0 input.toList with
  | error fault => rw [hfound] at h; cases h
  | ok found =>
      rw [hfound] at h
      cases found with
      | none => cases h
      | some found =>
          obtain ⟨s', n⟩ := found
          simp only at h
          split at h
          next hcontent =>
            cases h
            obtain ⟨text, rest, htext, hn, hne, _, hscans⟩ := Lexing.sound_group.sequenceBy hfound
            rw [htext, hn, List.drop_left, Lexing.content_eq_nil_iff] at hcontent
            exact ⟨text, rest, htext, hcontent, hne, hscans⟩
          next => cases h

theorem spells_of_scan {input : String} {s : Sequence} (h : scan input = .ok s) :
    ∃ text w, input.toList = text ++ w ∧ Blank w ∧ s ≠ [] ∧ Sequence.Spells 0 s text := by
  obtain ⟨text, w, hinput, hblank, hne, hscans⟩ := scans_of_scan h
  exact ⟨text, w, hinput, hblank, hne, hscans.spells⟩

end LineCalc

import LineCalc.Proofs.Failing
import LineCalc.Proofs.Places

/-!
Where a reading stops. A reading with a limit takes the first elements of what it would take
without one, and the next reading goes on with the others, so that a run may be read in parts. What
a line has left over begins where no element can be read, and the line up to there is a line of its
own with the same run.
-/

namespace LineCalc

namespace Lexing

/-- The first elements of a run are found with a limit, and the others behind them. -/
theorem sequence_take {offset n : Nat} {text : List Char} {run : Sequence} {most : Nat}
    (positive : 0 < most) (whole : sequence none offset text = .ok (some (run, n))) :
    ∃ m k, sequence (some most) offset text = .ok (some (run.take most, m)) ∧ n = m + k ∧
      (most < List.length run →
        sequence none (offset + m) (text.drop m) = .ok (some (run.drop most, k))) ∧
      (List.length run ≤ most → sequence none (offset + m) (text.drop m) = .ok none) := by
  obtain ⟨taken, rest, rfl, rfl, nonempty, _, hscans, hlast⟩ := sequence_eq_some_iff.mp whole
  have hnone := hlast (by simp)
  rw [← List.take_append_drop most run] at hscans
  obtain ⟨front, back, rfl, hfront, hback⟩ := hscans.split
  rw [List.length_append, ← Nat.add_assoc] at hnone
  have hall (h : List.length run ≤ most) : back = [] := by
    rw [List.drop_of_length_le h] at hback
    cases hback
    rfl
  refine ⟨front.length, back.length, ?_, List.length_append, ?_, ?_⟩
  · refine sequence_eq_some_iff.mpr ⟨front, back ++ rest, by simp, rfl, ?_, ?_, hfront, ?_⟩
    · cases run with
      | nil => exact absurd rfl nonempty
      | cons e run =>
          obtain ⟨most, rfl⟩ := Nat.exists_eq_add_of_lt positive
          simp
    · intro limit hlimit
      cases hlimit
      exact List.length_take_le most run
    · intro hfewer
      have hlength := hfewer most rfl
      rw [List.length_take] at hlength
      rw [hall (by omega)] at hnone ⊢
      exact hnone
  · intro hmore
    rw [List.append_assoc, List.drop_left]
    refine sequence_eq_some_iff.mpr ⟨back, rest, rfl, rfl, ?_, by simp, hback, fun _ => hnone⟩
    rw [ne_eq, List.drop_eq_nil_iff]
    omega
  · intro hless
    rw [hall hless] at hnone ⊢
    rw [List.append_nil, List.drop_left]
    exact sequence_of_none hnone none

end Lexing

namespace Reading

/-- A run may be read in parts: a limit cuts it, and the next reading finds the rest of it, or
nothing where the limit was not exceeded. -/
theorem sequence_resumes (s : Session) {most : Nat} (positive : 0 < most) {run : Sequence}
    {s₁ : Session} (whole : sequence none s = .ok (some run) s₁) :
    ∃ s₂, sequence (some most) s = .ok (some (run.take most)) s₂ ∧
      if most < List.length run then
        ∃ s₃, sequence none s₂ = .ok (some (run.drop most)) s₃ ∧ s₃.cursor = s₁.cursor
      else
        ∃ s₃, sequence none s₂ = .ok none s₃ ∧ s₃.cursor = s₂.cursor := by
  have hwhole := sequence_answers none s
  rw [whole] at hwhole
  obtain ⟨n, hn, hcursor₁⟩ := hwhole.exists_find
  obtain ⟨m, k, hpart, rfl, hmore, hless⟩ := Lexing.sequence_take positive hn
  have hanswers := sequence_answers (some most) s
  rw [hpart] at hanswers
  obtain ⟨s₂, hs₂, hcursor₂⟩ := hanswers.exists_of_found
  refine ⟨s₂, hs₂, ?_⟩
  have hnext := sequence_answers none s₂
  rw [hcursor₂, Cursor.rest_advance, Cursor.offset_advance] at hnext
  split
  next h =>
    rw [hmore h] at hnext
    obtain ⟨s₃, hs₃, hcursor₃⟩ := hnext.exists_of_found
    refine ⟨s₃, hs₃, ?_⟩
    rw [hcursor₃, hcursor₁, Cursor.advance_advance]
  next h =>
    rw [hless (Nat.le_of_not_lt h)] at hnext
    obtain ⟨s₃, hs₃, hcursor₃⟩ := hnext.exists_of_absent
    exact ⟨s₃, hs₃, hcursor₃.trans hcursor₂.symm⟩

/-- From within a line and under a mark, with the limit behind a group. -/
theorem sequence_resumes_within :
    ∃ run s₁ s₂ s₃, sequence none ⟨⟨"8 2*(pi -3.)%".toList, 1, [5]⟩, []⟩ = .ok (some run) s₁ ∧
      List.length run = 4 ∧
      sequence (some 3) ⟨⟨"8 2*(pi -3.)%".toList, 1, [5]⟩, []⟩ = .ok (some (run.take 3)) s₂ ∧
      sequence none s₂ = .ok (some (run.drop 3)) s₃ ∧ s₃.cursor = s₁.cursor := by
  have hrun : Lexing.sequence none 1 " 2*(pi -3.)%".toList = .ok (some
      ([.term (.numeral ⟨.plus, [2], [], none, by simp⟩) 2, .token .star 3,
        .group
          [.term (.constant .pi) 5, .token .minus 8,
            .term (.numeral ⟨.plus, [3], [], none, by simp⟩) 9]
          (.binary .sub (.constant .pi) (.numeral ⟨.plus, [3], [], none, by simp⟩)) 4,
        .token .percent 12], 12)) := by
    decide +kernel
  have hanswers := sequence_answers none ⟨⟨"8 2*(pi -3.)%".toList, 1, [5]⟩, []⟩
  have hrest : (⟨"8 2*(pi -3.)%".toList, 1, [5]⟩ : Cursor).rest = " 2*(pi -3.)%".toList := by
    decide
  rw [hrest, hrun] at hanswers
  obtain ⟨s₁, hwhole, _⟩ := hanswers.exists_of_found
  obtain ⟨s₂, hpart, hnext⟩ := sequence_resumes _ (by decide : 0 < 3) hwhole
  rw [if_pos (by simp)] at hnext
  obtain ⟨s₃, hothers, hcursor⟩ := hnext
  exact ⟨_, s₁, s₂, s₃, hwhole, rfl, hpart, hothers, hcursor⟩

end Reading

/-- The failure of a reading never lies in what is left over. -/
theorem Lexing.Fails.ne_trailingInput {offset : Nat} {text : List Char} {fault : Fault}
    (h : Fails offset text fault) (place : Nat) (left : String) :
    fault ≠ .trailingInput place left := by
  induction h with
  | later _ _ ih => exact ih
  | @numeral offset text _ _ _ fails =>
      rw [Lexing.numeral] at fails
      cases hread : (Numeral.read (content text)).1 with
      | absent => rw [hread] at fails; cases fails
      | found n => rw [hread] at fails; cases fails
      | malformed flaw =>
          rw [hread] at fails
          cases fails
          simp
  | run nonempty spells fails _ =>
      have houtcome := Sequence.outcome_of_unresolved nonempty spells.unresolved
      rw [fails] at houtcome
      cases houtcome <;> simp

/-- What is left over stands behind the run, where no element does. -/
private theorem leftover_of_scan {line rest : String} {offset : Nat}
    (h : scan line = .error (.trailingInput offset rest)) :
    ∃ (s : Sequence) (taken tail : List Char), line.toList = taken ++ tail ∧
      Lexing.content tail ≠ [] ∧ rest = String.ofList (Lexing.content tail) ∧
      offset = taken.length + Lexing.blanks tail ∧
      Lexing.sequence none 0 line.toList = .ok (some (s, taken.length)) ∧ s ≠ [] ∧
      Sequence.Scans tail 0 s taken ∧
      Lexing.elementBy Lexing.group taken.length tail = .ok none := by
  rw [scan_eq] at h
  cases hfound : Lexing.sequence none 0 line.toList with
  | error fault =>
      rw [hfound] at h
      cases h
      exact absurd rfl ((Lexing.fails_of_sequence hfound).ne_trailingInput offset rest)
  | ok found =>
      rw [hfound] at h
      cases found with
      | none => cases h
      | some found =>
          obtain ⟨s, n⟩ := found
          simp only at h
          split at h
          next => cases h
          next hcontent =>
            cases h
            obtain ⟨taken, tail, hline, rfl, nonempty, _, hscans, hlast⟩ :=
              Lexing.sequence_eq_some_iff.mp hfound
            have hnone := hlast (by simp)
            rw [Nat.zero_add] at hnone
            rw [hline, List.drop_left] at hcontent ⊢
            exact ⟨s, taken, tail, rfl, hcontent, rfl, rfl, rfl, nonempty, hscans, hnone⟩

/-- A line with something left over is cut where that begins. The line up to there has the run that
was read, what is left over begins with a character that is not blank, and no element is read
there. -/
theorem scan_trailingInput {line rest : String} {offset : Nat}
    (h : scan line = .error (.trailingInput offset rest)) :
    ∃ (front : String) (s : Sequence), line = front ++ rest ∧ front.length = offset ∧
      (∃ c ∈ rest.toList.head?, isBlank c = false) ∧
      (Reading.sequence none).outcome (.start line) = .ok (some s) ∧ scan front = .ok s ∧
      ∀ (limit : Option Nat) (session : Session), session.cursor.input = line.toList →
        session.cursor.offset = offset →
        (Reading.sequence limit).outcome session = .ok none := by
  obtain ⟨s, taken, tail, hline, hcontent, rfl, rfl, hfound, nonempty, hscans, hnone⟩ :=
    leftover_of_scan h
  obtain ⟨w, htail, hblank, hblanks⟩ := Lexing.exists_blank_append tail
  refine ⟨String.ofList (taken ++ w), s, ?_, ?_, ?_, ?_, ?_, ?_⟩
  · rw [← String.ofList_append, List.append_assoc, ← htail, ← hline, String.ofList_toList]
  · rw [String.length_ofList, List.length_append, hblanks]
  · obtain ⟨c, rest, hrest⟩ := List.exists_cons_of_ne_nil hcontent
    exact ⟨c, by rw [String.toList_ofList, hrest]; rfl, Lexing.isBlank_of_content hrest⟩
  · have houtcome := Reading.outcome_sequence none (.start line)
    have hstart : (Session.start line).cursor.rest = line.toList := rfl
    rw [houtcome, hstart]
    exact congrArg _ hfound
  · refine scan_eq_ok_iff.mpr ⟨taken, w, String.toList_ofList, hblank, nonempty, ?_⟩
    exact hscans.before (Lexing.stops_of_blank hblank).ends
  · intro limit session hinput hoffset
    have hrest : session.cursor.rest = Lexing.content tail := by
      rw [Cursor.rest, hinput, hoffset, hline, ← List.drop_drop, List.drop_left]
      rfl
    have hsequence := Lexing.sequence_of_none (Lexing.elementBy_content hnone) limit
    rw [Reading.outcome_sequence, hoffset, hrest, hsequence]
    rfl

/-- A group that is not closed is read to the end of the line and then given up. -/
theorem scan_trailingInput_unclosed :
    scan "-3.5e1\t (2+(pi)" = .error (.trailingInput 8 "(2+(pi)") ∧
      ∃ front s, "-3.5e1\t (2+(pi)" = front ++ "(2+(pi)" ∧ front.length = 8 ∧
        (Reading.sequence none).outcome (.start "-3.5e1\t (2+(pi)") = .ok (some s) ∧
        scan front = .ok s ∧
        (Reading.sequence (some 2)).outcome ⟨⟨"-3.5e1\t (2+(pi)".toList, 8, []⟩, []⟩ =
          .ok none := by
  have h : scan "-3.5e1\t (2+(pi)" = .error (.trailingInput 8 "(2+(pi)") := by
    decide +kernel
  obtain ⟨front, s, hline, hlength, _, hsequence, hscan, hnone⟩ := scan_trailingInput h
  exact ⟨h, front, s, hline, hlength, hsequence, hscan, hnone _ _ rfl rfl⟩

end LineCalc

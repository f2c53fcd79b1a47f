import LineCalc.Proofs.Diagnosis
import LineCalc.Proofs.Scanned

/-!
Where a reading fails. Two things in a text can make the reading of elements fail: a numeral that
never becomes complete, where nothing else was found, and a run between parentheses that does not
condense. Whatever is read before it, groups that are given up included, the failure lies at an
offset of the text that was to be read.
-/

namespace LineCalc

namespace Lexing

/-- The text, beginning at the offset, fails to be read with the fault. -/
inductive Fails : Nat → List Char → Fault → Prop where
  | numeral {offset : Nat} {text : List Char} {fault : Fault}
      (noToken : token? (content text) = none) (noConstant : constant? (content text) = none)
      (fails : Lexing.numeral offset text = .error fault) : Fails offset text fault
  | run {offset : Nat} {s : Sequence} {taken : List Char} {fault : Fault} (nonempty : s ≠ [])
      (spells : Sequence.Spells offset s taken) (fails : s.condense = .error fault)
      (rest : List Char) : Fails offset (taken ++ rest) fault
  | later {offset : Nat} {text : List Char} {fault : Fault} (n : Nat)
      (fails : Fails (offset + n) (text.drop n) fault) : Fails offset text fault

/-- Only a group and a numeral fail, the numeral where nothing else was found. -/
theorem cases_of_elementBy_error {find : Nat → List Char → Find Group} {offset : Nat}
    {text : List Char} {fault : Fault} (h : elementBy find offset text = .error fault) :
    find offset text = .error fault ∨
      (token? (content text) = none ∧ constant? (content text) = none ∧
        numeral offset text = .error fault) := by
  rcases Step.cases_of_bind h with hgroup | ⟨found, _, h⟩
  · exact .inl hgroup
  cases found with
  | some found => cases h
  | none =>
      rcases Step.cases_of_bind h with htoken | ⟨found, htoken, h⟩
      · cases htoken
      cases found with
      | some found => cases h
      | none =>
          rcases Step.cases_of_bind h with hconstant | ⟨found, hconstant, h⟩
          · cases hconstant
          cases found with
          | some found => cases h
          | none =>
              simp only [token, constant, Except.ok.injEq, Option.map_eq_none_iff]
                at htoken hconstant
              rcases Step.cases_of_bind h with hnumeral | ⟨found, _, h⟩
              · exact .inr ⟨htoken, hconstant, hnumeral⟩
              · cases found <;> cases h

section
variable {find : Nat → List Char → Find Group}
  (failing : ∀ {offset text fault}, find offset text = .error fault → Fails offset text fault)
include failing

theorem fails_of_elementsBy {most offset : Nat} {text : List Char} {fault : Fault}
    (h : elementsBy find most offset text = .error fault) : Fails offset text fault := by
  induction most generalizing offset text with
  | zero => cases h
  | succ most ih =>
      rcases Step.cases_of_bind h with helement | ⟨found, _, h⟩
      · rcases cases_of_elementBy_error helement with hgroup | ⟨noToken, noConstant, hnumeral⟩
        · exact failing hgroup
        · exact .numeral noToken noConstant hnumeral
      · cases found with
        | none => cases h
        | some found =>
            rcases Step.cases_of_bind h with hrest | ⟨others, _, h⟩
            · exact .later found.2 (ih hrest)
            · cases h

theorem fails_of_sequenceBy {limit : Option Nat} {offset : Nat} {text : List Char} {fault : Fault}
    (h : sequenceBy find limit offset text = .error fault) : Fails offset text fault := by
  rcases Step.cases_of_bind h with helements | ⟨found, _, h⟩
  · exact fails_of_elementsBy failing helements
  · obtain ⟨es, n⟩ := found
    cases es <;> cases h

/-- The groups inside the parentheses have to be sound, so that a run that fails to condense is a
run that is spelled there. -/
theorem fails_of_groupAround (sound : Sound find) {offset : Nat} {text : List Char} {fault : Fault}
    (h : groupAround find offset text = .error fault) : Fails offset text fault := by
  simp only [groupAround] at h
  split at h
  next rest hcontent =>
    -- the run stands behind the blanks and the parenthesis
    refine .later (blanks text + 1) ?_
    have hinside : text.drop (blanks text + 1) = rest := by
      rw [← List.drop_drop]
      exact congrArg (List.drop 1) hcontent
    rw [hinside]
    rcases Step.cases_of_bind h with hbody | ⟨found, hbody, h⟩
    · exact fails_of_sequenceBy failing hbody
    · cases found with
      | none => cases h
      | some found =>
          obtain ⟨body, n⟩ := found
          obtain ⟨taken, tail, rfl, _, hne, _, hscans⟩ := sound.sequenceBy hbody
          rcases Step.cases_of_bind h with hclose | ⟨found, _, h⟩
          · simp only [groupBody] at hclose
            split at hclose
            next =>
              rcases Step.cases_of_bind hclose with hfails | ⟨inner, _, h⟩
              · exact .run hne hscans.spells hfails tail
              · cases h
            next => cases hclose
          · cases found <;> cases h
  next => cases h

end

theorem fails_of_groupWithin {depth offset : Nat} {text : List Char} {fault : Fault}
    (h : groupWithin depth offset text = .error fault) : Fails offset text fault := by
  induction depth generalizing offset text fault with
  | zero => cases h
  | succ depth ih => exact fails_of_groupAround ih (sound_groupWithin depth) h

theorem fails_of_sequence {limit : Option Nat} {offset : Nat} {text : List Char} {fault : Fault}
    (h : sequence limit offset text = .error fault) : Fails offset text fault :=
  fails_of_sequenceBy (fun h => fails_of_groupWithin h) h

end Lexing
end LineCalc

import LineCalc.Proofs.Places

/-!
Letters in another case. Only the names of constants and the markers of exponents are read in both
cases, and where letters change their case in one of them it spells what it spelled before. It also
ends before the same characters, and before blanks that have been put there.
-/

namespace LineCalc

/-- The texts agree but for the case of letters. -/
def Recased (text text' : List Char) : Prop :=
  text'.map Char.toLower = text.map Char.toLower

instance (text text' : List Char) : Decidable (Recased text text') :=
  inferInstanceAs (Decidable (_ = _))

/-- The same letter of ASCII, a capital in one place and small in the other. -/
def OtherCase (c d : Char) : Prop :=
  c.isUpper = true ∧ d.toNat = c.toNat + 32 ∨ d.isUpper = true ∧ c.toNat = d.toNat + 32

theorem isUpper_iff_toNat {c : Char} : c.isUpper = true ↔ 65 ≤ c.toNat ∧ c.toNat ≤ 90 := by
  have hrange : c.isUpper = true ↔ 'A'.val ≤ c.val ∧ c.val ≤ 'Z'.val := decide_eq_true_iff
  rw [hrange, UInt32.le_iff_toNat_le, UInt32.le_iff_toNat_le, Char.toNat_val]
  rfl

theorem isLower_of_toNat {c : Char} (h : 97 ≤ c.toNat ∧ c.toNat ≤ 122) : c.isLower = true := by
  have hrange : c.isLower = (decide ('a'.val ≤ c.val) && decide (c.val ≤ 'z'.val)) := rfl
  rw [hrange, Bool.and_eq_true, decide_eq_true_iff, decide_eq_true_iff, UInt32.le_iff_toNat_le,
    UInt32.le_iff_toNat_le]
  exact h

theorem toNat_toLower (c : Char) :
    c.toLower.toNat = if 65 ≤ c.toNat ∧ c.toNat ≤ 90 then c.toNat + 32 else c.toNat := by
  by_cases hupper : c.isUpper = true
  · have hrange := isUpper_iff_toNat.mp hupper
    have hsum : c.val.toNat + 32 < 2 ^ 32 := by
      rw [Char.toNat_val]
      omega
    have hlower : c.toLower.toNat = (c.val + 32).toNat :=
      congrArg Char.toNat (dif_pos (of_decide_eq_true hupper))
    rw [if_pos hrange, hlower, UInt32.toNat_add]
    exact Nat.mod_eq_of_lt hsum
  · have hlower : c.toLower = c := dif_neg (mt decide_eq_true hupper)
    rw [if_neg (mt isUpper_iff_toNat.mpr hupper), hlower]

theorem toLower_eq_iff {c d : Char} : c.toLower = d.toLower ↔ c = d ∨ OtherCase c d := by
  rw [OtherCase, isUpper_iff_toNat, isUpper_iff_toNat, ← Char.toNat_inj, ← Char.toNat_inj,
    toNat_toLower, toNat_toLower]
  -- whether either is a capital
  split <;> split
  all_goals omega

theorem OtherCase.isAlpha {c d : Char} (h : OtherCase c d) : d.isAlpha = true := by
  have halpha : d.isAlpha = (d.isUpper || d.isLower) := rfl
  rw [halpha, Bool.or_eq_true]
  cases h with
  | inl h =>
      have hrange := isUpper_iff_toNat.mp h.1
      exact .inr (isLower_of_toNat (by omega))
  | inr h => exact .inl h.1

theorem eq_of_toLower_eq {c c' : Char} (h : c'.toLower = c.toLower) (plain : c.isAlpha = false) :
    c' = c := by
  cases toLower_eq_iff.mp h with
  | inl same => exact same
  | inr other =>
      rw [other.isAlpha] at plain
      cases plain

theorem Exponent.isMarker_iff (c : Char) : isMarker c = true ↔ c.toLower = 'e' := by
  have hlower : c.toLower = 'e' ↔ c = 'e' ∨ OtherCase c 'e' := @toLower_eq_iff c 'e'
  have hother : OtherCase c 'e' ↔ c = 'E' := by
    constructor
    · intro h
      rcases h with ⟨_, hcode⟩ | ⟨hupper, _⟩
      · exact Char.toNat_inj.mp (Nat.add_right_cancel hcode.symm)
      · cases hupper
    · rintro rfl
      exact .inl ⟨rfl, rfl⟩
  rw [isMarker, Bool.or_eq_true, beq_iff_eq, beq_iff_eq, hlower, hother]

theorem Exponent.isMarker_eq {c c' : Char} (h : c'.toLower = c.toLower) :
    isMarker c' = isMarker c := by
  rw [Bool.eq_iff_iff, isMarker_iff, isMarker_iff, h]

theorem isAlpha_of_isBlank {c : Char} (h : isBlank c = true) : c.isAlpha = false := by
  simp only [isBlank, Bool.or_eq_true, beq_iff_eq, or_assoc] at h
  rcases h with rfl | rfl | rfl | rfl <;> decide

theorem isBlank_eq {c c' : Char} (h : c'.toLower = c.toLower) : isBlank c' = isBlank c := by
  rw [Bool.eq_iff_iff]
  constructor
  · intro hblank
    rwa [eq_of_toLower_eq h.symm (isAlpha_of_isBlank hblank)]
  · intro hblank
    rwa [eq_of_toLower_eq h (isAlpha_of_isBlank hblank)]

theorem Digit.isAlpha_of_ofChar? {c : Char} {d : Digit} (h : ofChar? c = some d) :
    c.isAlpha = false := by
  rw [← char_of_ofChar? h]
  clear h
  revert d
  decide

theorem Sign.isAlpha_of_ofChar? {c : Char} {sign : Sign} (h : ofChar? c = some sign) :
    c.isAlpha = false := by
  unfold ofChar? at h
  split at h
  next => rfl
  next => rfl
  next => cases h

namespace Recased

theorem refl (text : List Char) : Recased text text := rfl

theorem eq {text text' : List Char} (h : Recased text text')
    (plain : ∀ c ∈ text, c.isAlpha = false) : text' = text := by
  induction text generalizing text' with
  | nil => exact List.map_eq_nil_iff.mp h
  | cons c text ih =>
      obtain ⟨c', text', rfl, hc, htext⟩ := List.map_eq_cons_iff.mp h
      obtain ⟨hplain, plain⟩ := List.forall_mem_cons.mp plain
      rw [eq_of_toLower_eq hc hplain, ih htext plain]

theorem exists_append {front back text' : List Char} (h : Recased (front ++ back) text') :
    ∃ front' back', text' = front' ++ back' ∧ Recased front front' ∧ Recased back back' := by
  rw [Recased, List.map_append] at h
  exact List.map_eq_append_iff.mp h

theorem exists_cons {c : Char} {text text' : List Char} (h : Recased (c :: text) text') :
    ∃ c' rest, text' = c' :: rest ∧ c'.toLower = c.toLower ∧ Recased text rest :=
  List.map_eq_cons_iff.mp h

theorem head? {text text' : List Char} (h : Recased text text') :
    text'.head?.map Char.toLower = text.head?.map Char.toLower := by
  rw [← List.head?_map, h, List.head?_map]

theorem any_isMarker {text text' : List Char} (h : Recased text text') :
    text'.any Exponent.isMarker = text.any Exponent.isMarker := by
  induction text generalizing text' with
  | nil => rw [List.map_eq_nil_iff.mp h]
  | cons c text ih =>
      obtain ⟨c', text', rfl, hc, htext⟩ := h.exists_cons
      rw [List.any_cons, List.any_cons, Exponent.isMarker_eq hc, ih htext]

theorem mem {text text' : List Char} (h : Recased text text') {c : Char} (plain : c.isAlpha = false)
    (hc : c ∈ text) : c ∈ text' := by
  have hmem : c.toLower ∈ text'.map Char.toLower := by
    rw [h]
    exact List.mem_map_of_mem hc
  obtain ⟨c', hc', hsame⟩ := List.mem_map.mp hmem
  rwa [← eq_of_toLower_eq hsame plain]

end Recased

private theorem isAlpha_digits (digits : List Digit) :
    ∀ c ∈ digits.map Digit.char, c.isAlpha = false := by
  intro c hc
  obtain ⟨d, _, rfl⟩ := List.mem_map.mp hc
  exact Digit.isAlpha_of_ofChar? d.ofChar?_char

private theorem isAlpha_sign {numeralSign : Sign} {sign : List Char}
    (h : numeralSign.Spells sign) : ∀ c ∈ sign, c.isAlpha = false := by
  cases h with
  | unwritten => simp
  | plus => exact List.forall_mem_singleton.mpr rfl
  | minus => exact List.forall_mem_singleton.mpr rfl

private theorem isAlpha_fraction {digits : List Digit} {fraction : List Char}
    (h : Numeral.FractionSpells digits fraction) : ∀ c ∈ fraction, c.isAlpha = false := by
  cases h with
  | unwritten => simp
  | pointed digits => exact List.forall_mem_cons.mpr ⟨rfl, isAlpha_digits digits⟩

theorem Exponent.Spells.recased {x : Option Exponent} {spelling spelling' : List Char}
    (h : Exponent.Spells x spelling) (recased : Recased spelling spelling') :
    Exponent.Spells x spelling' := by
  cases h with
  | none =>
      rw [List.map_eq_nil_iff.mp recased]
      exact .none
  | marked x isMarker signSpells =>
      obtain ⟨marker', spelling', rfl, hmarker, hrest⟩ := recased.exists_cons
      have hplain := List.forall_mem_append.mpr
        ⟨isAlpha_sign signSpells, isAlpha_digits x.digits⟩
      rw [hrest.eq hplain]
      exact .marked x ((Exponent.isMarker_eq hmarker).trans isMarker) signSpells

/-- Of a numeral's spelling only the marker of the exponent is a letter. -/
theorem Numeral.Spells.recased {n : Numeral} {spelling spelling' : List Char}
    (h : n.Spells spelling) (recased : Recased spelling spelling') : n.Spells spelling' := by
  cases h with
  | intro n signSpells fractionSpells exponentSpells =>
      obtain ⟨sign', rest, rfl, hsign, hrest⟩ := recased.exists_append
      obtain ⟨integer', rest, rfl, hinteger, hrest⟩ := hrest.exists_append
      obtain ⟨fraction', exponent', rfl, hfraction, hexponent⟩ := hrest.exists_append
      rw [hsign.eq (isAlpha_sign signSpells), hinteger.eq (isAlpha_digits n.integer),
        hfraction.eq (isAlpha_fraction fractionSpells)]
      exact .intro n signSpells fractionSpells (exponentSpells.recased hexponent)

/-- Does the second text begin as the first one does, or with what cannot belong to a numeral? -/
def Follows (rest rest' : List Char) : Prop :=
  Numeral.Ends rest' ∨ rest'.head?.map Char.toLower = rest.head?.map Char.toLower

private theorem exists_head? {rest rest' : List Char}
    (same : rest'.head?.map Char.toLower = rest.head?.map Char.toLower) {c' : Char}
    (hc' : c' ∈ rest'.head?) : ∃ c ∈ rest.head?, c.toLower = c'.toLower := by
  rw [hc', Option.map_some, eq_comm, Option.map_eq_some_iff] at same
  exact same

theorem Numeral.EndsBefore.recased {spelling spelling' rest rest' : List Char}
    (h : EndsBefore spelling rest) (recased : Recased spelling spelling')
    (follows : Follows rest rest') : EndsBefore spelling' rest' := by
  cases follows with
  | inl ends => exact ends.endsBefore spelling'
  | inr same =>
      intro c' hc'
      obtain ⟨c, hc, hsame⟩ := exists_head? same hc'
      obtain ⟨hdigit, hbare⟩ := h c hc
      refine ⟨?_, ?_⟩
      · cases hc' : Digit.ofChar? c' with
        | none => rfl
        | some d =>
            rw [eq_of_toLower_eq hsame (Digit.isAlpha_of_ofChar? hc'), hc'] at hdigit
            cases hdigit
      · rw [recased.any_isMarker, Exponent.isMarker_eq hsame.symm]
        refine hbare.imp_right (And.imp_right (Or.imp (recased.mem rfl) ?_))
        intro hpoint hpoint'
        rw [hpoint'] at hsame
        exact hpoint (eq_of_toLower_eq hsame rfl)

/-- The spelling of a constant or a numeral with letters in another case. A token has one
spelling. -/
def Element.Recased (e : Element) (spelling spelling' : List Char) : Prop :=
  LineCalc.Recased spelling spelling' ∧ (e.isTerm = false → spelling' = spelling)

instance (e : Element) (spelling spelling' : List Char) :
    Decidable (e.Recased spelling spelling') :=
  inferInstanceAs (Decidable (_ ∧ (_ → _)))

theorem Element.LeafScans.recased {e : Element} {spelling spelling' rest rest' : List Char}
    (h : e.LeafScans spelling rest) (recased : e.Recased spelling spelling')
    (follows : Follows rest rest') : e.LeafScans spelling' rest' := by
  obtain ⟨spells, ends⟩ := h
  obtain ⟨same, fixed⟩ := recased
  refine ⟨?_, fun n hn => (ends n hn).recased same follows⟩
  cases spells with
  | token t offset =>
      rw [fixed rfl]
      exact .token t offset
  | constant offset letters => exact .constant offset (same.trans letters)
  | numeral offset spells unsigned =>
      refine .numeral offset (spells.recased same) ?_
      intro c' hc'
      obtain ⟨c, hc, hsame⟩ := exists_head? same.head? hc'
      cases hsign : Sign.ofChar? c' with
      | none => rfl
      | some sign =>
          have hunsigned := unsigned c hc
          rw [eq_of_toLower_eq hsame (Sign.isAlpha_of_ofChar? hsign), hsign] at hunsigned
          cases hunsigned

end LineCalc

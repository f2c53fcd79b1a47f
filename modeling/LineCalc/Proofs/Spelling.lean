import LineCalc.Proofs.Lexing
import LineCalc.Proofs.NumeralText
import LineCalc.Proofs.Placement

/-!
The spellings of a run of elements. Each element is spelled behind any blanks, a group with the
spelling of a run that condenses between its parentheses. Tokens and names of constants are found by
their letters, and no leaf begins with a blank or a parenthesis. A run is read from its spelling
where in addition each numeral ends before what follows it.
-/

namespace LineCalc

/-- The text holds nothing but blanks. -/
def Blank (text : List Char) : Prop :=
  ∀ c ∈ text, isBlank c = true

instance (text : List Char) : Decidable (Blank text) :=
  List.decidableBAll (fun c => isBlank c = true) text

theorem blank_nil : Blank [] :=
  List.forall_mem_nil _

namespace Lexing

theorem content_eq_dropWhile (text : List Char) : content text = text.dropWhile isBlank := by
  induction text with
  | nil => rfl
  | cons c rest ih =>
      cases h : isBlank c with
      | false => simp [content, blanks, h]
      | true => simpa [content, blanks, h] using ih

theorem exists_blank_append (text : List Char) :
    ∃ w, text = w ++ content text ∧ Blank w ∧ blanks text = w.length := by
  refine ⟨text.takeWhile isBlank, ?_, ?_, rfl⟩
  · rw [content_eq_dropWhile, List.takeWhile_append_dropWhile]
  · exact List.all_eq_true.mp List.all_takeWhile

theorem blanks_append {w : List Char} (h : Blank w) (text : List Char) :
    blanks (w ++ text) = w.length + blanks text := by
  induction w with
  | nil => simp
  | cons c w ih =>
      obtain ⟨hc, hw⟩ := List.forall_mem_cons.mp h
      have hrest := ih hw
      simp only [blanks, List.cons_append, List.takeWhile_cons, hc, if_true, List.length_cons]
        at hrest ⊢
      omega

theorem content_append {w : List Char} (h : Blank w) (text : List Char) :
    content (w ++ text) = content text := by
  rw [content, blanks_append h, content]
  simp

theorem blanks_of_not_isBlank {c : Char} (h : isBlank c = false) (rest : List Char) :
    blanks (c :: rest) = 0 := by
  simp [blanks, h]

theorem content_of_not_isBlank {c : Char} (h : isBlank c = false) (rest : List Char) :
    content (c :: rest) = c :: rest := by
  simp [content, blanks, h]

theorem blanks_append_cons {w : List Char} {c : Char} (blank : Blank w) (h : isBlank c = false)
    (rest : List Char) : blanks (w ++ c :: rest) = w.length := by
  rw [blanks_append blank, blanks_of_not_isBlank h, Nat.add_zero]

theorem content_append_cons {w : List Char} {c : Char} (blank : Blank w) (h : isBlank c = false)
    (rest : List Char) : content (w ++ c :: rest) = c :: rest := by
  rw [content_append blank, content_of_not_isBlank h]

theorem content_eq_nil_iff (text : List Char) : content text = [] ↔ Blank text := by
  constructor
  · intro h
    obtain ⟨w, htext, hblank, _⟩ := exists_blank_append text
    rw [htext, h, List.append_nil]
    exact hblank
  · intro h
    have hcontent := content_append h []
    rw [List.append_nil] at hcontent
    exact hcontent

theorem isBlank_of_content {text rest : List Char} {c : Char} (h : content text = c :: rest) :
    isBlank c = false := by
  have hhead := List.head?_dropWhile_not isBlank text
  rw [← content_eq_dropWhile, h] at hhead
  exact hhead

theorem content_content (text : List Char) : content (content text) = content text := by
  cases h : content text with
  | nil => rfl
  | cons c rest => exact content_of_not_isBlank (isBlank_of_content h) rest

theorem blanks_content (text : List Char) : blanks (content text) = 0 := by
  cases h : content text with
  | nil => rfl
  | cons c rest => exact blanks_of_not_isBlank (isBlank_of_content h) rest

private theorem mem_of_foldl_longer {α : Type} {chars : α → List Char} {xs : List α}
    {best : Option α} {x : α} (h : xs.foldl (longer chars) best = some x) :
    x ∈ xs ∨ best = some x := by
  induction xs generalizing best with
  | nil => exact .inr h
  | cons y ys ih =>
      cases ih h with
      | inl hmem => exact .inl (List.mem_cons_of_mem y hmem)
      | inr hbest =>
          cases best with
          | none =>
              cases hbest
              exact .inl List.mem_cons_self
          | some b =>
              simp only [longer] at hbest
              split at hbest
              next =>
                cases hbest
                exact .inl List.mem_cons_self
              next => exact .inr hbest

private theorem exists_foldl_longer {α : Type} {chars : α → List Char} (xs : List α) (best : α) :
    ∃ x, xs.foldl (longer chars) (some best) = some x := by
  induction xs generalizing best with
  | nil => exact ⟨best, rfl⟩
  | cons y ys ih => exact ih _

theorem mem_of_longest? {α : Type} {chars : α → List Char} {xs : List α} {x : α}
    (h : longest? chars xs = some x) : x ∈ xs := by
  cases mem_of_foldl_longer h with
  | inl hmem => exact hmem
  | inr hnone => cases hnone

/-- Where there is only one candidate, it is the longest. -/
theorem longest?_of_unique {α : Type} {chars : α → List Char} {xs : List α} {x : α} (mem : x ∈ xs)
    (unique : ∀ y ∈ xs, y = x) : longest? chars xs = some x := by
  cases xs with
  | nil => cases mem
  | cons y ys =>
      obtain ⟨z, hz⟩ := @exists_foldl_longer α chars ys y
      have hlongest : longest? chars (y :: ys) = some z := hz
      rw [hlongest, unique z (mem_of_longest? hlongest)]

private theorem token_unique {t t' : Token} (h : t.chars <+: t'.chars) : t = t' := by
  revert h
  cases t <;> cases t' <;> decide

theorem token?_eq_some_iff {text : List Char} {t : Token} :
    token? text = some t ↔ t.chars <+: text := by
  constructor
  · intro h
    have hmem := mem_of_longest? h
    rw [List.mem_filter, List.isPrefixOf_iff_prefix] at hmem
    exact hmem.2
  · intro h
    refine longest?_of_unique ?_ ?_
    · rw [List.mem_filter, List.isPrefixOf_iff_prefix]
      exact ⟨by cases t <;> decide, h⟩
    · intro t' ht'
      rw [List.mem_filter, List.isPrefixOf_iff_prefix] at ht'
      cases List.prefix_or_prefix_of_prefix ht'.2 h with
      | inl hp => exact token_unique hp
      | inr hp => exact (token_unique hp).symm

/-- The names that a constant is read from: capitals or not, its own letters. -/
theorem matchesHead_iff (chars text : List Char) :
    Cursor.startsWithBy.matchesHead (fun a b => a.toLower == b.toLower) chars text = true ↔
      ∃ name, name <+: text ∧ name.map Char.toLower = chars.map Char.toLower := by
  induction chars generalizing text with
  | nil =>
      refine ⟨fun _ => ⟨[], List.nil_prefix, rfl⟩, fun _ => ?_⟩
      cases text <;> rfl
  | cons c chars ih =>
      cases text with
      | nil =>
          constructor
          · intro h
            cases h
          · intro h
            obtain ⟨name, hprefix, hname⟩ := h
            rw [List.prefix_nil.mp hprefix] at hname
            cases hname
      | cons d text =>
          simp only [Cursor.startsWithBy.matchesHead, Bool.and_eq_true, beq_iff_eq, ih]
          constructor
          · intro h
            obtain ⟨hc, name, hprefix, hname⟩ := h
            exact ⟨d :: name, List.cons_prefix_cons.mpr ⟨rfl, hprefix⟩, by simp [hc, hname]⟩
          · intro h
            obtain ⟨name, hprefix, hname⟩ := h
            cases name with
            | nil => cases hname
            | cons e name =>
                obtain ⟨rfl, htail⟩ := List.cons_prefix_cons.mp hprefix
                obtain ⟨hc, hnames⟩ := List.cons.inj hname
                exact ⟨hc.symm, name, htail, hnames⟩

private theorem constant_of_matches {k k' : Constant} {text : List Char}
    (h : ∃ name, name <+: text ∧ name.map Char.toLower = k.chars)
    (h' : ∃ name, name <+: text ∧ name.map Char.toLower = k'.chars) : k = k' := by
  obtain ⟨name, hprefix, hname⟩ := h
  obtain ⟨name', hprefix', hname'⟩ := h'
  cases text with
  | nil =>
      rw [List.prefix_nil.mp hprefix] at hname
      cases k <;> cases hname
  | cons c text =>
      cases name with
      | nil => cases k <;> cases hname
      | cons d name =>
          cases name' with
          | nil => cases k' <;> cases hname'
          | cons d' name' =>
              obtain ⟨rfl, _⟩ := List.cons_prefix_cons.mp hprefix
              obtain ⟨rfl, _⟩ := List.cons_prefix_cons.mp hprefix'
              -- the names begin with different letters
              cases k <;> cases k' <;> simp_all [Constant.chars]

theorem constant?_eq_some_iff {text : List Char} {k : Constant} :
    constant? text = some k ↔ ∃ name, name <+: text ∧ name.map Char.toLower = k.chars := by
  have hlower (k : Constant) : k.chars.map Char.toLower = k.chars := by cases k <;> decide
  have hiff (k : Constant) := matchesHead_iff k.chars text
  simp only [hlower] at hiff
  constructor
  · intro h
    have hmem := mem_of_longest? h
    rw [List.mem_filter, hiff] at hmem
    exact hmem.2
  · intro h
    refine longest?_of_unique ?_ ?_
    · rw [List.mem_filter, hiff]
      exact ⟨by cases k <;> decide, h⟩
    · intro k' hk'
      rw [List.mem_filter, hiff] at hk'
      exact constant_of_matches hk'.2 h

end Lexing

/-- A numeral that stands in a run has no sign: a sign before it is a token. -/
inductive Element.LeafSpells : Element → List Char → Prop where
  | token (t : Token) (offset : Nat) : LeafSpells (.token t offset) t.chars
  | constant {k : Constant} {name : List Char} (offset : Nat)
      (letters : name.map Char.toLower = k.chars) : LeafSpells (.term (.constant k) offset) name
  | numeral {n : Numeral} {spelling : List Char} (offset : Nat) (spells : n.Spells spelling)
      (unsigned : ∀ c ∈ spelling.head?, Sign.ofChar? c = none) :
      LeafSpells (.term (.numeral n) offset) spelling

/-- A leaf is read from its spelling, which ends before the rest of the text if it is a numeral. -/
structure Element.LeafScans (e : Element) (spelling rest : List Char) : Prop where
  spells : e.LeafSpells spelling
  ends : ∀ n, e.term? = some (.numeral n) → Numeral.EndsBefore spelling rest

namespace Element.LeafScans

theorem token (t : Token) (offset : Nat) (rest : List Char) :
    LeafScans (.token t offset) t.chars rest :=
  ⟨.token t offset, by simp [term?]⟩

theorem constant {k : Constant} {name : List Char} (letters : name.map Char.toLower = k.chars)
    (offset : Nat) (rest : List Char) : LeafScans (.term (.constant k) offset) name rest :=
  ⟨.constant offset letters, by simp [term?]⟩

end Element.LeafScans

namespace Sequence

/-- The characters spell the run when they begin at the offset. -/
inductive Spells : Nat → Sequence → List Char → Prop where
  | nil (offset : Nat) : Spells offset [] []
  | leaf {offset : Nat} {e : Element} {s : Sequence} {w spelling text : List Char}
      (blank : Blank w) (leaf : e.LeafSpells spelling) (stands : e.offset = offset + w.length)
      (rest : Spells (offset + (w.length + spelling.length)) s text) :
      Spells offset (e :: s) (w ++ (spelling ++ text))
  | group {offset : Nat} {body s : Sequence} {inner : Term} {w content v text : List Char}
      (blank : Blank w) (blank' : Blank v) (nonempty : body ≠ [])
      (bounded : List.length body ≤ groupLimit) (condenses : body.condense = .ok inner)
      (spells : Spells (offset + w.length + 1) body content)
      (rest : Spells (offset + (w.length + 1 + content.length + (v.length + 1))) s text) :
      Spells offset (.group body inner (offset + w.length) :: s)
        (w ++ '(' :: (content ++ (v ++ ')' :: text)))

/-- The characters spell the run when they begin at the offset, and the run is read from them when
the rest of the text stands behind them. -/
inductive Scans : List Char → Nat → Sequence → List Char → Prop where
  | nil (rest : List Char) (offset : Nat) : Scans rest offset [] []
  | leaf {rest : List Char} {offset : Nat} {e : Element} {s : Sequence}
      {w spelling text : List Char} (blank : Blank w)
      (leaf : e.LeafScans spelling (text ++ rest)) (stands : e.offset = offset + w.length)
      (others : Scans rest (offset + (w.length + spelling.length)) s text) :
      Scans rest offset (e :: s) (w ++ (spelling ++ text))
  | group {rest : List Char} {offset : Nat} {body s : Sequence} {inner : Term}
      {w content v text : List Char} (blank : Blank w) (blank' : Blank v) (nonempty : body ≠ [])
      (bounded : List.length body ≤ groupLimit) (condenses : body.condense = .ok inner)
      (inside : Scans (v ++ ')' :: (text ++ rest)) (offset + w.length + 1) body content)
      (others : Scans rest (offset + (w.length + 1 + content.length + (v.length + 1))) s text) :
      Scans rest offset (.group body inner (offset + w.length) :: s)
        (w ++ '(' :: (content ++ (v ++ ')' :: text)))

theorem Scans.spells {rest : List Char} {offset : Nat} {s : Sequence} {text : List Char}
    (h : Scans rest offset s text) : Spells offset s text := by
  induction h with
  | nil _ offset => exact .nil offset
  | leaf blank leaf stands _ ih => exact .leaf blank leaf.spells stands ih
  | group blank blank' nonempty bounded condenses _ _ ihbody ih =>
      exact .group blank blank' nonempty bounded condenses ihbody ih

end Sequence

theorem Token.head_chars (t : Token) :
    ∃ c rest, t.chars = c :: rest ∧ isBlank c = false ∧ c ≠ '(' ∧ c ≠ ')' := by
  cases t <;> exact ⟨_, _, rfl, by decide, by decide, by decide⟩

theorem Constant.head_name {k : Constant} {name : List Char}
    (h : name.map Char.toLower = k.chars) :
    ∃ c rest, name = c :: rest ∧ (c.toLower = 'p' ∨ c.toLower = 'e') := by
  cases name with
  | nil => cases k <;> cases h
  | cons c rest =>
      refine ⟨c, rest, rfl, ?_⟩
      cases k with
      | pi => exact .inl (List.cons.inj h).1
      | e => exact .inr (List.cons.inj h).1

theorem Numeral.head_spelling {n : Numeral} {spelling : List Char} (h : n.Spells spelling)
    (unsigned : ∀ c ∈ spelling.head?, Sign.ofChar? c = none) :
    ∃ c rest, spelling = c :: rest ∧ (c = '.' ∨ ∃ d, c = Digit.char d) := by
  cases h with
  | @intro sign fraction exponent n signSpells fractionSpells _ =>
      obtain ⟨numeralSign, integer, decimal, x, has_digits⟩ := n
      cases signSpells with
      | plus => cases unsigned '+' rfl
      | minus => cases unsigned '-' rfl
      | unwritten =>
          cases integer with
          | cons d integer => exact ⟨_, _, rfl, .inr ⟨d, rfl⟩⟩
          | nil =>
              cases fractionSpells with
              | unwritten => simp at has_digits
              | pointed digits => exact ⟨_, _, rfl, .inl rfl⟩

/-- There is a digit before the point or behind it. -/
theorem Numeral.spelling_ne_nil {n : Numeral} {spelling : List Char} (h : n.Spells spelling) :
    spelling ≠ [] := by
  cases h with
  | @intro sign fraction exponent n _ fractionSpells _ =>
      intro hnil
      simp only [List.append_eq_nil_iff, List.map_eq_nil_iff] at hnil
      obtain ⟨_, hinteger, hfraction, _⟩ := hnil
      have hdigits := n.has_digits
      generalize n.decimal = decimal at fractionSpells hdigits
      cases fractionSpells with
      | unwritten => simp [hinteger] at hdigits
      | pointed _ => cases hfraction

private theorem not_of_letter {c : Char} (h : c.toLower = 'p' ∨ c.toLower = 'e') :
    isBlank c = false ∧ c ≠ '(' ∧ c ≠ ')' := by
  have hne (d : Char) (hd : ¬ (d.toLower = 'p' ∨ d.toLower = 'e')) : c ≠ d := by
    intro hc
    subst hc
    exact hd h
  refine ⟨?_, hne '(' (by decide), hne ')' (by decide)⟩
  simp only [isBlank, Bool.or_eq_false_iff, beq_eq_false_iff_ne]
  exact ⟨⟨⟨hne ' ' (by decide), hne '\t' (by decide)⟩, hne '\n' (by decide)⟩,
    hne '\r' (by decide)⟩

private theorem not_of_digit (d : Digit) :
    isBlank d.char = false ∧ d.char ≠ '(' ∧ d.char ≠ ')' := by
  revert d
  decide

/-- Only a plus is not written. -/
theorem Numeral.sign_of_unsigned {n : Numeral} {spelling : List Char} (h : n.Spells spelling)
    (unsigned : ∀ c ∈ spelling.head?, Sign.ofChar? c = none) : n.sign = .plus := by
  cases h with
  | @intro sign fraction exponent n signSpells _ _ =>
      generalize n.sign = numeralSign at signSpells
      cases signSpells with
      | plus => rfl
      | unwritten => rfl
      | minus => cases unsigned '-' rfl

theorem Numeral.unsigned_chars {n : Numeral} (h : n.sign = .plus) :
    ∀ c ∈ n.chars.head?, Sign.ofChar? c = none := by
  have hchars : n.chars = n.integer.map Digit.char ++
      ((if n.decimal = [] then [] else '.' :: n.decimal.map Digit.char) ++
        (n.exponent.map Exponent.chars).getD []) := by
    simp [Numeral.chars, h, Sign.chars]
  rw [hchars]
  apply Numeral.not_sign_magnitude
  exact Numeral.fractionSpells_decimal n

namespace Element

/-- A spelled leaf begins with a character that is not blank and no parenthesis. -/
theorem LeafSpells.head {e : Element} {spelling : List Char} (h : e.LeafSpells spelling) :
    ∃ c rest, spelling = c :: rest ∧ isBlank c = false ∧ c ≠ '(' ∧ c ≠ ')' := by
  cases h with
  | token t offset => exact t.head_chars
  | constant offset letters =>
      obtain ⟨c, rest, rfl, hc⟩ := Constant.head_name letters
      exact ⟨c, rest, rfl, not_of_letter hc⟩
  | numeral offset spells unsigned =>
      obtain ⟨c, rest, rfl, hc⟩ := Numeral.head_spelling spells unsigned
      refine ⟨c, rest, rfl, ?_⟩
      cases hc with
      | inl hpoint =>
          subst hpoint
          decide
      | inr hdigit =>
          obtain ⟨d, rfl⟩ := hdigit
          exact not_of_digit d

end Element

namespace Sequence

theorem spells_leaf {offset : Nat} {e : Element} {w spelling : List Char} (blank : Blank w)
    (leaf : e.LeafSpells spelling) (stands : e.offset = offset + w.length) :
    Spells offset [e] (w ++ spelling) := by
  have h := Spells.leaf blank leaf stands (.nil _)
  rwa [List.append_nil] at h

theorem Spells.append {offset : Nat} {s s' : Sequence} {text text' : List Char}
    (h : Spells offset s text) (h' : Spells (offset + text.length) s' text') :
    Spells offset (s ++ s') (text ++ text') := by
  induction h with
  | nil offset => exact h'
  | @leaf offset e s w spelling text blank leaf stands rest ih =>
      rw [List.append_assoc, List.append_assoc]
      refine .leaf blank leaf stands (ih ?_)
      rw [← List.length_append, Nat.add_assoc, ← List.length_append, List.append_assoc]
      exact h'
  | @group offset body s inner w inside v text blank blank' nonempty bounded condenses spells rest
      _ ih =>
      have hlength : (w ++ '(' :: (inside ++ (v ++ ')' :: text))).length =
          w.length + 1 + inside.length + (v.length + 1) + text.length := by
        simp only [List.length_append, List.length_cons]
        omega
      rw [hlength, ← Nat.add_assoc offset] at h'
      have happend := Spells.group blank blank' nonempty bounded condenses spells (ih h')
      simpa only [List.append_assoc, List.cons_append] using happend

/-- Scanning resolves no token. -/
theorem Spells.unresolved {offset : Nat} {s : Sequence} {text : List Char}
    (h : Spells offset s text) : ∀ e ∈ s, e.isResolved = false := by
  induction h with
  | nil _ => simp
  | leaf _ leaf _ _ ih => exact List.forall_mem_cons.mpr ⟨by cases leaf <;> rfl, ih⟩
  | group _ _ _ _ _ _ _ _ ih => exact List.forall_mem_cons.mpr ⟨rfl, ih⟩

theorem Spells.length_le {offset : Nat} {s : Sequence} {text : List Char}
    (h : Spells offset s text) : List.length s ≤ text.length := by
  induction h with
  | nil _ => exact Nat.le_refl 0
  | leaf _ leaf _ _ ih =>
      obtain ⟨c, rest, rfl, _⟩ := leaf.head
      simp only [List.length_append, List.length_cons]
      omega
  | group _ _ _ _ _ _ _ _ ih =>
      simp only [List.length_append, List.length_cons]
      omega

end Sequence
end LineCalc

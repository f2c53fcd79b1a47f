import LineCalc.Proofs.Descent

/-!
Runs whose trees the reader from the top down agrees with. What is in parentheses does not matter
for the tree around it: the outline of a run has a constant in the place of every group, and becomes
the outline of the run's tree. So a bare power is the base of another outside of all parentheses
exactly if the run itself, and not only one of its groups, has the segment that lets one power
overtake another. In a tree without that, every operation stands on a level that the grammar gives
it.
-/

namespace LineCalc

namespace Term

/-- The tree with a constant for everything in parentheses. -/
def outline : Term → Term
  | .numeral n => .numeral n
  | .constant c => .constant c
  | .grouping _ => .constant .e
  | .unary o t => .unary o t.outline
  | .binary o l r => .binary o l.outline r.outline

theorem isLeaf_outline (t : Term) : t.outline.isLeaf = t.isLeaf := by
  cases t <;> rfl

theorem isPower_outline (t : Term) : t.outline.isPower = t.isPower := by
  cases t with
  | binary o l r => cases o <;> rfl
  | numeral _ | constant _ | grouping _ | unary _ _ => rfl

theorem hasLeftPower_outline {t : Term} (h : t.isLeaf = true) : t.outline.hasLeftPower = false := by
  cases t with
  | numeral _ | constant _ | grouping _ => rfl
  | unary _ _ | binary _ _ _ => cases h

end Term

namespace Piece

def outline : Piece → Piece
  | .operand t => .operand t.outline
  | .operator o => .operator o

theorem ready_outline (ps : List Piece) : ready (ps.map outline) = ready ps := by
  induction ps with
  | nil => rfl
  | cons p ps ih =>
      have hstart : startsWithOperand (ps.map outline) = startsWithOperand ps := by
        cases ps with
        | nil => rfl
        | cons p _ => cases p <;> rfl
      cases p with
      | operand _ => exact ih
      | operator _ => simp only [List.map_cons, outline, ready, hstart, ih]

/-- A merge of a row is a merge of its outline. -/
theorem Merges.outline {ps ps' : List Piece} (h : Merges ps ps') :
    Merges (ps.map Piece.outline) (ps'.map Piece.outline) := by
  cases h with
  | unary o before after =>
      simp only [List.map_append, List.map_cons]
      exact .unary o (by rwa [ready_outline]) (by rwa [ready_outline])
  | @binary pre post a b o before after =>
      have hbefore := ready_outline (pre ++ [.operand a])
      rw [List.map_append] at hbefore
      simp only [List.map_append, List.map_cons]
      exact .binary o (by rwa [← hbefore] at before) (by rwa [ready_outline])

theorem Condenses.outline {ps : List Piece} {t : Term} (h : Condenses ps t) :
    Condenses (ps.map Piece.outline) t.outline := by
  induction h with
  | done t => exact .done t.outline
  | step merges _ ih => exact .step merges.outline ih

end Piece

namespace Element

def outline : Element → Element
  | .term t offset => .term t.outline offset
  | .group _ _ offset => .term (.constant .e) offset
  | .token k offset => .token k offset
  | .operator o offset => .operator o offset

theorem isTerm_outline (e : Element) : e.outline.isTerm = e.isTerm := by
  cases e <;> rfl

theorem isResolved_outline (e : Element) : e.outline.isResolved = e.isResolved := by
  cases e <;> rfl

theorem token?_outline (e : Element) : e.outline.token? = e.token? := by
  cases e <;> rfl

theorem piece_outline (e : Element) (afterTerm : Bool) :
    e.outline.piece afterTerm = (e.piece afterTerm).outline := by
  cases e <;> rfl

theorem term?_outline (e : Element) : e.outline.term? = e.term?.map Term.outline := by
  cases e <;> rfl

theorem outline_ne_group (e : Element) (body : Sequence) (inner : Term) (offset : Nat) :
    e.outline ≠ .group body inner offset := by
  cases e <;> exact nofun

end Element

namespace Sequence

theorem pieces_outline (afterTerm : Bool) (s : Sequence) :
    pieces afterTerm (s.map Element.outline) = (pieces afterTerm s).map Piece.outline := by
  induction s generalizing afterTerm with
  | nil => rfl
  | cons e rest ih =>
      simp only [List.map_cons, pieces, Element.piece_outline, Element.isTerm_outline, ih]

theorem condense_outline {s : Sequence} {t : Term} (h : s.condense = .ok t) :
    condense (s.map Element.outline) = .ok t.outline := by
  rw [condense_eq_ok_iff] at h ⊢
  rw [pieces_outline]
  exact h.outline

/-- The run has a power with one term under functions for its exponent, which is the base of a power
with a sign among the operators behind it. -/
def SignedTower (s : Sequence) : Prop :=
  ∃ functions operators : List (Option Token),
    some .caret :: functions ++ none :: some .caret :: operators <:+: s.map Element.token? ∧
      (∀ k ∈ functions, k = some .ln ∨ k = some .log) ∧
      none ∉ operators ∧ (some .plus ∈ operators ∨ some .minus ∈ operators)

theorem SignedTower.sublist {s : Sequence} (h : SignedTower s) :
    ∃ sign, (sign = .plus ∨ sign = .minus) ∧
      [some .caret, some .caret, some sign].Sublist (s.map Element.token?) := by
  obtain ⟨functions, operators, hsegment, _, _, hsign⟩ := h
  have hsublist {sign : Token} (mem : some sign ∈ operators) :
      [some .caret, some .caret, some sign].Sublist (s.map Element.token?) := by
    have hfirst : [some Token.caret].Sublist (some .caret :: functions) :=
      .cons_cons _ (List.nil_sublist _)
    have hlater : [some .caret, some sign].Sublist (none :: some .caret :: operators) :=
      .cons _ (.cons_cons _ (List.singleton_sublist.mpr mem))
    exact (hfirst.append hlater).trans hsegment.sublist
  cases hsign with
  | inl hplus => exact ⟨.plus, .inl rfl, hsublist hplus⟩
  | inr hminus => exact ⟨.minus, .inr rfl, hsublist hminus⟩

theorem signedTower_of_overtaken {s : Sequence} (h : Overtaken (s.map Element.outline)) :
    SignedTower s := by
  have htokens : (s.map Element.outline).map Element.token? = s.map Element.token? := by
    simp [Element.token?_outline]
  generalize hs : s.map Element.outline = s' at h htokens
  cases h with
  | inside mem _ =>
      rw [← hs] at mem
      obtain ⟨e, _, he⟩ := List.mem_map.mp mem
      exact absurd he (e.outline_ne_group _ _ _)
  | @here pre functions operators post base sign i j k areFunctions isBase areOperators isSign =>
      have hbase : none = base.token? := by cases base <;> first | rfl | cases isBase
      refine ⟨functions.map Element.token?, operators.map Element.token? ++ [some sign],
        ⟨pre.map Element.token?, post.map Element.token?, ?_⟩, ?_, ?_, ?_⟩
      · rw [← htokens, hbase]
        simp [Element.token?]
      · intro k hk
        obtain ⟨e, he, rfl⟩ := List.mem_map.mp hk
        exact areFunctions e he
      · intro hnone
        cases List.mem_append.mp hnone with
        | inr hsign => simp at hsign
        | inl hnone =>
            obtain ⟨e, he, htoken⟩ := List.mem_map.mp hnone
            have hterm := areOperators e he
            cases e with
            | term _ _ | group _ _ _ => cases hterm
            | token _ _ | operator _ _ => cases htoken
      · cases isSign with
        | inl h => exact .inl (by simp [h])
        | inr h => exact .inr (by simp [h])

/-- Outside of parentheses no power is the base of another. -/
theorem hasLeftPower_outline_of_plain {s : Sequence} {t : Term} (condenses : s.condense = .ok t)
    (unresolved : ∀ e ∈ s, e.isResolved = false)
    (leaves : ∀ e ∈ s, ∀ t, e.term? = some t → t.isLeaf = true) (plain : ¬ SignedTower s) :
    t.outline.hasLeftPower = false := by
  have hunresolved : ∀ e ∈ s.map Element.outline, e.isResolved = false := by
    simpa [Element.isResolved_outline] using unresolved
  -- with the groups gone no leaf has a power inside, and only the run itself can have the segment
  have hleaves : LeafPowers (s.map Element.outline) := by
    intro e' he' t' ht'
    obtain ⟨e, he, rfl⟩ := List.mem_map.mp he'
    rw [Element.term?_outline, Option.map_eq_some_iff] at ht'
    obtain ⟨t, ht, rfl⟩ := ht'
    have hleaf := leaves e he t ht
    refine ⟨by rwa [t.isLeaf_outline], ?_⟩
    simp [Term.hasLeftPower_outline hleaf, Element.outline_ne_group]
  apply Bool.eq_false_iff.mpr
  intro hpower
  rw [hasLeftPower_iff_of_leaves hunresolved hleaves (condense_outline condenses)] at hpower
  exact plain (signedTower_of_overtaken hpower)

end Sequence

namespace Term

theorem le_tightness {t : Term} {n : Nat} (h : ∀ q ∈ t.operator?, n ≤ q.rank) (hn : n ≤ 7) :
    n ≤ t.tightness := by
  cases t with
  | numeral _ | constant _ | grouping _ => exact hn
  | unary _ _ | binary _ _ _ => exact h _ rfl

/-- What a power takes for its base without being a power. -/
theorem six_le_tightness {t : Term} (admits : ∀ q ∈ t.operator?, BinaryOp.pow.AdmitsLeft q)
    (notPower : t.isPower = false) : 6 ≤ t.tightness := by
  refine le_tightness ?_ (by decide)
  intro q hq
  obtain ⟨htight, hplus, hminus⟩ := admits q hq
  cases t with
  | numeral _ | constant _ | grouping _ => cases hq
  | unary u _ =>
      cases hq
      cases u with
      | ln | log => decide
      | plus => exact absurd rfl hplus
      | minus => exact absurd rfl hminus
  | binary b _ _ =>
      cases hq
      cases b with
      | pow => cases notPower
      | mul | div | rem | add | sub | mod => exact absurd htight (by decide)

/-- Suited operations are on the levels of the grammar, unless a bare power is the base of
another. -/
theorem Suited.stratified {t : Term} (suited : t.Suited) (plain : t.outline.hasLeftPower = false) :
    t.Stratified := by
  induction t with
  | numeral _ | constant _ | grouping _ _ => trivial
  | unary u t ih =>
      obtain ⟨hparts, hsuited⟩ := suited_unary.mp suited
      obtain ⟨hlast, _⟩ := List.isChain_cons_cons.mp hparts
      refine ⟨?_, ih hsuited plain⟩
      cases hu : u.isSign with
      | true =>
          refine le_tightness (fun q hq => ?_) (by decide)
          simpa [Operator.AdmitsLast, hu] using hlast q hq
      | false =>
          have hunary : ∀ q ∈ t.operator?, q.isUnary = true := by
            simpa [Piece.Suits, Operator.AdmitsLast, hu] using hlast
          cases t with
          | numeral _ | constant _ | grouping _ =>
              refine .inr (le_tightness ?_ (by decide))
              intro q hq
              cases hq
          | unary v _ =>
              cases hv : v.isSign with
              | true => exact .inl (by simp [tightness_unary, hv])
              | false => exact .inr (by simp [tightness_unary, hv])
          | binary _ _ _ => cases hunary _ rfl
  | binary b l r ihl ihr =>
      obtain ⟨hparts, hleft, hright⟩ := suited_binary.mp suited
      obtain ⟨⟨hbase, hclosed⟩, hrest⟩ := List.isChain_cons_cons.mp hparts
      obtain ⟨hlast, _⟩ := List.isChain_cons_cons.mp hrest
      simp only [outline, hasLeftPower, Bool.or_eq_false_iff, isPower_outline] at plain
      obtain ⟨⟨hpower, hplain⟩, hplain'⟩ := plain
      have hl := ihl hleft hplain
      have hr := ihr hright hplain'
      cases b with
      | pow =>
          exact ⟨⟨six_le_tightness hbase (by simpa using hpower), hclosed rfl,
            le_tightness hlast (by decide)⟩, hl, hr⟩
      | mul | div | rem | add | sub | mod =>
          exact ⟨⟨le_tightness hbase (by decide), le_tightness hlast (by decide)⟩, hl, hr⟩

end Term

namespace Sequence

/-- From the top down a scanned run is read as the tree that it becomes, unless it has a signed
tower. -/
theorem read_of_scanned {limit : Option Nat} {session : Session} {s : Sequence} {t : Term}
    (scanned : (Reading.sequence limit).outcome session = .ok (some s))
    (condenses : s.condense = .ok t) (plain : ¬ SignedTower s) :
    Descent.read (s.map Element.item) = some t := by
  obtain ⟨text, rest, _, spells⟩ := Reading.spells_of_sequence scanned
  have hpower := hasLeftPower_outline_of_plain condenses spells.unresolved spells.isLeaf plain
  have hstratified := (suited_of_scanned scanned condenses).stratified hpower
  rw [← map_item_inOrder condenses spells.isLeaf]
  exact Descent.read_items hstratified

/-- The tower inside the parentheses is none of the run around them. -/
theorem read_of_scanned_grouped_tower :
    ∃ s t, (Reading.sequence none).outcome (.start "2^-ln 3^4*(5^6^-7)") = .ok (some s) ∧
      s.condense = .ok t ∧ ¬ SignedTower s ∧ Descent.read (s.map Element.item) = some t := by
  have hparse : parse "2^-ln 3^4*(5^6^-7)" = .ok
      (.binary .mul
        (.binary .pow (.numeral ⟨.plus, [2], [], none, by simp⟩)
          (.unary .minus (.binary .pow (.unary .ln (.numeral ⟨.plus, [3], [], none, by simp⟩))
            (.numeral ⟨.plus, [4], [], none, by simp⟩))))
        (.grouping (.binary .pow
          (.binary .pow (.numeral ⟨.plus, [5], [], none, by simp⟩)
            (.numeral ⟨.plus, [6], [], none, by simp⟩))
          (.unary .minus (.numeral ⟨.plus, [7], [], none, by simp⟩))))) := by
    decide +kernel
  have htokens : (scan "2^-ln 3^4*(5^6^-7)").map (List.map Element.token?) =
      .ok [none, some .caret, some .minus, some .ln, none, some .caret, none, some .star,
        none] := by
    decide +kernel
  obtain ⟨s, hscan, hcondense⟩ := scan_of_parse hparse
  have hplain : ¬ SignedTower s := by
    intro htower
    obtain ⟨sign, hsign, hsublist⟩ := htower.sublist
    rw [hscan] at htokens
    rw [Except.ok.inj htokens] at hsublist
    cases hsign with
    | inl h => exact absurd (h ▸ hsublist) (by decide)
    | inr h => exact absurd (h ▸ hsublist) (by decide)
  have hsequence := sequence_of_scan hscan
  exact ⟨s, _, hsequence, hcondense, hplain, read_of_scanned hsequence hcondense hplain⟩

end Sequence
end LineCalc

import LineCalc.Proofs.InOrder
import LineCalc.Proofs.PowerChain
import LineCalc.Proofs.Scanned

/-!
How a chain of powers groups. Chains of `^` are meant to group from the right, and one that has the
operands it needs does. But a `^` whose exponent begins with a prefix operator has to wait for it,
and a sign binds less tightly than a `^` further left, which is reduced meanwhile and becomes the
base of the one that waits. The theorems here say exactly when that happens: a run becomes a tree
with a bare power as the base of another if and only if, in it or in one of its groups, the exponent
of a `^` is one operand under functions, and is the base of a `^` whose exponent has a sign among
its first operators.
-/

namespace LineCalc

namespace Sequence

open Piece

/-- Somewhere in the run or in one of its groups, the exponent of a `^` is one term under functions,
and is the base of a `^` whose exponent has a sign among its first operators. -/
inductive Overtaken : Sequence → Prop where
  | here {pre functions operators post : Sequence} {base : Element} {sign : Token} {i j k : Nat}
      (areFunctions : ∀ e ∈ functions, e.token? = some .ln ∨ e.token? = some .log)
      (isBase : base.isTerm = true) (areOperators : ∀ e ∈ operators, e.isTerm = false)
      (isSign : sign = .plus ∨ sign = .minus) :
      Overtaken (pre ++ .token .caret i :: (functions ++ base :: .token .caret j ::
        (operators ++ .token sign k :: post)))
  | inside {s body : Sequence} {inner : Term} {offset : Nat}
      (mem : .group body inner offset ∈ s) (overtaken : Overtaken body) : Overtaken s

private theorem blocked_of_sign {operators post : Sequence} {sign : Token} {k : Nat}
    (areOperators : ∀ e ∈ operators, e.isTerm = false) (isSign : sign = .plus ∨ sign = .minus) :
    blocked (pieces false (operators ++ .token sign k :: post)) = true := by
  induction operators with
  | nil =>
      cases isSign with
      | inl h => subst h; rfl
      | inr h => subst h; rfl
  | cons e operators ih =>
      obtain ⟨he, hrest⟩ := List.forall_mem_cons.mp areOperators
      have htail := ih hrest
      cases e with
      | term _ _ | group _ _ _ => cases he
      | operator o _ => cases o <;> simp [pieces, blocked, htail]
      | token t _ => cases t <;> simp [pieces, Token.use, blocked, htail]

private theorem sign_of_blocked {s : Sequence} (unresolved : ∀ e ∈ s, e.isResolved = false)
    (h : blocked (pieces false s) = true) :
    ∃ operators sign k post, s = operators ++ .token sign k :: post ∧
      (∀ e ∈ operators, e.isTerm = false) ∧ (sign = .plus ∨ sign = .minus) := by
  induction s with
  | nil => cases h
  | cons e rest ih =>
      obtain ⟨he, hrest⟩ := List.forall_mem_cons.mp unresolved
      cases e with
      | term _ _ | group _ _ _ => cases h
      | operator _ _ => cases he
      | token t offset =>
          by_cases hsign : t = .plus ∨ t = .minus
          · exact ⟨[], t, offset, rest, rfl, by simp, hsign⟩
          · have htail : blocked (pieces false rest) = true := by
              cases t <;> simp_all [pieces, Token.use, blocked, UnaryOp.isSign]
            obtain ⟨operators, sign, k, post, rfl, hoperators, hsign⟩ := ih hrest htail
            exact ⟨.token t offset :: operators, sign, k, post, rfl,
              List.forall_mem_cons.mpr ⟨rfl, hoperators⟩, hsign⟩

private theorem piece_of_isTerm {e : Element} (h : e.isTerm = true) (afterTerm : Bool) :
    ∃ t, e.term? = some t ∧ e.piece afterTerm = .operand t := by
  obtain ⟨t, ht⟩ := Option.isSome_iff_exists.mp h
  exact ⟨t, ht, Element.piece_of_term? ht afterTerm⟩

private theorem blockedBase_of_base {functions rest : Sequence} {base : Element} {j : Nat}
    (areFunctions : ∀ e ∈ functions, e.token? = some .ln ∨ e.token? = some .log)
    (isBase : base.isTerm = true) (h : blocked (pieces false rest) = true) :
    blockedBase (pieces false (functions ++ base :: .token .caret j :: rest)) = true := by
  induction functions with
  | nil =>
      obtain ⟨t, _, ht⟩ := piece_of_isTerm isBase false
      simp [pieces, ht, blockedBase, startsWithPower, blocked, Token.use, h]
  | cons e functions ih =>
      obtain ⟨he, hrest⟩ := List.forall_mem_cons.mp areFunctions
      have htail := ih hrest
      cases e with
      | term _ _ | group _ _ _ => simp [Element.token?] at he
      | token t _ =>
          cases t <;> simp_all [Element.token?, pieces, Token.use, blockedBase, UnaryOp.isSign]
      | operator o _ =>
          cases o with
          | unary u =>
              cases u <;> simp_all [Element.token?, Operator.token, UnaryOp.token, pieces,
                blockedBase, UnaryOp.isSign]
          | binary b => cases b <;> simp [Element.token?, Operator.token, BinaryOp.token] at he

private theorem base_of_blockedBase {s : Sequence} (unresolved : ∀ e ∈ s, e.isResolved = false)
    (h : blockedBase (pieces false s) = true) :
    ∃ functions base j rest, s = functions ++ base :: .token .caret j :: rest ∧
      (∀ e ∈ functions, e.token? = some .ln ∨ e.token? = some .log) ∧ base.isTerm = true ∧
      blocked (pieces false rest) = true := by
  induction s with
  | nil => cases h
  | cons e rest ih =>
      obtain ⟨he, hrest⟩ := List.forall_mem_cons.mp unresolved
      cases hterm : e.isTerm with
      | true =>
          obtain ⟨t, _, hpiece⟩ := piece_of_isTerm hterm false
          simp only [pieces, hpiece, blockedBase, hterm, Bool.and_eq_true] at h
          obtain ⟨hstart, hblocked⟩ := h
          cases rest with
          | nil => cases hstart
          | cons e' rest =>
              obtain ⟨he', _⟩ := List.forall_mem_cons.mp hrest
              cases e' with
              | term _ _ | group _ _ _ => cases hstart
              | operator _ _ => cases he'
              | token t' j =>
                  have hcaret : t' = .caret := by
                    cases t' <;> first | rfl | cases hstart
                  subst hcaret
                  exact ⟨[], e, j, rest, rfl, by simp, hterm, hblocked⟩
      | false =>
          cases e with
          | term _ _ | group _ _ _ => cases hterm
          | operator _ _ => cases he
          | token t offset =>
              have hfunction : t = .ln ∨ t = .log := by
                cases t <;> simp_all [pieces, Token.use, blockedBase,
                  UnaryOp.isSign]
              have htail : blockedBase (pieces false rest) = true := by
                cases hfunction with
                | inl ht => subst ht; exact h
                | inr ht => subst ht; exact h
              obtain ⟨functions, base, j, rest', rfl, hfunctions, hbase, hblocked⟩ := ih hrest htail
              refine ⟨.token t offset :: functions, base, j, rest', rfl,
                List.forall_mem_cons.mpr ⟨?_, hfunctions⟩, hbase, hblocked⟩
              simpa [Element.token?] using hfunction

private theorem doomed_of_caret {pre rest : Sequence} {i : Nat}
    (h : blockedBase (pieces false rest) = true) (afterTerm : Bool) :
    doomed (pieces afterTerm (pre ++ .token .caret i :: rest)) = true := by
  rw [pieces_append]
  apply doomed_append
  simp [pieces, Token.use, doomed, h]

private theorem doomed_of_mem {s : Sequence} {e : Element} {t : Term} (mem : e ∈ s)
    (term : e.term? = some t) (h : t.hasLeftPower = true) (afterTerm : Bool) :
    doomed (pieces afterTerm s) = true := by
  obtain ⟨pre, post, rfl⟩ := List.append_of_mem mem
  rw [pieces_append]
  apply doomed_append
  simp [pieces, Element.piece_of_term? term, doomed, h]

/-- A doomed run of tokens and leaves has a blocked power, or a leaf with a bare power as a base. -/
private theorem cases_of_doomed {afterTerm : Bool} {s : Sequence}
    (unresolved : ∀ e ∈ s, e.isResolved = false)
    (leaves : ∀ e ∈ s, ∀ t, e.term? = some t → t.isLeaf = true)
    (h : doomed (pieces afterTerm s) = true) :
    (∃ pre i rest, s = pre ++ .token .caret i :: rest ∧
      blockedBase (pieces false rest) = true) ∨
    ∃ e ∈ s, ∃ t, e.term? = some t ∧ t.hasLeftPower = true := by
  induction s generalizing afterTerm with
  | nil => cases h
  | cons e rest ih =>
      obtain ⟨he, hrest⟩ := List.forall_mem_cons.mp unresolved
      obtain ⟨hleaf, hleaves⟩ := List.forall_mem_cons.mp leaves
      have later (htail : doomed (pieces e.isTerm rest) = true) :
          (∃ pre i rest', e :: rest = pre ++ .token .caret i :: rest' ∧
            blockedBase (pieces false rest') = true) ∨
          ∃ e' ∈ e :: rest, ∃ t, e'.term? = some t ∧ t.hasLeftPower = true := by
        cases ih hrest hleaves htail with
        | inl hcaret =>
            obtain ⟨pre, i, rest', rfl, hblocked⟩ := hcaret
            exact .inl ⟨e :: pre, i, rest', rfl, hblocked⟩
        | inr hterm =>
            obtain ⟨e', hmem, ht⟩ := hterm
            exact .inr ⟨e', List.mem_cons_of_mem e hmem, ht⟩
      cases hterm : e.isTerm with
      | true =>
          obtain ⟨t, ht, hpiece⟩ := piece_of_isTerm hterm afterTerm
          have hnot := Term.isPower_of_isLeaf (hleaf t ht)
          simp only [pieces, hpiece, doomed, hnot, Bool.false_and, Bool.or_false,
            Bool.or_eq_true] at h
          cases h with
          | inl hleft => exact .inr ⟨e, List.mem_cons_self, t, ht, hleft⟩
          | inr htail => exact later htail
      | false =>
          cases e with
          | term _ _ | group _ _ _ => cases hterm
          | operator _ _ => cases he
          | token t offset =>
              simp only [pieces, Element.piece_token, doomed, Bool.or_eq_true, Bool.and_eq_true,
                decide_eq_true_eq] at h
              cases h with
              | inr htail => exact later htail
              | inl hcaret =>
                  obtain ⟨huse, hblocked⟩ := hcaret
                  have ht : t = .caret := by
                    cases t <;> cases afterTerm <;> first | rfl | cases huse
                  subst ht
                  exact .inl ⟨[], offset, rest, rfl, hblocked⟩

/-- What a leaf of a run has to do with powers: nothing, unless it is a group. -/
def LeafPowers (s : Sequence) : Prop :=
  ∀ e ∈ s, ∀ t, e.term? = some t → t.isLeaf = true ∧
    (t.hasLeftPower = true ↔ ∃ body inner offset, e = .group body inner offset ∧ Overtaken body)

theorem hasLeftPower_iff_of_leaves {s : Sequence}
    (unresolved : ∀ e ∈ s, e.isResolved = false) (leaves : LeafPowers s) {t : Term}
    (condenses : s.condense = .ok t) : t.hasLeftPower = true ↔ Overtaken s := by
  have hleaf : ∀ e ∈ s, ∀ t, e.term? = some t → t.isLeaf = true :=
    fun e he t ht => (leaves e he t ht).1
  have hbind : FunctionsBind (pieces false s) := by
    apply functionsBind_of_leaves
    intro t ht
    obtain ⟨e, he, hterm⟩ := term?_of_operand_mem ht
    exact hleaf e he t hterm
  rw [((condense_eq_ok_iff s t).mp condenses).hasLeftPower_eq hbind]
  constructor
  · intro hdoomed
    cases cases_of_doomed unresolved hleaf hdoomed with
    | inl hcaret =>
        obtain ⟨pre, i, rest, rfl, hbase⟩ := hcaret
        have hrest := fun e he => unresolved e
          (List.mem_append_right pre (List.mem_cons_of_mem _ he))
        obtain ⟨functions, base, j, rest', rfl, hfunctions, hisBase, hblocked⟩ :=
          base_of_blockedBase hrest hbase
        obtain ⟨operators, sign, k, post, rfl, hoperators, hsign⟩ := sign_of_blocked
          (fun e he => hrest e (List.mem_append_right functions
            (List.mem_cons_of_mem _ (List.mem_cons_of_mem _ he)))) hblocked
        exact .here hfunctions hisBase hoperators hsign
    | inr hterm =>
        obtain ⟨e, he, t', ht', hleft⟩ := hterm
        obtain ⟨body, inner, offset, rfl, hovertaken⟩ := (leaves e he t' ht').2.mp hleft
        exact .inside he hovertaken
  · intro hovertaken
    cases hovertaken with
    | here areFunctions isBase areOperators isSign =>
        exact doomed_of_caret
          (blockedBase_of_base areFunctions isBase (blocked_of_sign areOperators isSign)) false
    | inside mem overtaken =>
        exact doomed_of_mem mem rfl ((leaves _ mem _ rfl).2.mpr ⟨_, _, _, rfl, overtaken⟩) false

private theorem Spells.leafPowers {offset : Nat} {s : Sequence} {text : List Char}
    (h : Spells offset s text) : LeafPowers s := by
  induction h with
  | nil offset => simp [LeafPowers]
  | leaf blank leaf stands rest ih =>
      refine List.forall_mem_cons.mpr ⟨?_, ih⟩
      intro t ht
      cases leaf with
      | token _ _ => cases ht
      | constant _ _ | numeral _ _ _ =>
          cases ht
          exact ⟨rfl, by simp [Term.hasLeftPower]⟩
  | @group offset body s inner w inside v text _ _ _ _ condenses spells rest ihbody ihrest =>
      refine List.forall_mem_cons.mpr ⟨?_, ihrest⟩
      intro t ht
      cases ht
      have hinner := hasLeftPower_iff_of_leaves spells.unresolved ihbody condenses
      refine ⟨rfl, ?_⟩
      rw [Term.hasLeftPower, hinner]
      constructor
      · intro hovertaken
        exact ⟨body, inner, _, rfl, hovertaken⟩
      · intro hgroup
        obtain ⟨_, _, _, heq, hovertaken⟩ := hgroup
        cases heq
        exact hovertaken

/-- A bare power becomes the base of another exactly if a power of the scanned run is overtaken. -/
theorem hasLeftPower_iff {limit : Option Nat} {session : Session} {s : Sequence} {t : Term}
    (scanned : (Reading.sequence limit).outcome session = .ok (some s))
    (condenses : s.condense = .ok t) : t.hasLeftPower = true ↔ Overtaken s := by
  obtain ⟨text, rest, _, spells⟩ := Reading.spells_of_sequence scanned
  exact hasLeftPower_iff_of_leaves spells.unresolved spells.leafPowers condenses

/-- Plain chains group from the right. -/
theorem hasLeftPower_iff_chain :
    ∃ s t, (Reading.sequence none).outcome (.start "2^3^4") = .ok (some s) ∧
      s.condense = .ok t ∧ (t.hasLeftPower = true ↔ Overtaken s) := by
  have hparse : parse "2^3^4" = .ok (.binary .pow (.numeral ⟨.plus, [2], [], none, by simp⟩)
      (.binary .pow (.numeral ⟨.plus, [3], [], none, by simp⟩)
        (.numeral ⟨.plus, [4], [], none, by simp⟩))) := by
    decide +kernel
  obtain ⟨s, hscan, hcondense⟩ := scan_of_parse hparse
  have hsequence := sequence_of_scan hscan
  exact ⟨s, _, hsequence, hcondense, hasLeftPower_iff hsequence hcondense⟩

/-- The first power is reduced while the second waits for its sign. -/
theorem hasLeftPower_signed_exponent :
    ∃ s t, scan "2^1^-1" = .ok s ∧ s.condense = .ok t ∧ t.hasLeftPower = true := by
  have hparse : parse "2^1^-1" = .ok (.binary .pow
      (.binary .pow (.numeral ⟨.plus, [2], [], none, by simp⟩)
        (.numeral ⟨.plus, [1], [], none, by simp⟩))
      (.unary .minus (.numeral ⟨.plus, [1], [], none, by simp⟩))) := by
    decide +kernel
  obtain ⟨s, hscan, hcondense⟩ := scan_of_parse hparse
  exact ⟨s, _, hscan, hcondense, rfl⟩

end Sequence
end LineCalc

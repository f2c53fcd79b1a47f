import LineCalc.Proofs.RecordOrder

/-!
How many records of each kind there are on a line that has a value, by what its run holds at every
depth. The kinds of the records follow the run in their order, so the counts of an element are those
of its parts and of its own few records. The rounds of a run come after the run, and so are counted
with it and not with its elements.
-/

namespace LineCalc

namespace Element

def isConstant : Element → Bool
  | .term (.constant _) _ => true
  | .term .. | .group .. | .token .. | .operator .. => false

def isNumeral : Element → Bool
  | .term (.numeral _) _ => true
  | .term .. | .group .. | .token .. | .operator .. => false

def isGroup : Element → Bool
  | .group .. => true
  | .term .. | .token .. | .operator .. => false

/-- A group with as many elements as it may hold. -/
def isFullGroup : Element → Bool
  | .group body _ _ => List.length body == groupLimit
  | .term .. | .token .. | .operator .. => false

mutual

/-- The element, and all elements inside it if it is a group. -/
def deep : Element → List Element
  | .group body inner offset => .group body inner offset :: deepAll body
  | .term t offset => [.term t offset]
  | .token t offset => [.token t offset]
  | .operator o offset => [.operator o offset]

def deepAll : List Element → List Element
  | [] => []
  | e :: rest => deep e ++ deepAll rest

end

end Element

namespace Sequence

variable (s : Sequence)

-- each of these counts goes through the groups of the run as well

def tokens : Nat :=
  (Element.deepAll s).countP Element.isToken

def constants : Nat :=
  (Element.deepAll s).countP Element.isConstant

def numerals : Nat :=
  (Element.deepAll s).countP Element.isNumeral

def groups : Nat :=
  (Element.deepAll s).countP Element.isGroup

def fullGroups : Nat :=
  (Element.deepAll s).countP Element.isFullGroup

/-- The runs behind whose last element another one is looked for: the whole run and the runs of all
groups but the full ones. -/
def openRuns : Nat :=
  s.groups + 1 - s.fullGroups

/-- How many records of each kind a line with this run has. -/
def recordCount : Record.Kind → Nat
  | .token | .condensing | .reduced => s.tokens
  | .constant => s.constants
  | .numeral => s.numerals
  | .grouping => s.groups
  | .scanned => s.groups + 1
  | .nothingFound => s.openRuns
  | .restored => s.tokens + 2 * s.constants + 3 * s.numerals + 4 * s.openRuns
  | .evaluated => 1

end Sequence

namespace Element

private def isOpenGroup (e : Element) : Bool :=
  e.isGroup && !e.isFullGroup

private theorem countP_isGroup (es : List Element) :
    es.countP isGroup = es.countP isFullGroup + es.countP isOpenGroup := by
  induction es with
  | nil => rfl
  | cons e rest ih =>
      simp only [List.countP_cons, ih]
      cases e with
      | group body _ _ =>
          cases h : List.length body == groupLimit with
          | true => simp [isGroup, isFullGroup, isOpenGroup, h]; omega
          | false => simp [isGroup, isFullGroup, isOpenGroup, h]; omega
      | term _ _ | token _ _ | operator _ _ => rfl

/-- The records that elements in a row leave, without those inside them. -/
private def tally (es : List Element) : Record.Kind → Nat
  | .token | .condensing | .reduced => es.countP isToken
  | .constant => es.countP isConstant
  | .numeral => es.countP isNumeral
  | .grouping | .scanned => es.countP isGroup
  | .nothingFound => es.countP isOpenGroup
  | .restored =>
    es.countP isToken + 2 * es.countP isConstant + 3 * es.countP isNumeral +
      4 * es.countP isOpenGroup
  | .evaluated => 0

private theorem tally_append (es es' : List Element) (kind : Record.Kind) :
    tally (es ++ es') kind = tally es kind + tally es' kind := by
  cases kind <;> simp only [tally, List.countP_append]
  case restored => omega

private theorem roundKinds_cons (e : Element) (s : Sequence) :
    Sequence.roundKinds (e :: s) = Sequence.roundKinds [e] ++ Sequence.roundKinds s := by
  cases h : e.isToken <;> simp [Sequence.roundKinds, h, List.replicate_succ]

private theorem count_group (body : List Element) (inner : Term) (offset : Nat)
    (kind : Record.Kind) :
    (Sequence.endKinds groupLimit body).count kind + [Record.Kind.scanned].count kind +
        [Record.Kind.grouping].count kind = tally [.group body inner offset] kind := by
  by_cases h : List.length body = groupLimit
  · cases kind <;>
      simp [Sequence.endKinds, tally, isToken, isConstant, isNumeral, isGroup, isOpenGroup,
        isFullGroup, h]
  · cases kind <;>
      simp [Sequence.endKinds, Sequence.missingKinds, tally, isToken, isConstant, isNumeral,
        isGroup, isOpenGroup, isFullGroup, h]

mutual

private theorem count_kinds (kind : Record.Kind) : ∀ e : Element,
    e.kinds.count kind + (Sequence.roundKinds [e]).count kind = tally e.deep kind
  | .group body inner offset => by
      have hbody := count_kindsAll kind body
      have hgroup := count_group body inner offset kind
      have hdeep : deep (.group body inner offset) =
          [.group body inner offset] ++ deepAll body := by
        simp [deep]
      have hrounds : Sequence.roundKinds [.group body inner offset] = [] := rfl
      rw [hdeep, tally_append, hrounds]
      simp only [kinds, List.count_append, List.count_nil]
      omega
  | .term t offset => by cases t <;> cases kind <;> rfl
  | .token t offset => by cases kind <;> rfl
  | .operator o offset => by cases kind <;> rfl

private theorem count_kindsAll (kind : Record.Kind) : ∀ s : List Element,
    (kindsAll s).count kind + (Sequence.roundKinds s).count kind = tally (deepAll s) kind
  | [] => by cases kind <;> rfl
  | e :: rest => by
      have helement := count_kinds kind e
      have hrest := count_kindsAll kind rest
      rw [roundKinds_cons]
      simp only [kindsAll, deepAll, List.count_append, tally_append]
      omega

end

end Element

theorem Sequence.count_lineKinds (s : Sequence) (kind : Record.Kind) :
    s.lineKinds.count kind = s.recordCount kind := by
  have hdeep := Element.count_kindsAll kind s
  have hgroups := Element.countP_isGroup (Element.deepAll s)
  simp only [lineKinds, missingKinds, List.count_append]
  cases kind <;>
    simp [Element.tally, recordCount, tokens, constants, numerals, groups, fullGroups,
      openRuns] at hdeep ⊢ <;>
    omega

/-- Every record of a line with a value is accounted for, and the last one is the report. -/
theorem trace_counts {line : String} {report : Evaluation} (h : evaluate line = .ok report) :
    ∃ s, scan line = .ok s ∧
      (∀ kind, ((trace line).map Record.kind).count kind = s.recordCount kind) ∧
      (trace line).getLast? = some (.evaluated line report) := by
  obtain ⟨s, hscan, hkinds, hlast⟩ := trace_of_evaluate h
  refine ⟨s, hscan, fun kind => ?_, hlast⟩
  rw [hkinds, s.count_lineKinds]

theorem trace_counts_nested :
    ∃ report s, evaluate "2*(pi-(1))" = .ok report ∧ scan "2*(pi-(1))" = .ok s ∧
      (∀ kind, ((trace "2*(pi-(1))").map Record.kind).count kind = s.recordCount kind) ∧
      (trace "2*(pi-(1))").getLast? = some (.evaluated "2*(pi-(1))" report) ∧
      s.recordCount .token = 2 ∧ s.recordCount .nothingFound = 3 ∧
      s.recordCount .restored = 2 + 2 * 1 + 3 * 2 + 4 * 3 := by
  have hscan : scan "2*(pi-(1))" = .ok
      [.term (.numeral ⟨.plus, [2], [], none, by simp⟩) 0, .token .star 1,
        .group
          [.term (.constant .pi) 3, .token .minus 5,
            .group [.term (.numeral ⟨.plus, [1], [], none, by simp⟩) 7]
              (.numeral ⟨.plus, [1], [], none, by simp⟩) 6]
          (.binary .sub (.constant .pi)
            (.grouping (.numeral ⟨.plus, [1], [], none, by simp⟩))) 2] := by
    decide +kernel
  have hparse : parse "2*(pi-(1))" = .ok
      (.binary .mul (.numeral ⟨.plus, [2], [], none, by simp⟩)
        (.grouping (.binary .sub (.constant .pi)
          (.grouping (.numeral ⟨.plus, [1], [], none, by simp⟩))))) := by
    decide +kernel
  have hreport := evaluate_eq "2*(pi-(1))"
  rw [parse, hscan, Step.ok_bind] at hparse
  rw [hscan, Step.ok_bind, hparse, Step.ok_bind] at hreport
  obtain ⟨s, hscan', hcounts, hlast⟩ := trace_counts hreport
  cases hscan.symm.trans hscan'
  exact ⟨_, _, hreport, hscan, hcounts, hlast, rfl, rfl, rfl⟩

end LineCalc

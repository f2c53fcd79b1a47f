import LineCalc.Calculator

/-!
Steps with guards. A guarded computation says of each of its steps when the step has no result:
access needs an index in range, a difference needs a minuend that is large enough, and what is
thought impossible fails where it happens. So a guarded computation that agrees with one in which
every step has some result shows that no guard is ever needed.
-/

namespace LineCalc

/-- Why a guarded computation has no result: a fault that is to be reported, or a step that the
program takes for granted and that went wrong. -/
inductive Failure where
  | fault (f : Fault)
  /-- A branch that is thought impossible was taken. -/
  | unreachable
  | outOfRange
  | underflow
  /-- A run came to nothing when it was condensed. -/
  | noTerm
  /-- A mark was still there at the end. -/
  | unbalanced
deriving DecidableEq, Repr

namespace Guarded

variable {α β ε ε' : Type}

@[simp]
theorem mapError_ok (f : ε → ε') (a : α) : (Except.ok a).mapError f = .ok a := rfl

@[simp]
theorem mapError_error (f : ε → ε') (e : ε) :
    (Except.error e : Except ε α).mapError f = .error (f e) := rfl

def entry (xs : List α) (i : Nat) : Except Failure α :=
  match xs[i]? with
  | some x => .ok x
  | none => .error .outOfRange

/-- The entries from the first index to before the second. -/
def slice (xs : List α) (start stop : Nat) : Except Failure (List α) :=
  if start ≤ stop ∧ stop ≤ xs.length then
    .ok ((xs.drop start).take (stop - start))
  else
    .error .outOfRange

def insert (xs : List α) (i : Nat) (x : α) : Except Failure (List α) :=
  if i ≤ xs.length then .ok (xs.take i ++ x :: xs.drop i) else .error .outOfRange

def minus (m n : Nat) : Except Failure Nat :=
  if n ≤ m then .ok (m - n) else .error .underflow

/-- The entries that pass a guarded test. -/
def keep (test : α → Except Failure Bool) : List α → Except Failure (List α)
  | [] => .ok []
  | x :: xs => do
    let passes ← test x
    let others ← keep test xs
    return if passes then x :: others else others

@[simp]
theorem entry_append (xs : List α) (x : α) (ys : List α) :
    entry (xs ++ x :: ys) xs.length = .ok x := by
  simp [entry]

@[simp]
theorem slice_append (xs ys zs : List α) :
    slice (xs ++ (ys ++ zs)) xs.length (xs.length + ys.length) = .ok ys := by
  simp [slice]

@[simp]
theorem insert_append (xs : List α) (x : α) (ys : List α) :
    insert (xs ++ ys) xs.length x = .ok (xs ++ x :: ys) := by
  simp [insert]

theorem minus_of_le {m n : Nat} (h : n ≤ m) : minus m n = .ok (m - n) :=
  if_pos h

theorem keep_eq_ok {test : α → Except Failure Bool} {p : α → Bool} {xs : List α}
    (h : ∀ x ∈ xs, test x = .ok (p x)) : keep test xs = .ok (xs.filter p) := by
  induction xs with
  | nil => rfl
  | cons x xs ih =>
      obtain ⟨hx, hxs⟩ := List.forall_mem_cons.mp h
      simp only [keep, hx, ih hxs, List.filter_cons]
      rfl

theorem keep_map (test : β → Except Failure Bool) (f : α → β) (xs : List α) :
    keep test (xs.map f) = (keep (test ∘ f) xs).map (List.map f) := by
  induction xs with
  | nil => rfl
  | cons x xs ih =>
      simp only [List.map_cons, keep, ih, Function.comp]
      cases test (f x) with
      | error _ => rfl
      | ok passes => cases keep (test ∘ f) xs <;> cases passes <;> rfl

end Guarded
end LineCalc

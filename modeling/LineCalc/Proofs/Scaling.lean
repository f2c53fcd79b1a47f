import LineCalc.Proofs.Magnitude

/-!
The exponent of a numeral. Its steps are counted with a greatest count and end early at a number
that further factors leave as it is, and neither is to be seen in the value: it is what comes out
when as many factors are multiplied, one after the other, as the digits of the exponent say. Counts
that are cut off change nothing because no number is moved by that many factors.
-/

namespace LineCalc

namespace Exponent

/-- To cut the count off at every digit is to cut it off at the end. -/
theorem steps_eq (x : Exponent) : x.steps = min (Digit.valueOf x.digits) maxSteps := by
  have hstep (n : Nat) (d : Digit) : min (min (min n maxSteps * 10) maxSteps + d.val) maxSteps =
      min (n * 10 + d.val) maxSteps := by
    omega
  have hstart : min 0 maxSteps = 0 := Nat.zero_min maxSteps
  calc x.steps
      = x.digits.foldl (fun n d => min (min (n * 10) maxSteps + d.val) maxSteps)
          (min 0 maxSteps) := by rw [hstart, steps]
    _ = min (Digit.valueOf x.digits) maxSteps := List.foldl_hom (min · maxSteps) hstep

variable {v : Float}

theorem mul_factor_eq_self (x : Exponent) (h : Binary64.height v = 0) : v * x.factor = v := by
  obtain ⟨sign, digits, nonempty⟩ := x
  cases sign with
  | plus => exact Binary64.mul_eq_self Binary64.unpack_ten h
  | minus => exact Binary64.mul_eq_self Binary64.unpack_tenth h

theorem exists_iterate_mul_factor (x : Exponent) (v : Float) :
    ∃ k ≤ maxSteps, Binary64.height ((· * x.factor)^[k] v) = 0 := by
  obtain ⟨sign, digits, nonempty⟩ := x
  cases sign with
  | plus =>
      obtain ⟨k, hk, hzero⟩ := Binary64.exists_iterate_mul_ten v
      exact ⟨k, Nat.le_sub_one_of_lt hk, hzero⟩
  | minus =>
      obtain ⟨k, hk, hzero⟩ := Binary64.exists_iterate_mul_tenth v
      exact ⟨k, Nat.le_sub_one_of_lt hk, hzero⟩

end Exponent

namespace Numeral

/-- The factors end early only at a zero or an infinity. -/
theorem height_of_unscaled {v : Float} (h : (v == 0.0 || v.isInf) = true) :
    Binary64.height v = 0 := by
  have hzero : (0.0 : Float).toModel.unpack = .zero .positive := rfl
  have hcases : v.toModel.unpack.beq (.zero .positive) = true ∨ v.toModel.unpack.isInf = true := by
    rw [← hzero]
    exact Bool.or_eq_true_iff.mp h
  rw [Binary64.height]
  cases hv : v.toModel.unpack with
  | infinity _ | notANumber | zero _ => rfl
  | finite s m e pos =>
      rw [hv] at hcases
      cases s <;> simp [Float.Model.UnpackedFloat.beq, Float.Model.UnpackedFloat.compare,
        Float.Model.UnpackedFloat.isInf] at hcases

theorem scale_eq_iterate (x : Exponent) (count : Nat) (v : Float) :
    scale x.factor count v = (· * x.factor)^[count] v := by
  induction count generalizing v with
  | zero => rfl
  | succ count ih =>
      rw [scale]
      split
      next h =>
        have hfixed := x.mul_factor_eq_self (height_of_unscaled h)
        exact (Function.iterate_fixed hfixed (count + 1)).symm
      next => exact ih (v * x.factor)

/-- Beyond the greatest count nothing is moved any more. -/
theorem iterate_min (x : Exponent) (count : Nat) (v : Float) :
    (· * x.factor)^[min count Exponent.maxSteps] v = (· * x.factor)^[count] v := by
  obtain ⟨k, hk, hzero⟩ := x.exists_iterate_mul_factor v
  have hfixed := x.mul_factor_eq_self hzero
  have hstay (n : Nat) (hn : k ≤ n) :
      (· * x.factor)^[n] v = (· * x.factor)^[k] v := by
    rw [← Nat.sub_add_cancel hn, Function.iterate_add_apply]
    exact Function.iterate_fixed hfixed (n - k)
  cases Nat.le_total count Exponent.maxSteps with
  | inl hle => rw [Nat.min_eq_left hle]
  | inr hge => rw [Nat.min_eq_right hge, hstay _ hk, hstay _ (Nat.le_trans hk hge)]

variable {n : Numeral} {x : Exponent}

/-- The steps of an exponent are the number that its digits stand for, up to the greatest count,
and the value has exactly that number of factors, without a bound. -/
theorem value_eq_iterate (exponent : n.exponent = some x) :
    x.steps = min (Digit.valueOf x.digits) (2 ^ 64 - 1) ∧
      (x.sign = .plus → n.value = (· * 10.0)^[Digit.valueOf x.digits] n.mantissa) ∧
      (x.sign = .minus → n.value = (· * 0.1)^[Digit.valueOf x.digits] n.mantissa) := by
  have hvalue : n.value = (· * x.factor)^[Digit.valueOf x.digits] n.mantissa := by
    rw [value, exponent]
    exact (scale_eq_iterate x x.steps n.mantissa).trans (by rw [x.steps_eq, iterate_min])
  refine ⟨x.steps_eq, ?_, ?_⟩
  · intro hsign
    rw [hvalue, Exponent.factor, hsign]
  · intro hsign
    rw [hvalue, Exponent.factor, hsign]

/-- An exponent with leading zeros and more steps than are counted, which leaves a negative zero. -/
theorem value_eq_iterate_underflow :
    ∃ n x, Numeral.text n = "-12.50E-0099999999999999999999" ∧ n.exponent = some x ∧
      x.steps = 18446744073709551615 ∧
      n.value = (· * 0.1)^[99999999999999999999] n.mantissa ∧
      n.value.toBits = 0x8000000000000000 := by
  obtain ⟨hsteps, _, hvalue⟩ := value_eq_iterate
    (n := ⟨.minus, [1, 2], [5, 0], some ⟨.minus, 0 :: 0 :: List.replicate 20 9, by decide⟩,
      by decide⟩) rfl
  exact ⟨_, _, by rfl, rfl, hsteps, hvalue rfl, by decide +kernel⟩

end Numeral
end LineCalc

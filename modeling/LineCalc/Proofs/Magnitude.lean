import Mathlib
import LineCalc.Numeral.Basic

/-!
What the two factors of an exponent do to a floating-point number. A finite number other than zero
is stored as a mantissa of at most 53 bits over an exponent, and the two say how high it stands
among the numbers of its sign. A tenth of a number stands lower, ten times a number stands higher
unless it is infinite, and there are fewer than two to the power 64 places to stand. So repeated
factors of one kind come to a number that more of them leave as it is: to a zero, to an infinity, or
to what is not a number. How a number is laid out in its bits is taken from the library on the model
of floats, which only the whole of Mathlib brings in.
-/

namespace LineCalc
namespace Binary64

open Float.Model Float.Model.UnpackedFloat

/-- A mantissa over an exponent as it is stored: all 53 bits are in use, unless the exponent is the
least there is. -/
structure Stored (m : Nat) (e : Int) : Prop where
  fits : m < 2 ^ 53
  least : -1074 ≤ e
  full : e = -1074 ∨ 2 ^ 52 ≤ m

theorem mantissa_shiftRight (em : ExtendedMantissa) (k : Nat) :
    (em >>> k).mantissa = em.mantissa / 2 ^ k := by
  induction k with
  | zero => exact (Nat.div_one em.mantissa).symm
  | succ k ih =>
      change (em >>> k).mantissa / 2 = _
      rw [ih, Nat.div_div_eq_div_mul, Nat.pow_succ]

theorem roundedMantissa_bounds (em : ExtendedMantissa) :
    em.mantissa ≤ em.roundedMantissa ∧ em.roundedMantissa ≤ em.mantissa + 1 := by
  obtain ⟨m, roundBit, stickyBit⟩ := em
  cases roundBit <;> cases stickyBit <;>
    simp only [ExtendedMantissa.roundedMantissa, ExtendedMantissa.accuracy,
      Accuracy.roundToNearestEven] <;> omega

/-- The exponent that a mantissa over an exponent is rounded to. -/
def unit (m : Nat) (e : Int) : Int :=
  max (m.log2 + e - 52) (-1074)

theorem targetExponent_eq (m : Nat) (e : Int) :
    Format.binary64.targetExponent (totalExponent m e) = unit m e := by
  simp only [Format.targetExponent, totalExponent, Format.mantissaBits, Format.minExponent, unit]
  norm_num
  omega

theorem shiftToTargetExponent_eq (m : Nat) (e : Int) :
    ∃ em, shiftToTargetExponent .binary64 m e .exact = (em, e + (unit m e - e).toNat) ∧
      em.mantissa = m / 2 ^ (unit m e - e).toNat := by
  refine ⟨_, ?_, mantissa_shiftRight ⟨m, false, false⟩ _⟩
  rw [← targetExponent_eq]
  rfl

/-- After rounding, a mantissa that has got one bit too many loses it again. -/
theorem shift_rounded {r : Nat} {e : Int} (bounded : r ≤ 2 ^ 53) (least : -1074 ≤ e) :
    ∃ em, em.mantissa = (if r < 2 ^ 53 then r else 2 ^ 52) ∧
      shiftToTargetExponent .binary64 r e .exact = (em, if r < 2 ^ 53 then e else e + 1) := by
  obtain ⟨em, hshift, hmantissa⟩ := shiftToTargetExponent_eq r e
  refine ⟨em, ?_⟩
  by_cases h : r < 2 ^ 53
  · have hlog : r.log2 ≤ 52 := by
      by_cases hr : r = 0
      · simp [hr]
      · exact Nat.le_of_lt_succ ((Nat.log2_lt hr).mpr h)
    have hstay : (unit r e - e).toNat = 0 := by simp only [unit]; omega
    rw [if_pos h, if_pos h, hshift, hmantissa, hstay]
    exact ⟨Nat.div_one r, by simp⟩
  · obtain rfl : r = 2 ^ 53 := by omega
    have hone : (unit (2 ^ 53) e - e).toNat = 1 := by
      simp only [unit, Nat.log2_two_pow]
      omega
    rw [if_neg h, if_neg h, hshift, hmantissa, hone]
    exact ⟨by norm_num, rfl⟩

/-- What a mantissa over an exponent may be rounded to: over the exponent of its rounding, one of
the two mantissas next to it, or the least over the next exponent if that would be too large. -/
inductive Rounds (m : Nat) (e : Int) (m' : Nat) : Int → Prop where
  | next (above : m / 2 ^ (unit m e - e).toNat ≤ m')
      (below : m' ≤ m / 2 ^ (unit m e - e).toNat + 1) : Rounds m e m' (unit m e)
  | carried (full : 2 ^ 53 ≤ m / 2 ^ (unit m e - e).toNat + 1) (least : m' = 2 ^ 52) :
      Rounds m e m' (unit m e + 1)

theorem div_unit_lt (m : Nat) (e : Int) : m / 2 ^ (unit m e - e).toNat < 2 ^ 53 := by
  rw [Nat.div_lt_iff_lt_mul (Nat.two_pow_pos _), ← Nat.pow_add]
  refine Nat.lt_of_lt_of_le Nat.lt_log2_self (Nat.pow_le_pow_right Nat.two_pos ?_)
  simp only [unit]
  omega

theorem le_div_unit {m : Nat} (wide : 2 ^ 52 ≤ m) (e : Int) :
    unit m e = -1074 ∨ 2 ^ 52 ≤ m / 2 ^ (unit m e - e).toNat := by
  have hm : m ≠ 0 := by omega
  by_cases h : unit m e = -1074
  · exact .inl h
  · right
    rw [Nat.le_div_iff_mul_le (Nat.two_pow_pos _), ← Nat.pow_add]
    refine Nat.le_trans (Nat.pow_le_pow_right Nat.two_pos ?_) (Nat.log2_self_le hm)
    have hlog : 52 ≤ m.log2 := (Nat.le_log2 hm).mpr wide
    simp only [unit] at h ⊢
    omega

/-- A mantissa that is wide enough is rounded to a stored one, or to zero. -/
theorem roundWithAccuracy_cases {m : Nat} (wide : 2 ^ 52 ≤ m) (s : UnpackedFloat.Sign) (e : Int) :
    roundWithAccuracy .binary64 s m e .exact = .zero s ∨
      ∃ m' e' pos, roundWithAccuracy .binary64 s m e .exact = .finite s m' e' pos ∧
        Stored m' e' ∧ Rounds m e m' e' := by
  obtain ⟨em, hshift, hmantissa⟩ := shiftToTargetExponent_eq m e
  obtain ⟨hlower, hupper⟩ := roundedMantissa_bounds em
  rw [hmantissa] at hlower hupper
  have hlt := div_unit_lt m e
  have hfull := le_div_unit wide e
  have hexponent : e + (unit m e - e).toNat = unit m e := by
    have hlog : 52 ≤ m.log2 := (Nat.le_log2 (by omega)).mpr wide
    simp only [unit]
    omega
  have hleast : -1074 ≤ unit m e := Int.le_max_right _ _
  rw [hexponent] at hshift
  obtain ⟨em', hmantissa', hshift'⟩ := shift_rounded (r := em.roundedMantissa) (by omega) hleast
  have hround : roundWithAccuracy .binary64 s m e .exact =
      if h : em'.mantissa = 0 then .zero s
      else .finite s em'.mantissa (if em.roundedMantissa < 2 ^ 53 then unit m e else unit m e + 1)
        (Nat.pos_of_ne_zero h) := by
    simp only [roundWithAccuracy, hshift, hshift']
  rw [hround]
  split
  next => exact .inl rfl
  next h =>
    refine .inr ⟨_, _, Nat.pos_of_ne_zero h, rfl, ?_⟩
    rw [hmantissa']
    by_cases hr : em.roundedMantissa < 2 ^ 53
    · simp only [hr, if_true]
      exact ⟨⟨hr, hleast, by omega⟩, .next hlower hupper⟩
    · simp only [hr, if_false]
      exact ⟨⟨by omega, by omega, .inr (Nat.le_refl _)⟩, .carried (by omega) rfl⟩

theorem toNat_implicit (v : BitVec 52) : (1#1 ++ v).toNat = 2 ^ 52 + v.toNat := by
  rw [BitVec.toNat_append, ← Nat.shiftLeft_add_eq_or_of_lt v.isLt]
  rfl

theorem stored_of_unpack {b : BitVec Format.binary64.numBits} {s : UnpackedFloat.Sign} {m : Nat}
    {e : Int} {pos : 0 < m} (h : UnpackedFloat.unpack .binary64 b = .finite s m e pos) :
    Stored m e ∧ e ≤ 971 := by
  have hmantissa : (unpackMantissa b).toNat < 2 ^ 52 := (unpackMantissa b).isLt
  have hexponent : (unpackExponent b).toNat < 2 ^ 11 := (unpackExponent b).isLt
  have hbias : ((Format.binary64.exponentBias : Nat) : Int) = 1023 := rfl
  simp only [UnpackedFloat.unpack] at h
  split at h
  next => split at h <;> cases h
  next hones =>
    split at h
    next hzero =>
      split at h
      next => cases h
      next =>
        cases h
        rw [hzero, hbias]
        refine ⟨⟨by omega, ?_, .inl ?_⟩, ?_⟩ <;> simp
    next hzero =>
      cases h
      have hlow : (unpackExponent b).toNat ≠ 0 := fun h => hzero (BitVec.eq_of_toNat_eq h)
      have hhigh : (unpackExponent b).toNat ≠ 2047 := fun h => hones (BitVec.eq_of_toNat_eq h)
      rw [toNat_implicit, hbias]
      exact ⟨⟨by omega, by omega, .inr (by omega)⟩, by omega⟩

theorem unpack_subnormal (s : UnpackedFloat.Sign) {v : BitVec 52} (pos : 0 < v.toNat) :
    UnpackedFloat.unpack .binary64 (packComponents .binary64 s 0#11 v) =
      .finite s v.toNat (-1074) pos := by
  have hv : v ≠ 0#52 := fun h => by simp [h] at pos
  have hbias : Format.binary64.exponentBias = 1023 := rfl
  simp [UnpackedFloat.unpack, hv, hbias]

theorem unpack_normal (s : UnpackedFloat.Sign) {exponent : BitVec 11} (v : BitVec 52)
    (least : exponent.toNat ≠ 0) (greatest : exponent.toNat ≠ 2047) (pos : 0 < 2 ^ 52 + v.toNat) :
    UnpackedFloat.unpack .binary64 (packComponents .binary64 s exponent v) =
      .finite s (2 ^ 52 + v.toNat) (exponent.toNat - 1075) pos := by
  have hzero : exponent ≠ 0#11 := fun h => by simp [h] at least
  have hones : exponent ≠ -1#11 := fun h => by simp [h] at greatest
  have hbias : Format.binary64.exponentBias = 1023 := rfl
  simp only [UnpackedFloat.unpack, unpackExponent_packComponents, unpackMantissa_packComponents,
    hzero, hones, if_false, unpackSign_packComponents, Sign.ofBitVec_toBitVec, toNat_implicit,
    hbias]
  rfl

/-- A stored number is read back, or it was too large and has become infinite. -/
theorem unpack_pack {m : Nat} {e : Int} (h : Stored m e) (s : UnpackedFloat.Sign) (pos : 0 < m) :
    UnpackedFloat.unpack .binary64 (UnpackedFloat.pack .binary64 (.finite s m e pos)) =
        .finite s m e pos ∨
      UnpackedFloat.unpack .binary64 (UnpackedFloat.pack .binary64 (.finite s m e pos)) =
        .infinity s := by
  obtain ⟨fits, least, full⟩ := h
  have hbias : ((Format.binary64.exponentBias : Nat) : Int) = 1023 := rfl
  have hbits : Format.binary64.mantissaBits = 53 := rfl
  have hplace : e + 1023 + ((52 : Nat) : Int) = e + 1075 := by omega
  simp only [UnpackedFloat.pack, hbias, hbits, hplace]
  split
  next =>
    right
    simp [UnpackedFloat.unpack, packedInfinity]
  next hfinite =>
    left
    split
    next hlog =>
      have hnormal : 2 ^ 52 ≤ m := (Nat.le_log2 (by omega)).mp (by omega)
      have hmantissa : 2 ^ 52 + (BitVec.ofNat 52 m).toNat = m := by
        rw [BitVec.toNat_ofNat]
        omega
      have hexponent : (BitVec.ofNat 11 (e + 1075).toNat).toNat = (e + 1075).toNat := by
        rw [BitVec.toNat_ofNat]
        omega
      rw [unpack_normal s _ (by omega) (by omega) (by omega), hexponent]
      congr 1
      omega
    next hlog =>
      have hsubnormal : m < 2 ^ 52 := by
        rw [← Nat.log2_lt (by omega)]
        have := (Nat.log2_lt (by omega)).mpr fits
        omega
      have hmantissa : (BitVec.ofNat 52 m).toNat = m := by
        rw [BitVec.toNat_ofNat]
        omega
      rw [unpack_subnormal s (by omega)]
      congr 1
      omega

/-- How high a number stands among the finite ones of its sign. A zero, an infinity and what is not
a number do not stand among them. -/
def height (x : Float) : Nat :=
  match x.toModel.unpack with
  | .finite _ m e _ => (e + 1074).toNat * 2 ^ 53 + m
  | .infinity _ | .notANumber | .zero _ => 0

theorem height_eq {x : Float} {s : UnpackedFloat.Sign} {m : Nat} {e : Int} {pos : 0 < m}
    (h : x.toModel.unpack = .finite s m e pos) : height x = (e + 1074).toNat * 2 ^ 53 + m := by
  rw [height, h]

theorem exists_finite_of_height {x : Float} (h : height x ≠ 0) :
    ∃ s m e pos, x.toModel.unpack = .finite s m e pos := by
  cases hx : x.toModel.unpack with
  | finite s m e pos => exact ⟨s, m, e, pos, rfl⟩
  | infinity _ | notANumber | zero _ => simp [height, hx] at h

theorem height_lt (x : Float) : height x < 2046 * 2 ^ 53 := by
  by_cases h : height x = 0
  · rw [h]
    decide
  · obtain ⟨s, m, e, pos, hx⟩ := exists_finite_of_height h
    obtain ⟨⟨fits, least, _⟩, greatest⟩ := stored_of_unpack hx
    rw [height_eq hx]
    omega

section Product

variable {x factor : Float} {c : Nat} {d : Int} {wide : 0 < c}

/-- Only a finite number other than zero is changed by a factor. -/
theorem mul_eq_self (hfactor : factor.toModel.unpack = .finite .positive c d wide)
    (h : height x = 0) : x * factor = x := by
  have hsame : UnpackedFloat.mul .binary64 x.toModel.unpack factor.toModel.unpack =
      x.toModel.unpack := by
    rw [hfactor]
    cases hx : x.toModel.unpack with
    | finite s m e pos =>
        rw [height_eq hx] at h
        omega
    | notANumber => rfl
    | infinity s | zero s => cases s <;> rfl
  rw [← Float.toBits_inj]
  apply UInt64.eq_of_toBitVec_eq
  change UnpackedFloat.pack .binary64 (UnpackedFloat.mul .binary64 _ _) = _
  rw [hsame]
  exact pack_unpack_of_valid x.toModel.valid

theorem unpack_mul (x y : Float) :
    (x * y).toModel.unpack = UnpackedFloat.unpack .binary64 (UnpackedFloat.pack .binary64
      (UnpackedFloat.mul .binary64 x.toModel.unpack y.toModel.unpack)) := rfl

theorem height_mul {s : UnpackedFloat.Sign} {m : Nat} {e : Int} {pos : 0 < m}
    (hx : x.toModel.unpack = .finite s m e pos)
    (hfactor : factor.toModel.unpack = .finite .positive c d wide) (normal : 2 ^ 52 ≤ c) :
    height (x * factor) = 0 ∨ ∃ m' e', height (x * factor) = (e' + 1074).toNat * 2 ^ 53 + m' ∧
      Stored m' e' ∧ Rounds (m * c) (e + d) m' e' := by
  have hproduct : (x * factor).toModel.unpack = UnpackedFloat.unpack .binary64
      (UnpackedFloat.pack .binary64
        (roundWithAccuracy .binary64 (s * .positive) (m * c) (e + d) .exact)) := by
    rw [unpack_mul, hx, hfactor]
    rfl
  have hwide : 2 ^ 52 ≤ m * c := Nat.le_trans normal (Nat.le_mul_of_pos_left c pos)
  cases roundWithAccuracy_cases hwide (s * .positive) (e + d) with
  | inl hzero =>
      rw [hzero] at hproduct
      left
      rw [height, hproduct, UnpackedFloat.pack, unpack_packedZero]
  | inr hfinite =>
      obtain ⟨m', e', pos', hround, stored, rounds⟩ := hfinite
      rw [hround] at hproduct
      cases unpack_pack stored (s * .positive) pos' with
      | inl hsame => exact .inr ⟨m', e', height_eq (hproduct.trans hsame), stored, rounds⟩
      | inr hinfinite =>
          left
          rw [height, hproduct, hinfinite]

end Product

theorem unpack_ten : (10.0 : Float).toModel.unpack =
    .finite .positive (5 * 2 ^ 50) (-49) (by decide) := rfl

theorem unpack_tenth : (0.1 : Float).toModel.unpack =
    .finite .positive 7205759403792794 (-56) (by decide) := rfl

/-- Ten times a number stands higher. -/
theorem lt_height_mul_ten {x : Float} (h : height x ≠ 0) :
    height (x * 10.0) = 0 ∨ height x < height (x * 10.0) := by
  obtain ⟨s, m, e, pos, hx⟩ := exists_finite_of_height h
  obtain ⟨⟨fits, least, full⟩, _⟩ := stored_of_unpack hx
  refine (height_mul hx unpack_ten (by decide)).imp_right ?_
  rintro ⟨m', e', hheight, stored, rounds⟩
  have hlog : m.log2 + 52 ≤ (m * (5 * 2 ^ 50)).log2 := by
    rw [Nat.le_log2 (by omega), Nat.pow_add]
    have := Nat.log2_self_le (n := m) (by omega)
    omega
  have hnormal : 2 ^ 52 ≤ m → 52 ≤ m.log2 := (Nat.le_log2 (by omega)).mpr
  rw [hheight, height_eq hx]
  cases rounds with
  | carried _ least' =>
      simp only [unit]
      omega
  | next above _ =>
      by_cases hplace : unit (m * (5 * 2 ^ 50)) (e + -49) = e
      · -- over the same exponent the mantissa itself is ten times as large
        have hshift : (unit (m * (5 * 2 ^ 50)) (e + -49) - (e + -49)).toNat = 49 := by omega
        rw [hshift] at above
        rw [hplace]
        omega
      · simp only [unit] at hplace ⊢
        omega

/-- A tenth of the least number is rounded to zero. -/
theorem height_least_mul_tenth {x : Float} {s : UnpackedFloat.Sign} {pos : 0 < 1}
    (hx : x.toModel.unpack = .finite s 1 (-1074) pos) : height (x * 0.1) = 0 := by
  have hzero : UnpackedFloat.mul .binary64 (.finite s 1 (-1074) pos)
      (.finite .positive 7205759403792794 (-56) (by decide)) = .zero s := by
    cases s <;> rfl
  rw [height, unpack_mul, hx, unpack_tenth, hzero, UnpackedFloat.pack, unpack_packedZero]

/-- A tenth of a number stands lower. -/
theorem height_mul_tenth_lt {x : Float} (h : height x ≠ 0) : height (x * 0.1) < height x := by
  obtain ⟨s, m, e, pos, hx⟩ := exists_finite_of_height h
  obtain ⟨⟨fits, least, full⟩, _⟩ := stored_of_unpack hx
  by_cases hleast : m = 1 ∧ e = -1074
  · obtain ⟨rfl, rfl⟩ := hleast
    have hzero := height_least_mul_tenth hx
    omega
  cases height_mul hx unpack_tenth (by decide) with
  | inl hzero => omega
  | inr hfinite =>
      obtain ⟨m', e', hheight, ⟨fits', least', _⟩, rounds⟩ := hfinite
      have hlog : (m * 7205759403792794).log2 < 106 := by
        rw [Nat.log2_lt (by omega)]
        omega
      rw [hheight, height_eq hx]
      by_cases hdown : unit (m * 7205759403792794) (e + -56) ≤ e - 2
      · cases rounds <;> omega
      · -- next to the least exponent it is the mantissa that becomes smaller
        have hplace : unit (m * 7205759403792794) (e + -56) = -1074 := by
          simp only [unit] at hdown ⊢
          omega
        obtain rfl | rfl : e = -1074 ∨ e = -1073 := by omega
        · have hshift : (-1074 - (-1074 + -56) : Int).toNat = 56 := rfl
          cases rounds with
          | carried full' _ =>
              rw [hplace, hshift] at full'
              omega
          | next _ below =>
              rw [hplace, hshift] at below
              omega
        · have hshift : (-1074 - (-1073 + -56) : Int).toNat = 55 := rfl
          cases rounds with
          | carried full' _ =>
              rw [hplace, hshift] at full'
              omega
          | next _ _ => omega

/-- A number that each step moves the same way is moved only so often. -/
theorem exists_iterate_height_eq_zero (step : Float → Float) (rank : Float → Nat)
    (moves : ∀ x, height x ≠ 0 → height (step x) = 0 ∨ rank (step x) < rank x) (x : Float) :
    ∃ k ≤ rank x + 1, height (step^[k] x) = 0 := by
  by_cases hx : height x = 0
  · exact ⟨0, Nat.zero_le _, hx⟩
  · cases moves x hx with
    | inl hstep => exact ⟨1, Nat.le_add_left 1 _, hstep⟩
    | inr hlt =>
        obtain ⟨k, hk, hzero⟩ := exists_iterate_height_eq_zero step rank moves (step x)
        exact ⟨k + 1, by omega, hzero⟩
termination_by rank x

theorem exists_iterate_mul_tenth (x : Float) : ∃ k < 2 ^ 64, height ((· * 0.1)^[k] x) = 0 := by
  obtain ⟨k, hk, hzero⟩ := exists_iterate_height_eq_zero (· * 0.1) height
    (fun x hx => .inr (height_mul_tenth_lt hx)) x
  have hlt := height_lt x
  exact ⟨k, by omega, hzero⟩

theorem exists_iterate_mul_ten (x : Float) : ∃ k < 2 ^ 64, height ((· * 10.0)^[k] x) = 0 := by
  have moves (x : Float) (hx : height x ≠ 0) :
      height (x * 10.0) = 0 ∨ 2046 * 2 ^ 53 - height (x * 10.0) < 2046 * 2 ^ 53 - height x := by
    refine (lt_height_mul_ten hx).imp_right fun hlt => ?_
    have hbound := height_lt (x * 10.0)
    omega
  obtain ⟨k, hk, hzero⟩ := exists_iterate_height_eq_zero (· * 10.0)
    (fun x => 2046 * 2 ^ 53 - height x) moves x
  exact ⟨k, by omega, hzero⟩

end Binary64
end LineCalc

import Mathlib.Tactic.Ring
import Zapatos.Types.Error

namespace Zapatos.Aggregator

inductive BoundedMathError where
  | Overflow
  | Underflow
deriving DecidableEq

instance : Repr BoundedMathError where
  reprPrec e _ := match e with
    | .Overflow => "Overflow"
    | .Underflow => "Underflow"

abbrev BoundedMathResult (T : Type) := Except BoundedMathError T

def ok_overflow {T : Type} : BoundedMathResult T → BoundedMathResult (Option T)
  | .ok value => .ok (some value)
  | .error .Overflow => .ok none
  | .error .Underflow => .error .Underflow

def ok_underflow {T : Type} : BoundedMathResult T → BoundedMathResult (Option T)
  | .ok value => .ok (some value)
  | .error .Overflow => .error .Overflow
  | .error .Underflow => .ok none

def negate_error {T : Type} (result : BoundedMathResult T) : BoundedMathResult T :=
  result.mapError fun
    | .Overflow => .Underflow
    | .Underflow => .Overflow

inductive SignedU128 where
  | Positive (value : ℕ)
  | Negative (value : ℕ)
deriving DecidableEq, Repr

namespace SignedU128

def is_zero : SignedU128 → Bool
  | .Positive value | .Negative value => value == 0

def minus : SignedU128 → SignedU128
  | .Positive value => .Negative value
  | .Negative value => .Positive value

def abs : SignedU128 → ℕ
  | .Positive value | .Negative value => value

-- The signed value a delta stands for.
def toInt : SignedU128 → ℤ
  | .Positive value => value
  | .Negative value => -value

@[simp] theorem toInt_positive (v : ℕ) : (Positive v).toInt = v := rfl

@[simp] theorem toInt_negative (v : ℕ) : (Negative v).toInt = -v := rfl

@[simp] theorem toInt_minus (d : SignedU128) : d.minus.toInt = -d.toInt := by
  cases d <;> simp [minus]

@[simp] theorem abs_minus (d : SignedU128) : d.minus.abs = d.abs := by
  cases d <;> rfl

theorem natAbs_toInt (d : SignedU128) : d.toInt.natAbs = d.abs := by
  cases d <;> simp [abs]

end SignedU128

-- Unsigned operations stay in [0, max_value]; signed ones in [-max_value, max_value].
structure BoundedMath where
  max_value : ℕ
deriving DecidableEq, Repr

namespace BoundedMath

open SignedU128

def new (max_value : ℕ) : BoundedMath := ⟨max_value⟩

def get_max_value (math : BoundedMath) : ℕ := math.max_value

def unsigned_add (math : BoundedMath) (base value : ℕ) : BoundedMathResult ℕ :=
  if math.max_value < base ∨ value > math.max_value - base then .error .Overflow
  else .ok (base + value)

def unsigned_subtract (_math : BoundedMath) (base value : ℕ) : BoundedMathResult ℕ :=
  if value > base then .error .Underflow else .ok (base - value)

def unsigned_add_delta (math : BoundedMath) (base : ℕ) : SignedU128 → BoundedMathResult ℕ
  | .Positive value => math.unsigned_add base value
  | .Negative value => math.unsigned_subtract base value

-- The update_different_sign macro of signed_add: a - b with the sign of the larger side.
def update_different_sign (math : BoundedMath) (a b : ℕ) : BoundedMathResult SignedU128 :=
  if a ≥ b then Positive <$> math.unsigned_subtract a b
  else Negative <$> math.unsigned_subtract b a

def signed_add (math : BoundedMath) : SignedU128 → SignedU128 → BoundedMathResult SignedU128
  | .Positive v1, .Positive v2 => Positive <$> math.unsigned_add v1 v2
  | .Positive v1, .Negative v2 => math.update_different_sign v1 v2
  | .Negative v1, .Positive v2 => math.update_different_sign v2 v1
  | .Negative v1, .Negative v2 => Negative <$> negate_error (math.unsigned_add v1 v2)

variable {math : BoundedMath} {base value r : ℕ} {d : SignedU128}

@[simp] theorem new_max_value (m : ℕ) : (new m).max_value = m := rfl

theorem unsigned_add_eq_ok :
    math.unsigned_add base value = .ok r ↔ base + value ≤ math.max_value ∧ r = base + value := by
  unfold unsigned_add
  split
  · simp only [reduceCtorEq, false_iff]
    omega
  · simp only [Except.ok.injEq]
    omega

theorem unsigned_add_eq_error {e : BoundedMathError} :
    math.unsigned_add base value = .error e ↔ math.max_value < base + value ∧ e = .Overflow := by
  unfold unsigned_add
  split
  · simp only [Except.error.injEq]
    constructor
    · rintro rfl
      exact ⟨by omega, rfl⟩
    · rintro ⟨-, rfl⟩
      rfl
  · simp only [reduceCtorEq, false_iff, not_and]
    omega

theorem unsigned_subtract_eq_ok :
    math.unsigned_subtract base value = .ok r ↔ value ≤ base ∧ r = base - value := by
  unfold unsigned_subtract
  split
  · simp only [reduceCtorEq, false_iff]
    omega
  · simp only [Except.ok.injEq]
    omega

theorem unsigned_subtract_eq_error {e : BoundedMathError} :
    math.unsigned_subtract base value = .error e ↔ base < value ∧ e = .Underflow := by
  unfold unsigned_subtract
  split
  · simp only [Except.error.injEq]
    constructor
    · rintro rfl
      exact ⟨by omega, rfl⟩
    · rintro ⟨-, rfl⟩
      rfl
  · simp only [reduceCtorEq, false_iff, not_and]
    omega

-- A delta is applied to a base of at most max_value exactly when the sum stays in
-- [0, max_value].
theorem unsigned_add_delta_eq_ok (hb : base ≤ math.max_value) :
    math.unsigned_add_delta base d = .ok r ↔
      0 ≤ (base : ℤ) + d.toInt ∧ (base : ℤ) + d.toInt ≤ math.max_value ∧
        (r : ℤ) = base + d.toInt := by
  cases d with
  | Positive v =>
    simp only [unsigned_add_delta, unsigned_add_eq_ok, toInt_positive]
    omega
  | Negative v =>
    simp only [unsigned_add_delta, unsigned_subtract_eq_ok, toInt_negative]
    omega

theorem unsigned_add_delta_eq_error {e : BoundedMathError} :
    math.unsigned_add_delta base d = .error e ↔
      (∃ v, d = .Positive v ∧ math.max_value < base + v ∧ e = .Overflow) ∨
        (∃ v, d = .Negative v ∧ base < v ∧ e = .Underflow) := by
  cases d with
  | Positive v => simp [unsigned_add_delta, unsigned_add_eq_error]
  | Negative v => simp [unsigned_add_delta, unsigned_subtract_eq_error]

theorem unsigned_add_delta_toInt (h : math.unsigned_add_delta base d = .ok r) :
    (r : ℤ) = base + d.toInt := by
  cases d with
  | Positive v =>
    obtain ⟨-, rfl⟩ := unsigned_add_eq_ok.mp h
    simp
  | Negative v =>
    rw [unsigned_add_delta] at h
    obtain ⟨hv, rfl⟩ := unsigned_subtract_eq_ok.mp h
    simp only [toInt_negative]
    omega

theorem unsigned_add_delta_le (hb : base ≤ math.max_value)
    (h : math.unsigned_add_delta base d = .ok r) : r ≤ math.max_value := by
  have := (unsigned_add_delta_eq_ok hb).mp h
  omega

theorem update_different_sign_toInt {a b : ℕ} {s : SignedU128}
    (h : math.update_different_sign a b = .ok s) : s.toInt = a - b := by
  unfold update_different_sign at h
  split at h
  · obtain ⟨s', hs', rfl⟩ := Except.map_eq_ok h
    obtain ⟨-, rfl⟩ := unsigned_subtract_eq_ok.mp hs'
    simp only [toInt_positive]
    omega
  · obtain ⟨s', hs', rfl⟩ := Except.map_eq_ok h
    obtain ⟨-, rfl⟩ := unsigned_subtract_eq_ok.mp hs'
    simp only [toInt_negative]
    omega

theorem update_different_sign_ok (a b : ℕ) : ∃ s, math.update_different_sign a b = .ok s := by
  unfold update_different_sign
  split
  · exact ⟨_, by simp [unsigned_subtract, show ¬b > a by omega]; rfl⟩
  · exact ⟨_, by simp [unsigned_subtract, show ¬a > b by omega]; rfl⟩

theorem signed_add_toInt {l r : SignedU128} {s : SignedU128} (h : math.signed_add l r = .ok s) :
    s.toInt = l.toInt + r.toInt := by
  cases l with
  | Positive v1 =>
    cases r with
    | Positive v2 =>
      obtain ⟨s', hs', rfl⟩ := Except.map_eq_ok h
      obtain ⟨-, rfl⟩ := unsigned_add_eq_ok.mp hs'
      simp
    | Negative v2 =>
      rw [update_different_sign_toInt h]
      simp [sub_eq_add_neg]
  | Negative v1 =>
    cases r with
    | Positive v2 =>
      rw [update_different_sign_toInt h]
      simp only [toInt_negative, toInt_positive]
      ring
    | Negative v2 =>
      obtain ⟨s', hs', rfl⟩ := Except.map_eq_ok h
      cases hu : math.unsigned_add v1 v2 with
      | error e =>
        rw [hu] at hs'
        cases e <;> cases hs'
      | ok w =>
        rw [hu] at hs'
        cases hs'
        obtain ⟨-, rfl⟩ := unsigned_add_eq_ok.mp hu
        simp only [toInt_negative, Nat.cast_add]
        ring

-- Two deltas of one sign add without error when their sum stays within max_value; deltas of
-- different signs always add.
theorem signed_add_ok {l r : SignedU128} (hlo : -(math.max_value : ℤ) ≤ l.toInt + r.toInt)
    (hhi : l.toInt + r.toInt ≤ math.max_value) : ∃ s, math.signed_add l r = .ok s := by
  cases l with
  | Positive v1 =>
    cases r with
    | Positive v2 =>
      simp only [toInt_positive] at hhi
      exact ⟨_, congrArg (Positive <$> ·) (unsigned_add_eq_ok.mpr ⟨by omega, rfl⟩)⟩
    | Negative v2 => exact update_different_sign_ok v1 v2
  | Negative v1 =>
    cases r with
    | Positive v2 => exact update_different_sign_ok v2 v1
    | Negative v2 =>
      simp only [toInt_negative] at hlo
      exact ⟨_, congrArg (Negative <$> negate_error ·) (unsigned_add_eq_ok.mpr ⟨by omega, rfl⟩)⟩

-- The two ways the source reads a failed offset of a bound by a delta: ok_underflow drops a
-- bound pushed below zero, ok_overflow one pushed above max_value.
theorem ok_underflow_unsigned_add_delta (hb : base ≤ math.max_value) :
    ok_underflow (math.unsigned_add_delta base d) =
      if (math.max_value : ℤ) < base + d.toInt then .error .Overflow
      else if (base : ℤ) + d.toInt < 0 then .ok none
      else .ok (some ((base : ℤ) + d.toInt).toNat) := by
  cases d with
  | Positive v =>
    simp only [unsigned_add_delta, unsigned_add, toInt_positive]
    by_cases h : math.max_value < base ∨ v > math.max_value - base
    · have h' : (math.max_value : ℤ) < base + v := by omega
      simp only [h, h', if_true]
      rfl
    · have h' : ¬(math.max_value : ℤ) < base + v := by omega
      have h'' : ¬(base : ℤ) + v < 0 := by omega
      simp only [h, h', h'', if_false, ok_underflow, Except.ok.injEq, Option.some.injEq]
      omega
  | Negative v =>
    simp only [unsigned_add_delta, unsigned_subtract, toInt_negative]
    have h' : ¬(math.max_value : ℤ) < base + -v := by omega
    by_cases h : v > base
    · have h'' : (base : ℤ) + -v < 0 := by omega
      simp only [h, h', h'', if_true, if_false]
      rfl
    · have h'' : ¬(base : ℤ) + -v < 0 := by omega
      simp only [h, h', h'', if_false, ok_underflow, Except.ok.injEq, Option.some.injEq]
      omega

theorem ok_overflow_unsigned_add_delta (hb : base ≤ math.max_value) :
    ok_overflow (math.unsigned_add_delta base d) =
      if (base : ℤ) + d.toInt < 0 then .error .Underflow
      else if (math.max_value : ℤ) < base + d.toInt then .ok none
      else .ok (some ((base : ℤ) + d.toInt).toNat) := by
  cases d with
  | Positive v =>
    simp only [unsigned_add_delta, unsigned_add, toInt_positive]
    have h'' : ¬(base : ℤ) + v < 0 := by omega
    by_cases h : math.max_value < base ∨ v > math.max_value - base
    · have h' : (math.max_value : ℤ) < base + v := by omega
      simp only [h, h', h'', if_true, if_false]
      rfl
    · have h' : ¬(math.max_value : ℤ) < base + v := by omega
      simp only [h, h', h'', if_false, ok_overflow, Except.ok.injEq, Option.some.injEq]
      omega
  | Negative v =>
    simp only [unsigned_add_delta, unsigned_subtract, toInt_negative]
    have h' : ¬(math.max_value : ℤ) < base + -v := by omega
    by_cases h : v > base
    · have h'' : (base : ℤ) + -v < 0 := by omega
      simp only [h, h'', if_true]
      rfl
    · have h'' : ¬(base : ℤ) + -v < 0 := by omega
      simp only [h, h', h'', if_false, ok_overflow, Except.ok.injEq, Option.some.injEq]
      omega

end BoundedMath

end Zapatos.Aggregator

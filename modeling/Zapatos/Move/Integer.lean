import Mathlib
import Zapatos.Move.Vector
import Zapatos.Lib.Basic

namespace Zapatos.Move

def ARITHMETIC_ERROR : ℕ := 4017

-- Unsigned arithmetic on u8 .. u256: a result outside 0 .. 2^bits - 1 aborts the transaction.
def checked_add (bits a b : ℕ) : Except ℕ ℕ :=
  if a + b < 2 ^ bits then .ok (a + b) else .error ARITHMETIC_ERROR

def checked_sub (a b : ℕ) : Except ℕ ℕ :=
  if b ≤ a then .ok (a - b) else .error ARITHMETIC_ERROR

def checked_mul (bits a b : ℕ) : Except ℕ ℕ :=
  if a * b < 2 ^ bits then .ok (a * b) else .error ARITHMETIC_ERROR

def checked_div (a b : ℕ) : Except ℕ ℕ :=
  if b = 0 then .error ARITHMETIC_ERROR else .ok (a / b)

def cast (bits a : ℕ) : Except ℕ ℕ :=
  if a < 2 ^ bits then .ok a else .error ARITHMETIC_ERROR

@[simp] theorem checked_add_eq_ok {bits a b r : ℕ} :
    checked_add bits a b = .ok r ↔ a + b < 2 ^ bits ∧ a + b = r := by
  unfold checked_add
  split <;> simp_all

@[simp] theorem checked_sub_eq_ok {a b r : ℕ} : checked_sub a b = .ok r ↔ b ≤ a ∧ a - b = r := by
  unfold checked_sub
  split <;> simp_all

@[simp] theorem checked_mul_eq_ok {bits a b r : ℕ} :
    checked_mul bits a b = .ok r ↔ a * b < 2 ^ bits ∧ a * b = r := by
  unfold checked_mul
  split <;> simp_all

@[simp] theorem checked_div_eq_ok {a b r : ℕ} : checked_div a b = .ok r ↔ 0 < b ∧ a / b = r := by
  unfold checked_div
  split <;> simp_all [Nat.pos_iff_ne_zero]

@[simp] theorem cast_eq_ok {bits a r : ℕ} : cast bits a = .ok r ↔ a < 2 ^ bits ∧ a = r := by
  unfold cast
  split <;> simp_all

-- A computation whose only abort is an arithmetic error.
def AbortsArith {α : Type} (x : Except ℕ α) : Prop := ∀ e, x = .error e → e = ARITHMETIC_ERROR

section AbortsArith

variable {α β : Type}

theorem abortsArith_ok (a : α) : AbortsArith (.ok a : Except ℕ α) := fun _ h => by cases h

theorem AbortsArith.bind {x : Except ℕ α} {f : α → Except ℕ β} (hx : AbortsArith x)
    (hf : ∀ a, x = .ok a → AbortsArith (f a)) : AbortsArith (x >>= f) := by
  intro e he
  cases hxa : x with
  | error e' =>
    rw [hxa] at he
    injection he with he
    subst he
    exact hx e' hxa
  | ok a =>
    rw [hxa] at he
    exact hf a hxa e he

theorem abortsArith_checked_add (bits a b : ℕ) : AbortsArith (checked_add bits a b) := by
  intro e he
  unfold checked_add at he
  split at he <;> simp_all

theorem abortsArith_checked_mul (bits a b : ℕ) : AbortsArith (checked_mul bits a b) := by
  intro e he
  unfold checked_mul at he
  split at he <;> simp_all

theorem abortsArith_checked_div (a b : ℕ) : AbortsArith (checked_div a b) := by
  intro e he
  unfold checked_div at he
  split at he <;> simp_all

end AbortsArith

namespace math128

-- a * b / c through u256, so that the product never overflows before the division.
def mul_div (a b c : ℕ) : Except ℕ ℕ := do
  unless c ≠ 0 do throw (invalid_argument 4)
  let p ← checked_mul 256 a b
  let q ← checked_div p c
  cast 128 q

theorem mul_div_eq {a b c : ℕ} (ha : a < 2 ^ 128) (hb : b < 2 ^ 128) (hc : 0 < c)
    (hq : a * b / c < 2 ^ 128) : mul_div a b c = .ok (a * b / c) := by
  have hp : a * b < 2 ^ 256 := by
    calc a * b < 2 ^ 128 * 2 ^ 128 := Nat.mul_lt_mul'' ha hb
      _ = 2 ^ 256 := by norm_num
  simp only [mul_div, checked_mul, checked_div, cast, if_pos hp, if_neg hc.ne', Except.ok_bind,
    if_pos hq]
  simp [hc.ne']

theorem mul_div_eq_ok {a b c q : ℕ} (hq : mul_div a b c = .ok q) : q = a * b / c := by
  unfold mul_div at hq
  dsimp only at hq
  split at hq
  · obtain ⟨pr, hp, hq⟩ := Except.bind_eq_ok hq
    obtain ⟨d, hd, hq⟩ := Except.bind_eq_ok hq
    simp only [checked_mul_eq_ok, checked_div_eq_ok, cast_eq_ok] at hp hd hq
    rw [← hq.2, ← hd.2, ← hp.2]
  · simp at hq

end math128

end Zapatos.Move

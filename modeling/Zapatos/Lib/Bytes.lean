import Mathlib

namespace Zapatos.Bytes

-- The k bytes of n, most significant first (a big-endian write of a k-byte integer).
def to_be : ℕ → ℕ → List UInt8
  | 0, _ => []
  | k + 1, n => to_be k (n / 256) ++ [UInt8.ofNat n]

-- The k bytes of n, least significant first (a little-endian write).
def to_le : ℕ → ℕ → List UInt8
  | 0, _ => []
  | k + 1, n => UInt8.ofNat n :: to_le k (n / 256)

def of_be (bs : List UInt8) : ℕ := bs.foldl (fun acc b => acc * 256 + b.toNat) 0

def of_le : List UInt8 → ℕ
  | [] => 0
  | b :: bs => b.toNat + 256 * of_le bs

-- The first k bytes and what follows them; a read past the end fails.
def read (k : ℕ) (bs : List UInt8) : Option (List UInt8 × List UInt8) :=
  if k ≤ bs.length then some (bs.take k, bs.drop k) else none

@[simp] theorem length_to_be (k n : ℕ) : (to_be k n).length = k := by
  induction k generalizing n with
  | zero => rfl
  | succ k ih => simp [to_be, ih]

@[simp] theorem length_to_le (k n : ℕ) : (to_le k n).length = k := by
  induction k generalizing n with
  | zero => rfl
  | succ k ih => simp [to_le, ih]

theorem of_be_append_singleton (l : List UInt8) (b : UInt8) :
    of_be (l ++ [b]) = of_be l * 256 + b.toNat := by
  simp [of_be, List.foldl_append]

theorem of_be_to_be (k n : ℕ) : of_be (to_be k n) = n % 256 ^ k := by
  induction k generalizing n with
  | zero => simp [to_be, of_be, Nat.mod_one]
  | succ k ih =>
    rw [to_be, of_be_append_singleton, ih, UInt8.toNat_ofNat', pow_succ 256 k,
      Nat.mul_comm (256 ^ k), Nat.mod_mul]
    omega

theorem of_le_to_le (k n : ℕ) : of_le (to_le k n) = n % 256 ^ k := by
  induction k generalizing n with
  | zero => simp [to_le, of_le, Nat.mod_one]
  | succ k ih =>
    rw [to_le, of_le, ih, UInt8.toNat_ofNat', pow_succ 256 k, Nat.mul_comm (256 ^ k), Nat.mod_mul]

theorem read_append (l rest : List UInt8) : read l.length (l ++ rest) = some (l, rest) := by
  simp [read]

theorem read_eq_none {k : ℕ} {bs : List UInt8} (h : bs.length < k) : read k bs = none := by
  simp [read, Nat.not_le.mpr h]

section Compare

variable {α : Type} [Ord α]

-- Lexicographic order on lists compares equal-length prefixes first.
theorem compare_append_of_length_eq {l₁ l₂ : List α} (h : l₁.length = l₂.length)
    (m₁ m₂ : List α) : compare (l₁ ++ m₁) (l₂ ++ m₂) = (compare l₁ l₂).then (compare m₁ m₂) := by
  induction l₁ generalizing l₂ with
  | nil =>
    obtain rfl : l₂ = [] := List.eq_nil_of_length_eq_zero h.symm
    rfl
  | cons a l₁ ih =>
    obtain ⟨b, l₂, rfl⟩ := List.exists_cons_of_length_eq_add_one h.symm
    change List.compareLex compare (a :: (l₁ ++ m₁)) (b :: (l₂ ++ m₂)) =
      (List.compareLex compare (a :: l₁) (b :: l₂)).then (compare m₁ m₂)
    rw [List.compareLex_cons_cons, List.compareLex_cons_cons, Ordering.then_assoc]
    exact congrArg _ (ih (Nat.succ.inj h))

theorem compare_singleton (a b : α) : compare [a] [b] = compare a b := by
  change List.compareLex compare [a] [b] = compare a b
  rw [List.compareLex_cons_cons, List.compareLex_nil_nil, Ordering.then_eq]

end Compare

theorem compare_uint8 (a b : UInt8) : compare a b = compare a.toNat b.toNat := by
  simp [compare, compareOfLessAndEq, UInt8.lt_iff_toNat_lt, UInt8.toNat_inj]

-- Splitting off the last base-256 digit: a number compares as its quotient, then its remainder.
theorem compare_eq_then_div_mod (n m : ℕ) :
    compare n m = (compare (n / 256) (m / 256)).then (compare (n % 256) (m % 256)) := by
  rcases lt_trichotomy (n / 256) (m / 256) with h | h | h
  · rw [Nat.compare_eq_lt.mpr h, Nat.compare_eq_lt.mpr (by omega)]
    rfl
  · rw [Nat.compare_eq_eq.mpr h, Ordering.eq_then]
    rcases lt_trichotomy (n % 256) (m % 256) with h' | h' | h'
    · rw [Nat.compare_eq_lt.mpr h', Nat.compare_eq_lt.mpr (by omega)]
    · rw [Nat.compare_eq_eq.mpr h', Nat.compare_eq_eq.mpr (by omega)]
    · rw [Nat.compare_eq_gt.mpr h', Nat.compare_eq_gt.mpr (by omega)]
  · rw [Nat.compare_eq_gt.mpr h, Nat.compare_eq_gt.mpr (by omega)]
    rfl

-- Big-endian bytes of a fixed width order as the numbers do.
theorem compare_to_be {k n m : ℕ} (hn : n < 256 ^ k) (hm : m < 256 ^ k) :
    compare (to_be k n) (to_be k m) = compare n m := by
  induction k generalizing n m with
  | zero =>
    obtain rfl : n = 0 := by simpa using hn
    obtain rfl : m = 0 := by simpa using hm
    rfl
  | succ k ih =>
    have hdiv : ∀ x, x < 256 ^ (k + 1) → x / 256 < 256 ^ k := fun x hx => by
      rw [pow_succ] at hx
      omega
    rw [to_be, to_be, compare_append_of_length_eq (by simp), compare_singleton, compare_uint8,
      UInt8.toNat_ofNat', UInt8.toNat_ofNat', ih (hdiv n hn) (hdiv m hm), compare_eq_then_div_mod n m]

end Zapatos.Bytes

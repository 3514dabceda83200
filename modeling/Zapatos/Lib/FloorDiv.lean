import Mathlib

namespace Zapatos.FloorDiv

theorem div_le_div_of_mul_le_mul {a b c d : ℕ} (hd : 0 < d) (h : a * d ≤ c * b) :
    a / b ≤ c / d := by
  rcases Nat.eq_zero_or_pos b with rfl | hb
  · simp
  apply (Nat.le_div_iff_mul_le hd).mpr
  have hq : a / b * b ≤ a := Nat.div_mul_le_self a b
  have hm : a / b * d * b ≤ c * b :=
    calc a / b * d * b = a / b * b * d := by ring
      _ ≤ a * d := Nat.mul_le_mul_right d hq
      _ ≤ c * b := h
  exact Nat.le_of_mul_le_mul_right hm hb

theorem sum_map_mul_div_mul_le (l : List ℕ) (c t : ℕ) :
    (l.map fun u => u * c / t).sum * t ≤ l.sum * c := by
  induction l with
  | nil => simp
  | cons u rest ih =>
    have hu := Nat.div_mul_le_self (u * c) t
    simp only [List.map_cons, List.sum_cons]
    nlinarith

theorem sum_map_mul_div_le (l : List ℕ) (c t : ℕ) :
    (l.map fun u => u * c / t).sum ≤ l.sum * c / t := by
  rcases Nat.eq_zero_or_pos t with rfl | ht
  · simp
  exact (Nat.le_div_iff_mul_le ht).mpr (sum_map_mul_div_mul_le l c t)

theorem add_mul_add_div_le {sh k c x s : ℕ} (hs : 0 < s) (hsh : sh ≤ s) (hk : k * c ≤ x * s) :
    (sh + k) * (c + x) / (s + k) ≤ sh * c / s + x := by
  have hq : sh * c < s * (sh * c / s + 1) := Nat.lt_mul_div_succ (sh * c) hs
  have hcross : s * ((sh + k) * (c + x)) ≤ (sh * c + x * s) * (s + k) := by nlinarith
  have hlt : s * ((sh + k) * (c + x)) < s * ((sh * c / s + x + 1) * (s + k)) := by nlinarith
  have hnum : (sh + k) * (c + x) < (sh * c / s + x + 1) * (s + k) := Nat.lt_of_mul_lt_mul_left hlt
  exact Nat.le_of_lt_succ ((Nat.div_lt_iff_lt_mul (by omega)).mpr hnum)

theorem mul_div_le_mul_add_div_add {sh k c x s : ℕ} (hk : k * c ≤ x * s) :
    sh * c / s ≤ sh * (c + x) / (s + k) := by
  rcases Nat.eq_zero_or_pos (s + k) with h0 | hd
  · have : s = 0 := by omega
    simp [this]
  apply div_le_div_of_mul_le_mul hd
  have : c * (s + k) ≤ (c + x) * s := by nlinarith
  calc sh * c * (s + k) = sh * (c * (s + k)) := by ring
    _ ≤ sh * ((c + x) * s) := Nat.mul_le_mul_left sh this
    _ = sh * (c + x) * s := by ring

theorem mul_div_le_mul_sub_div_sub {sh r c t s : ℕ} (hr : r * s ≤ t * c) (ht : t < s) :
    sh * c / s ≤ sh * (c - r) / (s - t) := by
  apply div_le_div_of_mul_le_mul (by omega)
  have : c * (s - t) ≤ (c - r) * s := by
    rw [Nat.mul_sub, Nat.sub_mul]
    exact Nat.sub_le_sub_left (by rw [Nat.mul_comm c t]; exact hr) _
  calc sh * c * (s - t) = sh * (c * (s - t)) := by ring
    _ ≤ sh * ((c - r) * s) := Nat.mul_le_mul_left sh this
    _ = sh * (c - r) * s := by ring

end Zapatos.FloorDiv

import Mathlib

namespace Zapatos.Buckets

theorem xor_two_pow_eq_sub {n L : ℕ} (h₁ : 2 ^ L ≤ n) (h₂ : n < 2 ^ (L + 1)) :
    n ^^^ 2 ^ L = n - 2 ^ L := by
  obtain ⟨m, rfl⟩ : ∃ m, n = 2 ^ L + m := ⟨n - 2 ^ L, by omega⟩
  have hm : m < 2 ^ L := by rw [pow_succ] at h₂; omega
  rw [Nat.add_sub_cancel_left]
  apply Nat.eq_of_testBit_eq
  intro i
  rw [Nat.testBit_xor, Nat.testBit_two_pow]
  rcases lt_trichotomy i L with hi | rfl | hi
  · rw [Nat.testBit_two_pow_add_gt hi, decide_eq_false (by omega), Bool.xor_false]
  · rw [Nat.testBit_two_pow_add_eq, Nat.testBit_lt_two_pow hm]
    simp
  · have hle : 2 ^ (L + 1) ≤ 2 ^ i := Nat.pow_le_pow_right (by omega) hi
    rw [Nat.testBit_lt_two_pow (by omega), Nat.testBit_lt_two_pow (by rw [pow_succ] at hle; omega),
      decide_eq_false (by omega)]
    rfl

variable {α : Type}

-- The buckets g differ from f only at t, where g t and the extra entries xs hold what f t and
-- ys hold: the contents over a range that contains t then agree in the same way.
theorem perm_flatMap_range_update {f g : ℕ → List α} {t n : ℕ} {xs ys : List α} (ht : t < n)
    (hg : ∀ j < n, j ≠ t → g j = f j) (hperm : (g t ++ xs).Perm (f t ++ ys)) :
    ((List.range n).flatMap g ++ xs).Perm ((List.range n).flatMap f ++ ys) := by
  induction n with
  | zero => omega
  | succ n ih =>
    rw [List.range_succ, List.flatMap_append, List.flatMap_append, List.flatMap_singleton,
      List.flatMap_singleton]
    rcases Nat.lt_succ_iff_lt_or_eq.mp ht with ht | rfl
    · rw [hg n (by omega) (by omega)]
      have h₁ : ((List.range n).flatMap g ++ f n ++ xs).Perm
          ((List.range n).flatMap g ++ xs ++ f n) := by
        rw [List.append_assoc, List.append_assoc]
        exact List.perm_append_comm.append_left _
      have h₃ : ((List.range n).flatMap f ++ ys ++ f n).Perm
          ((List.range n).flatMap f ++ f n ++ ys) := by
        rw [List.append_assoc, List.append_assoc]
        exact List.perm_append_comm.append_left _
      have ih' := ih ht fun j hj hjt => hg j (by omega) hjt
      exact h₁.trans ((ih'.append_right (f n)).trans h₃)
    · have hrange : (List.range t).flatMap g = (List.range t).flatMap f :=
        List.flatMap_congr fun j hj => hg j (by simp at hj; omega) (by simp at hj; omega)
      rw [hrange, List.append_assoc, List.append_assoc]
      exact hperm.append_left _

-- Changing one element of a list, then adding the old one, holds what adding the new one holds.
theorem modify_append_perm {l : List α} {i : ℕ} (h : i < l.length) (f : α → α) :
    (l.modify i f ++ [l[i]]).Perm (l ++ [f l[i]]) := by
  have hdrop : l.drop i = l[i] :: l.drop (i + 1) := List.drop_eq_getElem_cons h
  have hl : l = l.take i ++ l[i] :: l.drop (i + 1) := by
    rw [← hdrop, List.take_append_drop]
  have hmod : l.modify i f = l.take i ++ f l[i] :: l.drop (i + 1) := by
    rw [List.modify_eq_take_drop, hdrop, List.modifyHead_cons]
  generalize l.take i = A, l.drop (i + 1) = R, l[i] = x at hl hmod
  rw [hmod]
  conv_rhs => rw [hl]
  have h₁ : (A ++ f x :: R ++ [x]).Perm (x :: f x :: (A ++ R)) :=
    (List.perm_append_singleton _ _).trans (List.perm_middle.cons x)
  have h₂ : (A ++ x :: R ++ [f x]).Perm (f x :: x :: (A ++ R)) :=
    (List.perm_append_singleton _ _).trans (List.perm_middle.cons (f x))
  exact h₁.trans ((List.Perm.swap _ _ _).trans h₂.symm)

theorem findIdx?_of_find?_eq_some {p : α → Bool} {l : List α} {e : α} (h : l.find? p = some e) :
    ∃ i, ∃ hi : i < l.length, l.findIdx? p = some i ∧ l[i] = e := by
  obtain ⟨hp, i, hi, rfl, hbefore⟩ := List.find?_eq_some_iff_getElem.mp h
  refine ⟨i, hi, List.findIdx?_eq_some_iff_getElem.mpr ⟨hi, hp, fun j hj => ?_⟩, rfl⟩
  simpa using hbefore j hj

section Keyed

variable {β γ : Type} [DecidableEq β] (key : α → β) (val : α → γ)

theorem find?_key_eq_none_iff {l : List α} {k : β} :
    l.find? (fun e => key e == k) = none ↔ ∀ e ∈ l, key e ≠ k := by
  simp [List.find?_eq_none]

-- With distinct keys, the entry found for a key is the only one that has it.
theorem find?_key_map_eq_some_iff {l : List α} (hnd : (l.map key).Nodup) {k : β} {v : γ} :
    (l.find? fun e => key e == k).map val = some v ↔ ∃ e ∈ l, key e = k ∧ val e = v := by
  constructor
  · intro h
    obtain ⟨e, he, rfl⟩ := Option.map_eq_some_iff.mp h
    exact ⟨e, List.mem_of_find?_eq_some he, by simpa using List.find?_some he, rfl⟩
  · rintro ⟨e, hmem, hk, rfl⟩
    cases hf : l.find? (fun e => key e == k) with
    | none => exact absurd hk ((find?_key_eq_none_iff key).mp hf e hmem)
    | some e' =>
      have hk' : key e' = k := by simpa using List.find?_some hf
      have he' : e' = e :=
        List.inj_on_of_nodup_map hnd (List.mem_of_find?_eq_some hf) hmem (hk'.trans hk.symm)
      simp [he']

-- Two lists with distinct keys that hold the same key-value pairs answer every lookup alike.
theorem find?_key_map_congr {l l' : List α} (hnd : (l.map key).Nodup) (hnd' : (l'.map key).Nodup)
    {k : β} (h : ∀ v, (∃ e ∈ l, key e = k ∧ val e = v) ↔ ∃ e ∈ l', key e = k ∧ val e = v) :
    (l.find? fun e => key e == k).map val = (l'.find? fun e => key e == k).map val := by
  apply Option.ext
  intro v
  rw [find?_key_map_eq_some_iff key val hnd, find?_key_map_eq_some_iff key val hnd', h v]

end Keyed

end Zapatos.Buckets

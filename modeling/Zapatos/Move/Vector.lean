import Mathlib
import Zapatos.Lib.Basic

namespace Zapatos.Move

def INVALID_ARGUMENT : ℕ := 0x1

def OUT_OF_RANGE : ℕ := 0x2

def INVALID_STATE : ℕ := 0x3

def canonical (category reason : ℕ) : ℕ := category * 2 ^ 16 + reason

def invalid_argument (r : ℕ) : ℕ := canonical INVALID_ARGUMENT r

def out_of_range (r : ℕ) : ℕ := canonical OUT_OF_RANGE r

def invalid_state (r : ℕ) : ℕ := canonical INVALID_STATE r

def PERMISSION_DENIED : ℕ := 0x5

def permission_denied (r : ℕ) : ℕ := canonical PERMISSION_DENIED r

namespace vector

variable {α : Type}

def EINDEX_OUT_OF_BOUNDS : ℕ := 0x20000

def insert (self : List α) (i : ℕ) (e : α) : Except ℕ (List α) :=
  if i ≤ self.length then .ok (self.insertIdx i e) else .error EINDEX_OUT_OF_BOUNDS

def remove (self : List α) (i : ℕ) : Except ℕ (List α × α) :=
  if h : i < self.length then .ok (self.eraseIdx i, self[i]) else .error EINDEX_OUT_OF_BOUNDS

def replace (self : List α) (i : ℕ) (val : α) : Except ℕ (List α × α) :=
  if h : i < self.length then .ok (self.set i val, self[i]) else .error EINDEX_OUT_OF_BOUNDS

def trim (self : List α) (new_len : ℕ) : Except ℕ (List α × List α) :=
  if new_len ≤ self.length then .ok (self.take new_len, self.drop new_len)
  else .error EINDEX_OUT_OF_BOUNDS

def reverse_append (self other : List α) : List α := self ++ other.reverse

def trim_reverse (self : List α) (new_len : ℕ) : Except ℕ (List α × List α) :=
  if new_len ≤ self.length then .ok (self.take new_len, (self.drop new_len).reverse)
  else .error EINDEX_OUT_OF_BOUNDS

def swap (self : List α) (i j : ℕ) : Except ℕ (List α) :=
  if i < self.length ∧ j < self.length then .ok (self.swap i j) else .error EINDEX_OUT_OF_BOUNDS

def pop_back (self : List α) : Except ℕ (List α × α) :=
  match self.getLast? with
  | some e => .ok (self.dropLast, e)
  | none => .error EINDEX_OUT_OF_BOUNDS

def swap_remove (self : List α) (i : ℕ) : Except ℕ (List α × α) := do
  unless !self.isEmpty do throw EINDEX_OUT_OF_BOUNDS
  let last_idx := self.length - 1
  let self ← swap self i last_idx
  pop_back self

-- The second loop of partition: p is the boundary, i the next index to look at. Its swaps stay
-- in range, so they are taken as the pure List.swap.
def partition_loop (pred : α → Bool) : ℕ → List α → ℕ → ℕ → List α × ℕ
  | 0, self, p, _ => (self, p)
  | fuel + 1, self, p, i =>
    if h : i < self.length then
      if pred self[i] then partition_loop pred fuel (self.swap p i) (p + 1) (i + 1)
      else partition_loop pred fuel self p (i + 1)
    else (self, p)

-- The first loop stops at the first element that fails pred; the second loop runs at most
-- self.length times.
def partition (self : List α) (pred : α → Bool) : List α × ℕ :=
  let i := self.findIdx fun e => !pred e
  partition_loop pred self.length self i (i + 1)

@[simp] theorem insert_eq_ok {self : List α} {i : ℕ} {e : α} {r : List α} :
    insert self i e = .ok r ↔ i ≤ self.length ∧ self.insertIdx i e = r := by
  unfold insert
  split <;> simp_all

@[simp] theorem remove_eq_ok {self : List α} {i : ℕ} {r : List α × α} :
    remove self i = .ok r ↔ ∃ h : i < self.length, (self.eraseIdx i, self[i]) = r := by
  unfold remove
  split <;> simp_all

@[simp] theorem replace_eq_ok {self : List α} {i : ℕ} {val : α} {r : List α × α} :
    replace self i val = .ok r ↔ ∃ h : i < self.length, (self.set i val, self[i]) = r := by
  unfold replace
  split <;> simp_all

@[simp] theorem trim_eq_ok {self : List α} {new_len : ℕ} {r : List α × List α} :
    trim self new_len = .ok r ↔
      new_len ≤ self.length ∧ (self.take new_len, self.drop new_len) = r := by
  unfold trim
  split <;> simp_all

@[simp] theorem trim_reverse_eq_ok {self : List α} {new_len : ℕ} {r : List α × List α} :
    trim_reverse self new_len = .ok r ↔
      new_len ≤ self.length ∧ (self.take new_len, (self.drop new_len).reverse) = r := by
  unfold trim_reverse
  split <;> simp_all

theorem swap_remove_eq_ok {self : List α} {i : ℕ} {r : List α × α} :
    swap_remove self i = .ok r ↔
      ∃ h : i < self.length, ((self.swap i (self.length - 1)).dropLast, self[i]) = r := by
  unfold swap_remove
  dsimp only
  split
  · rename_i hne
    have hlen : 0 < self.length := List.length_pos_iff.mpr (by simpa using hne)
    by_cases hi : i < self.length
    · have hlast : (self.swap i (self.length - 1)).getLast? = some self[i] := by
        rw [List.getLast?_eq_getElem?, List.length_swap,
          List.getElem?_eq_getElem (by simp; omega), List.getElem_swap_right_of_lt hi]
      simp [swap, hi, hlen, pop_back, hlast]
    · simp [swap, hi]
  · rename_i he
    have : self = [] := by simpa using he
    subst this
    simp

theorem swap_remove_perm {self rest : List α} {i : ℕ} {e : α}
    (h : swap_remove self i = .ok (rest, e)) : self.Perm (e :: rest) := by
  obtain ⟨hi, hr⟩ := swap_remove_eq_ok.mp h
  simp only [Prod.mk.injEq] at hr
  obtain ⟨rfl, rfl⟩ := hr
  have hne : self.swap i (self.length - 1) ≠ [] := by
    rw [← List.length_pos_iff, List.length_swap]
    omega
  have hlast : (self.swap i (self.length - 1)).getLast hne = self[i] := by
    rw [List.getLast_eq_getElem]
    simp only [List.length_swap]
    exact List.getElem_swap_right_of_lt hi _
  have hsplit : self.swap i (self.length - 1) =
      (self.swap i (self.length - 1)).dropLast ++ [self[i]] := by
    rw [← hlast, List.dropLast_append_getLast]
  have hperm := (List.swap_perm self i (self.length - 1)).symm
  rw [hsplit] at hperm
  exact hperm.trans (List.perm_append_singleton _ _)

section Partition

variable (pred : α → Bool)

-- The state of the second loop of partition: every element below p satisfies pred, every one
-- from p up to i does not.
structure PartitionInv (l : List α) (p i : ℕ) : Prop where
  p_le_i : p ≤ i
  p_le_length : p ≤ l.length
  before : ∀ k (hk : k < l.length), k < p → pred l[k] = true
  after : ∀ k (hk : k < l.length), p ≤ k → k < i → pred l[k] = false

theorem PartitionInv.swap {self : List α} {p i : ℕ} (h : PartitionInv pred self p i)
    (hi : i < self.length) (hpred : pred self[i] = true) :
    PartitionInv pred (self.swap p i) (p + 1) (i + 1) where
  p_le_i := by have := h.p_le_i; omega
  p_le_length := by have := h.p_le_i; simp; omega
  before k hk hkp := by
    have := h.p_le_i
    have := h.before
    grind
  after k hk hpk hki := by
    have := h.p_le_i
    have := h.after
    grind

theorem PartitionInv.skip {self : List α} {p i : ℕ} (h : PartitionInv pred self p i)
    (hi : i < self.length) (hpred : pred self[i] = false) :
    PartitionInv pred self p (i + 1) where
  p_le_i := by have := h.p_le_i; omega
  p_le_length := h.p_le_length
  before := h.before
  after k hk hpk hki := by
    rcases Nat.lt_succ_iff_lt_or_eq.mp hki with hki | rfl
    · exact h.after k hk hpk hki
    · exact hpred

theorem partition_loop_spec : ∀ fuel (self : List α) p i, PartitionInv pred self p i →
    self.length ≤ i + fuel →
    (partition_loop pred fuel self p i).1.Perm self ∧
      ∃ i', (partition_loop pred fuel self p i).1.length ≤ i' ∧
        PartitionInv pred (partition_loop pred fuel self p i).1
          (partition_loop pred fuel self p i).2 i' := by
  intro fuel
  induction fuel with
  | zero =>
    intro self p i h hlen
    simp only [partition_loop]
    exact ⟨.refl _, i, by omega, h⟩
  | succ fuel ih =>
    intro self p i h hlen
    by_cases hi : i < self.length
    · cases hpred : pred self[i]
      · simp only [partition_loop, dif_pos hi, hpred, Bool.false_eq_true, if_false]
        exact ih self p (i + 1) (h.skip pred hi hpred) (by omega)
      · simp only [partition_loop, dif_pos hi, hpred, if_true]
        obtain ⟨hperm, hinv⟩ := ih (self.swap p i) (p + 1) (i + 1) (h.swap pred hi hpred)
          (by simp; omega)
        exact ⟨hperm.trans (List.swap_perm _ _ _), hinv⟩
    · simp only [partition_loop, dif_neg hi]
      exact ⟨.refl _, i, by omega, h⟩

theorem partition_spec (self : List α) :
    (partition self pred).1.Perm self ∧
      (partition self pred).2 ≤ (partition self pred).1.length ∧
      (∀ e ∈ (partition self pred).1.take (partition self pred).2, pred e = true) ∧
      ∀ e ∈ (partition self pred).1.drop (partition self pred).2, pred e = false := by
  have hstart : PartitionInv pred self (self.findIdx fun e => !pred e)
      ((self.findIdx fun e => !pred e) + 1) := by
    refine ⟨by omega, List.findIdx_le_length, fun k hk hkp => ?_, fun k hk hpk hki => ?_⟩
    · simpa using List.not_of_lt_findIdx hkp
    · have hk' : k = self.findIdx fun e => !pred e := by omega
      subst hk'
      simpa using List.findIdx_getElem (w := hk)
  obtain ⟨hperm, i', hlen, hinv⟩ :=
    partition_loop_spec pred self.length self _ _ hstart (by omega)
  dsimp only [partition]
  refine ⟨hperm, hinv.p_le_length, ?_, ?_⟩
  · intro e he
    obtain ⟨j, hj, rfl⟩ := List.mem_take_iff_getElem.mp he
    exact hinv.before j (by omega) (by omega)
  · intro e he
    obtain ⟨j, hj, rfl⟩ := List.mem_drop_iff_getElem.mp he
    exact hinv.after (_ + j) (by omega) (by omega) (by omega)

end Partition

end vector

end Zapatos.Move

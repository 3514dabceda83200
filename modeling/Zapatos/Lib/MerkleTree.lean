import Zapatos.Lib.InOrder

namespace Zapatos.MerkleTree

open Bits InOrder

variable {α : Type} (hash : α → α → α) (P : α)

-- The node at level l and index k of the binary tree over the leaves: the placeholder P where its
-- first leaf lies past the last one.
def subtree (leaves : List α) : ℕ → ℕ → α
  | 0, k => leaves.getD k P
  | l + 1, k =>
    if leaves.length ≤ 2 ^ (l + 1) * k then P
    else hash (subtree leaves l (2 * k)) (subtree leaves l (2 * k + 1))

-- The height of the smallest tree that holds n leaves.
def height (n : ℕ) : ℕ := (n - 1).size

def root (leaves : List α) : α := subtree hash P leaves (height leaves.length) 0

-- The roots of the perfect subtrees that tile the first n leaves, smallest first: one of height
-- i for each bit i of n from j on, below j + m.
def ommersFrom (leaves : List α) (n j m : ℕ) : List α :=
  ((List.range' j m).filter n.testBit).map fun i => subtree hash P leaves i (2 * (n >>> (i + 1)))

def ommers (w : ℕ) (leaves : List α) : List α := ommersFrom hash P leaves leaves.length 0 w

-- The roots of the subtrees of a cover, each given as (first leaf, height).
def coverRoots (leaves : List α) (cover : List (ℕ × ℕ)) : List α :=
  cover.map fun t => subtree hash P leaves t.2 (t.1 >>> t.2)

variable {hash P} {leaves : List α} {l k : ℕ}

theorem subtree_of_le (h : leaves.length ≤ 2 ^ l * k) : subtree hash P leaves l k = P := by
  cases l with
  | zero =>
    rw [subtree, List.getD_eq_getElem?_getD, List.getElem?_eq_none (by simpa using h),
      Option.getD_none]
  | succ l => rw [subtree, if_pos h]

theorem subtree_succ (h : 2 ^ (l + 1) * k < leaves.length) :
    subtree hash P leaves (l + 1) k =
      hash (subtree hash P leaves l (2 * k)) (subtree hash P leaves l (2 * k + 1)) := by
  rw [subtree, if_neg (Nat.not_le.mpr h)]

theorem subtree_append {more : List α} (h : 2 ^ l * (k + 1) ≤ leaves.length) :
    subtree hash P (leaves ++ more) l k = subtree hash P leaves l k := by
  induction l generalizing k with
  | zero =>
    have hk : k < leaves.length := by simpa using h
    simp only [subtree, List.getD_eq_getElem?_getD, List.getElem?_append_left hk]
  | succ l ih =>
    have hpow : 2 ^ (l + 1) = 2 * 2 ^ l := by rw [Nat.pow_succ, Nat.mul_comm]
    have hlt : 2 ^ (l + 1) * k < leaves.length := by
      have : 0 < 2 ^ (l + 1) := Nat.two_pow_pos _
      rw [Nat.mul_add, Nat.mul_one] at h
      omega
    have hlt' : 2 ^ (l + 1) * k < (leaves ++ more).length := by
      rw [List.length_append]
      omega
    have hleft : 2 ^ l * (2 * k + 1) ≤ leaves.length := by
      rw [hpow, Nat.mul_add, Nat.mul_one] at h
      rw [Nat.mul_add, Nat.mul_one, ← Nat.mul_assoc, Nat.mul_comm (2 ^ l) 2]
      omega
    have hright : 2 ^ l * (2 * k + 1 + 1) ≤ leaves.length := by
      rw [hpow, Nat.mul_add, Nat.mul_one] at h
      rw [show 2 * k + 1 + 1 = 2 * (k + 1) by omega, ← Nat.mul_assoc, Nat.mul_comm (2 ^ l) 2,
        Nat.mul_add, Nat.mul_one]
      omega
    rw [subtree_succ hlt', subtree_succ hlt, ih hleft, ih hright]

-- The node over leaf n at level j, from its two children at level j - 1: the left one is a full
-- subtree when bit j of n is set, and the right one lies past leaf n otherwise.
theorem shiftRight_eq_two_mul_add (n j : ℕ) :
    n >>> j = 2 * (n >>> (j + 1)) + if n.testBit j then 1 else 0 := by
  rw [Nat.shiftRight_succ, Nat.testBit_eq_decide_div_mod_eq, Nat.shiftRight_eq_div_pow]
  have := Nat.div_add_mod (n / 2 ^ j) 2
  by_cases h : n / 2 ^ j % 2 = 1
  · simp only [h, decide_true, if_true]
    omega
  · simp only [h, decide_false, if_false, Bool.false_eq_true]
    omega

theorem subtree_shiftRight {n j : ℕ} (h : 2 ^ (j + 1) * (n >>> (j + 1)) < leaves.length) :
    subtree hash P leaves (j + 1) (n >>> (j + 1)) =
      if n.testBit j then
        hash (subtree hash P leaves j (2 * (n >>> (j + 1)))) (subtree hash P leaves j (n >>> j))
      else hash (subtree hash P leaves j (n >>> j)) (subtree hash P leaves j (n >>> j + 1)) := by
  rw [subtree_succ h, shiftRight_eq_two_mul_add n j]
  by_cases hb : n.testBit j
  · simp only [hb, if_true]
  · simp only [hb, if_false, Bool.false_eq_true, Nat.add_zero]

variable {n j m : ℕ}

theorem ommersFrom_zero : ommersFrom hash P leaves n j 0 = [] := by
  simp [ommersFrom]

theorem ommersFrom_succ :
    ommersFrom hash P leaves n j (m + 1) =
      if n.testBit j then
        subtree hash P leaves j (2 * (n >>> (j + 1))) :: ommersFrom hash P leaves n (j + 1) m
      else ommersFrom hash P leaves n (j + 1) m := by
  by_cases hb : n.testBit j <;> simp [ommersFrom, List.range'_succ, hb]

-- Bits of n that are clear contribute no subtree.
theorem ommersFrom_of_testBit_eq_false (h : ∀ i, j ≤ i → i < j + m → n.testBit i = false) :
    ommersFrom hash P leaves n j m = [] := by
  induction m generalizing j with
  | zero => exact ommersFrom_zero
  | succ m ih =>
    rw [ommersFrom_succ, h j le_rfl (by omega), if_neg Bool.false_ne_true]
    exact ih fun i hi hlt => h i (by omega) (by omega)

-- The subtree of a set bit of n ends at or before leaf n, so appending leaves keeps it.
theorem two_pow_mul_add_le_of_testBit {i : ℕ} (hb : n.testBit i = true) :
    2 ^ i * (2 * (n >>> (i + 1)) + 1) ≤ n := by
  have hsplit := shiftRight_eq_two_mul_add n i
  rw [if_pos hb] at hsplit
  rw [← hsplit, Nat.shiftRight_eq_div_pow]
  exact Nat.mul_div_le n (2 ^ i)

theorem ommersFrom_append {more : List α} (hn : n ≤ leaves.length) :
    ommersFrom hash P (leaves ++ more) n j m = ommersFrom hash P leaves n j m := by
  simp only [ommersFrom]
  refine List.map_congr_left fun i hi => subtree_append ?_
  exact (two_pow_mul_add_le_of_testBit (List.mem_filter.mp hi).2).trans hn

theorem ommersFrom_add {a b : ℕ} :
    ommersFrom hash P leaves n j (a + b) =
      ommersFrom hash P leaves n j a ++ ommersFrom hash P leaves n (j + a) b := by
  rw [ommersFrom, ← List.range'_append_1, List.filter_append, List.map_append]
  rfl

-- The subtrees of the bits from j on only depend on the bits of n from j on.
theorem ommersFrom_congr_shiftRight {n' : ℕ} (h : n >>> j = n' >>> j) :
    ommersFrom hash P leaves n j m = ommersFrom hash P leaves n' j m := by
  have hbit : ∀ i ∈ List.range' j m, n.testBit i = n'.testBit i := by
    intro i hi
    obtain ⟨d, rfl⟩ := Nat.exists_eq_add_of_le (List.mem_range'_1.mp hi).1
    rw [← Nat.testBit_shiftRight, h, Nat.testBit_shiftRight]
  have hshift : ∀ i ∈ List.range' j m, n >>> (i + 1) = n' >>> (i + 1) := by
    intro i hi
    obtain ⟨d, rfl⟩ := Nat.exists_eq_add_of_le (List.mem_range'_1.mp hi).1
    rw [Nat.add_assoc, Nat.shiftRight_add, h, ← Nat.shiftRight_add]
  simp only [ommersFrom]
  rw [List.filter_congr hbit]
  refine List.map_congr_left fun i hi => ?_
  rw [hshift i (List.mem_of_mem_filter hi)]

theorem length_ommersFrom : (ommersFrom hash P leaves n 0 m).length = Bits.count_ones m n := by
  simp [ommersFrom, Bits.count_ones, List.range_eq_range']

-- The node at level j + 1 over leaf n starts before it when a bit of n at or below j is set.
theorem two_pow_mul_shiftRight_lt {i : ℕ} (hij : i ≤ j) (hb : n.testBit i = true) :
    2 ^ (j + 1) * (n >>> (j + 1)) < n := by
  have hmod : n % 2 ^ (j + 1) ≠ 0 := by
    intro h0
    have := Nat.testBit_mod_two_pow n (j + 1) i
    rw [h0, Nat.zero_testBit, hb, decide_eq_true (by omega : i < j + 1)] at this
    cases this
  have := Nat.div_add_mod n (2 ^ (j + 1))
  rw [Nat.shiftRight_eq_div_pow]
  omega

theorem subtree_shiftRight_succ_eq (hn : leaves.length ≤ n + 1) :
    subtree hash P leaves j (n >>> j + 1) = P := by
  refine subtree_of_le (hn.trans ?_)
  have := Nat.lt_div_mul_add (a := n) (Nat.two_pow_pos j)
  rw [Nat.shiftRight_eq_div_pow, Nat.mul_add, Nat.mul_one, Nat.mul_comm]
  omega

theorem ommers_nil (w : ℕ) : ommers hash P w ([] : List α) = [] :=
  ommersFrom_of_testBit_eq_false fun i _ _ => Nat.zero_testBit i

@[simp] theorem coverRoots_nil : coverRoots hash P leaves [] = [] := rfl

@[simp] theorem coverRoots_cons (t : ℕ × ℕ) (rest : List (ℕ × ℕ)) :
    coverRoots hash P leaves (t :: rest) =
      subtree hash P leaves t.2 (t.1 >>> t.2) :: coverRoots hash P leaves rest := rfl

theorem ommersFrom_zero_eq {z : ℕ} (hz : z ≤ m) (hbelow : ∀ i < z, n.testBit i = false) :
    ommersFrom hash P leaves n 0 m = ommersFrom hash P leaves n z (m - z) := by
  rw [show m = z + (m - z) by omega, ommersFrom_add,
    ommersFrom_of_testBit_eq_false fun i _ hi => hbelow i (by omega), List.nil_append,
    Nat.zero_add, show z + (m - z) - z = m - z by omega]

-- Adding 2^a to a count is a binary increment of its bits from a on.
theorem shiftRight_succ_add_two_pow (c a : ℕ) :
    (c + 2 ^ a) >>> (a + 1) = c >>> (a + 1) + if c.testBit a then 1 else 0 := by
  have hblock : (c + 2 ^ a) >>> a = c >>> a + 1 := by
    rw [Nat.shiftRight_eq_div_pow, Nat.shiftRight_eq_div_pow,
      Nat.add_div_right c (Nat.two_pow_pos a)]
  rw [Nat.shiftRight_succ, hblock, shiftRight_eq_two_mul_add c a]
  by_cases hb : c.testBit a
  · simp only [hb, if_true]
    omega
  · simp only [hb, if_false, Bool.false_eq_true]
    omega

-- The subtrees of a count after an aligned block of 2^a leaves is appended: where bits a to b - 1
-- of the count are set and bit b is clear, the block carries into one subtree at level b over
-- those of bits a to b - 1, and the subtrees above b stay.
theorem ommersFrom_add_two_pow {c a b : ℕ} (hab : a ≤ b) (hbm : b < a + m)
    (hset : ∀ i, a ≤ i → i < b → c.testBit i = true) (hclr : c.testBit b = false) :
    ommersFrom hash P leaves (c + 2 ^ a) a m =
      subtree hash P leaves b (c >>> b) :: ommersFrom hash P leaves c (b + 1) (a + m - (b + 1)) := by
  obtain ⟨d, hd⟩ := Nat.exists_eq_add_of_le hab
  induction d generalizing a m with
  | zero =>
    rw [Nat.add_zero] at hd
    subst b
    obtain ⟨m, rfl⟩ : ∃ m', m = m' + 1 := ⟨m - 1, by omega⟩
    have hclr' : ¬c.testBit a = true := by simp [hclr]
    have hshift : (c + 2 ^ a) >>> (a + 1) = c >>> (a + 1) := by
      rw [shiftRight_succ_add_two_pow, if_neg hclr', Nat.add_zero]
    have hbit : (c + 2 ^ a).testBit a = true := by
      rw [Nat.add_comm, Nat.testBit_two_pow_add_eq, hclr, Bool.not_false]
    have hhalf : 2 * (c >>> (a + 1)) = c >>> a := by
      have hsplit := shiftRight_eq_two_mul_add c a
      rw [if_neg hclr'] at hsplit
      omega
    rw [ommersFrom_succ, if_pos hbit, hshift, hhalf, ommersFrom_congr_shiftRight hshift,
      show a + (m + 1) - (a + 1) = m by omega]
  | succ d ih =>
    obtain ⟨m, rfl⟩ : ∃ m', m = m' + 1 := ⟨m - 1, by omega⟩
    have ha := hset a le_rfl (by omega)
    have hbit : ¬(c + 2 ^ a).testBit a = true := by
      rw [Nat.add_comm, Nat.testBit_two_pow_add_eq, ha]
      simp
    have hshift : (c + 2 ^ a) >>> (a + 1) = (c + 2 ^ (a + 1)) >>> (a + 1) := by
      rw [shiftRight_succ_add_two_pow, if_pos ha, Nat.shiftRight_eq_div_pow (c + 2 ^ (a + 1)),
        Nat.add_div_right c (Nat.two_pow_pos _), Nat.shiftRight_eq_div_pow]
    rw [ommersFrom_succ, if_neg hbit, ommersFrom_congr_shiftRight hshift,
      ih (by omega) (by omega) (fun i hi hib => hset i (by omega) hib) (by omega),
      show a + 1 + m - (b + 1) = a + (m + 1) - (b + 1) by omega]

-- The roots of a cover of [start, stop) by the largest aligned subtrees, when stop - start is
-- below the alignment 2^t of start: the subtrees of the bits of stop below t, largest first.
theorem coverRoots_eq_ommersFrom {start stop t : ℕ} {cover : List (ℕ × ℕ)}
    (hcover : Cover start stop cover) (hlargest : Largest stop cover) (hdvd : 2 ^ t ∣ start)
    (hlt : stop < start + 2 ^ t) :
    coverRoots hash P leaves cover = (ommersFrom hash P leaves stop 0 t).reverse := by
  induction hcover generalizing t with
  | nil start =>
    rw [ommersFrom_of_testBit_eq_false fun i _ hi => testBit_eq_false_of_two_pow_dvd hdvd (by omega)]
    rfl
  | @cons start stop h rest hh hrest ih =>
    have hle := hrest.le
    have hht : h < t := by
      by_contra hc
      have := Nat.pow_le_pow_right (n := 2) (by norm_num) (Nat.not_lt.mp hc)
      omega
    have hfit : stop < start + 2 ^ h + 2 ^ h := by
      by_contra hc
      have := hlargest (start, h) List.mem_cons_self (h + 1)
        (dvd_trans (Nat.pow_dvd_pow 2 (by omega)) hdvd) (by rw [Nat.pow_succ]; omega)
      omega
    have hroots := ih (fun s hs => hlargest s (List.mem_cons_of_mem _ hs))
      (Nat.dvd_add hh dvd_rfl) hfit
    have hshift : stop >>> h = (start + 2 ^ h) >>> h :=
      shiftRight_eq_of_lt_add (Nat.dvd_add hh dvd_rfl) hle hfit
    have hclear : ∀ i, h ≤ i → i < t → start.testBit i = false := fun i _ hi =>
      testBit_eq_false_of_two_pow_dvd hdvd hi
    have htop : ommersFrom hash P leaves stop h (t - h) = [subtree hash P leaves h (start >>> h)] := by
      rw [ommersFrom_congr_shiftRight hshift,
        ommersFrom_add_two_pow le_rfl (by omega) (fun i hi hih => by omega) (hclear h le_rfl hht),
        ommersFrom_of_testBit_eq_false fun i hi hit => hclear i (by omega) (by omega)]
    rw [show t = h + (t - h) by omega, ommersFrom_add, List.reverse_append, Nat.zero_add, htop,
      ← hroots]
    rfl

theorem height_two_pow (z : ℕ) : height (2 ^ z) = z := by
  rw [height]
  have hpos := Nat.one_le_two_pow (n := z)
  refine le_antisymm (Nat.size_le.mpr (by omega)) ?_
  cases z with
  | zero => exact Nat.zero_le _
  | succ z =>
    have : z < (2 ^ (z + 1) - 1).size := Nat.lt_size.mpr (by rw [Nat.pow_succ]; omega)
    omega

theorem height_eq_size (h : 2 ^ (n.size - 1) < n) : height n = n.size := by
  rw [height]
  refine le_antisymm (Nat.size_le.mpr ((Nat.sub_le n 1).trans_lt (Nat.lt_size_self n))) ?_
  have : n.size - 1 < (n - 1).size := Nat.lt_size.mpr (by omega)
  omega

end Zapatos.MerkleTree

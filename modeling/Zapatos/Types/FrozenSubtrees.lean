import Zapatos.Types.Position
import Zapatos.Lib.Iterator

namespace Zapatos.position

open Bits InOrder Iterator

structure FrozenSubTreeIterator where
  bitmap : ℕ
  seen_leaves : ℕ
deriving DecidableEq, Repr

namespace FrozenSubTreeIterator

def new (num_leaves : ℕ) : FrozenSubTreeIterator := ⟨num_leaves, 0⟩

-- None is a panic (the invariant assert or an overflow); some (none, _) ends the iteration.
def next (self : FrozenSubTreeIterator) : Option (Option Position × FrozenSubTreeIterator) :=
  if self.seen_leaves < 2 ^ 64 - 1 - self.bitmap then
    if self.bitmap = 0 then some (none, self)
    else
      let root_offset := smear_ones_for_u64 self.bitmap >>> 1
      if root_offset < self.bitmap then do
        let num_leaves ← add64 root_offset 1
        let leftmost_leaf ← Position.from_leaf_index self.seen_leaves
        let root ← add64 leftmost_leaf.to_inorder_index root_offset
        let seen_leaves ← add64 self.seen_leaves num_leaves
        pure (some (Position.from_inorder_index root),
          ⟨self.bitmap &&& not64 num_leaves, seen_leaves⟩)
      else none
  else none

end FrozenSubTreeIterator

structure FrozenSubtreeSiblingIterator where
  current_num_leaves : ℕ
  remaining_new_leaves : ℕ
deriving DecidableEq, Repr

namespace FrozenSubtreeSiblingIterator

def new (current_num_leaves new_num_leaves : ℕ) : Option FrozenSubtreeSiblingIterator :=
  if new_num_leaves ≤ MAX_ACCUMULATOR_LEAVES then
    if current_num_leaves ≤ new_num_leaves then
      some ⟨current_num_leaves, new_num_leaves - current_num_leaves⟩
    else none
  else none

-- MAX_ACCUMULATOR_PROOF_DEPTH - zeros is a usize subtraction.
def next_new_leaf_batch (self : FrozenSubtreeSiblingIterator) : Option ℕ :=
  let zeros := leading_zeros 64 self.remaining_new_leaves
  (sub64 MAX_ACCUMULATOR_PROOF_DEPTH zeros).map fun shift => 1 <<< shift

-- The let next_subtree_leaves of next; the trailing zeros of a nonzero u64 are below 64.
def next_subtree_leaves (self : FrozenSubtreeSiblingIterator) : Option ℕ :=
  if self.current_num_leaves > 0 then
    let rightmost_frozen_subtree_leaves := 1 <<< trailing_zeros 64 self.current_num_leaves
    if self.remaining_new_leaves ≥ rightmost_frozen_subtree_leaves then
      some rightmost_frozen_subtree_leaves
    else self.next_new_leaf_batch
  else self.next_new_leaf_batch

def next (self : FrozenSubtreeSiblingIterator) :
    Option (Option Position × FrozenSubtreeSiblingIterator) :=
  if self.remaining_new_leaves = 0 then some (none, self)
  else do
    let next_subtree_leaves ← self.next_subtree_leaves
    let first_leaf_index := self.current_num_leaves
    let last_leaf_index ← (add64 first_leaf_index next_subtree_leaves).bind (sub64 · 1)
    let current_num_leaves ← add64 self.current_num_leaves next_subtree_leaves
    let remaining_new_leaves ← sub64 self.remaining_new_leaves next_subtree_leaves
    let root ← add64 first_leaf_index last_leaf_index
    pure (some (Position.from_inorder_index root), ⟨current_num_leaves, remaining_new_leaves⟩)

end FrozenSubtreeSiblingIterator

-- The positions of the roots of a list of perfect subtrees (first leaf, height).
def subtree_roots (cover : List (ℕ × ℕ)) : List Position := cover.map fun t => ⟨subtree_root t⟩

section Frozen

open FrozenSubTreeIterator

-- One step from seen_leaves + bitmap ≤ 2^63 with the seen leaves aligned to the bitmap's size:
-- the highest bit h of the bitmap is the next perfect subtree, from leaf seen_leaves.
theorem FrozenSubTreeIterator.next_eq {bitmap seen : ℕ} (hn : seen + bitmap ≤ 2 ^ 63)
    (hdvd : 2 ^ bitmap.size ∣ seen) (hb : bitmap ≠ 0) :
    next ⟨bitmap, seen⟩ = some (some ⟨subtree_root (seen, bitmap.size - 1)⟩,
      ⟨bitmap - 2 ^ (bitmap.size - 1), seen + 2 ^ (bitmap.size - 1)⟩) := by
  have hsize : 0 < bitmap.size := Nat.size_pos.mpr (Nat.pos_of_ne_zero hb)
  have hle : 2 ^ (bitmap.size - 1) ≤ bitmap := Nat.lt_size.mp (by omega)
  have hlt : bitmap < 2 ^ (bitmap.size - 1 + 1) := by
    rw [Nat.sub_add_cancel hsize]
    exact Nat.lt_size_self bitmap
  have hpow := two_pow_succ (bitmap.size - 1)
  have hsmear : smear_ones_for_u64 bitmap >>> 1 = 2 ^ (bitmap.size - 1) - 1 := by
    rw [smear_ones_for_u64_eq (by omega), ← Nat.sub_add_cancel hsize,
      two_pow_succ_sub_one_shiftRight_one, Nat.add_sub_cancel]
  have hroot : subtree_root (seen, bitmap.size - 1) = 2 * seen + (2 ^ (bitmap.size - 1) - 1) :=
    subtree_root_of_dvd (dvd_trans (Nat.pow_dvd_pow 2 (Nat.sub_le _ 1)) hdvd)
  have hclear : bitmap &&& not64 (2 ^ (bitmap.size - 1)) = bitmap - 2 ^ (bitmap.size - 1) := by
    have hldiff := ldiff_two_pow_add (i := bitmap.size - 1)
      (r := bitmap - 2 ^ (bitmap.size - 1)) (by omega)
    rw [show 2 ^ (bitmap.size - 1) + (bitmap - 2 ^ (bitmap.size - 1)) = bitmap by omega] at hldiff
    rw [and_not64 (by omega), hldiff]
  have hpos := Nat.one_le_two_pow (n := bitmap.size - 1)
  simp only [next, from_leaf_index_eq, Nat.mod_eq_of_lt (show 2 * seen < 2 ^ 64 by omega), hsmear]
  rw [if_pos (by omega), if_neg hb, if_pos (by omega), add64_of_lt (by omega), Nat.sub_add_cancel hpos]
  simp only [Option.bind_eq_bind, Option.bind_some, Position.to_inorder_index,
    add64_of_lt (show 2 * seen + (2 ^ (bitmap.size - 1) - 1) < 2 ^ 64 by omega),
    add64_of_lt (show seen + 2 ^ (bitmap.size - 1) < 2 ^ 64 by omega), hclear, hroot]
  rfl

theorem FrozenSubTreeIterator.next_done {seen : ℕ} (hseen : seen < 2 ^ 64 - 1) :
    next ⟨0, seen⟩ = some (none, ⟨0, seen⟩) := by
  have hlt : seen < 2 ^ 64 - 1 - 0 := hseen
  simp only [next, hlt, if_true]

-- For every leaf count up to MAX_ACCUMULATOR_LEAVES the iterator yields, left to right, the roots
-- of the perfect subtrees whose sizes are the set bits of the count, largest first, laid over
-- the leaves [0, n).
theorem frozen_subtree_iterator_yields {n : ℕ} (hn : n ≤ MAX_ACCUMULATOR_LEAVES) :
    ∃ cover, Cover 0 n cover ∧ cover.map Prod.snd = bits_desc 64 n ∧
      Yields next (new n) (subtree_roots cover) := by
  have hmax : MAX_ACCUMULATOR_LEAVES = 2 ^ 63 := by simp [MAX_ACCUMULATOR_LEAVES,
    MAX_ACCUMULATOR_PROOF_DEPTH, Nat.one_shiftLeft]
  obtain ⟨l, ⟨cover, hcover, hbits, rfl⟩, hyields⟩ := exists_yields next
    (fun s => s.seen_leaves + s.bitmap = n ∧ 2 ^ s.bitmap.size ∣ s.seen_leaves)
    (fun s l => ∃ cover, Cover s.seen_leaves (s.seen_leaves + s.bitmap) cover ∧
      cover.map Prod.snd = bits_desc 64 s.bitmap ∧ l = subtree_roots cover)
    FrozenSubTreeIterator.bitmap (fun s hs => by
      obtain ⟨bitmap, seen⟩ := s
      obtain ⟨hsum, hdvd⟩ := hs
      dsimp only at hsum hdvd
      rcases Nat.eq_zero_or_pos bitmap with rfl | hb
      · exact .inl ⟨_, next_done (by omega), [], by simpa using Cover.nil seen, by simp, rfl⟩
      · have hsize : 0 < bitmap.size := Nat.size_pos.mpr hb
        have hsize64 : bitmap.size ≤ 64 := Nat.size_le.mpr (by omega)
        have hle : 2 ^ (bitmap.size - 1) ≤ bitmap := Nat.lt_size.mp (by omega)
        have hlt : bitmap < 2 ^ (bitmap.size - 1 + 1) := by
          rw [Nat.sub_add_cancel hsize]
          exact Nat.lt_size_self bitmap
        have hhead : 2 ^ (bitmap.size - 1) ∣ seen :=
          dvd_trans (Nat.pow_dvd_pow 2 (Nat.sub_le _ 1)) hdvd
        refine .inr ⟨_, _, next_eq (by omega) hdvd (by omega), ⟨by dsimp only; omega, ?_⟩,
          by dsimp only; omega, ?_⟩
        · have hrest : (bitmap - 2 ^ (bitmap.size - 1)).size ≤ bitmap.size - 1 :=
            Nat.size_le.mpr (by rw [two_pow_succ] at hlt; omega)
          exact dvd_trans (Nat.pow_dvd_pow 2 hrest) ((Nat.dvd_add_right hhead).mpr dvd_rfl)
        · rintro l ⟨cover, hcover, hbits, rfl⟩
          refine ⟨(seen, bitmap.size - 1) :: cover, .cons hhead ?_, ?_, rfl⟩
          · dsimp only at hcover
            rwa [show seen + 2 ^ (bitmap.size - 1) + (bitmap - 2 ^ (bitmap.size - 1)) =
              seen + bitmap by omega] at hcover
          · rw [List.map_cons, hbits, ← bits_desc_eq_cons (by omega) hle hlt])
    (s := new n) ⟨by simp [new], by simp [new]⟩
  exact ⟨cover, by simpa [new] using hcover, by simpa [new] using hbits, hyields⟩

-- Past MAX_ACCUMULATOR_LEAVES the iterator wraps: for 2^63 + 1 leaves the second subtree is leaf
-- 2^63, whose in-order index 2^64 is no u64, and from_leaf_index gives position 0 for it; for
-- u64::MAX leaves the invariant assert panics at once.
theorem frozen_subtree_iterator_past_max_leaves :
    Yields FrozenSubTreeIterator.next (FrozenSubTreeIterator.new (2 ^ 63 + 1))
        [⟨2 ^ 63 - 1⟩, ⟨0⟩] ∧
      subtree_roots [(0, 63), (2 ^ 63, 0)] = [⟨2 ^ 63 - 1⟩, ⟨2 ^ 64⟩] ∧
      (FrozenSubTreeIterator.new (2 ^ 64 - 1)).next = none := by
  have h₀ : (FrozenSubTreeIterator.new (2 ^ 63 + 1)).next =
      some (some ⟨2 ^ 63 - 1⟩, ⟨1, 2 ^ 63⟩) := by decide
  have h₁ : next ⟨1, 2 ^ 63⟩ = some (some ⟨0⟩, ⟨0, 2 ^ 63 + 1⟩) := by decide
  have h₂ : next ⟨0, 2 ^ 63 + 1⟩ = some (none, ⟨0, 2 ^ 63 + 1⟩) := by decide
  exact ⟨.yield h₀ (.yield h₁ (.done h₂)), by decide, by decide⟩

end Frozen

section Sibling

open FrozenSubtreeSiblingIterator

theorem FrozenSubtreeSiblingIterator.next_new_leaf_batch_eq {cur rem : ℕ} (hrem : rem ≠ 0)
    (hlt : rem < 2 ^ 64) : next_new_leaf_batch ⟨cur, rem⟩ = some (2 ^ (rem.size - 1)) := by
  have hsize : rem.size ≤ 64 := Nat.size_le.mpr hlt
  have hpos : 0 < rem.size := Nat.size_pos.mpr (Nat.pos_of_ne_zero hrem)
  simp only [next_new_leaf_batch, leading_zeros_eq_sub_size hrem hlt, MAX_ACCUMULATOR_PROOF_DEPTH,
    sub64_of_le (show 64 - rem.size ≤ 63 by omega), Option.map_some, Nat.one_shiftLeft]
  rw [show 63 - (64 - rem.size) = rem.size - 1 by omega]

-- The next subtree has the largest size that the leaf count is a multiple of and that the
-- remaining leaves hold: the rightmost frozen subtree's size when it fits, else the highest bit of
-- the remaining count.
theorem FrozenSubtreeSiblingIterator.next_subtree_leaves_eq {cur rem : ℕ} (hrem : rem ≠ 0)
    (hn : cur + rem ≤ 2 ^ 63) :
    ∃ h, next_subtree_leaves ⟨cur, rem⟩ = some (2 ^ h) ∧ 2 ^ h ∣ cur ∧ 2 ^ h ≤ rem ∧
      ∀ h', 2 ^ h' ∣ cur → 2 ^ h' ≤ rem → h' ≤ h := by
  have hsize : 0 < rem.size := Nat.size_pos.mpr (Nat.pos_of_ne_zero hrem)
  have hle : 2 ^ (rem.size - 1) ≤ rem := Nat.lt_size.mp (by omega)
  have hbatch : next_new_leaf_batch ⟨cur, rem⟩ = some (2 ^ (rem.size - 1)) :=
    next_new_leaf_batch_eq hrem (by omega)
  have hfit : ∀ h', 2 ^ h' ≤ rem → h' ≤ rem.size - 1 := fun h' hh' => by
    have := Nat.lt_size.mpr hh'
    omega
  rcases Nat.eq_zero_or_pos cur with rfl | hcur
  · refine ⟨rem.size - 1, ?_, dvd_zero _, hle, fun h' _ hh' => hfit h' hh'⟩
    simp [next_subtree_leaves, hbatch]
  · obtain ⟨t, -, htz, htdvd, htmax⟩ :=
      exists_trailing_zeros (Nat.pos_iff_ne_zero.mp hcur) (show cur < 2 ^ 64 by omega)
    by_cases hr : 2 ^ t ≤ rem
    · refine ⟨t, ?_, htdvd, hr, fun h' hh' _ => htmax h' hh'⟩
      simp [next_subtree_leaves, hcur, htz, Nat.one_shiftLeft, hr]
    · have hbt : rem.size - 1 < t := by
        by_contra hc
        exact hr (le_trans (Nat.pow_le_pow_right (by norm_num) (by omega)) hle)
      refine ⟨rem.size - 1, ?_, dvd_trans (Nat.pow_dvd_pow 2 hbt.le) htdvd, hle,
        fun h' _ hh' => hfit h' hh'⟩
      simp [next_subtree_leaves, hcur, htz, Nat.one_shiftLeft, hr, hbatch]

-- One step: the root of the subtree of 2^h leaves from leaf cur is the middle of its first and
-- last leaves, cur + (cur + 2^h - 1).
theorem FrozenSubtreeSiblingIterator.next_eq {cur rem h : ℕ} (hrem : rem ≠ 0)
    (hn : cur + rem ≤ 2 ^ 63) (hsize : next_subtree_leaves ⟨cur, rem⟩ = some (2 ^ h))
    (hdvd : 2 ^ h ∣ cur) (hle : 2 ^ h ≤ rem) :
    next ⟨cur, rem⟩ = some (some ⟨subtree_root (cur, h)⟩, ⟨cur + 2 ^ h, rem - 2 ^ h⟩) := by
  have hpos := Nat.one_le_two_pow (n := h)
  have hroot : cur + (cur + 2 ^ h - 1) = subtree_root (cur, h) := by
    rw [subtree_root_of_dvd hdvd]
    omega
  simp only [next, hrem, if_false, hsize, Option.bind_eq_bind, Option.bind_some,
    add64_of_lt (show cur + 2 ^ h < 2 ^ 64 by omega), sub64_of_le (show 1 ≤ cur + 2 ^ h by omega),
    sub64_of_le hle,
    add64_of_lt (show cur + (cur + 2 ^ h - 1) < 2 ^ 64 by omega), hroot]
  rfl

theorem FrozenSubtreeSiblingIterator.next_done (cur : ℕ) : next ⟨cur, 0⟩ = some (none, ⟨cur, 0⟩) := by
  simp [next]

-- For every m ≤ n ≤ MAX_ACCUMULATOR_LEAVES the iterator yields, left to right, the roots of
-- perfect subtrees laid over the leaves [m, n), each the largest that starts at the current leaf
-- count, is aligned to its size and fits within n.
theorem frozen_subtree_sibling_iterator_yields {m n : ℕ} (hmn : m ≤ n)
    (hn : n ≤ MAX_ACCUMULATOR_LEAVES) :
    ∃ it, new m n = some it ∧ ∃ cover, Cover m n cover ∧ Largest n cover ∧
      Yields next it (subtree_roots cover) := by
  have hmax : MAX_ACCUMULATOR_LEAVES = 2 ^ 63 := by
    simp [MAX_ACCUMULATOR_LEAVES, MAX_ACCUMULATOR_PROOF_DEPTH, Nat.one_shiftLeft]
  have hnew : new m n = some ⟨m, n - m⟩ := by rw [new, if_pos hn, if_pos hmn]
  obtain ⟨l, ⟨cover, hcover, hmaximal, rfl⟩, hyields⟩ := exists_yields next
    (fun s => s.current_num_leaves + s.remaining_new_leaves = n)
    (fun s l => ∃ cover, Cover s.current_num_leaves n cover ∧ Largest n cover ∧
      l = subtree_roots cover)
    FrozenSubtreeSiblingIterator.remaining_new_leaves (fun s hsum => by
      obtain ⟨cur, rem⟩ := s
      dsimp only at hsum
      rcases Nat.eq_zero_or_pos rem with rfl | hrem
      · refine .inl ⟨_, next_done cur, [], by simpa [← hsum] using Cover.nil cur, ?_, rfl⟩
        simp [Largest]
      · obtain ⟨h, hsize, hdvd, hle, hlargest⟩ := next_subtree_leaves_eq
          (show rem ≠ 0 by omega) (show cur + rem ≤ 2 ^ 63 by omega)
        refine .inr ⟨_, _, next_eq (by omega) (by omega) hsize hdvd hle, by dsimp only; omega,
          by dsimp only; have := Nat.one_le_two_pow (n := h); omega, ?_⟩
        rintro l ⟨cover, hcover, hmaximal, rfl⟩
        refine ⟨(cur, h) :: cover, .cons hdvd hcover, ?_, rfl⟩
        intro t ht
        rcases List.mem_cons.mp ht with rfl | ht
        · exact fun h' hh' hfits => hlargest h' hh' (by dsimp only at hfits; omega)
        · exact hmaximal t ht)
    (s := ⟨m, n - m⟩) (by dsimp only; omega)
  exact ⟨_, hnew, cover, hcover, hmaximal, hyields⟩

end Sibling

end Zapatos.position

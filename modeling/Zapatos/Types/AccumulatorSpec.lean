import Zapatos.Types.Accumulator
import Zapatos.Types.AccumulatorProof
import Zapatos.Types.FrozenSubtrees

namespace Zapatos.accumulator

open Bits MerkleTree position InOrder

variable {α : Type} (H : AccumulatorHasher α)

-- The accumulator of a list of leaves, as the padded tree over them gives it.
def summary (leaves : List α) : InMemoryAccumulator α :=
  ⟨(ommers H.internal_node H.placeholder 64 leaves).reverse, leaves.length,
    root H.internal_node H.placeholder leaves⟩

-- The hash of the node at a position of the padded tree over the leaves.
def node_hash (leaves : List α) (p : Position) : α :=
  subtree H.internal_node H.placeholder leaves p.level (p.to_inorder_index >>> (p.level + 1))

-- The accumulator holds the leaves: their number, the roots of the perfect subtrees of the
-- binary decomposition of that number, largest first, and the root of the padded tree.
structure Represents (acc : InMemoryAccumulator α) (leaves : List α) : Prop where
  num_leaves_eq : acc.num_leaves = leaves.length
  length_lt : leaves.length < 2 ^ 64
  frozen_eq : acc.frozen_subtree_roots = (ommers H.internal_node H.placeholder 64 leaves).reverse
  root_hash_eq : acc.root_hash = root H.internal_node H.placeholder leaves

namespace InMemoryAccumulator

variable {H} {leaves : List α} {n : ℕ}

section RootHash

theorem size_le_64 (hw : n < 2 ^ 64) : n.size ≤ 64 := Nat.size_le.mpr hw

-- The loop at level j: the bitmap is n >>> j, the hash so far is the node over leaf n at level j,
-- and the frozen roots left are those of the bits of n from j on.
theorem compute_root_hash_loop_eq (hn : leaves.length = n) (hw : n < 2 ^ 64) {z : ℕ}
    (hz : n.testBit z = true) :
    ∀ d j, z ≤ j → j + d = n.size →
      compute_root_hash_loop H (n >>> j) (subtree H.internal_node H.placeholder leaves j (n >>> j))
          (ommersFrom H.internal_node H.placeholder leaves n j (64 - j)) =
        some (subtree H.internal_node H.placeholder leaves n.size 0) := by
  intro d
  induction d with
  | zero =>
    intro j _ hj
    have hzero : n >>> j = 0 := by
      rw [Nat.shiftRight_eq_div_pow, Nat.div_eq_zero_iff_lt (Nat.two_pow_pos j)]
      rw [show j = n.size by omega]
      exact Nat.lt_size_self n
    rw [compute_root_hash_loop.eq_def, if_neg (by omega), hzero, ← hj, Nat.add_zero]
  | succ d ih =>
    intro j hzj hj
    have hsize := size_le_64 hw
    have hpos : 0 < n >>> j := by
      rw [Nat.shiftRight_eq_div_pow]
      exact Nat.div_pos (Nat.lt_size.mp (by omega)) (Nat.two_pow_pos j)
    have hparent : 2 ^ (j + 1) * (n >>> (j + 1)) < leaves.length := by
      rw [hn]
      exact two_pow_mul_shiftRight_lt hzj hz
    have hnext : n >>> j >>> 1 = n >>> (j + 1) := by rw [← Nat.shiftRight_add]
    have hiter : 64 - j = (64 - (j + 1)) + 1 := by omega
    rw [compute_root_hash_loop.eq_def, if_pos hpos, hiter, ommersFrom_succ, hnext]
    have hih := ih (j + 1) (by omega) (by omega)
    rw [subtree_shiftRight hparent] at hih
    by_cases hb : n.testBit j
    · rw [if_pos ((shiftRight_and_one_ne_zero_iff n j).mpr hb), if_pos hb]
      rw [if_pos hb] at hih
      exact hih
    · have hclear : ¬(n >>> j &&& 1 ≠ 0) := fun h => hb ((shiftRight_and_one_ne_zero_iff n j).mp h)
      rw [if_neg hclear, if_neg hb]
      rw [if_neg hb, subtree_shiftRight_succ_eq (by omega)] at hih
      exact hih

theorem compute_root_hash_of_two_le {frozen_subtree_roots : List α}
    (h : 2 ≤ frozen_subtree_roots.length) :
    compute_root_hash H frozen_subtree_roots n =
      if trailing_zeros 64 n < 64 then
        compute_root_hash_loop H (n >>> trailing_zeros 64 n) H.placeholder
          frozen_subtree_roots.reverse
      else none := by
  match frozen_subtree_roots, h with
  | _ :: _ :: _, _ => rfl

theorem ommers_eq_ommersFrom {z : ℕ} (hz : z < 64) (hn : leaves.length = n)
    (hbelow : ∀ i < z, n.testBit i = false) :
    ommers H.internal_node H.placeholder 64 leaves =
      ommersFrom H.internal_node H.placeholder leaves n z (64 - z) := by
  rw [ommers, hn, show 64 = z + (64 - z) by omega, ommersFrom_add,
    ommersFrom_of_testBit_eq_false fun i _ hi => hbelow i (by omega), List.nil_append,
    Nat.zero_add, show z + (64 - z) - z = 64 - z by omega]

-- With one frozen subtree the leaves fill a perfect tree, whose root it is.
theorem compute_root_hash_two_pow {z : ℕ} (hz : z < 64) (hn : leaves.length = 2 ^ z) :
    compute_root_hash H (ommers H.internal_node H.placeholder 64 leaves).reverse leaves.length =
      some (root H.internal_node H.placeholder leaves) := by
  have hbit : ∀ i, (2 ^ z).testBit i = decide (z = i) := fun i => Nat.testBit_two_pow
  have hom : ommers H.internal_node H.placeholder 64 leaves =
      [subtree H.internal_node H.placeholder leaves z 0] := by
    rw [ommers_eq_ommersFrom hz hn fun i hi => by rw [hbit]; simp; omega,
      show 64 - z = (63 - z) + 1 by omega, ommersFrom_succ, hbit, if_pos (decide_eq_true rfl),
      ommersFrom_of_testBit_eq_false fun i hi _ => by rw [hbit]; simp; omega]
    have hshift : 2 ^ z >>> (z + 1) = 0 := by
      rw [Nat.shiftRight_eq_div_pow, Nat.div_eq_zero_iff_lt (Nat.two_pow_pos _)]
      exact Nat.pow_lt_pow_right (by norm_num) (Nat.lt_succ_self z)
    rw [hshift]
  rw [hom, root, hn, height_two_pow]
  rfl

-- With two frozen subtrees or more the loop runs up to the top bit of the number of leaves,
-- which is then not a power of two.
theorem compute_root_hash_of_testBit {z i : ℕ} (hw : leaves.length < 2 ^ 64)
    (hz : leaves.length.testBit z = true) (hbelow : ∀ j < z, leaves.length.testBit j = false)
    (htz : trailing_zeros 64 leaves.length = z) (hzi : z < i) (hi : i < 64)
    (hbit : leaves.length.testBit i = true) :
    compute_root_hash H (ommers H.internal_node H.placeholder 64 leaves).reverse leaves.length =
      some (root H.internal_node H.placeholder leaves) := by
  have hz64 : z < 64 := by omega
  have hom := ommers_eq_ommersFrom (H := H) hz64 rfl hbelow
  have hsucc : 64 - z = (64 - (z + 1)) + 1 := by omega
  have hrest : 1 ≤ (ommersFrom H.internal_node H.placeholder leaves leaves.length (z + 1)
      (64 - (z + 1))).length := by
    refine List.length_pos_of_mem (List.mem_map_of_mem (List.mem_filter.mpr ⟨?_, hbit⟩))
    exact List.mem_range'_1.mpr ⟨by omega, by omega⟩
  have hlen : 2 ≤ (ommers H.internal_node H.placeholder 64 leaves).reverse.length := by
    rw [List.length_reverse, hom, hsucc, ommersFrom_succ, if_pos hz, List.length_cons]
    omega
  have hsize : z < leaves.length.size := Nat.lt_size.mpr (Nat.ge_two_pow_of_testBit hz)
  have hlow : leaves.length ≤ 2 ^ z * (leaves.length >>> z) := by
    have hdvd : leaves.length % 2 ^ z = 0 :=
      eq_zero_of_testBit fun j => by
        rw [Nat.testBit_mod_two_pow]
        by_cases hj : j < z
        · rw [hbelow j hj, Bool.and_false]
        · simp [hj]
    have := Nat.div_add_mod leaves.length (2 ^ z)
    rw [Nat.shiftRight_eq_div_pow]
    omega
  have htop : 2 ^ (leaves.length.size - 1) < leaves.length := by
    have hge : 2 ^ (leaves.length.size - 1) ≤ leaves.length := Nat.lt_size.mp (by omega)
    refine lt_of_le_of_ne hge fun heq => ?_
    have hz' := hz
    rw [← heq, Nat.testBit_two_pow] at hz hbit
    simp only [decide_eq_true_eq] at hz hbit
    omega
  have hloop := compute_root_hash_loop_eq (H := H) rfl hw hz (leaves.length.size - z) z le_rfl
    (by omega)
  rw [subtree_of_le hlow] at hloop
  rw [compute_root_hash_of_two_le hlen, htz, if_pos hz64, List.reverse_reverse, hom, hloop, root,
    height_eq_size htop]

theorem compute_root_hash_eq (hw : leaves.length < 2 ^ 64) :
    compute_root_hash H (ommers H.internal_node H.placeholder 64 leaves).reverse leaves.length =
      some (root H.internal_node H.placeholder leaves) := by
  rcases Nat.eq_zero_or_pos leaves.length with h0 | hpos
  · rw [List.eq_nil_of_length_eq_zero h0]
    have hnil : ommers H.internal_node H.placeholder 64 ([] : List α) = [] :=
      ommersFrom_of_testBit_eq_false fun i _ _ => Nat.zero_testBit i
    rw [hnil]
    rfl
  · obtain ⟨z, hz64, hz, hbelow, htz⟩ := exists_lowest_bit hpos.ne' hw
    by_cases hone : ∀ i, z < i → i < 64 → leaves.length.testBit i = false
    · have hn : leaves.length = 2 ^ z := by
        refine Nat.eq_of_testBit_eq fun i => ?_
        rw [Nat.testBit_two_pow]
        rcases Nat.lt_trichotomy i z with hiz | rfl | hiz
        · rw [hbelow i hiz, decide_eq_false (by omega)]
        · rw [hz, decide_eq_true rfl]
        · by_cases hi : i < 64
          · rw [hone i hiz hi, decide_eq_false (by omega)]
          · rw [Nat.testBit_eq_false_of_lt (hw.trans_le (Nat.pow_le_pow_right (by norm_num)
              (by omega))), decide_eq_false (by omega)]
      exact compute_root_hash_two_pow hz64 hn
    · push Not at hone
      obtain ⟨i, hzi, hi, hbit⟩ := hone
      exact compute_root_hash_of_testBit hw hz hbelow htz hzi hi (by simpa using hbit)

end RootHash

section Append

-- The carries of append_one at level i: the node over leaf n at level i meets the frozen root of
-- bit i of n, set below t, on its left.
theorem append_one_loop_eq {L : List α} {t : ℕ} (hn : n < L.length)
    (hbits : ∀ i < t, n.testBit i = true) (ht : t < 64) :
    ∀ d i, i + d = t →
      append_one_loop H d (subtree H.internal_node H.placeholder L i (n >>> i) ::
          ommersFrom H.internal_node H.placeholder L n i (64 - i)) =
        some (subtree H.internal_node H.placeholder L t (n >>> t) ::
          ommersFrom H.internal_node H.placeholder L n t (64 - t)) := by
  intro d
  induction d with
  | zero =>
    intro i hi
    obtain rfl : i = t := by omega
    rfl
  | succ d ih =>
    intro i hi
    have hb := hbits i (by omega)
    have hparent : 2 ^ (i + 1) * (n >>> (i + 1)) < L.length := by
      have := Nat.mul_div_le n (2 ^ (i + 1))
      rw [Nat.shiftRight_eq_div_pow]
      omega
    have hih := ih (i + 1) (by omega)
    rw [subtree_shiftRight hparent, if_pos hb] at hih
    rw [show 64 - i = (64 - (i + 1)) + 1 by omega, ommersFrom_succ, if_pos hb, append_one_loop]
    exact hih

theorem append_one_eq (hw : leaves.length + 1 < 2 ^ 64) (x : α) :
    append_one H (ommers H.internal_node H.placeholder 64 leaves).reverse leaves.length x =
      some (ommers H.internal_node H.placeholder 64 (leaves ++ [x])).reverse := by
  obtain ⟨t, k, hnode⟩ := exists_node leaves.length
  have hlt : node t k < 2 ^ 64 - 1 := by omega
  have ht : t < 64 := level_lt_of_node_lt hlt
  have hlevel : trailing_zeros 64 (not64 leaves.length) = t := by
    rw [hnode]
    exact level_node hlt
  have hset : ∀ i < t, leaves.length.testBit i = true := fun i hi => hnode ▸ testBit_node_of_lt hi
  have hclr : leaves.length.testBit t = false := hnode ▸ testBit_node_self
  have hx : subtree H.internal_node H.placeholder (leaves ++ [x]) 0 (leaves.length >>> 0) = x := by
    simp [subtree]
  have hloop := append_one_loop_eq (H := H) (L := leaves ++ [x]) (by simp) hset ht t 0
    (Nat.zero_add t)
  rw [hx, ommersFrom_append le_rfl] at hloop
  have hfrom : ommers H.internal_node H.placeholder 64 (leaves ++ [x]) =
      subtree H.internal_node H.placeholder (leaves ++ [x]) t (leaves.length >>> t) ::
        ommersFrom H.internal_node H.placeholder (leaves ++ [x]) leaves.length t (64 - t) := by
    rw [ommers, List.length_append, List.length_singleton,
      show leaves.length + 1 = leaves.length + 2 ^ 0 from rfl,
      ommersFrom_add_two_pow (m := 64) (Nat.zero_le t) (by omega) (fun i _ hi => hset i hi) hclr,
      show 64 - t = (63 - t) + 1 by omega, ommersFrom_succ, hclr, if_neg Bool.false_ne_true,
      show 0 + 64 - (t + 1) = 63 - t by omega]
  rw [append_one, List.reverse_reverse, hlevel, ommers, hloop, hfrom, Option.map_some]

theorem append_loop_eq : ∀ (more leaves : List α), leaves.length + more.length < 2 ^ 64 →
    append_loop H (ommers H.internal_node H.placeholder 64 leaves).reverse leaves.length more =
      some ((ommers H.internal_node H.placeholder 64 (leaves ++ more)).reverse,
        (leaves ++ more).length)
  | [], leaves, _ => by simp [append_loop]
  | x :: more, leaves, hw => by
    have hw' : (leaves ++ [x]).length + more.length < 2 ^ 64 := by
      simp only [List.length_append, List.length_singleton]
      simp only [List.length_cons] at hw
      omega
    have hone : leaves.length + 1 < 2 ^ 64 := by
      simp only [List.length_cons] at hw
      omega
    rw [append_loop, append_one_eq hone, Option.bind_eq_bind, Option.bind_some, add64_of_lt hone,
      Option.bind_eq_bind, Option.bind_some, ← List.length_concat, ← List.concat_eq_append,
      append_loop_eq more (leaves.concat x) (by simpa using hw'), List.concat_eq_append,
      List.append_assoc, List.singleton_append]

-- The count of leaves is a u64: the append of leaf 2^64 - 1 overflows it.
theorem append_loop_of_le {frozen_subtree_roots : List α} {num_leaves : ℕ} {more : List α}
    (hw : 2 ^ 64 ≤ num_leaves + more.length) (hn : num_leaves < 2 ^ 64) :
    append_loop H frozen_subtree_roots num_leaves more = none := by
  induction more generalizing frozen_subtree_roots num_leaves with
  | nil => simp at hw; omega
  | cons x more ih =>
    simp only [append_loop, Option.bind_eq_bind]
    cases happ : append_one H frozen_subtree_roots num_leaves x with
    | none => rfl
    | some roots =>
      simp only [Option.bind_some]
      by_cases hmax : num_leaves + 1 < 2 ^ 64
      · rw [add64_of_lt hmax, Option.bind_some]
        exact ih (by simp at hw; omega) hmax
      · rw [add64, if_neg hmax, Option.bind_none]

theorem new_eq (hw : leaves.length < 2 ^ 64) :
    new H (ommers H.internal_node H.placeholder 64 leaves).reverse leaves.length =
      some (.ok (summary H leaves)) := by
  have hlen : (ommers H.internal_node H.placeholder 64 leaves).reverse.length =
      count_ones 64 leaves.length := by
    rw [List.length_reverse, ommers, length_ommersFrom]
  rw [new, if_pos hlen, compute_root_hash_eq hw, Option.map_some]
  rfl

theorem represents_summary (hw : leaves.length < 2 ^ 64) : Represents H (summary H leaves) leaves :=
  ⟨rfl, hw, rfl, rfl⟩

theorem Represents.eq_summary {acc : InMemoryAccumulator α} (h : Represents H acc leaves) :
    acc = summary H leaves := by
  obtain ⟨frozen_subtree_roots, num_leaves, root_hash⟩ := acc
  obtain ⟨h1, -, h3, h4⟩ := h
  simp only at h1 h3 h4
  rw [h1, h3, h4]
  rfl

theorem default_eq : default H = some (summary H []) := by
  rw [summary, ommers_nil]
  rfl

theorem summary_append (hlt : leaves.length < 2 ^ 64) (more : List α) :
    (summary H leaves).append H more =
      if (leaves ++ more).length < 2 ^ 64 then some (summary H (leaves ++ more)) else none := by
  have h := represents_summary (H := H) hlt
  by_cases hw : (leaves ++ more).length < 2 ^ 64
  · rw [if_pos hw, append, h.frozen_eq, h.num_leaves_eq,
      append_loop_eq more leaves (by simpa using hw), Option.bind_eq_bind, Option.bind_some]
    dsimp only
    rw [new_eq hw]
    rfl
  · rw [if_neg hw, append, h.num_leaves_eq, append_loop_of_le (by simpa using hw) hlt]
    rfl

theorem append_eq_summary {acc : InMemoryAccumulator α} (h : Represents H acc leaves)
    (more : List α) :
    acc.append H more =
      if (leaves ++ more).length < 2 ^ 64 then some (summary H (leaves ++ more)) else none := by
  rw [Represents.eq_summary h]
  exact summary_append h.length_lt more

theorem append_eq_summary_three_two :
    Represents (⟨fun a b => a + 2 * b, 0⟩ : AccumulatorHasher ℕ)
        (summary ⟨fun a b => a + 2 * b, 0⟩ [1, 2, 3]) [1, 2, 3] ∧
      (summary (⟨fun a b => a + 2 * b, 0⟩ : AccumulatorHasher ℕ) [1, 2, 3]).append
          ⟨fun a b => a + 2 * b, 0⟩ [4, 5] =
        if ([1, 2, 3] ++ [4, 5]).length < 2 ^ 64 then
          some (summary ⟨fun a b => a + 2 * b, 0⟩ ([1, 2, 3] ++ [4, 5]))
        else none :=
  ⟨represents_summary (by decide), append_eq_summary (represents_summary (by decide)) [4, 5]⟩

theorem from_leaves_eq (leaves : List α) :
    from_leaves H leaves =
      if leaves.length < 2 ^ 64 then some (summary H leaves) else none := by
  rw [from_leaves, default_eq, Option.bind_some]
  exact summary_append (by norm_num) leaves

end Append

section AppendSubtrees

variable {L : List α}

-- The carries of append_subtrees from level a: bits a to b - 1 of the count are set and bit b is
-- clear, and the mask is the size of the subtree built so far.
theorem append_subtrees_carry_eq {c b : ℕ} (hc : c < L.length) (hb : b < 64)
    (hclr : c.testBit b = false) :
    ∀ d a, a + d = b → (∀ i, a ≤ i → i < b → c.testBit i = true) →
      append_subtrees_carry H c (2 ^ a) (subtree H.internal_node H.placeholder L a (c >>> a))
          (ommersFrom H.internal_node H.placeholder L c a (64 - a)) =
        some (2 ^ b, subtree H.internal_node H.placeholder L b (c >>> b),
          ommersFrom H.internal_node H.placeholder L c b (64 - b)) := by
  intro d
  induction d with
  | zero =>
    intro a ha _
    obtain rfl : a = b := by omega
    have hmask : c &&& 2 ^ a = 0 := by
      rw [Nat.and_two_pow, hclr]
      simp
    rw [append_subtrees_carry.eq_def, if_neg (not_not.mpr hmask)]
  | succ d ih =>
    intro a ha hset
    have hbit := hset a le_rfl (by omega)
    have hmask : c &&& 2 ^ a ≠ 0 := by
      rw [Nat.and_two_pow, hbit]
      simp
    have hshift : (2 ^ a <<< 1) % 2 ^ 64 = 2 ^ (a + 1) := by
      rw [Nat.shiftLeft_eq, Nat.pow_one, ← Nat.pow_succ,
        Nat.mod_eq_of_lt (Nat.pow_lt_pow_right (by norm_num) (by omega))]
    have hparent : 2 ^ (a + 1) * (c >>> (a + 1)) < L.length := by
      have := Nat.mul_div_le c (2 ^ (a + 1))
      rw [Nat.shiftRight_eq_div_pow]
      omega
    have hih := ih (a + 1) (by omega) fun i hi hib => hset i (by omega) hib
    rw [subtree_shiftRight hparent, if_pos hbit] at hih
    rw [append_subtrees_carry.eq_def, if_pos hmask, show 64 - a = (64 - (a + 1)) + 1 by omega,
      ommersFrom_succ, if_pos hbit]
    dsimp only
    rw [hshift]
    exact hih

-- A count with no set bit below t, plus 2^t: its bits from t up to the first clear bit b are set,
-- and the sum has b as its lowest set bit.
theorem exists_carry {cur t : ℕ} (hbelow : ∀ i < t, cur.testBit i = false) :
    ∃ b, t ≤ b ∧ (∀ i, t ≤ i → i < b → cur.testBit i = true) ∧ cur.testBit b = false ∧
      (∀ i < b, (cur + 2 ^ t).testBit i = false) ∧ (cur + 2 ^ t).testBit b = true := by
  obtain ⟨s, k, hnode⟩ := exists_node (cur >>> t)
  have hdvd := two_pow_dvd_of_testBit_eq_false hbelow
  have hsum : cur + 2 ^ t = 2 ^ (t + s) * (2 * k + 1) := by
    calc cur + 2 ^ t = 2 ^ t * (cur >>> t) + 2 ^ t := by
          rw [Nat.shiftRight_eq_div_pow, Nat.mul_div_cancel' hdvd]
      _ = 2 ^ t * (node s k + 1) := by rw [hnode, Nat.mul_add, Nat.mul_one]
      _ = 2 ^ (t + s) * (2 * k + 1) := by rw [node_add_one, ← Nat.mul_assoc, ← Nat.pow_add]
  refine ⟨t + s, by omega, fun i hti his => ?_, ?_, fun i hi => ?_, ?_⟩
  · obtain ⟨j, rfl⟩ := Nat.exists_eq_add_of_le hti
    rw [← Nat.testBit_shiftRight, hnode]
    exact testBit_node_of_lt (by omega)
  · rw [← Nat.testBit_shiftRight, hnode]
    exact testBit_node_self
  · rw [hsum, Nat.testBit_two_pow_mul]
    simp [Nat.not_le.mpr hi]
  · rw [hsum, Nat.testBit_two_pow_mul]
    simp [Nat.testBit_zero]

-- One round of the outer loop of append_subtrees: the next subtree is the sibling of the rightmost
-- frozen subtree, of 2^t leaves; it carries up to the lowest set bit b of the new count, and the
-- frozen roots become those of the new count.
theorem append_subtrees_loop_step {cur t rem : ℕ} {s : List α}
    (hbelow : ∀ i < t, cur.testBit i = false) (hfit : 2 ^ t ≤ rem)
    (hlen : cur + 2 ^ t ≤ L.length) (hmax : L.length ≤ 2 ^ 63) :
    ∃ b, (∀ i < b, (cur + 2 ^ t).testBit i = false) ∧ (cur + 2 ^ t).testBit b = true ∧
      append_subtrees_loop H (ommersFrom H.internal_node H.placeholder L cur 0 64) cur rem
          (subtree H.internal_node H.placeholder L t (cur >>> t) :: s) (2 ^ t) =
        append_subtrees_loop H (ommersFrom H.internal_node H.placeholder L (cur + 2 ^ t) 0 64)
          (cur + 2 ^ t) (rem - 2 ^ t) s (2 ^ b) := by
  obtain ⟨b, htb, hset, hclr, hbelow', hbit'⟩ := exists_carry hbelow
  have hb : b < 64 := lt_of_testBit_of_lt_two_pow (show cur + 2 ^ t < 2 ^ 64 by omega) hbit'
  have hpos := Nat.two_pow_pos t
  have hcarry := append_subtrees_carry_eq (H := H) (L := L) (by omega) hb hclr (b - t) t
    (by omega) hset
  have hstack : ommersFrom H.internal_node H.placeholder L (cur + 2 ^ t) 0 64 =
      subtree H.internal_node H.placeholder L b (cur >>> b) ::
        ommersFrom H.internal_node H.placeholder L cur b (64 - b) := by
    rw [ommersFrom_zero_eq (show t ≤ 64 by omega) fun i hi => hbelow' i (by omega),
      ommersFrom_add_two_pow (m := 64 - t) htb (by omega) hset hclr,
      show 64 - b = (63 - b) + 1 by omega, ommersFrom_succ, hclr, if_neg Bool.false_ne_true,
      show t + (64 - t) - (b + 1) = 63 - b by omega]
  refine ⟨b, hbelow', hbit', ?_⟩
  rw [append_subtrees_loop.eq_def, if_pos hfit, ommersFrom_zero_eq (show t ≤ 64 by omega) hbelow]
  simp only [Option.bind_eq_bind, hcarry, Option.bind_some,
    add64_of_lt (show cur + 2 ^ t < 2 ^ 64 by omega), hstack]

-- The outer loop of append_subtrees over a cover of [cur, n) by the largest aligned subtrees: it
-- stops at a count cur' whose rightmost frozen subtree, of 2^t' leaves, is larger than what is
-- left, with the frozen roots of cur' and the rest of the cover still to append.
theorem append_subtrees_loop_eq (hn : L.length = n) (hmax : n ≤ 2 ^ 63) {cur t : ℕ}
    {cover : List (ℕ × ℕ)} (hcover : Cover cur n cover) (hlargest : Largest n cover)
    (hbelow : ∀ i < t, cur.testBit i = false) (hbit : cur.testBit t = true) :
    ∃ cur' t' rest, Cover cur' n rest ∧ Largest n rest ∧ 2 ^ t' ∣ cur' ∧ n < cur' + 2 ^ t' ∧
      t' < 64 ∧ append_subtrees_loop H (ommersFrom H.internal_node H.placeholder L cur 0 64) cur (n - cur)
          (coverRoots H.internal_node H.placeholder L cover) (2 ^ t) =
        some (.ok (ommersFrom H.internal_node H.placeholder L cur' 0 64, cur', n - cur',
          coverRoots H.internal_node H.placeholder L rest)) := by
  induction hcover generalizing t with
  | nil cur =>
    refine ⟨cur, t, [], .nil cur, by simp [Largest], two_pow_dvd_of_testBit_eq_false hbelow,
      by have := Nat.two_pow_pos t; omega, lt_of_testBit_of_lt_two_pow (by omega) hbit, ?_⟩
    rw [append_subtrees_loop.eq_def, if_neg (by have := Nat.two_pow_pos t; omega)]
  | @cons cur stop h rest hh hrest ih =>
    have hdvd := two_pow_dvd_of_testBit_eq_false hbelow
    have hle := hrest.le
    by_cases hfit : stop - cur ≥ 2 ^ t
    · have hht : h = t := by
        refine le_antisymm ?_ (hlargest (cur, h) List.mem_cons_self t hdvd (by omega))
        by_contra hc
        rw [testBit_eq_false_of_two_pow_dvd hh (by omega)] at hbit
        cases hbit
      subst hht
      obtain ⟨b, hbelow', hbit', hstep⟩ := append_subtrees_loop_step (L := L)
        (s := coverRoots H.internal_node H.placeholder L rest) hbelow hfit
        (by omega) (by omega)
      obtain ⟨cur', t', rest', hc', hl', hd', hlt', ht', hloop⟩ := ih hn hmax
        (fun s hs => hlargest s (List.mem_cons_of_mem _ hs)) hbelow' hbit'
      refine ⟨cur', t', rest', hc', hl', hd', hlt', ht', ?_⟩
      rw [coverRoots_cons, hstep, Nat.sub_sub]
      exact hloop
    · refine ⟨cur, t, (cur, h) :: rest, .cons hh hrest, hlargest, hdvd, by omega,
        lt_of_testBit_of_lt_two_pow (show cur < 2 ^ 64 by omega) hbit, ?_⟩
      rw [append_subtrees_loop.eq_def, if_neg hfit]

-- After the loop: the frozen roots of cur' and the rest of the cover, smaller than 2^t', are the
-- frozen roots of n.
theorem ommers_eq_loop_result {cur' t' : ℕ} {rest : List (ℕ × ℕ)} (hn : L.length = n)
    (hcover : Cover cur' n rest) (hlargest : Largest n rest) (hdvd : 2 ^ t' ∣ cur')
    (hlt : n < cur' + 2 ^ t') (ht : t' ≤ 64) :
    (ommersFrom H.internal_node H.placeholder L cur' 0 64).reverse ++
        coverRoots H.internal_node H.placeholder L rest =
      (ommers H.internal_node H.placeholder 64 L).reverse := by
  have hshift : n >>> t' = cur' >>> t' := shiftRight_eq_of_lt_add hdvd hcover.le hlt
  have hsplit := (ommersFrom_add : ommersFrom H.internal_node H.placeholder L n 0 (t' + (64 - t')) = _)
  rw [Nat.add_sub_cancel' ht, Nat.zero_add] at hsplit
  rw [coverRoots_eq_ommersFrom hcover hlargest hdvd hlt,
    ommersFrom_zero_eq ht fun i hi => testBit_eq_false_of_two_pow_dvd hdvd hi,
    ← ommersFrom_congr_shiftRight hshift, ommers, hn, hsplit, List.reverse_append]

theorem append_subtrees_eq {acc : InMemoryAccumulator α} (h : Represents H acc leaves)
    {more : List α} (hmax : (leaves ++ more).length ≤ MAX_ACCUMULATOR_LEAVES)
    {cover : List (ℕ × ℕ)} (hcover : Cover leaves.length (leaves ++ more).length cover)
    (hlargest : Largest (leaves ++ more).length cover) :
    acc.append_subtrees H (coverRoots H.internal_node H.placeholder (leaves ++ more) cover)
        more.length =
      some (.ok (summary H (leaves ++ more))) := by
  rw [MAX_ACCUMULATOR_LEAVES_eq] at hmax
  have hlen : (leaves ++ more).length = leaves.length + more.length := List.length_append
  have hw : (leaves ++ more).length < 2 ^ 64 := by omega
  rw [append_subtrees, MAX_ACCUMULATOR_LEAVES_eq, h.num_leaves_eq, sub64_of_le (by omega),
    Option.bind_eq_bind, Option.bind_some, if_pos (show more.length ≤ 2 ^ 63 - leaves.length by omega)]
  rcases Nat.eq_zero_or_pos leaves.length with h0 | hpos
  · rw [if_pos h0]
    obtain rfl := List.eq_nil_of_length_eq_zero h0
    rw [coverRoots_eq_ommersFrom (t := 64) hcover hlargest (dvd_zero _) (by simpa using hw)]
    exact new_eq hw
  · obtain ⟨z, hz64, hz, hbelow, htz⟩ := exists_lowest_bit hpos.ne' h.length_lt
    obtain ⟨cur', t', rest, hc', hl', hd', hlt', ht', hloop⟩ :=
      append_subtrees_loop_eq (H := H) (L := leaves ++ more) rfl hmax hcover hlargest hbelow hz
    have hstack : ommers H.internal_node H.placeholder 64 leaves =
        ommersFrom H.internal_node H.placeholder (leaves ++ more) leaves.length 0 64 :=
      (ommersFrom_append le_rfl).symm
    rw [if_neg hpos.ne', htz, if_pos hz64, Nat.one_shiftLeft, h.frozen_eq, List.reverse_reverse,
      hstack, show more.length = (leaves ++ more).length - leaves.length by omega, hloop,
      Option.bind_eq_bind, Option.bind_some]
    dsimp only
    have hcur := hc'.le
    rw [add64_of_lt (by omega), Option.bind_some, Nat.add_sub_cancel' hcur,
      ommers_eq_loop_result rfl hc' hl' hd' hlt' ht'.le]
    exact new_eq hw

end AppendSubtrees

section SiblingIterator

open FrozenSubtreeSiblingIterator Iterator

variable {L : List α}

theorem node_hash_node {l k : ℕ} (h : node l k < 2 ^ 64 - 1) :
    node_hash H L ⟨node l k⟩ = subtree H.internal_node H.placeholder L l k := by
  rw [node_hash, level_node h, Position.to_inorder_index, node_shiftRight_succ]

theorem node_hash_subtree_root {s h : ℕ} (hdvd : 2 ^ h ∣ s) (hlt : s + 2 ^ h ≤ 2 ^ 63) :
    node_hash H L ⟨subtree_root (s, h)⟩ = subtree H.internal_node H.placeholder L h (s >>> h) := by
  have hroot := subtree_root_of_dvd hdvd
  have hnode : node h (s / 2 ^ h) < 2 ^ 64 - 1 := by
    rw [subtree_root] at hroot
    rw [hroot]
    omega
  rw [subtree_root, node_hash_node hnode, Nat.shiftRight_eq_div_pow]

theorem map_node_hash_subtree_roots {m : ℕ} {cover : List (ℕ × ℕ)} (hcover : Cover m n cover)
    (hn : n ≤ 2 ^ 63) :
    (subtree_roots cover).map (node_hash H L) = coverRoots H.internal_node H.placeholder L cover := by
  rw [subtree_roots, List.map_map, coverRoots]
  refine List.map_congr_left fun t ht => ?_
  obtain ⟨hdvd, -, hle⟩ := hcover.mem t ht
  exact node_hash_subtree_root hdvd (by omega)

-- The subtrees that a consistency proof carries are the nodes, in the tree over all the leaves, at
-- the positions FrozenSubtreeSiblingIterator yields; appending them gives the accumulator of all
-- the leaves.
theorem append_subtrees_sibling_iterator {acc : InMemoryAccumulator α}
    (h : Represents H acc leaves) {more : List α}
    (hmax : (leaves ++ more).length ≤ MAX_ACCUMULATOR_LEAVES) :
    ∃ it, FrozenSubtreeSiblingIterator.new leaves.length (leaves ++ more).length = some it ∧
      (∃ positions, Yields next it positions) ∧
      ∀ positions, Yields next it positions →
        acc.append_subtrees H (positions.map (node_hash H (leaves ++ more))) more.length =
          some (.ok (summary H (leaves ++ more))) := by
  obtain ⟨it, hnew, cover, hcover, hlargest, hyields⟩ :=
    frozen_subtree_sibling_iterator_yields (m := leaves.length) (by simp) hmax
  refine ⟨it, hnew, ⟨_, hyields⟩, fun positions hpositions => ?_⟩
  rw [← Yields.unique _ hyields hpositions,
    map_node_hash_subtree_roots hcover (MAX_ACCUMULATOR_LEAVES_eq ▸ hmax)]
  exact append_subtrees_eq h hmax hcover hlargest

theorem append_subtrees_sibling_iterator_three_two :
    Represents (⟨fun a b => a + 2 * b, 0⟩ : AccumulatorHasher ℕ)
        (summary ⟨fun a b => a + 2 * b, 0⟩ [1, 2, 3]) [1, 2, 3] ∧
      ([1, 2, 3] ++ [4, 5]).length ≤ MAX_ACCUMULATOR_LEAVES ∧
      ∃ it, FrozenSubtreeSiblingIterator.new [1, 2, 3].length ([1, 2, 3] ++ [4, 5]).length =
          some it ∧
        (∃ positions, Yields next it positions) ∧
        ∀ positions, Yields next it positions →
          (summary (⟨fun a b => a + 2 * b, 0⟩ : AccumulatorHasher ℕ) [1, 2, 3]).append_subtrees
              ⟨fun a b => a + 2 * b, 0⟩
              (positions.map (node_hash ⟨fun a b => a + 2 * b, 0⟩ ([1, 2, 3] ++ [4, 5])))
              [4, 5].length =
            some (.ok (summary ⟨fun a b => a + 2 * b, 0⟩ ([1, 2, 3] ++ [4, 5]))) :=
  ⟨represents_summary (by decide), by simp [MAX_ACCUMULATOR_LEAVES_eq],
    append_subtrees_sibling_iterator (represents_summary (by decide))
      (by simp [MAX_ACCUMULATOR_LEAVES_eq])⟩

end SiblingIterator

end InMemoryAccumulator

section ExtensionProof

variable {H} {leaves more : List α}

-- An extension proof made of the frozen subtree roots of an accumulator and new leaves verifies
-- against the accumulator's root and gives the accumulator of all the leaves.
theorem extension_proof_verify [DecidableEq α] (hlt : (leaves ++ more).length < 2 ^ 64) :
    (⟨(summary H leaves).frozen_subtree_roots, leaves.length, more⟩ :
        AccumulatorExtensionProof α).verify H (summary H leaves).root_hash =
      some (.ok (summary H (leaves ++ more))) := by
  have hw : leaves.length < 2 ^ 64 := by
    rw [List.length_append] at hlt
    omega
  have hnew : InMemoryAccumulator.new H (summary H leaves).frozen_subtree_roots leaves.length =
      some (.ok (summary H leaves)) := InMemoryAccumulator.new_eq hw
  rw [AccumulatorExtensionProof.verify]
  dsimp only
  rw [hnew, Option.bind_some]
  dsimp only
  rw [if_pos rfl, InMemoryAccumulator.summary_append hw, if_pos hlt, Option.map_some]

theorem extension_proof_verify_three_two :
    ([1, 2, 3] ++ [4, 5]).length < 2 ^ 64 ∧
      (⟨(summary ⟨fun a b => a + 2 * b, 0⟩ [1, 2, 3]).frozen_subtree_roots, [1, 2, 3].length,
          [4, 5]⟩ : AccumulatorExtensionProof ℕ).verify ⟨fun a b => a + 2 * b, 0⟩
          (summary ⟨fun a b => a + 2 * b, 0⟩ [1, 2, 3]).root_hash =
        some (.ok (summary ⟨fun a b => a + 2 * b, 0⟩ ([1, 2, 3] ++ [4, 5]))) :=
  ⟨by decide, extension_proof_verify (by decide)⟩

end ExtensionProof

end Zapatos.accumulator

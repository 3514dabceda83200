import Zapatos.Storage.AccumulatorSpec

namespace Zapatos.Storage

open Bits InOrder MerkleTree position accumulator

variable {α : Type} (H : AccumulatorHasher α)

-- The siblings of the path from leaf k at the levels t .. t + d - 1 where bit m of k is b: those
-- on the left of the path for b = true, those on its right for b = false.
def siblingsFrom (L : List α) (b : Bool) (k t d : ℕ) : List α :=
  ((List.range' t d).filter fun m => k.testBit m == b).map fun m =>
    subtree H.internal_node H.placeholder L m ((k >>> m) ^^^ 1)

-- The nodes at level t over the leaves i .. j.
def levelHashes (L : List α) (i j t : ℕ) : List α :=
  (List.range' (i >>> t) (j >>> t + 1 - i >>> t)).map (subtree H.internal_node H.placeholder L t)

variable {H}

section Siblings

variable {k m : ℕ}

-- Short of the last two leaves, the siblings of a path also pass the assert of is_left_child.
theorem sibling_node_lt_sub_two (hk : k < 2 ^ 63 - 2) (hm : m < 63) :
    node m ((k >>> m) ^^^ 1) < 2 ^ 64 - 2 := by
  cases m with
  | zero =>
    have hxor : k ^^^ 1 ≤ k + 1 := by
      rcases Nat.even_or_odd k with he | ho
      · rw [Nat.xor_one_of_even he]
      · rw [Nat.xor_one_of_odd ho]
        omega
    rw [node_zero, Nat.shiftRight_zero]
    omega
  | succ m =>
    have hlt := sibling_node_lt (show k < 2 ^ 63 by omega) hm
    have hodd := node_succ m ((k >>> (m + 1)) ^^^ 1)
    omega

-- The sibling at level m is a left child exactly when the path is a right child there.
theorem is_left_child_sibling_node (hk : k < 2 ^ 63 - 2) (hm : m < 63) :
    (Position.mk (node m ((k >>> m) ^^^ 1))).is_left_child = some (k.testBit m) := by
  rw [is_left_child_mk_node hm (sibling_node_lt_sub_two hk hm)]
  have hsplit := shiftRight_eq_two_mul_add k m
  congr 1
  by_cases hb : k.testBit m
  · rw [if_pos hb] at hsplit
    have hodd : Odd (k >>> m) := ⟨k >>> (m + 1), by omega⟩
    rw [hb, Nat.xor_one_of_odd hodd, decide_eq_true (by omega)]
  · rw [if_neg hb] at hsplit
    have heven : Even (k >>> m) := ⟨k >>> (m + 1), by omega⟩
    rw [Bool.eq_false_iff.mpr hb, Nat.xor_one_of_even heven, decide_eq_false (by omega)]

-- A filter on the siblings of a path that reads the path's bits.
theorem filterM_sibling_nodes {ms : List ℕ} {f : Position → Option Bool} {c : Bool → Bool}
    (hf : ∀ m ∈ ms, f ⟨node m ((k >>> m) ^^^ 1)⟩ = some (c (k.testBit m))) :
    (ms.map fun m => (⟨node m ((k >>> m) ^^^ 1)⟩ : Position)).filterM f =
      some ((ms.filter fun m => c (k.testBit m)).map fun m => ⟨node m ((k >>> m) ^^^ 1)⟩) := by
  have hsome : ∀ p ∈ ms.map (fun m => (⟨node m ((k >>> m) ^^^ 1)⟩ : Position)),
      f p = some ((f p).getD false) := by
    intro p hp
    obtain ⟨m, hm, rfl⟩ := List.mem_map.mp hp
    rw [hf m hm]
    rfl
  rw [List.filterM_eq_some hsome, List.filter_map]
  congr 2
  refine List.filter_congr fun m hm => ?_
  simp only [Function.comp_apply, hf m hm, Option.getD_some]

end Siblings

section Levels

theorem shiftRight_le_of_le {i j : ℕ} (hij : i ≤ j) (t : ℕ) : i >>> t ≤ j >>> t := by
  rw [Nat.shiftRight_eq_div_pow, Nat.shiftRight_eq_div_pow]
  exact Nat.div_le_div_right hij

theorem chunks_exact_two_range' (f : ℕ → α) : ∀ m c : ℕ,
    chunks_exact_two ((List.range' (2 * c) m).map f) =
      ((List.range' c (m / 2)).map fun c' => (f (2 * c'), f (2 * c' + 1)),
        if m % 2 = 1 then [f (2 * c + m - 1)] else [])
  | 0, c => rfl
  | 1, c => by simp [chunks_exact_two]
  | m + 2, c => by
    have ih := chunks_exact_two_range' f m (c + 1)
    rw [show 2 * (c + 1) = 2 * c + 1 + 1 by omega] at ih
    rw [List.range'_succ, List.range'_succ, List.map_cons, List.map_cons]
    simp only [chunks_exact_two, ih]
    rw [show (m + 2) / 2 = m / 2 + 1 by omega, List.range'_succ, List.map_cons,
      show (m + 2) % 2 = m % 2 by omega, show 2 * c + (m + 2) - 1 = 2 * c + 1 + 1 + m - 1 by omega]

theorem siblingsFrom_succ (L : List α) (b : Bool) (k t d : ℕ) :
    siblingsFrom H L b k t (d + 1) =
      (if k.testBit t = b then [subtree H.internal_node H.placeholder L t ((k >>> t) ^^^ 1)]
        else []) ++ siblingsFrom H L b k (t + 1) d := by
  rw [siblingsFrom, siblingsFrom, List.range'_succ, List.filter_cons]
  by_cases h : k.testBit t = b <;> simp [h]

end Levels

section Pass

variable {L : List α} {i j t d : ℕ}

-- One pass of the verifier turns the nodes of a level over the range into those of the level
-- above, with a sibling taken at each end where the path needs one.
theorem verify_pass_level (hij : i ≤ j) (hj : j < L.length) (hmax : L.length < 2 ^ 63)
    (ht : t + 1 + d = height L.length) :
    AccumulatorRangeProof.verify_pass H ⟨node t (i >>> t)⟩ (levelHashes H L i j t)
        (siblingsFrom H L true i t (d + 1)) (siblingsFrom H L false j t (d + 1)) =
      pure (levelHashes H L i j (t + 1), siblingsFrom H L true i (t + 1) d,
        siblingsFrom H L false j (t + 1) d) := by
  have hh := height_le_63 (show L.length ≤ 2 ^ 63 by omega)
  have hnode := node_shiftRight_lt (show i < 2 ^ 63 - 1 by omega) (show t ≤ 63 by omega)
  have hrc : (Position.mk (node t (i >>> t))).is_right_child = some (i.testBit t) := by
    rw [Position.is_right_child, is_left_child_mk_node (by omega) hnode]
    have hsplit := shiftRight_eq_two_mul_add i t
    by_cases hb : i.testBit t
    · rw [if_pos hb] at hsplit
      rw [hb, decide_eq_false (by omega)]
      rfl
    · rw [if_neg hb] at hsplit
      rw [Bool.eq_false_iff.mpr hb, decide_eq_true (by omega)]
      rfl
  have hq : 2 ^ (t + 1) * (j >>> (t + 1)) < L.length := by
    have := Nat.mul_div_le j (2 ^ (t + 1))
    rw [Nat.shiftRight_eq_div_pow]
    omega
  have hpq := shiftRight_le_of_le hij (t + 1)
  have hT : ∀ c ≤ j >>> (t + 1), subtree H.internal_node H.placeholder L (t + 1) c =
      H.internal_node (subtree H.internal_node H.placeholder L t (2 * c))
        (subtree H.internal_node H.placeholder L t (2 * c + 1)) := fun c hc =>
    subtree_succ (lt_of_le_of_lt (Nat.mul_le_mul_left _ hc) hq)
  have hab := shiftRight_le_of_le hij t
  have hi_split := shiftRight_eq_two_mul_add i t
  have hj_split := shiftRight_eq_two_mul_add j t
  rw [AccumulatorRangeProof.verify_pass, hrc, ExceptT.liftM_some, pure_bind,
    siblingsFrom_succ, siblingsFrom_succ, levelHashes, levelHashes]
  generalize i >>> (t + 1) = p at hi_split hpq ⊢
  generalize j >>> (t + 1) = q at hj_split hpq hT ⊢
  have hpair : ∀ n c, c + n ≤ q + 1 →
      ((List.range' c n).map fun c' => (subtree H.internal_node H.placeholder L t (2 * c'),
          subtree H.internal_node H.placeholder L t (2 * c' + 1))).map
        (fun chunk => H.internal_node chunk.1 chunk.2) =
      (List.range' c n).map (subtree H.internal_node H.placeholder L (t + 1)) := by
    intro n c hn
    rw [List.map_map]
    refine List.map_congr_left fun c' hc' => ?_
    have := (List.mem_range'_1.mp hc').2
    exact (hT c' (by omega)).symm
  have hxodd : ∀ c, (2 * c + 1) ^^^ 1 = 2 * c := fun c => by
    rw [Nat.xor_one_of_odd ⟨c, rfl⟩]
    omega
  have hxeven : ∀ c, (2 * c) ^^^ 1 = 2 * c + 1 := fun c => Nat.xor_one_of_even ⟨c, by omega⟩
  cases hbi : i.testBit t <;> cases hbj : j.testBit t
  · -- the first node is a left child and the last one too: a right sibling closes the level
    simp only [hbi, hbj, Bool.false_eq_true, if_false, Nat.add_zero] at hi_split hj_split
    have hodd : (2 * q + 1 - 2 * p) % 2 = 1 := by omega
    simp only [hi_split, hj_split, Bool.false_eq_true, if_false, if_true, List.nil_append,
      List.singleton_append, chunks_exact_two_range', hodd, hxeven, pure_bind]
    rw [show (2 * q + 1 - 2 * p) / 2 = q - p by omega,
      show 2 * p + (2 * q + 1 - 2 * p) - 1 = 2 * q by omega, hpair (q - p) p (by omega),
      ← hT q le_rfl, show q + 1 - p = q - p + 1 by omega, List.range'_concat, List.map_append,
      List.map_singleton, Nat.one_mul, Nat.add_sub_cancel' hpq]
  · -- the first node is a left child and the last one a right child: the pairs cover the level
    simp only [hbi, hbj, Bool.false_eq_true, if_false, if_true, Nat.add_zero] at hi_split hj_split
    have heven : ¬(2 * q + 1 + 1 - 2 * p) % 2 = 1 := by omega
    simp only [hi_split, hj_split, Bool.false_eq_true, Bool.true_eq_false, if_false,
      List.nil_append, chunks_exact_two_range', heven, pure_bind]
    rw [show (2 * q + 1 + 1 - 2 * p) / 2 = q + 1 - p by omega, hpair (q + 1 - p) p (by omega)]
  · -- the first node is a right child and the last one a left child: a sibling at each end
    simp only [hbi, hbj, Bool.false_eq_true, if_false, if_true, Nat.add_zero] at hi_split hj_split
    have hodd : (2 * q - 2 * p - 1) % 2 = 1 := by omega
    have hcur : List.range' (2 * p + 1) (2 * q + 1 - (2 * p + 1)) =
        (2 * p + 1) :: List.range' (2 * (p + 1)) (2 * q - 2 * p - 1) := by
      rw [show 2 * q + 1 - (2 * p + 1) = 2 * q - 2 * p - 1 + 1 by omega, List.range'_succ,
        show 2 * p + 1 + 1 = 2 * (p + 1) by omega]
    simp only [hi_split, hj_split, hcur, hxodd, hxeven, if_true, List.singleton_append, List.map_cons,
      chunks_exact_two_range', hodd, pure_bind]
    rw [show (2 * q - 2 * p - 1) / 2 = q - p - 1 by omega,
      show 2 * (p + 1) + (2 * q - 2 * p - 1) - 1 = 2 * q by omega,
      hpair (q - p - 1) (p + 1) (by omega), ← hT p hpq, ← hT q le_rfl,
      show q + 1 - p = q - p - 1 + 1 + 1 by omega, List.range'_succ, List.range'_concat,
      List.map_cons, List.map_append, List.map_singleton, Nat.one_mul,
      show p + 1 + (q - p - 1) = q by omega]
    rfl
  · -- both ends are right children: a left sibling opens the level
    simp only [hbi, hbj, if_true] at hi_split hj_split
    have heven : ¬(2 * q + 1 + 1 - 2 * (p + 1)) % 2 = 1 := by omega
    have hcur : List.range' (2 * p + 1) (2 * q + 1 + 1 - (2 * p + 1)) =
        (2 * p + 1) :: List.range' (2 * (p + 1)) (2 * q + 1 + 1 - 2 * (p + 1)) := by
      rw [show 2 * q + 1 + 1 - (2 * p + 1) = 2 * q + 1 + 1 - 2 * (p + 1) + 1 by omega,
        List.range'_succ, show 2 * p + 1 + 1 = 2 * (p + 1) by omega]
    simp only [hi_split, hj_split, hcur, hxodd, Bool.true_eq_false, if_false, if_true,
      List.singleton_append, List.nil_append, List.map_cons, chunks_exact_two_range', heven,
      pure_bind]
    rw [show (2 * q + 1 + 1 - 2 * (p + 1)) / 2 = q - p by omega,
      hpair (q - p) (p + 1) (by omega), ← hT p hpq, show q + 1 - p = q - p + 1 by omega,
      List.range'_succ, List.map_cons]

theorem verify_loop_continues (hij : i ≤ j) (d : ℕ) :
    ((levelHashes H L i j t).length > 1 || !(siblingsFrom H L true i t (d + 1)).isEmpty ||
      !(siblingsFrom H L false j t (d + 1)).isEmpty) = true := by
  have hab := shiftRight_le_of_le hij t
  have hi_split := shiftRight_eq_two_mul_add i t
  have hj_split := shiftRight_eq_two_mul_add j t
  rw [siblingsFrom_succ, siblingsFrom_succ, levelHashes, List.length_map, List.length_range']
  cases hbi : i.testBit t <;> cases hbj : j.testBit t <;> simp [hbi, hbj] at hi_split hj_split ⊢
  omega

-- The loop climbs from level t to the root, one level a pass, and ends with the root alone.
theorem verify_loop_level (hij : i ≤ j) (hj : j < L.length) (hmax : L.length < 2 ^ 63) :
    ∀ d t fuel, t + d = height L.length → d ≤ fuel →
      AccumulatorRangeProof.verify_loop H fuel ⟨node t (i >>> t)⟩ (levelHashes H L i j t)
          (siblingsFrom H L true i t d) (siblingsFrom H L false j t d) =
        pure [root H.internal_node H.placeholder L] := by
  have hh := height_le_63 (show L.length ≤ 2 ^ 63 by omega)
  intro d
  induction d with
  | zero =>
    intro t fuel ht _
    rw [Nat.add_zero] at ht
    subst ht
    have hjh : j < 2 ^ height L.length := by
      have := Nat.lt_size_self (L.length - 1)
      rw [height]
      omega
    have hi0 : i >>> height L.length = 0 := Nat.shiftRight_eq_zero i _ (by omega)
    have hj0 : j >>> height L.length = 0 := Nat.shiftRight_eq_zero j _ hjh
    rw [AccumulatorRangeProof.verify_loop.eq_def, levelHashes, hi0, hj0]
    simp [siblingsFrom, root]
  | succ d ih =>
    intro t fuel ht hfuel
    obtain ⟨fuel, rfl⟩ : ∃ f, fuel = f + 1 := ⟨fuel - 1, by omega⟩
    have hnode := node_shiftRight_lt (show i < 2 ^ 63 - 1 by omega) (show t ≤ 63 by omega)
    rw [AccumulatorRangeProof.verify_loop.eq_def, if_pos (verify_loop_continues hij d)]
    simp only [verify_pass_level hij hj hmax (show t + 1 + d = height L.length by omega),
      parent_mk_node (show t < 63 by omega) hnode, ← Nat.shiftRight_succ, ExceptT.liftM_some,
      pure_bind]
    exact ih (t + 1) fuel (by omega) (by omega)

end Pass

section Verify

variable {L : List α} {i n : ℕ}

-- The leaves i .. i + n - 1 are the nodes at level 0 over them.
theorem levelHashes_zero (hin : i + n ≤ L.length) (hn : 0 < n) :
    levelHashes H L i (i + n - 1) 0 = (L.drop i).take n := by
  rw [levelHashes, Nat.shiftRight_zero, Nat.shiftRight_zero, show i + n - 1 + 1 - i = n by omega]
  clear hn
  induction n generalizing i with
  | zero => simp
  | succ n ih =>
    rw [List.range'_succ, List.map_cons, List.drop_eq_getElem_cons (by omega), List.take_succ_cons,
      ih (by omega), subtree, List.getD_eq_getElem _ _ (by omega)]

-- The verifier accepts the leaves i .. i + n - 1 with the siblings of their paths against the
-- root of the tree.
theorem verify_siblingsFrom [DecidableEq α] (hn : 0 < n) (hin : i + n ≤ L.length)
    (hmax : L.length < 2 ^ 63) :
    (⟨siblingsFrom H L true i 0 (height L.length),
        siblingsFrom H L false (i + n - 1) 0 (height L.length)⟩ : AccumulatorRangeProof α).verify H
      (root H.internal_node H.placeholder L) (some i) ((L.drop i).take n) = pure () := by
  have hh := height_le_63 (show L.length ≤ 2 ^ 63 by omega)
  have hlen : ∀ b k, (siblingsFrom H L b k 0 (height L.length)).length ≤ MAX_ACCUMULATOR_PROOF_DEPTH :=
    fun b k => by
      rw [siblingsFrom, List.length_map, MAX_ACCUMULATOR_PROOF_DEPTH]
      exact (List.length_filter_le _ _).trans (by rw [List.length_range']; omega)
  have hloop := verify_loop_level (H := H) (show i ≤ i + n - 1 by omega)
    (show i + n - 1 < L.length by omega) hmax (height L.length) 0 64 (by omega) (by omega)
  rw [Nat.shiftRight_zero, levelHashes_zero hin hn] at hloop
  have hne : ((L.drop i).take n).isEmpty = false := by
    rw [List.isEmpty_eq_false_iff, ne_eq, List.take_eq_nil_iff, List.drop_eq_nil_iff]
    omega
  rw [AccumulatorRangeProof.verify, if_pos (hlen true i), if_pos (hlen false (i + n - 1)), hne]
  simp only [Bool.not_false, if_true, from_leaf_index_node (show i < 2 ^ 63 by omega),
    ExceptT.liftM_some, pure_bind, hloop]

end Verify

section RangeProof

variable {reader : Position → Except MerkleAccumulatorError α} {L : List α} {i n : ℕ}

theorem get_range_proof_positions_eq (hn : 0 < n) (hin : i + n ≤ L.length)
    (hmax : L.length < 2 ^ 63 - 1) :
    (⟨reader, L.length⟩ : MerkleAccumulatorView α).get_range_proof_positions (some i) n =
      pure ((((List.range' 0 (height L.length)).filter fun m => i.testBit m == true).map
          fun m => ⟨node m ((i >>> m) ^^^ 1)⟩),
        ((List.range' 0 (height L.length)).filter fun m => (i + n - 1).testBit m == false).map
          fun m => ⟨node m (((i + n - 1) >>> m) ^^^ 1)⟩) := by
  have hh := height_le_63 (show L.length ≤ 2 ^ 63 by omega)
  have hlevel : ∀ m ∈ List.range' 0 (height L.length), m < 63 := fun m hm => by
    have := (List.mem_range'_1.mp hm).2
    omega
  have hleft := filterM_sibling_nodes (k := i) (f := fun p => p.is_left_child)
    (c := fun b => b == true) fun m hm => by
      rw [beq_true]
      exact is_left_child_sibling_node (by omega) (hlevel m hm)
  have hright := filterM_sibling_nodes (k := i + n - 1) (f := fun p => p.is_right_child)
    (c := fun b => b == false) fun m hm => by
      rw [beq_false, Position.is_right_child, is_left_child_sibling_node (by omega) (hlevel m hm)]
      rfl
  rw [MerkleAccumulatorView.get_range_proof_positions]
  simp only [gt_iff_lt, if_pos hn, add64_of_lt (show i + (n - 1) < 2 ^ 64 by omega),
    show i + (n - 1) = i + n - 1 by omega, if_pos (show i + n - 1 < L.length by omega),
    get_sibling_positions_eq (show i < L.length by omega) (show L.length < 2 ^ 63 by omega),
    get_sibling_positions_eq (show i + n - 1 < L.length by omega)
      (show L.length < 2 ^ 63 by omega), hleft, hright, ExceptT.liftM_some, pure_bind]

-- Below the last leaf a store can hold, a range proof from the store holds the left siblings of
-- the path from the first leaf and the right siblings of the path from the last one.
theorem get_range_proof_eq (hst : Stores H reader L) (hn : 0 < n) (hin : i + n ≤ L.length)
    (hmax : L.length < 2 ^ 63 - 1) :
    (⟨reader, L.length⟩ : MerkleAccumulatorView α).get_range_proof H (some i) n =
      pure ⟨siblingsFrom H L true i 0 (height L.length),
        siblingsFrom H L false (i + n - 1) 0 (height L.length)⟩ := by
  have hh := height_le_63 (show L.length ≤ 2 ^ 63 by omega)
  have hlevel : ∀ b k, ∀ m ∈ (List.range' 0 (height L.length)).filter
      (fun m => Nat.testBit k m == b), m < 63 := fun b k m hm => by
    have := (List.mem_range'_1.mp (List.mem_filter.mp hm).1).2
    omega
  rw [MerkleAccumulatorView.get_range_proof, get_range_proof_positions_eq hn hin hmax, pure_bind]
  dsimp only
  rw [get_hashes_sibling_nodes hst (by omega) (by omega) (show i < 2 ^ 63 by omega)
      (hlevel true i), pure_bind,
    get_hashes_sibling_nodes hst (by omega) (by omega) (show i + n - 1 < 2 ^ 63 by omega)
      (hlevel false (i + n - 1)), pure_bind]
  rfl

-- A range proof from the store verifies the leaves of the range against the root hash the store
-- gives.
theorem get_range_proof_verify [DecidableEq α] (hst : Stores H reader L) (hn : 0 < n)
    (hin : i + n ≤ L.length) (hmax : L.length < 2 ^ 63 - 1) :
    ∃ proof root_hash,
      (⟨reader, L.length⟩ : MerkleAccumulatorView α).get_range_proof H (some i) n = pure proof ∧
      (⟨reader, L.length⟩ : MerkleAccumulatorView α).get_root_hash H = pure root_hash ∧
      proof.verify H root_hash (some i) ((L.drop i).take n) = pure () :=
  ⟨_, _, get_range_proof_eq hst hn hin hmax, get_root_hash_eq hst (by omega) (by omega),
    verify_siblingsFrom hn hin (by omega)⟩

theorem get_range_proof_verify_two_of_five :
    ∃ proof root_hash, (⟨fun p => .ok (node_hash ⟨fun a b => a + 2 * b, 0⟩ [1, 2, 3, 4, 5] p),
        5⟩ : MerkleAccumulatorView ℕ).get_range_proof ⟨fun a b => a + 2 * b, 0⟩ (some 1) 3 =
        pure proof ∧
      (⟨fun p => .ok (node_hash ⟨fun a b => a + 2 * b, 0⟩ [1, 2, 3, 4, 5] p), 5⟩ :
        MerkleAccumulatorView ℕ).get_root_hash ⟨fun a b => a + 2 * b, 0⟩ = pure root_hash ∧
      proof.verify ⟨fun a b => a + 2 * b, 0⟩ root_hash (some 1) (([1, 2, 3, 4, 5].drop 1).take 3) =
        pure () :=
  get_range_proof_verify (L := [1, 2, 3, 4, 5]) (stores_node_hash (by decide)) (by decide)
    (by decide) (by decide)

end RangeProof

section LastLeaf

-- Leaf 2^63 - 1, at position u64::MAX - 1, fails the assert of is_left_child.
theorem is_right_child_last_leaf : (Position.mk (node 0 (2 ^ 63 - 1))).is_right_child = none := by
  rw [Position.is_right_child, Position.is_left_child,
    if_neg (show ¬ node 0 (2 ^ 63 - 1) < 2 ^ 64 - 2 by rw [node_zero]; omega)]
  rfl

-- A range proof that ends at the last leaf of a store of 2^63 - 1 leaves, the most append lets it
-- hold, panics: the right filter asks is_right_child of that leaf's sibling, leaf 2^63 - 1.
theorem get_range_proof_last_leaf_panics (reader : Position → Except MerkleAccumulatorError α)
    {i : ℕ} (hi : i ≤ 2 ^ 63 - 2) :
    (⟨reader, 2 ^ 63 - 1⟩ : MerkleAccumulatorView α).get_range_proof H (some i) (2 ^ 63 - 1 - i) =
      ExceptT.lift none := by
  have hh : 0 < height (2 ^ 63 - 1) := Nat.size_pos.mpr (by norm_num)
  have hmem : (⟨node 0 (((2 ^ 63 - 2) >>> 0) ^^^ 1)⟩ : Position) ∈
      (List.range' 0 (height (2 ^ 63 - 1))).map fun m => ⟨node m (((2 ^ 63 - 2) >>> m) ^^^ 1)⟩ :=
    List.mem_map.mpr ⟨0, List.mem_range'_1.mpr ⟨le_refl 0, hh⟩, rfl⟩
  have hsib : ((2 ^ 63 - 2) >>> 0) ^^^ 1 = 2 ^ 63 - 1 := by decide
  have hright : (⟨reader, 2 ^ 63 - 1⟩ : MerkleAccumulatorView α).get_sibling_positions
      (2 ^ 63 - 2) (fun p => p.is_right_child) = none := by
    rw [get_sibling_positions_eq (by norm_num) (by norm_num)]
    exact List.filterM_eq_none hmem (by rw [hsib]; exact is_right_child_last_leaf)
  have hlast : i + (2 ^ 63 - 1 - i - 1) = 2 ^ 63 - 2 := by omega
  rw [MerkleAccumulatorView.get_range_proof, MerkleAccumulatorView.get_range_proof_positions]
  simp only [gt_iff_lt, add64_of_lt (show i + (2 ^ 63 - 1 - i - 1) < 2 ^ 64 by omega), hlast,
    if_pos (show 0 < 2 ^ 63 - 1 - i by omega), if_pos (show 2 ^ 63 - 2 < 2 ^ 63 - 1 by norm_num),
    hright]
  cases (⟨reader, 2 ^ 63 - 1⟩ : MerkleAccumulatorView α).get_sibling_positions i
    (fun p => p.is_left_child) <;> rfl

theorem get_range_proof_last_leaf_panics_single :
    2 ^ 63 - 2 ≤ 2 ^ 63 - 2 ∧
      (⟨fun p => .error (.DoesNotExist p), 2 ^ 63 - 1⟩ : MerkleAccumulatorView ℕ).get_range_proof
          ⟨fun a b => a + 2 * b, 0⟩ (some (2 ^ 63 - 2)) (2 ^ 63 - 1 - (2 ^ 63 - 2)) =
        ExceptT.lift none :=
  ⟨le_refl _, get_range_proof_last_leaf_panics _ (le_refl _)⟩

-- Given 2^63 - 1 as the first leaf index, AccumulatorRangeProof::verify panics instead of
-- rejecting the proof as soon as its loop runs: the leaf's position u64::MAX - 1 fails the
-- assert of is_right_child.
theorem verify_last_leaf_index_panics [DecidableEq α] (proof : AccumulatorRangeProof α)
    (expected_root_hash : α) (leaf_hashes : List α)
    (hleft : proof.left_siblings.length ≤ MAX_ACCUMULATOR_PROOF_DEPTH)
    (hright : proof.right_siblings.length ≤ MAX_ACCUMULATOR_PROOF_DEPTH)
    (hne : leaf_hashes ≠ [])
    (hloop : (leaf_hashes.length > 1 || !proof.left_siblings.isEmpty ||
      !proof.right_siblings.isEmpty) = true) :
    proof.verify H expected_root_hash (some (2 ^ 63 - 1)) leaf_hashes = ExceptT.lift none := by
  have hleaf : Position.from_leaf_index (2 ^ 63 - 1) = some ⟨node 0 (2 ^ 63 - 1)⟩ := by
    rw [from_leaf_index_eq, node_zero, Nat.mod_eq_of_lt (by norm_num)]
  have hpass : ∀ current left right : List α,
      AccumulatorRangeProof.verify_pass H ⟨node 0 (2 ^ 63 - 1)⟩ current left right =
        ExceptT.lift none := by
    intro current left right
    rw [AccumulatorRangeProof.verify_pass, is_right_child_last_leaf]
    rfl
  have hne' : leaf_hashes.isEmpty = false := List.isEmpty_eq_false_iff.mpr hne
  rw [AccumulatorRangeProof.verify, if_pos hleft, if_pos hright, hne']
  simp only [Bool.not_false, if_true, hleaf, ExceptT.liftM_some, pure_bind]
  rw [AccumulatorRangeProof.verify_loop.eq_def, if_pos hloop]
  simp only [hpass, ExceptT.lift_none_bind]

theorem verify_last_leaf_index_panics_one_sibling :
    ([0] : List ℕ).length ≤ MAX_ACCUMULATOR_PROOF_DEPTH ∧
      ([] : List ℕ).length ≤ MAX_ACCUMULATOR_PROOF_DEPTH ∧ [1] ≠ ([] : List ℕ) ∧
      ([1].length > 1 || !([0] : List ℕ).isEmpty || !([] : List ℕ).isEmpty) = true ∧
      (⟨[0], []⟩ : AccumulatorRangeProof ℕ).verify ⟨fun a b => a + 2 * b, 0⟩ 0 (some (2 ^ 63 - 1))
          [1] = ExceptT.lift none :=
  ⟨by decide, by decide, by decide, by decide,
    verify_last_leaf_index_panics _ _ _ (by decide) (by decide) (by decide) (by decide)⟩

end LastLeaf

end Zapatos.Storage

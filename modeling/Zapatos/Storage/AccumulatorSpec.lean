import Zapatos.Storage.Accumulator
import Zapatos.Types.AccumulatorSpec

namespace Zapatos.Storage

open Bits InOrder MerkleTree position accumulator Iterator

variable {α : Type} (H : AccumulatorHasher α)

-- The store holds every frozen node of the tree over the leaves: each node whose leaves are all
-- there.
def Stores (reader : Position → Except MerkleAccumulatorError α) (leaves : List α) : Prop :=
  ∀ l k, 2 ^ l * (k + 1) ≤ leaves.length →
    reader ⟨node l k⟩ = .ok (subtree H.internal_node H.placeholder leaves l k)

variable {H}

section Positions

variable {l k : ℕ}

theorem from_leaf_index_node {i : ℕ} (hi : i < 2 ^ 63) :
    Position.from_leaf_index i = some ⟨node 0 i⟩ := by
  rw [from_leaf_index_eq, Nat.mod_eq_of_lt (by omega), node_zero]

theorem two_mul_two_pow_mul_le_node (l k : ℕ) : 2 * (2 ^ l * k) ≤ node l k := by
  rw [node, two_pow_succ, Nat.mul_assoc]
  omega

-- A node is a placeholder for the leaves up to idx when its first leaf is past idx.
theorem is_placeholder_node {idx : ℕ} (h : node l k < 2 ^ 64 - 1) (hidx : idx < 2 ^ 63) :
    (Position.mk (node l k)).is_placeholder idx = some (decide (idx < 2 ^ l * k)) := by
  have hle := two_mul_two_pow_mul_le_node l k
  simp only [Position.is_placeholder, from_leaf_index_eq,
    Nat.mod_eq_of_lt (show 2 * idx < 2 ^ 64 by omega), left_most_child_mk_node h, node_zero, Option.bind_eq_bind, Option.bind_some]
  by_cases hp : idx < 2 ^ l * k
  · rw [if_neg (by omega), if_neg (by omega), decide_eq_true hp]
    rfl
  · rw [decide_eq_false hp]
    by_cases hn : node l k ≤ 2 * idx
    · rw [if_pos hn]
      rfl
    · rw [if_neg hn, if_pos (by omega)]
      rfl

-- A node is frozen for the leaves up to idx when its last leaf is at most idx.
theorem is_freezable_node {idx : ℕ} (h : node l k < 2 ^ 64 - 1) (hidx : idx < 2 ^ 63) :
    (Position.mk (node l k)).is_freezable idx = some (decide (2 ^ l * (k + 1) ≤ idx + 1)) := by
  have hpos : 0 < 2 ^ l * (k + 1) := Nat.mul_pos (Nat.two_pow_pos l) (Nat.succ_pos k)
  simp only [Position.is_freezable, from_leaf_index_eq,
    Nat.mod_eq_of_lt (show 2 * idx < 2 ^ 64 by omega), right_most_child_mk_node h, node_zero,
    Option.bind_eq_bind, Option.bind_some]
  congr 2
  exact propext (by omega)

theorem root_level_from_leaf_count_eq {c : ℕ} (hpos : 0 < c) (hc : c ≤ 2 ^ 64) :
    Position.root_level_from_leaf_count c = some (height c) := by
  rw [Position.root_level_from_leaf_count, if_pos hpos, height, MAX_ACCUMULATOR_PROOF_DEPTH]
  rcases Nat.eq_zero_or_pos (c - 1) with h0 | hne
  · rw [h0]
    rfl
  · rw [leading_zeros_eq_sub_size hne.ne' (by omega)]
    have := Nat.size_le.mpr (show c - 1 < 2 ^ 64 by omega)
    congr 1
    omega

theorem root_from_leaf_count_eq {c : ℕ} (hpos : 0 < c) (hc : c ≤ 2 ^ 63) :
    Position.root_from_leaf_count c = some ⟨node (height c) 0⟩ := by
  rw [Position.root_from_leaf_count, if_pos hpos, root_from_leaf_index_eq (by omega), height]

theorem height_le_63 {c : ℕ} (hc : c ≤ 2 ^ 63) : height c ≤ 63 :=
  Nat.size_le.mpr (by omega)

-- The nodes of the tree of height 63 other than its root lie below u64::MAX - 1, where Position's
-- asserts hold; the root of that tree too, once past the leaves.
theorem node_lt_of_lt (hk : 2 ^ l * k < 2 ^ 63) (hl : l ≤ 63) : node l k < 2 ^ 64 - 1 := by
  have htree := (node_lt_iff (l := l) (k := k) (n := 63)).mpr
  refine htree ⟨hl, ?_⟩
  by_contra hc
  have := Nat.mul_le_mul_left (2 ^ l) (Nat.not_lt.mp hc)
  rw [← Nat.pow_add, Nat.add_sub_cancel' hl] at this
  omega

theorem children_lt {l : ℕ} (h : node (l + 1) k < 2 ^ 64 - 1) :
    node (l + 1) k < 2 ^ 64 - 2 ∧ l < 63 ∧ node l (2 * k) < 2 ^ 64 - 1 ∧
      node l (2 * k + 1) < 2 ^ 64 - 1 := by
  have htree : node (l + 1) k < 2 ^ (63 + 1) - 1 := h
  obtain ⟨hl, hk⟩ := node_lt_iff.mp htree
  have hodd := node_succ l k
  have hpow : 2 ^ (63 - l) = 2 * 2 ^ (63 - (l + 1)) := by
    rw [show 63 - l = 63 - (l + 1) + 1 by omega, Nat.pow_succ, Nat.mul_comm]
  refine ⟨by omega, by omega, ?_, ?_⟩
  · exact node_lt_iff.mpr ⟨by omega, by omega⟩
  · exact node_lt_iff.mpr ⟨by omega, by omega⟩

end Positions

section GetHash

variable {reader : Position → Except MerkleAccumulatorError α} {L : List α}

-- get_hash on any node of the tree of height 63: a placeholder past the leaves, a frozen node
-- from the store, and the hash of its children otherwise, which the store then holds.
theorem get_hash_node (hst : Stores H reader L) (hpos : 0 < L.length)
    (hmax : L.length < 2 ^ 63) :
    ∀ fuel l k, l ≤ fuel → node l k < 2 ^ 64 - 1 →
      (⟨reader, L.length⟩ : MerkleAccumulatorView α).get_hash H fuel ⟨node l k⟩ =
        pure (subtree H.internal_node H.placeholder L l k) := by
  intro fuel
  induction fuel with
  | zero =>
    intro l k hl h
    obtain rfl : l = 0 := by omega
    rw [MerkleAccumulatorView.get_hash]
    simp only [MerkleAccumulatorView.rightmost_leaf_index, sub64_of_le hpos, ExceptT.liftM_some,
      pure_bind, is_placeholder_node h (show L.length - 1 < 2 ^ 63 by omega),
      is_freezable_node h (show L.length - 1 < 2 ^ 63 by omega)]
    by_cases hp : L.length - 1 < 2 ^ 0 * k
    · simp only [hp, decide_true, if_true]
      rw [subtree_of_le (by omega)]
    · have hf : 2 ^ 0 * (k + 1) ≤ L.length - 1 + 1 := by omega
      simp only [hp, hf, decide_true, decide_false, if_true, Bool.false_eq_true, if_false]
      exact congrArg (fun r => ExceptT.mk (some r)) (hst 0 k (by omega))
  | succ fuel ih =>
    intro l k hl h
    rw [MerkleAccumulatorView.get_hash]
    simp only [MerkleAccumulatorView.rightmost_leaf_index, sub64_of_le hpos, ExceptT.liftM_some,
      pure_bind, is_placeholder_node h (show L.length - 1 < 2 ^ 63 by omega),
      is_freezable_node h (show L.length - 1 < 2 ^ 63 by omega)]
    by_cases hp : L.length - 1 < 2 ^ l * k
    · simp only [hp, decide_true, if_true]
      rw [subtree_of_le (by omega)]
    · by_cases hf : 2 ^ l * (k + 1) ≤ L.length - 1 + 1
      · simp only [hp, hf, decide_true, decide_false, if_true, Bool.false_eq_true, if_false]
        exact congrArg (fun r => ExceptT.mk (some r)) (hst l k (by omega))
      · obtain ⟨l, rfl⟩ : ∃ l', l = l' + 1 := ⟨l - 1, by
          rcases Nat.eq_zero_or_pos l with rfl | hl0
          · simp at hp hf
            omega
          · omega⟩
        obtain ⟨hnode, hl63, hleft, hright⟩ := children_lt h
        simp only [hp, hf, decide_false, Bool.false_eq_true, if_false, left_child_mk_node hnode,
          right_child_mk_node hl63 hnode, ExceptT.liftM_some, pure_bind,
          ih l (2 * k) (by omega) hleft, ih l (2 * k + 1) (by omega) hright]
        rw [subtree_succ (by omega)]

theorem get_root_hash_eq (hst : Stores H reader L) (hpos : 0 < L.length)
    (hmax : L.length < 2 ^ 63) :
    (⟨reader, L.length⟩ : MerkleAccumulatorView α).get_root_hash H =
      pure (root H.internal_node H.placeholder L) := by
  have hh := height_le_63 (show L.length ≤ 2 ^ 63 by omega)
  rw [MerkleAccumulatorView.get_root_hash, root_from_leaf_count_eq hpos (by omega),
    ExceptT.liftM_some, pure_bind, get_hash_node hst hpos hmax 64 _ 0 (by omega)
      (node_lt_of_lt (by simp) hh), root]

-- The reader that computes each node from the leaves holds every frozen node.
theorem stores_node_hash {L : List α} (hmax : L.length ≤ 2 ^ 63) :
    Stores H (fun p => .ok (node_hash H L p)) L := by
  intro l k hk
  have hl : l ≤ 63 := by
    by_contra hc
    have := Nat.pow_le_pow_right (n := 2) (by norm_num) (show 64 ≤ l by omega)
    have := Nat.le_mul_of_pos_right (2 ^ l) (show 0 < k + 1 by omega)
    omega
  have hlt : 2 ^ l * k < 2 ^ 63 := by
    have := Nat.two_pow_pos l
    rw [Nat.mul_succ] at hk
    omega
  exact congrArg Except.ok (InMemoryAccumulator.node_hash_node (node_lt_of_lt hlt hl))

theorem get_root_hash_eq_five :
    (⟨fun p => .ok (node_hash ⟨fun a b => a + 2 * b, 0⟩ [1, 2, 3, 4, 5] p),
        [1, 2, 3, 4, 5].length⟩ : MerkleAccumulatorView ℕ).get_root_hash ⟨fun a b => a + 2 * b, 0⟩ =
      pure (root (fun a b => a + 2 * b) 0 [1, 2, 3, 4, 5]) :=
  get_root_hash_eq (stores_node_hash (by decide)) (by decide) (by decide)

end GetHash

section Proof

variable {reader : Position → Except MerkleAccumulatorError α} {L : List α} {i : ℕ}

-- The ancestors of leaf i at levels up to 63 lie below u64::MAX - 1.
theorem node_shiftRight_lt {j : ℕ} (hi : i < 2 ^ 63 - 1) (hj : j ≤ 63) :
    node j (i >>> j) < 2 ^ 64 - 2 := by
  have hle : 2 ^ j * (i >>> j) ≤ i := by
    rw [Nat.shiftRight_eq_div_pow]
    exact Nat.mul_div_le i (2 ^ j)
  have hlt := node_lt_of_lt (show 2 ^ j * (i >>> j) < 2 ^ 63 by omega) hj
  cases j with
  | zero =>
    rw [node_zero, Nat.shiftRight_zero]
    omega
  | succ j =>
    have hodd := node_succ j (i >>> (j + 1))
    omega

theorem ancestor_siblings_eq (hi : i < 2 ^ 63 - 1) :
    ∀ d j, j + d ≤ 63 → ancestor_siblings d ⟨node j (i >>> j)⟩ =
      some ((List.range' j d).map fun m => ⟨node m ((i >>> m) ^^^ 1)⟩) := by
  intro d
  induction d with
  | zero => intro j _; rfl
  | succ d ih =>
    intro j hj
    have hnode := node_shiftRight_lt hi (show j ≤ 63 by omega)
    rw [ancestor_siblings, sibling_mk_node (by omega) hnode, parent_mk_node (by omega) hnode,
      ← Nat.shiftRight_succ]
    simp only [Option.bind_eq_bind, Option.bind_some, ih (j + 1) (by omega), List.range'_succ,
      List.map_cons]
    rfl

theorem get_sibling_positions_eq {n : ℕ} (hi : i < n) (hmax : n < 2 ^ 63)
    (filter : Position → Option Bool) :
    (⟨reader, n⟩ : MerkleAccumulatorView α).get_sibling_positions i filter =
      ((List.range' 0 (height n)).map fun m => ⟨node m ((i >>> m) ^^^ 1)⟩).filterM filter := by
  have hh := height_le_63 (show n ≤ 2 ^ 63 by omega)
  have hroot : node (height n) 0 < 2 ^ 64 - 1 := node_lt_of_lt (by simp) hh
  have hsib := ancestor_siblings_eq (show i < 2 ^ 63 - 1 by omega) (height n) 0 (by omega)
  rw [Nat.shiftRight_zero] at hsib
  rw [MerkleAccumulatorView.get_sibling_positions, root_from_leaf_count_eq (c := n) (by omega)
    (by omega), from_leaf_index_node (show i < 2 ^ 63 by omega)]
  simp only [Option.bind_eq_bind, Option.bind_some, level_node hroot, hsib]

-- The siblings of the path from a leaf below 2^63 lie below u64::MAX - 1.
theorem sibling_node_lt {k m : ℕ} (hk : k < 2 ^ 63) (hm : m < 63) :
    node m ((k >>> m) ^^^ 1) < 2 ^ 64 - 1 := by
  have hkm : k >>> m < 2 ^ (63 - m) := by
    rw [Nat.shiftRight_eq_div_pow, Nat.div_lt_iff_lt_mul (Nat.two_pow_pos m), ← Nat.pow_add,
      Nat.sub_add_cancel (by omega)]
    exact hk
  have hone : 1 < 2 ^ (63 - m) := Nat.one_lt_two_pow (by omega)
  have htree : node m ((k >>> m) ^^^ 1) < 2 ^ (63 + 1) - 1 :=
    node_lt_iff.mpr ⟨by omega, Nat.xor_lt_two_pow hkm hone⟩
  exact htree

-- The store gives the padded tree's hash of each sibling of a path.
theorem get_hashes_sibling_nodes (hst : Stores H reader L) (hpos : 0 < L.length)
    (hmax : L.length < 2 ^ 63) {k : ℕ} (hk : k < 2 ^ 63) {ms : List ℕ} (hms : ∀ m ∈ ms, m < 63) :
    (⟨reader, L.length⟩ : MerkleAccumulatorView α).get_hashes H
        (ms.map fun m => ⟨node m ((k >>> m) ^^^ 1)⟩) =
      pure (ms.map fun m => subtree H.internal_node H.placeholder L m ((k >>> m) ^^^ 1)) := by
  have hhash : ∀ p ∈ ms.map (fun m => Position.mk (node m ((k >>> m) ^^^ 1))),
      (⟨reader, L.length⟩ : MerkleAccumulatorView α).get_hash H 64 p = pure (node_hash H L p) := by
    intro p hp
    obtain ⟨m, hm, rfl⟩ := List.mem_map.mp hp
    have hm63 := hms m hm
    rw [get_hash_node hst hpos hmax 64 m _ (by omega) (sibling_node_lt hk hm63),
      InMemoryAccumulator.node_hash_node (sibling_node_lt hk hm63)]
  rw [MerkleAccumulatorView.get_hashes, List.mapM_eq_pure hhash, List.map_map]
  congr 1
  exact List.map_congr_left fun m hm =>
    InMemoryAccumulator.node_hash_node (sibling_node_lt hk (hms m hm))

theorem get_proof_eq (hst : Stores H reader L) (hi : i < L.length) (hmax : L.length < 2 ^ 63) :
    (⟨reader, L.length⟩ : MerkleAccumulatorView α).get_proof H i =
      pure ⟨(List.range' 0 (height L.length)).map fun m =>
        subtree H.internal_node H.placeholder L m ((i >>> m) ^^^ 1)⟩ := by
  have hh := height_le_63 (show L.length ≤ 2 ^ 63 by omega)
  have hlevel : ∀ m ∈ List.range' 0 (height L.length), m < 63 := fun m hm => by
    have := (List.mem_range'_1.mp hm).2
    omega
  rw [MerkleAccumulatorView.get_proof, if_pos hi, MerkleAccumulatorView.get_siblings,
    get_sibling_positions_eq hi hmax,
    List.filterM_eq_some (f := fun _ => pure true) (g := fun _ => true) fun _ _ => rfl,
    List.filter_true, ExceptT.liftM_some, pure_bind,
    get_hashes_sibling_nodes hst (by omega) hmax (show i < 2 ^ 63 by omega) hlevel, pure_bind]

-- One step of the fold of verify on the ancestor of leaf i at level j and its sibling.
theorem verify_step_subtree (hi : i < L.length) (j : ℕ) :
    AccumulatorProof.verify_step H (subtree H.internal_node H.placeholder L j (i >>> j), i >>> j)
        (subtree H.internal_node H.placeholder L j ((i >>> j) ^^^ 1)) =
      (subtree H.internal_node H.placeholder L (j + 1) (i >>> (j + 1)), i >>> (j + 1)) := by
  have hparent : 2 ^ (j + 1) * (i >>> (j + 1)) < L.length := by
    have := Nat.mul_div_le i (2 ^ (j + 1))
    rw [Nat.shiftRight_eq_div_pow]
    omega
  have hsplit := shiftRight_eq_two_mul_add i j
  rw [AccumulatorProof.verify_step, subtree_shiftRight hparent]
  dsimp only
  rw [← Nat.shiftRight_succ]
  by_cases hb : i.testBit j
  · rw [if_pos hb] at hsplit
    have hodd : Odd (i >>> j) := ⟨i >>> (j + 1), by omega⟩
    rw [if_pos hb, if_neg (by omega), Nat.xor_one_of_odd hodd,
      show i >>> j - 1 = 2 * (i >>> (j + 1)) by omega]
  · rw [if_neg hb] at hsplit
    have heven : Even (i >>> j) := ⟨i >>> (j + 1), by omega⟩
    rw [if_neg hb, if_pos (by omega), Nat.xor_one_of_even heven]

theorem verify_fold (hi : i < L.length) :
    ∀ d j, ((List.range' j d).map fun m =>
        subtree H.internal_node H.placeholder L m ((i >>> m) ^^^ 1)).foldl
        (AccumulatorProof.verify_step H) (subtree H.internal_node H.placeholder L j (i >>> j), i >>> j) =
      (subtree H.internal_node H.placeholder L (j + d) (i >>> (j + d)), i >>> (j + d)) := by
  intro d
  induction d with
  | zero => intro j; rfl
  | succ d ih =>
    intro j
    rw [List.range'_succ, List.map_cons, List.foldl_cons, verify_step_subtree hi, ih (j + 1),
      Nat.add_right_comm j 1 d, Nat.add_assoc]

-- A proof from the store verifies the leaf against the root hash the store gives.
theorem get_proof_verify [DecidableEq α] (hst : Stores H reader L) (hi : i < L.length)
    (hmax : L.length < 2 ^ 63) :
    ∃ proof root_hash, (⟨reader, L.length⟩ : MerkleAccumulatorView α).get_proof H i = pure proof ∧
      (⟨reader, L.length⟩ : MerkleAccumulatorView α).get_root_hash H = pure root_hash ∧
      proof.verify H root_hash L[i] i = .ok () := by
  refine ⟨_, _, get_proof_eq hst hi hmax, get_root_hash_eq hst (by omega) hmax, ?_⟩
  have hh := height_le_63 (show L.length ≤ 2 ^ 63 by omega)
  have htop : i >>> height L.length = 0 := by
    have := Nat.lt_size_self (L.length - 1)
    exact Nat.shiftRight_eq_zero i _ (by rw [height]; omega)
  have hleaf : L[i] = subtree H.internal_node H.placeholder L 0 i := by
    rw [subtree, List.getD_eq_getElem _ _ hi]
  have hfold := verify_fold (H := H) hi (height L.length) 0
  rw [Nat.zero_add, htop, Nat.shiftRight_zero] at hfold
  rw [AccumulatorProof.verify, if_pos (by simpa [MAX_ACCUMULATOR_PROOF_DEPTH] using hh)]
  simp only [hleaf, hfold, root]
  rfl

theorem get_proof_verify_two_of_three :
    ∃ proof root_hash, (⟨fun p => .ok (node_hash ⟨fun a b => a + 2 * b, 0⟩
        [1, 2, 3] p), 3⟩ : MerkleAccumulatorView ℕ).get_proof ⟨fun a b => a + 2 * b, 0⟩ 2 =
        pure proof ∧
      (⟨fun p => .ok (node_hash ⟨fun a b => a + 2 * b, 0⟩ [1, 2, 3] p), 3⟩ :
        MerkleAccumulatorView ℕ).get_root_hash ⟨fun a b => a + 2 * b, 0⟩ = pure root_hash ∧
      proof.verify ⟨fun a b => a + 2 * b, 0⟩ root_hash 3 2 = .ok () :=
  get_proof_verify (L := [1, 2, 3]) (stores_node_hash (by decide)) (by decide) (by decide)

end Proof

section Subtrees

variable {reader : Position → Except MerkleAccumulatorError α} {L : List α}

-- The roots of a cover of complete subtrees, read from the store.
theorem read_subtree_roots (hst : Stores H reader L) {n start stop : ℕ} {cover : List (ℕ × ℕ)}
    (hcover : Cover start stop cover) (hstop : stop ≤ L.length) (hmax : L.length ≤ 2 ^ 63) :
    (subtree_roots cover).mapM (⟨reader, n⟩ : MerkleAccumulatorView α).read =
      pure (coverRoots H.internal_node H.placeholder L cover) := by
  rw [List.mapM_eq_pure (g := node_hash H L) ?_,
    InMemoryAccumulator.map_node_hash_subtree_roots hcover (by omega)]
  intro p hp
  obtain ⟨⟨s, h⟩, ht, rfl⟩ := List.mem_map.mp hp
  obtain ⟨hdvd, -, hle⟩ := hcover.mem _ ht
  dsimp only at hdvd hle
  have hend : 2 ^ h * (s / 2 ^ h + 1) ≤ L.length := by
    rw [Nat.mul_add, Nat.mul_one, Nat.mul_div_cancel' hdvd]
    omega
  rw [InMemoryAccumulator.node_hash_subtree_root hdvd (by omega), MerkleAccumulatorView.read,
    subtree_root]
  dsimp only
  rw [hst h _ hend, Nat.shiftRight_eq_div_pow]
  rfl

-- get_frozen_subtree_hashes reads the roots of the perfect subtrees of the binary decomposition of
-- the number of leaves, largest first.
theorem get_frozen_subtree_hashes_eq (hst : Stores H reader L) (hmax : L.length ≤ 2 ^ 63) :
    (⟨reader, L.length⟩ : MerkleAccumulatorView α).get_frozen_subtree_hashes =
      pure (ommers H.internal_node H.placeholder 64 L).reverse := by
  obtain ⟨cover, hcover, hbits, hyields⟩ :=
    frozen_subtree_iterator_yields (n := L.length) (by rw [MAX_ACCUMULATOR_LEAVES_eq]; exact hmax)
  have hlen : (subtree_roots cover).length < 65 := by
    have hfilter := List.length_filter_le L.length.testBit (List.range 64).reverse
    rw [subtree_roots, List.length_map, ← List.length_map (f := Prod.snd), hbits, bits_desc]
    simp only [List.length_reverse, List.length_range] at hfilter
    omega
  have hlargest := hcover.largest_of_bits_desc (w := 64) (by omega) (by rw [Nat.sub_zero]; exact hbits)
  rw [MerkleAccumulatorView.get_frozen_subtree_hashes, collect_map_of_yields _ _ hyields hlen,
    read_subtree_roots hst hcover le_rfl hmax,
    coverRoots_eq_ommersFrom hcover hlargest (t := 64) (dvd_zero _) (by omega), ommers]

-- The storage accumulator hands its frozen subtrees to the in-memory one, which rebuilds the
-- accumulator of the same leaves.
theorem get_frozen_subtree_hashes_rebuild (hst : Stores H reader L) (hmax : L.length ≤ 2 ^ 63) :
    ∃ hashes, (⟨reader, L.length⟩ : MerkleAccumulatorView α).get_frozen_subtree_hashes =
        pure hashes ∧
      InMemoryAccumulator.new H hashes L.length = some (.ok (summary H L)) :=
  ⟨_, get_frozen_subtree_hashes_eq hst hmax, InMemoryAccumulator.new_eq (by omega)⟩

theorem get_frozen_subtree_hashes_rebuild_five :
    ∃ hashes, (⟨fun p => .ok (node_hash ⟨fun a b => a + 2 * b, 0⟩ [1, 2, 3, 4, 5] p),
        [1, 2, 3, 4, 5].length⟩ : MerkleAccumulatorView ℕ).get_frozen_subtree_hashes =
        pure hashes ∧
      InMemoryAccumulator.new ⟨fun a b => a + 2 * b, 0⟩ hashes [1, 2, 3, 4, 5].length =
        some (.ok (summary ⟨fun a b => a + 2 * b, 0⟩ [1, 2, 3, 4, 5])) :=
  get_frozen_subtree_hashes_rebuild (stores_node_hash (by decide)) (by decide)

-- The consistency proof from leaf m: the roots of the largest aligned subtrees over the leaves
-- [m, n), left to right.
theorem get_consistency_proof_eq (hst : Stores H reader L) (hmax : L.length ≤ 2 ^ 63) {m : ℕ}
    (hm : m ≤ L.length) :
    ∃ cover, Cover m L.length cover ∧ Largest L.length cover ∧
      (⟨reader, L.length⟩ : MerkleAccumulatorView α).get_consistency_proof m =
        pure ⟨coverRoots H.internal_node H.placeholder L cover⟩ := by
  obtain ⟨it, hnew, cover, hcover, hlargest, hyields⟩ :=
    frozen_subtree_sibling_iterator_yields hm (by rw [MAX_ACCUMULATOR_LEAVES_eq]; exact hmax)
  have hlen : (subtree_roots cover).length < L.length - m + 1 := by
    have := hcover.length_le
    rw [subtree_roots, List.length_map]
    omega
  refine ⟨cover, hcover, hlargest, ?_⟩
  rw [MerkleAccumulatorView.get_consistency_proof, if_pos hm, hnew, ExceptT.liftM_some, pure_bind]
  dsimp only
  rw [collect_map_of_yields _ _ hyields hlen, read_subtree_roots hst hcover le_rfl hmax, pure_bind]

theorem version_summary {leaves : List α} (hpos : 0 < leaves.length) :
    (summary H leaves).version = leaves.length - 1 := by
  rw [InMemoryAccumulator.version]
  exact if_neg (Nat.pos_iff_ne_zero.mp hpos)

-- A client that holds the accumulator of a prefix of the leaves of the store extends it with the
-- store's consistency proof to the ledger info that the store's root hash and leaf count sign.
theorem get_consistency_proof_extends [DecidableEq α] {leaves more : List α}
    (hst : Stores H reader (leaves ++ more)) (hmax : (leaves ++ more).length < 2 ^ 63)
    (hne : leaves ≠ []) {li : LedgerInfo α} (hversion : li.version = (leaves ++ more).length - 1)
    (hroot : (⟨reader, (leaves ++ more).length⟩ : MerkleAccumulatorView α).get_root_hash H =
      pure li.transaction_accumulator_hash) :
    ∃ proof, (⟨reader, (leaves ++ more).length⟩ : MerkleAccumulatorView α).get_consistency_proof
        leaves.length = pure proof ∧
      (⟨summary H leaves⟩ : TransactionAccumulatorSummary α).try_extend_with_proof
        H proof li = some (.ok ⟨summary H (leaves ++ more)⟩) := by
  have hpos : 0 < leaves.length := List.length_pos_iff.mpr hne
  have hlen : (leaves ++ more).length = leaves.length + more.length := List.length_append
  obtain ⟨cover, hcover, hlargest, hproof⟩ :=
    get_consistency_proof_eq hst hmax.le (m := leaves.length) (by omega)
  refine ⟨_, hproof, ?_⟩
  have hhash : li.transaction_accumulator_hash = root H.internal_node H.placeholder (leaves ++ more) := by
    have h := hroot.symm.trans (get_root_hash_eq hst (by omega) hmax)
    exact Except.ok.inj (Option.some.inj h)
  have hrep : Represents H (summary H leaves) leaves :=
    InMemoryAccumulator.represents_summary (by omega)
  have happ := InMemoryAccumulator.append_subtrees_eq hrep
    (by rw [MAX_ACCUMULATOR_LEAVES_eq]; omega) hcover hlargest
  have hnew : li.version - (summary H leaves).version = more.length := by
    rw [version_summary hpos]
    omega
  rw [TransactionAccumulatorSummary.try_extend_with_proof, if_pos (by rw [version_summary hpos]; omega)]
  dsimp only
  rw [hnew, happ, Option.map_some]
  dsimp only
  rw [TransactionAccumulatorSummary.verify_consistency, TransactionAccumulatorSummary.version,
    TransactionAccumulatorSummary.root_hash]
  dsimp only
  rw [version_summary (by omega), if_pos hversion,
    if_pos (show li.transaction_accumulator_hash = (summary H (leaves ++ more)).root_hash from hhash)]

theorem get_consistency_proof_extends_three_two :
    ∃ proof, (⟨fun p => .ok (node_hash ⟨fun a b => a + 2 * b, 0⟩ ([1, 2, 3] ++ [4, 5]) p),
        ([1, 2, 3] ++ [4, 5]).length⟩ : MerkleAccumulatorView ℕ).get_consistency_proof
        [1, 2, 3].length = pure proof ∧
      (⟨summary ⟨fun a b => a + 2 * b, 0⟩ [1, 2, 3]⟩ : TransactionAccumulatorSummary ℕ).try_extend_with_proof
        ⟨fun a b => a + 2 * b, 0⟩ proof
        ⟨⟨0, 0, 0, root (fun a b => a + 2 * b) 0 ([1, 2, 3] ++ [4, 5]), 4, 0, none⟩, 0⟩ =
        some (.ok ⟨summary ⟨fun a b => a + 2 * b, 0⟩ ([1, 2, 3] ++ [4, 5])⟩) :=
  get_consistency_proof_extends (stores_node_hash (by decide)) (by decide) (by simp) rfl
    (get_root_hash_eq (stores_node_hash (by decide)) (by decide) (by decide))

end Subtrees

end Zapatos.Storage

import Zapatos.Lib.Basic
import Zapatos.Lib.SparseMerkle

namespace Zapatos

open SparseMerkle

namespace HashValue

def LENGTH_IN_BITS : ℕ := 256

def iter_bits (k : BitVec LENGTH_IN_BITS) : List Bool := (List.range LENGTH_IN_BITS).map k.getMsbD

def common_prefix_bits_len (a b : BitVec LENGTH_IN_BITS) : ℕ :=
  (((iter_bits a).zip (iter_bits b)).takeWhile (fun p => p.1 == p.2)).length

end HashValue

structure SparseMerkleLeafNode (H : Type) where
  key : BitVec HashValue.LENGTH_IN_BITS
  value_hash : H
deriving DecidableEq

structure SparseMerkleProof (H : Type) where
  leaf : Option (SparseMerkleLeafNode H)
  siblings : List H

inductive NodeInProof (H : Type) where
  | Leaf (leaf : SparseMerkleLeafNode H)
  | Other (hash : H)

structure SparseMerkleProofExt (H : Type) where
  leaf : Option (SparseMerkleLeafNode H)
  siblings : List (NodeInProof H)
  root_depth : ℕ

-- One constructor per ensure! and bail! of verify_by_hash_partial, with the values its message
-- prints.
inductive SparseMerkleProofError (H : Type) where
  | too_many_siblings (root_depth siblings : ℕ)
  | keys_do_not_match (key_in_proof expected_key : BitVec HashValue.LENGTH_IN_BITS)
      (element_hash value_hash_in_proof : H)
  | value_hashes_do_not_match (element_key : BitVec HashValue.LENGTH_IN_BITS)
      (value_hash_in_proof expected_value_hash : H)
  | expected_inclusion_proof (value_hash : H)
  | key_exists_in_proof (element_key key_in_proof : BitVec HashValue.LENGTH_IN_BITS)
  | not_a_non_inclusion_proof (element_key key_in_proof : BitVec HashValue.LENGTH_IN_BITS)
  | root_hashes_do_not_match (actual_root_hash expected_root_hash : H)

variable {H : Type} [DecidableEq H] (c : Hasher HashValue.LENGTH_IN_BITS H)

def SparseMerkleLeafNode.hash (leaf : SparseMerkleLeafNode H) : H := c.leaf leaf.key leaf.value_hash

def SparseMerkleLeafNode.entry (leaf : SparseMerkleLeafNode H) : BitVec HashValue.LENGTH_IN_BITS × H :=
  (leaf.key, leaf.value_hash)

def NodeInProof.hash : NodeInProof H → H
  | .Leaf leaf => leaf.hash c
  | .Other hash => hash

namespace SparseMerkleProof

def verify_by_hash_partial (p : SparseMerkleProof H) (expected_root_hash : H)
    (element_key : BitVec HashValue.LENGTH_IN_BITS) (element_hash : Option H) (root_depth : ℕ) :
    Except (SparseMerkleProofError H) Unit := do
  Except.ensure (p.siblings.length + root_depth ≤ HashValue.LENGTH_IN_BITS)
    (.too_many_siblings root_depth p.siblings.length)
  match element_hash, p.leaf with
  | some hash, some leaf =>
    Except.ensure (element_key = leaf.key)
      (.keys_do_not_match leaf.key element_key hash leaf.value_hash)
    Except.ensure (hash = leaf.value_hash)
      (.value_hashes_do_not_match element_key leaf.value_hash hash)
  | some hash, none => throw (.expected_inclusion_proof hash)
  | none, some leaf =>
    Except.ensure (element_key ≠ leaf.key) (.key_exists_in_proof element_key leaf.key)
    Except.ensure
      (HashValue.common_prefix_bits_len element_key leaf.key ≥ root_depth + p.siblings.length)
      (.not_a_non_inclusion_proof element_key leaf.key)
  | none, none => pure ()
  let current_hash := p.leaf.elim c.placeholder (·.hash c)
  let actual_root_hash := (p.siblings.reverse.zip ((HashValue.iter_bits element_key).reverse.drop
    (HashValue.LENGTH_IN_BITS - p.siblings.length - root_depth))).foldl
      (fun hash step => if step.2 then c.node step.1 hash else c.node hash step.1) current_hash
  Except.ensure (actual_root_hash = expected_root_hash)
    (.root_hashes_do_not_match actual_root_hash expected_root_hash)

def verify_by_hash (p : SparseMerkleProof H) (expected_root_hash : H)
    (element_key : BitVec HashValue.LENGTH_IN_BITS) (element_hash : Option H) :
    Except (SparseMerkleProofError H) Unit :=
  p.verify_by_hash_partial c expected_root_hash element_key element_hash 0

-- From<SparseMerkleProofExt> for SparseMerkleProof.
def of_ext (p : SparseMerkleProofExt H) : SparseMerkleProof H :=
  ⟨p.leaf, p.siblings.map (·.hash c)⟩

end SparseMerkleProof

def SparseMerkleProofExt.verify_by_hash (p : SparseMerkleProofExt H) (expected_root_hash : H)
    (element_key : BitVec HashValue.LENGTH_IN_BITS) (element_hash : Option H) :
    Except (SparseMerkleProofError H) Unit :=
  SparseMerkleProof.verify_by_hash_partial c (SparseMerkleProof.of_ext c p) expected_root_hash
    element_key element_hash p.root_depth

structure SparseMerkleRangeProof (H : Type) where
  right_siblings : List H

inductive SparseMerkleRangeProofError (H : Type) where
  | missing_left_sibling
  | missing_right_sibling
  | root_hashes_do_not_match (actual_root_hash expected_root_hash : H)

-- The loop climbs from the leaf over the lowest num_siblings bits of its key, taking the next
-- left sibling at a 1 bit and the next right sibling at a 0 bit.
def SparseMerkleRangeProof.verify (p : SparseMerkleRangeProof H) (expected_root_hash : H)
    (rightmost_known_leaf : SparseMerkleLeafNode H) (left_siblings : List H) :
    Except (SparseMerkleRangeProofError H) Unit := do
  let num_siblings := left_siblings.length + p.right_siblings.length
  let bits := (HashValue.iter_bits rightmost_known_leaf.key).reverse.drop
    (HashValue.LENGTH_IN_BITS - num_siblings)
  let (current_hash, _, _) ← bits.foldlM (fun (current_hash, lefts, rights) bit =>
      if bit then
        match lefts with
        | [] => throw .missing_left_sibling
        | left :: lefts => pure (c.node left current_hash, lefts, rights)
      else
        match rights with
        | [] => throw .missing_right_sibling
        | right :: rights => pure (c.node current_hash right, lefts, rights))
    (rightmost_known_leaf.hash c, left_siblings, p.right_siblings)
  if current_hash ≠ expected_root_hash then
    throw (.root_hashes_do_not_match current_hash expected_root_hash)

-- The checks of verify_by_hash_partial on the leaf, case by case.
def LeafMatches (element_key : BitVec HashValue.LENGTH_IN_BITS) (bound : ℕ) :
    Option H → Option (SparseMerkleLeafNode H) → Prop
  | some hash, some leaf => element_key = leaf.key ∧ hash = leaf.value_hash
  | some _, none => False
  | none, some leaf =>
    element_key ≠ leaf.key ∧ bound ≤ HashValue.common_prefix_bits_len element_key leaf.key
  | none, none => True

namespace HashValue

theorem iter_bits_drop (k : BitVec LENGTH_IN_BITS) {n root_depth : ℕ}
    (h : n + root_depth ≤ LENGTH_IN_BITS) :
    (iter_bits k).reverse.drop (LENGTH_IN_BITS - n - root_depth) =
      ((List.range' root_depth n).map k.getMsbD).reverse ++
        ((List.range root_depth).map k.getMsbD).reverse := by
  rw [iter_bits, List.drop_reverse, List.length_map, List.length_range, ← List.map_take,
    List.take_range, show LENGTH_IN_BITS - (LENGTH_IN_BITS - n - root_depth) = root_depth + n by
      omega, Nat.min_eq_left (by omega), List.range_eq_range', ← List.range'_append,
    ← List.reverse_append, ← List.map_append]
  simp [List.range_eq_range']

theorem le_common_prefix_bits_len {a b : BitVec LENGTH_IN_BITS} {m : ℕ} (hm : m ≤ LENGTH_IN_BITS)
    (h : ∀ i < m, a.getMsbD i = b.getMsbD i) : m ≤ common_prefix_bits_len a b := by
  have hsplit : List.range m ++ List.range' m (LENGTH_IN_BITS - m) = List.range LENGTH_IN_BITS := by
    have h' := List.range'_append_1 (s := 0) (m := m) (n := LENGTH_IN_BITS - m)
    rw [Nat.zero_add, Nat.add_sub_cancel' hm] at h'
    rw [List.range_eq_range', List.range_eq_range', h']
  have hzip : (iter_bits a).zip (iter_bits b) =
      (List.range m ++ List.range' m (LENGTH_IN_BITS - m)).map (fun i => (a.getMsbD i, b.getMsbD i)) := by
    rw [hsplit, iter_bits, iter_bits, List.zip_map']
  have hprefix : ∀ p ∈ (List.range m).map (fun i => (a.getMsbD i, b.getMsbD i)), (p.1 == p.2) = true := by
    intro p hp
    obtain ⟨i, hi, rfl⟩ := List.mem_map.mp hp
    exact beq_iff_eq.mpr (h i (List.mem_range.mp hi))
  rw [common_prefix_bits_len, hzip, List.map_append, List.takeWhile_append_of_pos hprefix,
    List.length_append, List.length_map, List.length_range]
  exact Nat.le_add_right _ _

end HashValue

namespace SparseMerkleProof

variable {c}

omit [DecidableEq H] in
theorem current_hash_eq (leaf : Option (SparseMerkleLeafNode H)) :
    leaf.elim c.placeholder (·.hash c) = c.bottom (leaf.map SparseMerkleLeafNode.entry) := by
  cases leaf <;> rfl

-- The fold over the reversed siblings and key bits computes the hash of k's path.
omit [DecidableEq H] in
theorem actual_root_hash_eq (k : BitVec HashValue.LENGTH_IN_BITS) (ss : List H) {root_depth : ℕ}
    (h : ss.length + root_depth ≤ HashValue.LENGTH_IN_BITS) (x : H) :
    (ss.reverse.zip ((HashValue.iter_bits k).reverse.drop
      (HashValue.LENGTH_IN_BITS - ss.length - root_depth))).foldl
        (fun hash step => if step.2 then c.node step.1 hash else c.node hash step.1) x =
      pathRoot c k root_depth ss x := by
  rw [HashValue.iter_bits_drop k h, List.zip_append_of_length_eq (by simp)]
  exact foldl_join_eq_pathRoot c k ss root_depth x

theorem verify_by_hash_partial_eq_ok {p : SparseMerkleProof H} {expected_root_hash : H}
    {k : BitVec HashValue.LENGTH_IN_BITS} {element_hash : Option H} {root_depth : ℕ} :
    p.verify_by_hash_partial c expected_root_hash k element_hash root_depth = .ok () ↔
      p.siblings.length + root_depth ≤ HashValue.LENGTH_IN_BITS ∧
      LeafMatches k (root_depth + p.siblings.length) element_hash p.leaf ∧
      pathRoot c k root_depth p.siblings (c.bottom (p.leaf.map SparseMerkleLeafNode.entry)) =
        expected_root_hash := by
  obtain ⟨leaf, ss⟩ := p
  unfold verify_by_hash_partial
  dsimp only
  rw [Except.ensure_bind]
  by_cases hlen : ss.length + root_depth ≤ HashValue.LENGTH_IN_BITS
  · rw [if_pos hlen, actual_root_hash_eq k ss hlen, current_hash_eq]
    cases leaf <;> cases element_hash <;> simp only [LeafMatches, Except.ensure_bind] <;>
      simp [Except.ensure, Except.ite_error_eq_ok, Except.ite_error_left_eq_ok, hlen, throw,
        throwThe, MonadExceptOf.throw, bind, Except.bind, and_assoc]
  · simp [hlen]

variable (c)

-- The proof the honest prover gives for k in the subtree at depth d holding es.
def honestProof (k : BitVec HashValue.LENGTH_IN_BITS) (n d : ℕ)
    (es : List (BitVec HashValue.LENGTH_IN_BITS × H)) : SparseMerkleProof H :=
  ⟨(proofPath c k n d es).2.map (fun e => ⟨e.1, e.2⟩), (proofPath c k n d es).1⟩

variable {c} {es : List (BitVec HashValue.LENGTH_IN_BITS × H)} {k : BitVec HashValue.LENGTH_IN_BITS}
  {root_depth : ℕ}

section Subtree

variable (hnd : (es.map Prod.fst).Nodup) (hag : Agree k root_depth es)
  (hrd : root_depth ≤ HashValue.LENGTH_IN_BITS)
include hnd hag hrd

-- A proof accepted against the root of the subtree at depth root_depth fixes k's value there.
theorem eq_lookup_of_verify {p : SparseMerkleProof H} {element_hash : Option H}
    (h : p.verify_by_hash_partial c (subtreeRoot c (HashValue.LENGTH_IN_BITS - root_depth) root_depth es)
      k element_hash root_depth = .ok ()) :
    element_hash = es.lookup k := by
  obtain ⟨-, hmatch, hroot⟩ := verify_by_hash_partial_eq_ok.mp h
  obtain ⟨-, hb⟩ := pathBottom_of_pathRoot hag hnd (Nat.sub_add_cancel hrd) hroot
  obtain ⟨_ | leaf, ss⟩ := p
  · cases element_hash with
    | none => exact (List.lookup_eq_none_of_forall_ne fun e he hk => nomatch hb.of_key e he hk).symm
    | some => exact hmatch.elim
  · cases element_hash with
    | none =>
      -- the only entry under k's path is the proof's leaf, whose key is not k
      refine (List.lookup_eq_none_of_forall_ne fun e he hk => hmatch.1 ?_).symm
      cases hb.of_key e he hk
      exact hk.symm
    | some =>
      obtain ⟨rfl, rfl⟩ := hmatch
      exact (List.lookup_eq_some_of_mem hnd (hb.mem _ rfl)).symm

theorem verify_honestProof {element_hash : Option H} (h : element_hash = es.lookup k) :
    verify_by_hash_partial c (honestProof c k (HashValue.LENGTH_IN_BITS - root_depth) root_depth es)
      (subtreeRoot c (HashValue.LENGTH_IN_BITS - root_depth) root_depth es) k element_hash
      root_depth = .ok () := by
  have hroot := pathRoot_proofPath c k (HashValue.LENGTH_IN_BITS - root_depth) root_depth es
  obtain ⟨hlen, hb⟩ := pathBottom_of_pathRoot hag hnd (Nat.sub_add_cancel hrd) hroot
  have hbottom : ((proofPath c k (HashValue.LENGTH_IN_BITS - root_depth) root_depth es).2.map
      (fun e => (⟨e.1, e.2⟩ : SparseMerkleLeafNode H))).map SparseMerkleLeafNode.entry =
      (proofPath c k (HashValue.LENGTH_IN_BITS - root_depth) root_depth es).2 := by
    cases (proofPath c k (HashValue.LENGTH_IN_BITS - root_depth) root_depth es).2 <;> rfl
  refine verify_by_hash_partial_eq_ok.mpr ⟨by dsimp only [honestProof]; omega, ?_, ?_⟩
  · dsimp only [honestProof]
    cases element_hash with
    | some v =>
      rw [hb.of_key (k, v) (List.mem_of_lookup_eq_some h.symm) rfl]
      exact ⟨rfl, rfl⟩
    | none =>
      cases ho : (proofPath c k (HashValue.LENGTH_IN_BITS - root_depth) root_depth es).2 with
      | none => trivial
      | some e =>
        -- the leaf's key differs from k and shares k's bits down to the proof's bottom
        have hne : e.1 ≠ k := fun hk => by
          have hsome := List.lookup_eq_some_of_mem hnd (hb.mem e ho)
          rw [hk, ← h] at hsome
          cases hsome
        exact ⟨Ne.symm hne, HashValue.le_common_prefix_bits_len (by omega)
          fun i hi => (hb.agree e ho i hi).symm⟩
  · dsimp only [honestProof]
    rw [hbottom]
    exact hroot

theorem exists_verify_by_hash_partial_iff (element_hash : Option H) :
    (∃ p : SparseMerkleProof H, p.verify_by_hash_partial c
      (subtreeRoot c (HashValue.LENGTH_IN_BITS - root_depth) root_depth es) k element_hash
      root_depth = .ok ()) ↔ element_hash = es.lookup k :=
  ⟨fun ⟨_, h⟩ => eq_lookup_of_verify hnd hag hrd h,
    fun h => ⟨_, verify_honestProof hnd hag hrd h⟩⟩

theorem ext_eq_lookup_of_verify {p : SparseMerkleProofExt H} {element_hash : Option H}
    (hp : p.root_depth = root_depth)
    (h : p.verify_by_hash c (subtreeRoot c (HashValue.LENGTH_IN_BITS - root_depth) root_depth es) k
      element_hash = .ok ()) :
    element_hash = es.lookup k := by
  subst hp
  exact eq_lookup_of_verify hnd hag hrd h

end Subtree

theorem verify_by_hash_iff_get (c : Hasher HashValue.LENGTH_IN_BITS H)
    (M : SparseMap HashValue.LENGTH_IN_BITS H) (k : BitVec HashValue.LENGTH_IN_BITS)
    (element_hash : Option H) :
    ((∃ p : SparseMerkleProof H, p.verify_by_hash c (M.root c) k element_hash = .ok ()) ↔
      element_hash = M.get k) ∧
    ∀ (p : SparseMerkleProof H) (root_depth : ℕ),
      p.siblings.length + root_depth ≤ HashValue.LENGTH_IN_BITS →
      (HashValue.iter_bits k).reverse.drop
          (HashValue.LENGTH_IN_BITS - p.siblings.length - root_depth) =
        ((List.range' root_depth p.siblings.length).map k.getMsbD).reverse ++
          ((List.range root_depth).map k.getMsbD).reverse :=
  ⟨exists_verify_by_hash_partial_iff M.nodup (M.agree_zero k) (Nat.zero_le _) element_hash,
    fun _ _ h => HashValue.iter_bits_drop k h⟩

-- With keys 0 and 2^255, one proof shows 0's value and that key 2^254, which falls under 0's
-- leaf, is absent.
example :
    let c := Digest.hasher HashValue.LENGTH_IN_BITS
    let M : SparseMap HashValue.LENGTH_IN_BITS (Digest HashValue.LENGTH_IN_BITS) :=
      ⟨[(0, .value 1), (1 <<< 255, .value 2)], by decide⟩
    let p : SparseMerkleProof (Digest HashValue.LENGTH_IN_BITS) :=
      ⟨some ⟨0, .value 1⟩, [.leaf (1 <<< 255) (.value 2)]⟩
    (p.verify_by_hash c (M.root c) 0 (some (.value 1))).toBool = true ∧
      (p.verify_by_hash c (M.root c) (1 <<< 254) none).toBool = true ∧
      (p.verify_by_hash c (M.root c) 0 (some (.value 2))).toBool = false := by
  intro c M p
  exact ⟨by decide, by decide, by decide⟩

end SparseMerkleProof

end Zapatos

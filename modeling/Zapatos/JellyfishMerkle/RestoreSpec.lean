import Zapatos.JellyfishMerkle.Restore

namespace Zapatos.JellyfishMerkle

open SparseMerkle

namespace JellyfishMerkleRestore

section Frame

variable {K H S : Type}

-- b differs from a at most in its partial and frozen nodes.
def NodesOnly (a b : JellyfishMerkleRestore K H S) : Prop :=
  b = { a with partial_nodes := b.partial_nodes, frozen_nodes := b.frozen_nodes }

theorem NodesOnly.refl (a : JellyfishMerkleRestore K H S) : NodesOnly a a := rfl

theorem NodesOnly.trans {a b d : JellyfishMerkleRestore K H S} (hab : NodesOnly a b)
    (hbd : NodesOnly b d) : NodesOnly a d := by
  cases a
  cases b
  cases d
  simp_all [NodesOnly]

theorem NodesOnly.num_keys_received {a b : JellyfishMerkleRestore K H S} (h : NodesOnly a b) :
    b.num_keys_received = a.num_keys_received := by
  rw [h]

theorem nodesOnly_freeze_node (self : JellyfishMerkleRestore K H S) (k : NodeKey)
    (n : Node K H) : NodesOnly self (self.freeze_node k n) := rfl

theorem nodesOnly_push_partial_node (self : JellyfishMerkleRestore K H S)
    (info : InternalInfo K H) : NodesOnly self (self.push_partial_node info) := rfl

theorem nodesOnly_drop_last (self : JellyfishMerkleRestore K H S) :
    NodesOnly self { self with partial_nodes := self.partial_nodes.dropLast } := rfl

variable {self self' : JellyfishMerkleRestore K H S}

theorem NodesOnly.set_child_at {i : ℕ} {index : Nibble} {ci : ChildInfo K H}
    (h : self.set_child_at i index ci = some self') : NodesOnly self self' := by
  unfold JellyfishMerkleRestore.set_child_at at h
  cases hi : self.partial_nodes[i]? with
  | none => simp [hi] at h
  | some node =>
    simp only [hi, Option.bind_eq_bind, Option.bind_some, Option.pure_def, Option.some.injEq] at h
    subst h
    rfl

theorem NodesOnly.freeze_previous_leaf (h : self.freeze_previous_leaf = some self') :
    NodesOnly self self' := by
  unfold JellyfishMerkleRestore.freeze_previous_leaf at h
  split_ifs at h
  · cases h
    exact .refl _
  · simp only [Option.bind_eq_bind, Option.bind_eq_some_iff] at h
    obtain ⟨last_node, -, index, -, h⟩ := h
    split at h
    · cases h
      exact nodesOnly_freeze_node _ _ _
    · cases h

theorem NodesOnly.update_rightmost_parent {node_hash : H} {n : ℕ}
    (h : self.update_rightmost_parent node_hash n = some self') : NodesOnly self self' := by
  unfold JellyfishMerkleRestore.update_rightmost_parent at h
  split at h
  · cases h
    exact .refl _
  · simp only [Option.bind_eq_bind, Option.bind_eq_some_iff] at h
    obtain ⟨index, -, h⟩ := h
    split at h
    · exact .set_child_at h
    · cases h

theorem NodesOnly.previous_leaf {a b : JellyfishMerkleRestore K H S} (h : NodesOnly a b) :
    b.previous_leaf = a.previous_leaf := by
  rw [h]

theorem NodesOnly.foldl {α : Type} {f : JellyfishMerkleRestore K H S → α → JellyfishMerkleRestore K H S}
    (hf : ∀ s a, NodesOnly s (f s a)) (l : List α) (s : JellyfishMerkleRestore K H S) :
    NodesOnly s (l.foldl f s) := by
  induction l generalizing s with
  | nil => exact .refl s
  | cons a l ih => exact (hf s a).trans (ih (f s a))

end Frame

section Ops

variable {K H S : Type} {c : Hasher HashValue.LENGTH_IN_BITS H}
  {self self' : JellyfishMerkleRestore K H S}

theorem NodesOnly.freeze_internal_nodes_loop {n fuel : ℕ}
    (h : freeze_internal_nodes_loop c n fuel self = some self') : NodesOnly self self' := by
  induction fuel generalizing self with
  | zero =>
    cases h
    exact .refl _
  | succ fuel ih =>
    unfold JellyfishMerkleRestore.freeze_internal_nodes_loop at h
    split_ifs at h
    · simp only [Option.bind_eq_bind, Option.bind_eq_some_iff] at h
      obtain ⟨last_node, -, ⟨node_key, internal_node⟩, -, self₁, hup, h⟩ := h
      exact (nodesOnly_drop_last self).trans
        ((nodesOnly_freeze_node _ _ _).trans ((NodesOnly.update_rightmost_parent hup).trans (ih h)))
    · cases h
      exact .refl _

theorem NodesOnly.freeze {n : ℕ} (h : self.freeze c n = some self') : NodesOnly self self' := by
  simp only [JellyfishMerkleRestore.freeze, JellyfishMerkleRestore.freeze_internal_nodes,
    Option.bind_eq_bind, Option.bind_eq_some_iff] at h
  obtain ⟨self₁, hleaf, h⟩ := h
  exact (NodesOnly.freeze_previous_leaf hleaf).trans (.freeze_internal_nodes_loop h)

theorem NodesOnly.insert_at_leaf {child_index : Nibble} {existing_leaf new_leaf : LeafNode K H}
    (h : self.insert_at_leaf c child_index existing_leaf new_leaf = some self') :
    NodesOnly self self' := by
  unfold JellyfishMerkleRestore.insert_at_leaf at h
  simp only [Option.bind_eq_bind, Option.bind_eq_some_iff] at h
  obtain ⟨self₁, hset, h⟩ := h
  -- the two ensure!s: a failed one is a panic
  split at h
  · simp at h
  simp only [Option.bind_eq_some_iff] at h
  obtain ⟨self₂, hfreeze, h⟩ := h
  split at h
  · simp at h
  exact (NodesOnly.set_child_at hset).trans (((NodesOnly.foldl (fun s _ =>
    nodesOnly_push_partial_node s _) _ _).trans (nodesOnly_push_partial_node _ _)).trans
    ((NodesOnly.freeze hfreeze).trans (.set_child_at h)))

theorem NodesOnly.add_one_loop {new_leaf : LeafNode K H} {i fuel : ℕ}
    (h : add_one_loop c new_leaf i fuel self = some self') : NodesOnly self self' := by
  induction fuel generalizing i self with
  | zero =>
    cases h
    exact .refl _
  | succ fuel ih =>
    unfold JellyfishMerkleRestore.add_one_loop at h
    simp only [Option.bind_eq_bind, Option.bind_eq_some_iff] at h
    obtain ⟨node, -, h⟩ := h
    split at h
    · split at h
      · exact .insert_at_leaf h
      · cases h
    · exact ih h
    · simp only [Option.bind_eq_some_iff] at h
      obtain ⟨self₁, hfreeze, h⟩ := h
      exact (NodesOnly.freeze hfreeze).trans (.set_child_at h)

theorem NodesOnly.add_one {hash_key : K → BitVec HashValue.LENGTH_IN_BITS} {key : K} {value_hash : H}
    (h : self.add_one c hash_key key value_hash = some self') : NodesOnly self self' :=
  .add_one_loop h

end Ops

section Progress

variable {K H S : Type}

-- b has taken more keys than a, and its previous leaf lies past a's.
structure Advances (a b : JellyfishMerkleRestore K H S) : Prop where
  num_keys_received : a.num_keys_received < b.num_keys_received
  previous_leaf : ∃ leaf, b.previous_leaf = some leaf ∧
    ∀ prev ∈ a.previous_leaf, prev.account_key < leaf.account_key

theorem Advances.trans {a b d : JellyfishMerkleRestore K H S} (hab : Advances a b)
    (hbd : Advances b d) : Advances a d := by
  obtain ⟨lb, hb, hlt⟩ := hab.previous_leaf
  obtain ⟨ld, hd, hlt'⟩ := hbd.previous_leaf
  exact ⟨Nat.lt_trans hab.num_keys_received hbd.num_keys_received, ld, hd,
    fun prev hprev => BitVec.lt_trans (hlt prev hprev) (hlt' lb hb)⟩

theorem Advances.of_right {a b b' : JellyfishMerkleRestore K H S} (h : Advances a b)
    (hn : b'.num_keys_received = b.num_keys_received) (hp : b'.previous_leaf = b.previous_leaf) :
    Advances a b' :=
  ⟨hn ▸ h.num_keys_received, hp ▸ h.previous_leaf⟩

-- One key of add_keys: the previous leaf is set, the tree nodes change, the count goes up.
theorem advances_add_key {self self₁ : JellyfishMerkleRestore K H S} {leaf : LeafNode K H}
    (hord : ∀ prev ∈ self.previous_leaf, prev.account_key < leaf.account_key)
    (h : NodesOnly { self with previous_leaf := some leaf } self₁) :
    Advances self { self₁ with num_keys_received := self₁.num_keys_received + 1 } :=
  ⟨Nat.lt_succ_of_le (Nat.le_of_eq h.num_keys_received.symm), leaf, h.previous_leaf, hord⟩

theorem order_check_eq_false {p : Option (LeafNode K H)} {hashed_key : BitVec HashValue.LENGTH_IN_BITS} :
    p.any (fun prev_leaf => !decide (prev_leaf.account_key < hashed_key)) = false ↔
      ∀ prev ∈ p, prev.account_key < hashed_key := by
  cases p <;> simp

theorem write_frozen_nodes_keys (writer : TreeWriter K H S) (self : JellyfishMerkleRestore K H S) :
    (write_frozen_nodes writer self).1.num_keys_received = self.num_keys_received ∧
      (write_frozen_nodes writer self).1.previous_leaf = self.previous_leaf := by
  unfold write_frozen_nodes wait_for_async_commit
  -- the asynchronous write first takes the result of the previous one
  split
  · rcases self.async_commit_result with _ | _ | _ <;> simp only [Except.mapError] <;>
      (repeat' split) <;> trivial
  · split <;> trivial

end Progress

section AddChunk

variable {K H S : Type} {c : Hasher HashValue.LENGTH_IN_BITS H}
  {hash_key : K → BitVec HashValue.LENGTH_IN_BITS} {self self' : JellyfishMerkleRestore K H S}

theorem add_keys_cons_step {key : K} {value_hash : H} {rest : List (K × H)}
    {r : Except (AptosDbError H) Unit}
    (hord : ∀ prev ∈ self.previous_leaf, prev.account_key < hash_key key)
    (h : add_keys c hash_key self ((key, value_hash) :: rest) = some (self', r)) :
    ∃ self₁, Advances self self₁ ∧ add_keys c hash_key self₁ rest = some (self', r) := by
  unfold add_keys at h
  rw [if_neg (by rw [Bool.not_eq_true, order_check_eq_false]; exact hord)] at h
  simp only [Option.bind_eq_bind, Option.bind_eq_some_iff] at h
  obtain ⟨self₁, hone, h⟩ := h
  exact ⟨_, advances_add_key hord (NodesOnly.add_one hone), h⟩

-- Each key of a run either stops it at the order check or advances the restorer.
theorem add_keys_advances_or_eq {l : List (K × H)} {r : Except (AptosDbError H) Unit}
    (h : add_keys c hash_key self l = some (self', r)) : self' = self ∨ Advances self self' := by
  induction l generalizing self with
  | nil =>
    cases h
    exact .inl rfl
  | cons kv rest ih =>
    by_cases hord : ∀ prev ∈ self.previous_leaf, prev.account_key < hash_key kv.1
    · obtain ⟨self₁, hadv, h⟩ := add_keys_cons_step hord h
      rcases ih h with rfl | hadv'
      · exact .inr hadv
      · exact .inr (hadv.trans hadv')
    · unfold add_keys at h
      rw [if_pos (by rw [← Bool.not_eq_false, order_check_eq_false]; exact hord)] at h
      cases h
      exact .inl rfl

theorem add_keys_cons_advances {key : K} {value_hash : H} {rest : List (K × H)}
    {r : Except (AptosDbError H) Unit}
    (hord : ∀ prev ∈ self.previous_leaf, prev.account_key < hash_key key)
    (h : add_keys c hash_key self ((key, value_hash) :: rest) = some (self', r)) :
    Advances self self' := by
  obtain ⟨self₁, hadv, h⟩ := add_keys_cons_step hord h
  rcases add_keys_advances_or_eq h with rfl | hadv'
  · exact hadv
  · exact hadv.trans hadv'

-- What add_chunk_impl keeps of a chunk after skipping the keys it has is, when not empty, a run
-- whose first key passes the order check.
theorem skipped_chunk_head {chunk : List (K × H)}
    (hskip : self.previous_leaf.map (fun prev_leaf =>
      chunk.findIdx? fun (key, _) => prev_leaf.account_key < hash_key key) ≠ some none)
    (hne : chunk.drop (((self.previous_leaf.map fun prev_leaf =>
      chunk.findIdx? fun (key, _) => prev_leaf.account_key < hash_key key).getD none).getD 0) ≠ []) :
    ∃ key value_hash rest, chunk.drop (((self.previous_leaf.map fun prev_leaf =>
        chunk.findIdx? fun (key, _) => prev_leaf.account_key < hash_key key).getD none).getD 0) =
        (key, value_hash) :: rest ∧
      ∀ prev ∈ self.previous_leaf, prev.account_key < hash_key key := by
  cases hp : self.previous_leaf with
  | none =>
    simp only [hp, Option.map_none, Option.getD_none, List.drop_zero] at hne ⊢
    obtain ⟨⟨key, value_hash⟩, rest, rfl⟩ := List.exists_cons_of_ne_nil hne
    exact ⟨key, value_hash, rest, rfl, by simp⟩
  | some prev_leaf =>
    simp only [hp, Option.map_some, Option.getD_some, ne_eq, Option.some.injEq] at hskip ⊢
    obtain ⟨i, hi⟩ := Option.ne_none_iff_exists'.mp hskip
    obtain ⟨hlt, hpi, -⟩ := List.findIdx?_eq_some_iff_getElem.mp hi
    refine ⟨chunk[i].1, chunk[i].2, chunk.drop (i + 1), ?_, ?_⟩
    · rw [hi, Option.getD_some, List.drop_eq_getElem_cons hlt]
    · simpa using hpi

-- A rejected chunk never leaves the restorer as it was: at least one of its keys has been added to
-- the tree and counted, and the previous leaf has moved past the old one.
theorem add_chunk_impl_error_advances [DecidableEq H] {writer : TreeWriter K H S}
    {chunk : List (K × H)} {proof : SparseMerkleRangeProof H} {e : AptosDbError H}
    (h : self.add_chunk_impl c hash_key writer chunk proof = some (self', .error e)) :
    Advances self self' := by
  unfold add_chunk_impl at h
  split_ifs at h with hfin
  · simp at h
  dsimp only at h
  split at h
  · simp at h
  rename_i hskip
  split_ifs at h with hempty
  · simp at h
  obtain ⟨key, value_hash, rest, hchunk, hord⟩ := skipped_chunk_head hskip
    (by simpa using hempty)
  rw [hchunk] at h
  simp only [Option.bind_eq_bind, Option.bind_eq_some_iff] at h
  obtain ⟨⟨self₁, result⟩, hkeys, h⟩ := h
  have hadv := add_keys_cons_advances hord hkeys
  -- the error comes from the keys, from verify or from the store
  split at h
  · cases h
    exact hadv
  · simp only [Option.bind_eq_some_iff] at h
    obtain ⟨r, -, h⟩ := h
    split at h
    · cases h
      exact hadv
    · simp only [Option.pure_def, Option.some.injEq] at h
      have hkeys' := write_frozen_nodes_keys writer self₁
      rw [h] at hkeys'
      exact hadv.of_right hkeys'.1 hkeys'.2

end AddChunk

end JellyfishMerkleRestore

end Zapatos.JellyfishMerkle

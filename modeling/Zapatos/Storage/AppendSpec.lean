import Zapatos.Storage.AccumulatorSpec

namespace Zapatos.Storage

open Bits InOrder MerkleTree position accumulator

variable {α : Type} (H : AccumulatorHasher α)

-- A node of the padded tree over the leaves with its hash, as append pairs them.
def node_entry (leaves : List α) (l k : ℕ) : Position × α :=
  (⟨node l k⟩, subtree H.internal_node H.placeholder leaves l k)

-- The left siblings append holds after leaf m - 1, when the store holds the first nl leaves:
-- for each set bit i of m from level j on, the left sibling at level i of leaf m, lowest first,
-- unless its leaves end by leaf nl, and the store holds it.
def new_ommers (leaves : List α) (nl m j : ℕ) : List (Position × α) :=
  ((List.range' j (64 - j)).filter fun i =>
      m.testBit i && decide (nl < 2 ^ i * (2 * (m >>> (i + 1)) + 1))).map fun i =>
    node_entry H leaves i (2 * (m >>> (i + 1)))

-- The writes of append after leaf c - 1, when the store holds the first nl leaves: the nodes
-- frozen since, each with its hash, and only those.
structure Frozen (leaves : List α) (nl c : ℕ) (writes : List (Position × α)) : Prop where
  sound : ∀ e ∈ writes, ∃ l k, e = node_entry H leaves l k ∧ nl < 2 ^ l * (k + 1) ∧
    2 ^ l * (k + 1) ≤ c
  complete : ∀ l k, nl < 2 ^ l * (k + 1) → 2 ^ l * (k + 1) ≤ c → node_entry H leaves l k ∈ writes

-- A run of the store: the batches put one after the other, each after the leaves of those
-- before it, with the root hash of each put.
def Store.put_batches (store : Store α) (num_leaves : ℕ) :
    List (List α) → Result (List α × Store α)
  | [] => pure ([], store)
  | batch :: batches => do
    let (root_hash, store) ← store.put_transaction_accumulator H num_leaves batch
    let (root_hashes, store) ← Store.put_batches store (num_leaves + batch.length) batches
    pure (root_hash :: root_hashes, store)

variable {H}

section NewOmmers

variable {L : List α} {nl m j : ℕ}

theorem new_ommers_succ (hj : j < 64) :
    new_ommers H L nl m j =
      if m.testBit j ∧ nl < 2 ^ j * (2 * (m >>> (j + 1)) + 1) then
        node_entry H L j (2 * (m >>> (j + 1))) :: new_ommers H L nl m (j + 1)
      else new_ommers H L nl m (j + 1) := by
  rw [new_ommers, show 64 - j = 64 - (j + 1) + 1 by omega, List.range'_succ, List.filter_cons]
  by_cases hc : m.testBit j ∧ nl < 2 ^ j * (2 * (m >>> (j + 1)) + 1)
  · simp only [hc, decide_true, Bool.and_self, if_true, List.map_cons]
    rfl
  · rw [if_neg hc, if_neg (by simpa using hc)]
    rfl

theorem new_ommers_of_testBit_eq_false (hj : j < 64) (hb : m.testBit j = false) :
    new_ommers H L nl m j = new_ommers H L nl m (j + 1) := by
  rw [new_ommers_succ hj, if_neg (by simp [hb])]

-- A bit whose left sibling ends by leaf nl leaves no entry, nor do the bits above it.
theorem new_ommers_of_le (h : 2 ^ j * (m >>> j) ≤ nl) : new_ommers H L nl m j = [] := by
  rw [new_ommers, List.map_eq_nil_iff, List.filter_eq_nil_iff]
  intro i hi
  have hji := (List.mem_range'_1.mp hi).1
  have hmono := two_pow_mul_shiftRight_le (m := m) hji
  have hsplit := shiftRight_eq_two_mul_add m i
  have hend : 2 ^ i * (m >>> i) = 2 ^ i * (2 * (m >>> (i + 1))) +
      2 ^ i * (if m.testBit i then 1 else 0) := by
    rw [hsplit, Nat.mul_add]
  by_cases hb : m.testBit i
  · rw [if_pos hb, Nat.mul_one] at hend
    simp only [hb, Bool.true_and, decide_eq_true_eq, Nat.not_lt, Nat.mul_add, Nat.mul_one]
    omega
  · simp [hb]

theorem new_ommers_congr {m' : ℕ} (h : m >>> j = m' >>> j) :
    new_ommers H L nl m j = new_ommers H L nl m' j := by
  have hbit : ∀ i ∈ List.range' j (64 - j), m.testBit i = m'.testBit i := by
    intro i hi
    obtain ⟨d, rfl⟩ := Nat.exists_eq_add_of_le (List.mem_range'_1.mp hi).1
    rw [← Nat.testBit_shiftRight, h, Nat.testBit_shiftRight]
  have hshift : ∀ i ∈ List.range' j (64 - j), m >>> (i + 1) = m' >>> (i + 1) := by
    intro i hi
    obtain ⟨d, rfl⟩ := Nat.exists_eq_add_of_le (List.mem_range'_1.mp hi).1
    rw [Nat.add_assoc, Nat.shiftRight_add, h, ← Nat.shiftRight_add]
  simp only [new_ommers]
  rw [List.filter_congr fun i hi => by rw [hbit i hi, hshift i hi]]
  refine List.map_congr_left fun i hi => ?_
  rw [hshift i (List.mem_of_mem_filter hi)]

theorem new_ommers_zero_eq {z : ℕ} (hz : z ≤ 64) (hbelow : ∀ i < z, m.testBit i = false) :
    new_ommers H L nl m 0 = new_ommers H L nl m z := by
  induction z with
  | zero => rfl
  | succ z ih =>
    rw [ih (by omega) fun i hi => hbelow i (by omega),
      new_ommers_of_testBit_eq_false (by omega) (hbelow z (by omega))]

end NewOmmers

section Steps

variable (self : MerkleAccumulatorView α) {pos sibling parent : Position} {hash hash' : α}
  {to_freeze left_siblings left_siblings' : List (Position × α)}

theorem append_climb_of_left (h : pos.is_right_child = some false) (fuel : ℕ) :
    self.append_climb H fuel pos hash to_freeze left_siblings =
      pure (pos, hash, to_freeze, left_siblings) := by
  rw [MerkleAccumulatorView.append_climb.eq_def, h, ExceptT.liftM_some, pure_bind]
  rfl

theorem append_climb_of_right (h : pos.is_right_child = some true)
    (hs : pos.sibling = some sibling) (hp : pos.parent = some parent)
    (hh : self.hash_with_left_sibling H left_siblings sibling hash =
      pure (hash', left_siblings')) (fuel : ℕ) :
    self.append_climb H (fuel + 1) pos hash to_freeze left_siblings =
      self.append_climb H fuel parent hash' (to_freeze ++ [(parent, hash')]) left_siblings' := by
  rw [MerkleAccumulatorView.append_climb.eq_def, h, ExceptT.liftM_some, pure_bind]
  simp only [if_true, hs, hh, hp, ExceptT.liftM_some, pure_bind]

theorem append_walk_of_left (h : pos.is_left_child = some true)
    (hp : pos.parent = some parent) (count : ℕ) :
    self.append_walk H (count + 1) pos hash left_siblings =
      self.append_walk H count parent (H.internal_node hash H.placeholder) left_siblings := by
  rw [MerkleAccumulatorView.append_walk.eq_def]
  simp only [h, hp, ExceptT.liftM_some, pure_bind, if_true]

theorem append_walk_of_right (h : pos.is_left_child = some false)
    (hs : pos.sibling = some sibling) (hp : pos.parent = some parent)
    (hh : self.hash_with_left_sibling H left_siblings sibling hash =
      pure (hash', left_siblings')) (count : ℕ) :
    self.append_walk H (count + 1) pos hash left_siblings =
      self.append_walk H count parent hash' left_siblings' := by
  rw [MerkleAccumulatorView.append_walk.eq_def]
  simp only [h, hs, hh, hp, ExceptT.liftM_some, pure_bind, Bool.false_eq_true, if_false]

theorem append_leaves_cons {leaf : α} {rest : List α} {offset c : ℕ} {e : Position × α}
    {to_freeze' : List (Position × α)}
    (hc : add64 self.num_leaves offset = some c) (hpos : Position.from_leaf_index c = some pos)
    (hclimb : self.append_climb H 64 pos leaf (to_freeze ++ [(pos, leaf)]) left_siblings =
      pure (e.1, e.2, to_freeze', left_siblings')) :
    self.append_leaves H offset (leaf :: rest) to_freeze left_siblings =
      self.append_leaves H (offset + 1) rest to_freeze' (e :: left_siblings') := by
  rw [MerkleAccumulatorView.append_leaves]
  simp only [hc, hpos, hclimb, ExceptT.liftM_some, pure_bind]

theorem append_leaves_cons_of_none {leaf : α} {rest : List α} {offset c : ℕ}
    (hc : add64 self.num_leaves offset = some c) (hpos : Position.from_leaf_index c = some pos)
    (hclimb : pos.is_right_child = none) :
    self.append_leaves H offset (leaf :: rest) to_freeze left_siblings = ExceptT.lift none := by
  rw [MerkleAccumulatorView.append_leaves]
  simp only [hc, hpos, ExceptT.liftM_some, pure_bind]
  rw [MerkleAccumulatorView.append_climb.eq_def]
  simp only [hclimb, ExceptT.liftM_none_bind, ExceptT.lift_none_bind]

theorem append_of_cons {leaf : α} {rest : List α} {c root_level n : ℕ} {root_hash : α}
    (hc : add64 self.num_leaves (leaf :: rest).length = some c)
    (hr : Position.root_level_from_leaf_count c = some root_level)
    (hmax : max_to_freeze (leaf :: rest).length root_level = some n)
    (hleaves : self.append_leaves H 0 (leaf :: rest) [] [] =
      pure (to_freeze, (pos, hash) :: left_siblings))
    (hwalk : self.append_walk H (root_level - pos.level) pos hash left_siblings =
      pure (root_hash, [])) :
    self.append H (leaf :: rest) = pure (root_hash, to_freeze) := by
  rw [MerkleAccumulatorView.append]
  · simp only [hc, hr, hmax, hleaves, hwalk, ExceptT.liftM_some, pure_bind]
    rfl
  · exact List.cons_ne_nil leaf rest

end Steps

section Path

variable {m i : ℕ}

-- The ancestors of leaf m below level 63, as the climb and the walk of append visit them.
theorem is_left_child_path (hm : m < 2 ^ 63 - 1) (hi : i < 63) :
    (Position.mk (node i (m >>> i))).is_left_child = some (!m.testBit i) := by
  have hsplit := shiftRight_eq_two_mul_add m i
  rw [is_left_child_mk_node hi (node_shiftRight_lt hm hi.le)]
  by_cases hb : m.testBit i
  · rw [if_pos hb] at hsplit
    simp only [hb, Bool.not_true, Option.some.injEq, decide_eq_false_iff_not]
    omega
  · rw [if_neg hb] at hsplit
    simp only [hb, Bool.not_false, Option.some.injEq, decide_eq_true_eq]
    omega

theorem is_right_child_path (hm : m < 2 ^ 63 - 1) (hi : i < 63) :
    (Position.mk (node i (m >>> i))).is_right_child = some (m.testBit i) := by
  rw [Position.is_right_child, is_left_child_path hm hi, Option.map_some, Bool.not_not]

theorem sibling_path (hm : m < 2 ^ 63 - 1) (hi : i < 63) (hb : m.testBit i = true) :
    (Position.mk (node i (m >>> i))).sibling = some ⟨node i (2 * (m >>> (i + 1)))⟩ := by
  have hsplit := shiftRight_eq_two_mul_add m i
  rw [if_pos hb] at hsplit
  have hodd : Odd (m >>> i) := ⟨m >>> (i + 1), hsplit⟩
  rw [sibling_mk_node hi (node_shiftRight_lt hm hi.le), Nat.xor_one_of_odd hodd]
  congr 3
  omega

theorem parent_path (hm : m < 2 ^ 63 - 1) (hi : i < 63) :
    (Position.mk (node i (m >>> i))).parent = some ⟨node (i + 1) (m >>> (i + 1))⟩ := by
  rw [parent_mk_node hi (node_shiftRight_lt hm hi.le), Nat.shiftRight_succ]

variable {L : List α}

-- The hash of the parent on leaf m's path, from a left sibling with all its leaves.
theorem internal_node_path_of_testBit (hmL : m < L.length) (hb : m.testBit i = true) :
    H.internal_node (subtree H.internal_node H.placeholder L i (2 * (m >>> (i + 1))))
        (subtree H.internal_node H.placeholder L i (m >>> i)) =
      subtree H.internal_node H.placeholder L (i + 1) (m >>> (i + 1)) := by
  have hle : 2 ^ (i + 1) * (m >>> (i + 1)) ≤ m := by
    rw [Nat.shiftRight_eq_div_pow]
    exact Nat.mul_div_le m _
  rw [subtree_shiftRight (by omega), if_pos hb]

-- The hash of the parent on the path of the last leaf m, from a right child past the leaves.
theorem internal_node_path_of_testBit_eq_false (hmL : m + 1 = L.length)
    (hb : m.testBit i = false) :
    H.internal_node (subtree H.internal_node H.placeholder L i (m >>> i)) H.placeholder =
      subtree H.internal_node H.placeholder L (i + 1) (m >>> (i + 1)) := by
  have hle : 2 ^ (i + 1) * (m >>> (i + 1)) ≤ m := by
    rw [Nat.shiftRight_eq_div_pow]
    exact Nat.mul_div_le m _
  rw [subtree_shiftRight (by omega), if_neg (by simp [hb]), subtree_shiftRight_succ_eq (by omega)]

end Path

section Climb

variable {reader : Position → Except MerkleAccumulatorError α} {old more : List α} {m j : ℕ}

-- The left sibling on the path of leaf m is the top of the new left siblings, or else a frozen
-- node of the store.
theorem hash_with_left_sibling_ommer (hst : Stores H reader old) (hj : j < 64)
    (hb : m.testBit j = true) (hash : α) :
    (⟨reader, old.length⟩ : MerkleAccumulatorView α).hash_with_left_sibling H
        (new_ommers H (old ++ more) old.length m j) ⟨node j (2 * (m >>> (j + 1)))⟩ hash =
      pure (H.internal_node
          (subtree H.internal_node H.placeholder (old ++ more) j (2 * (m >>> (j + 1)))) hash,
        new_ommers H (old ++ more) old.length m (j + 1)) := by
  rw [new_ommers_succ hj]
  by_cases hend : old.length < 2 ^ j * (2 * (m >>> (j + 1)) + 1)
  · rw [if_pos ⟨hb, hend⟩, MerkleAccumulatorView.hash_with_left_sibling]
    simp only [node_entry, if_true]
  · have hnil : new_ommers H (old ++ more) old.length m (j + 1) = [] := by
      refine new_ommers_of_le ?_
      have hpos := Nat.two_pow_pos j
      rw [Nat.pow_succ, Nat.mul_assoc]
      rw [Nat.mul_add, Nat.mul_one] at hend
      omega
    have hread := hst j (2 * (m >>> (j + 1))) (by omega)
    rw [if_neg fun h => hend h.2, hnil, MerkleAccumulatorView.hash_with_left_sibling,
      MerkleAccumulatorView.read]
    dsimp only
    rw [hread, subtree_append (by omega)]
    rfl

variable {t : ℕ}

-- The climb of append over leaf m, whose low t bits are set: t right children, each meeting its
-- left sibling and freezing its parent, up to the left child at level t.
theorem append_climb_eq (hst : Stores H reader old) (hmL : m < (old ++ more).length)
    (hm : m < 2 ^ 63 - 1) (ht : t < 63) (hset : ∀ i < t, m.testBit i = true)
    (hclr : m.testBit t = false) :
    ∀ d i fuel (to_freeze : List (Position × α)), i + d = t → d ≤ fuel →
      (⟨reader, old.length⟩ : MerkleAccumulatorView α).append_climb H fuel ⟨node i (m >>> i)⟩
          (subtree H.internal_node H.placeholder (old ++ more) i (m >>> i)) to_freeze
          (new_ommers H (old ++ more) old.length m i) =
        pure (⟨node t (m >>> t)⟩, subtree H.internal_node H.placeholder (old ++ more) t (m >>> t),
          to_freeze ++ (List.range' (i + 1) d).map (fun j => node_entry H (old ++ more) j (m >>> j)),
          new_ommers H (old ++ more) old.length m t) := by
  intro d
  induction d with
  | zero =>
    intro i fuel to_freeze hid _
    obtain rfl : i = t := by omega
    rw [append_climb_of_left _ (by rw [is_right_child_path hm ht, hclr]), List.range'_zero,
      List.map_nil, List.append_nil]
  | succ d ih =>
    intro i fuel to_freeze hid hfuel
    obtain ⟨fuel, rfl⟩ : ∃ f, fuel = f + 1 := ⟨fuel - 1, by omega⟩
    have hi : i < 63 := by omega
    have hb := hset i (by omega)
    rw [append_climb_of_right _ (by rw [is_right_child_path hm hi, hb]) (sibling_path hm hi hb)
        (parent_path hm hi) (hash_with_left_sibling_ommer hst (by omega) hb _),
      internal_node_path_of_testBit hmL hb, ih (i + 1) fuel _ (by omega) (by omega),
      List.range'_succ, List.map_cons, List.append_assoc, List.singleton_append]
    rfl

end Climb

section Leaf

variable {L : List α} {nl t k : ℕ} {to_freeze : List (Position × α)}

theorem frozen_nil : Frozen H L nl nl [] where
  sound _ he := absurd he List.not_mem_nil
  complete _ _ h1 h2 := absurd h2 (by omega)

-- The nodes that leaf node t k completes: the leaf and its t ancestors that are right children,
-- each ending at the leaf.
theorem two_pow_mul_node_shiftRight {j : ℕ} (hj : j ≤ t) :
    2 ^ j * (node t k >>> j + 1) = node t k + 1 :=
  two_pow_mul_shiftRight_add_one fun _ hi => testBit_node_of_lt (by omega)

theorem level_le_of_two_pow_mul_eq {l k' : ℕ} (h : 2 ^ l * (k' + 1) = node t k + 1) : l ≤ t := by
  by_contra hc
  have hdvd : 2 ^ t * 2 ∣ 2 ^ t * (2 * k + 1) := by
    rw [← Nat.pow_succ, ← node_add_one, ← h]
    exact Dvd.dvd.mul_right (Nat.pow_dvd_pow 2 (by omega)) _
  have := Nat.dvd_of_mul_dvd_mul_left (Nat.two_pow_pos t) hdvd
  omega

theorem frozen_leaf (hf : Frozen H L nl (node t k) to_freeze) (hnl : nl ≤ node t k) :
    Frozen H L nl (node t k + 1)
      (to_freeze ++ (List.range' 0 (t + 1)).map fun j => node_entry H L j (node t k >>> j)) where
  sound e he := by
    rcases List.mem_append.mp he with he | he
    · obtain ⟨l, k', rfl, h1, h2⟩ := hf.sound e he
      exact ⟨l, k', rfl, h1, by omega⟩
    · obtain ⟨j, hj, rfl⟩ := List.mem_map.mp he
      have hjt : j ≤ t := by
        have := List.mem_range'_1.mp hj
        omega
      have hend := two_pow_mul_node_shiftRight (k := k) hjt
      exact ⟨j, _, rfl, by omega, hend.le⟩
  complete l k' h1 h2 := by
    rcases Nat.lt_or_ge (2 ^ l * (k' + 1)) (node t k + 1) with hlt | hge
    · exact List.mem_append_left _ (hf.complete l k' h1 (by omega))
    · have heq : 2 ^ l * (k' + 1) = node t k + 1 := by omega
      have hlt := level_le_of_two_pow_mul_eq heq
      have hk : k' = node t k >>> l := by
        have := Nat.eq_of_mul_eq_mul_left (Nat.two_pow_pos l)
          (heq.trans (two_pow_mul_node_shiftRight hlt).symm)
        omega
      rw [hk]
      exact List.mem_append_right _ (List.mem_map.mpr
        ⟨l, List.mem_range'_1.mpr ⟨by omega, by omega⟩, rfl⟩)

-- After leaf node t k, the left child it climbs to at level t tops the new left siblings.
theorem new_ommers_push (hnl : nl ≤ node t k) (ht : t < 64) :
    new_ommers H L nl (node t k + 1) 0 =
      node_entry H L t (2 * k) :: new_ommers H L nl (node t k) t := by
  have hlow : ∀ i < t, (node t k + 1).testBit i = false := fun i hi => by
    rw [node_add_one]
    exact testBit_eq_false_of_two_pow_dvd (Dvd.intro _ rfl) hi
  have hbit : (node t k + 1).testBit t = true := by
    rw [node_add_one, Nat.testBit_two_pow_mul]
    simp
  have hshift := node_add_one_shiftRight_succ t k
  rw [new_ommers_zero_eq (by omega) hlow, new_ommers_succ (by omega), hshift,
    if_pos ⟨hbit, by rw [← node_add_one]; omega⟩,
    new_ommers_congr (show (node t k + 1) >>> (t + 1) = node t k >>> (t + 1) by
      rw [hshift, node_shiftRight_succ]),
    ← new_ommers_of_testBit_eq_false (by omega) testBit_node_self]

end Leaf

section Leaves

variable {reader : Position → Except MerkleAccumulatorError α} {old more : List α}

-- The for loop of append over the new leaves from offset on, up to the rest: each leaf freezes
-- the nodes it completes and leaves the new left siblings of the next count.
theorem append_leaves_eq (hst : Stores H reader old) :
    ∀ (mid : List α) (offset : ℕ) (rest : List α) (to_freeze : List (Position × α)),
      (old ++ more).drop (old.length + offset) = mid ++ rest →
      old.length + offset + mid.length < 2 ^ 63 →
      Frozen H (old ++ more) old.length (old.length + offset) to_freeze →
      ∃ to_freeze', Frozen H (old ++ more) old.length (old.length + offset + mid.length)
          to_freeze' ∧
        (⟨reader, old.length⟩ : MerkleAccumulatorView α).append_leaves H offset (mid ++ rest)
            to_freeze (new_ommers H (old ++ more) old.length (old.length + offset) 0) =
          (⟨reader, old.length⟩ : MerkleAccumulatorView α).append_leaves H
            (offset + mid.length) rest to_freeze'
            (new_ommers H (old ++ more) old.length (old.length + offset + mid.length) 0) := by
  intro mid
  induction mid with
  | nil => exact fun offset rest to_freeze _ _ hf => ⟨to_freeze, hf, rfl⟩
  | cons x mid ih =>
    intro offset rest to_freeze hdrop hlen hf
    have hlen' : old.length + offset + 1 + mid.length < 2 ^ 63 := by
      rw [List.length_cons] at hlen
      omega
    have hcL : old.length + offset < (old ++ more).length := by
      by_contra hc
      rw [List.drop_eq_nil_of_le (by omega)] at hdrop
      exact List.cons_ne_nil _ _ (hdrop.symm.trans rfl)
    rw [List.drop_eq_getElem_cons hcL, List.cons_append, List.cons.injEq] at hdrop
    have hx : subtree H.internal_node H.placeholder (old ++ more) 0 (old.length + offset) = x := by
      rw [subtree, List.getD_eq_getElem _ _ hcL, hdrop.1]
    obtain ⟨t, k, hc⟩ := exists_node (old.length + offset)
    have ht : t < 63 := level_lt_of_node_lt (show node t k < 2 ^ 63 - 1 by omega)
    have hclimb := append_climb_eq hst (hc ▸ hcL) (by omega) ht
      (fun i hi => testBit_node_of_lt hi) testBit_node_self t 0 64
      (to_freeze ++ [(⟨node 0 (node t k)⟩, x)]) (by omega) (by omega)
    have hlist : to_freeze ++ [(⟨node 0 (node t k)⟩, x)] ++ (List.range' 1 t).map
        (fun j => node_entry H (old ++ more) j (node t k >>> j)) =
        to_freeze ++ (List.range' 0 (t + 1)).map
          (fun j => node_entry H (old ++ more) j (node t k >>> j)) := by
      rw [List.range'_succ, List.map_cons, List.append_assoc, List.singleton_append, node_entry,
        Nat.shiftRight_zero, ← hc, hx]
    rw [Nat.shiftRight_zero, ← hc, hx, hc, node_shiftRight, Nat.zero_add, hlist] at hclimb
    have hf1 : Frozen H (old ++ more) old.length (old.length + (offset + 1)) (to_freeze ++
        (List.range' 0 (t + 1)).map fun j => node_entry H (old ++ more) j (node t k >>> j)) := by
      rw [← Nat.add_assoc, hc]
      exact frozen_leaf (hc ▸ hf) (by omega)
    obtain ⟨to_freeze', hf', heq⟩ := ih (offset + 1) rest _ (by rw [← Nat.add_assoc]; exact hdrop.2)
      (by omega) hf1
    have hend : old.length + (offset + 1) + mid.length = old.length + offset + (mid.length + 1) := by
      omega
    refine ⟨to_freeze', by rw [List.length_cons, ← hend]; exact hf', ?_⟩
    rw [← Nat.add_assoc, hc] at heq
    rw [List.cons_append, hc, append_leaves_cons _ (e := node_entry H (old ++ more) t (2 * k))
        ((add64_of_lt (show old.length + offset < 2 ^ 64 by omega)).trans (congrArg some hc))
        (from_leaf_index_node (by omega)) hclimb,
      ← new_ommers_push (by omega) (by omega), List.length_cons,
      show offset + (mid.length + 1) = offset + 1 + mid.length by omega,
      show node t k + (mid.length + 1) = node t k + 1 + mid.length by omega]
    exact heq

end Leaves

section Walk

variable {reader : Position → Except MerkleAccumulatorError α} {old more : List α}

theorem shiftRight_height_eq_zero (n : ℕ) : (n - 1) >>> height n = 0 :=
  Nat.shiftRight_eq_zero _ _ (Nat.lt_size_self _)

-- The for loop of append up the path of the last leaf to the root: a left child meets the
-- placeholder past the leaves, a right child its left sibling.
theorem append_walk_eq (hst : Stores H reader old) (hmax : (old ++ more).length < 2 ^ 63) :
    ∀ d j, j + d = height (old ++ more).length →
      (⟨reader, old.length⟩ : MerkleAccumulatorView α).append_walk H d
          ⟨node j (((old ++ more).length - 1) >>> j)⟩
          (subtree H.internal_node H.placeholder (old ++ more) j
            (((old ++ more).length - 1) >>> j))
          (new_ommers H (old ++ more) old.length ((old ++ more).length - 1) j) =
        pure (root H.internal_node H.placeholder (old ++ more), []) := by
  have hh := height_le_63 (show (old ++ more).length ≤ 2 ^ 63 by omega)
  intro d
  induction d with
  | zero =>
    intro j hj
    rw [Nat.add_zero] at hj
    subst hj
    rw [shiftRight_height_eq_zero, new_ommers_of_le (by rw [shiftRight_height_eq_zero]; simp)]
    rfl
  | succ d ih =>
    intro j hj
    have hj63 : j < 63 := by omega
    have hn : (old ++ more).length - 1 < 2 ^ 63 - 1 := by omega
    have hpos : 0 < (old ++ more).length := by
      by_contra h0
      rw [Nat.eq_zero_of_not_pos h0, height] at hj
      simp at hj
    cases hb : ((old ++ more).length - 1).testBit j with
    | true =>
      rw [append_walk_of_right _ (by rw [is_left_child_path hn hj63, hb]; rfl)
          (sibling_path hn hj63 hb) (parent_path hn hj63)
          (hash_with_left_sibling_ommer hst (by omega) hb _),
        internal_node_path_of_testBit (by omega) hb, ih (j + 1) (by omega)]
    | false =>
      rw [append_walk_of_left _ (by rw [is_left_child_path hn hj63, hb]; rfl)
          (parent_path hn hj63),
        internal_node_path_of_testBit_eq_false (by omega) hb,
        new_ommers_of_testBit_eq_false (by omega) hb, ih (j + 1) (by omega)]

end Walk

section Append

variable {reader : Position → Except MerkleAccumulatorError α} {old more : List α}

theorem max_to_freeze_of_le {n r : ℕ} (hn : n * 2 + 63 < 2 ^ 64) (hr : r ≤ 63) :
    max_to_freeze n r = some (n * 2 + r) := by
  have h64 : (2 : ℕ) ^ 64 = 18446744073709551616 := by norm_num
  rw [h64] at hn
  rw [max_to_freeze, if_pos ⟨hr, by rw [h64]; omega, by rw [h64]; omega⟩]

-- append after the leaves of the store: the root of the padded tree over all the leaves, and
-- as writes the nodes frozen since. max_to_freeze bounds a batch by usize::MAX / 2.
theorem append_eq_root (hst : Stores H reader old) (hmax : (old ++ more).length < 2 ^ 63)
    (hbatch : more.length * 2 + 63 < 2 ^ 64) :
    ∃ writes, Frozen H (old ++ more) old.length (old ++ more).length writes ∧
      (⟨reader, old.length⟩ : MerkleAccumulatorView α).append H more =
        pure (root H.internal_node H.placeholder (old ++ more), writes) := by
  have hh := height_le_63 (show (old ++ more).length ≤ 2 ^ 63 by omega)
  cases more with
  | nil =>
    rw [List.append_nil] at hh hmax ⊢
    refine ⟨[], frozen_nil, ?_⟩
    rcases Nat.eq_zero_or_pos old.length with h0 | hpos
    · obtain rfl := List.length_eq_zero_iff.mp h0
      rfl
    · have hroot := get_hash_node hst hpos hmax 64 (height old.length) 0 (by omega)
        (node_lt_of_lt (by simp) hh)
      rw [MerkleAccumulatorView.append]
      simp only [Nat.pos_iff_ne_zero.mp hpos, if_false, root_from_leaf_count_eq hpos (by omega),
        ExceptT.liftM_some, pure_bind, hroot]
      rfl
  | cons x xs =>
    have hlen : (old ++ x :: xs).length = old.length + xs.length + 1 := by
      simp only [List.length_append, List.length_cons]
      omega
    obtain ⟨z, k, hz⟩ := exists_node ((old ++ x :: xs).length - 1)
    have hzk : node z k = old.length + xs.length := by omega
    have hz63 : z < 63 := level_lt_of_node_lt (n := 63) (k := k) (by omega)
    have hdrop : (old ++ x :: xs).drop (old.length + 0) = (x :: xs) ++ [] := by
      rw [Nat.add_zero, List.drop_left, List.append_nil]
    obtain ⟨writes, hf, hleaves⟩ := append_leaves_eq hst (x :: xs) 0 [] [] hdrop
      (by simp; omega) frozen_nil
    have hpush := new_ommers_push (H := H) (L := old ++ x :: xs) (t := z) (k := k)
      (show old.length ≤ node z k by omega) (by omega)
    rw [show node z k + 1 = (old ++ x :: xs).length by omega] at hpush
    rw [Nat.add_zero, new_ommers_of_le (m := old.length) (j := 0) (by simp), List.append_nil,
      ← List.length_append, hpush] at hleaves
    have hzh : z ≤ height (old ++ x :: xs).length := by
      have hlow := two_pow_sub_one_le_node z k
      have hlt := Nat.lt_size_self ((old ++ x :: xs).length - 1)
      by_contra hc
      have := Nat.pow_le_pow_right (n := 2) (by norm_num)
        (show ((old ++ x :: xs).length - 1).size + 1 ≤ z by rw [height] at hc; omega)
      rw [Nat.pow_succ] at this
      omega
    have hwalk := append_walk_eq hst hmax (height (old ++ x :: xs).length - z) z (by omega)
    rw [hz, node_shiftRight] at hwalk
    have hnode : node z (2 * k) < 2 ^ 64 - 1 := by
      have := two_mul_two_pow_mul_le_node z k
      exact node_lt_of_lt (by rw [Nat.mul_left_comm]; omega) (by omega)
    refine ⟨writes, List.length_append ▸ hf, append_of_cons _
      ((add64_of_lt (show old.length + (x :: xs).length < 2 ^ 64 by simp; omega)).trans
        (congrArg some List.length_append.symm))
      (root_level_from_leaf_count_eq (by omega) (by omega))
      (max_to_freeze_of_le hbatch hh) hleaves ?_⟩
    rw [level_node hnode]
    exact hwalk

theorem append_eq_root_three_two :
    ∃ writes, Frozen ⟨fun a b => a + 2 * b, 0⟩ ([1, 2, 3] ++ [4, 5]) [1, 2, 3].length
        ([1, 2, 3] ++ [4, 5]).length writes ∧
      (⟨fun p => .ok (node_hash ⟨fun a b => a + 2 * b, 0⟩ [1, 2, 3] p), [1, 2, 3].length⟩ :
        MerkleAccumulatorView ℕ).append ⟨fun a b => a + 2 * b, 0⟩ [4, 5] =
        pure (root (fun a b => a + 2 * b) 0 ([1, 2, 3] ++ [4, 5]), writes) :=
  append_eq_root (stores_node_hash (by decide)) (by decide) (by decide)

-- Leaf 2^63 - 1 lies at in-order index 2^64 - 2, where the asserts of Position fail: append
-- panics on the batch that would reach MAX_ACCUMULATOR_LEAVES, and past it.
theorem append_panics_at_max_leaves (hst : Stores H reader old) (hne : more ≠ [])
    (hold : old.length < MAX_ACCUMULATOR_LEAVES)
    (hcap : MAX_ACCUMULATOR_LEAVES ≤ (old ++ more).length) :
    (⟨reader, old.length⟩ : MerkleAccumulatorView α).append H more = ExceptT.lift none := by
  rw [MAX_ACCUMULATOR_LEAVES_eq] at hold hcap
  obtain ⟨x, xs, rfl⟩ := List.exists_cons_of_ne_nil hne
  have hlen : (old ++ x :: xs).length = old.length + (x :: xs).length := List.length_append
  rw [MerkleAccumulatorView.append]
  · dsimp only
    rcases Nat.lt_or_ge (old.length + (x :: xs).length) (2 ^ 64) with h64 | h64
    · rw [add64_of_lt h64, ExceptT.liftM_some, pure_bind,
        root_level_from_leaf_count_eq (by omega) h64.le, ExceptT.liftM_some, pure_bind]
      rcases Nat.lt_or_ge (2 ^ 63) (old.length + (x :: xs).length) with hover | heq
      · have hh : height (old.length + (x :: xs).length) = 64 := by
          have hlt := Nat.size_le.mpr (show old.length + (x :: xs).length - 1 < 2 ^ 64 by omega)
          have hge := Nat.lt_size.mpr (show 2 ^ 63 ≤ old.length + (x :: xs).length - 1 by omega)
          rw [height]
          omega
        rw [hh, max_to_freeze, if_neg (by simp [MAX_ACCUMULATOR_PROOF_DEPTH])]
        rfl
      · cases hm : max_to_freeze (x :: xs).length (height (old.length + (x :: xs).length)) with
        | none => rfl
        | some n =>
          obtain ⟨mid, last, hsplit⟩ : ∃ mid last, x :: xs = mid ++ [last] :=
            ⟨_, _, (List.dropLast_append_getLast (List.cons_ne_nil x xs)).symm⟩
          have hmid : old.length + mid.length = 2 ^ 63 - 1 := by
            have := congrArg List.length hsplit
            simp only [List.length_append, List.length_singleton] at this
            omega
          have hdrop : (old ++ x :: xs).drop (old.length + 0) = mid ++ [last] := by
            rw [Nat.add_zero, List.drop_left, hsplit]
          obtain ⟨to_freeze, -, hleaves⟩ := append_leaves_eq hst mid 0 [last] [] hdrop
            (by omega) frozen_nil
          rw [Nat.add_zero, new_ommers_of_le (m := old.length) (j := 0) (by simp), Nat.zero_add,
            ← hsplit] at hleaves
          have hpanic : (Position.mk (2 ^ 64 - 2)).is_right_child = none := by
            simp [Position.is_right_child, Position.is_left_child]
          rw [ExceptT.liftM_some, pure_bind, hleaves, append_leaves_cons_of_none _
            (add64_of_lt (show old.length + mid.length < 2 ^ 64 by omega))
            (by rw [from_leaf_index_eq, hmid]; rfl) hpanic, ExceptT.lift_none_bind]
    · rw [add64, if_neg (by omega)]
      rfl
  · exact List.cons_ne_nil x xs

theorem append_panics_at_max_leaves_last :
    (⟨fun p => .ok (node_hash ⟨fun a b => a + 2 * b, 0⟩ (List.replicate (2 ^ 63 - 1) 0) p),
        (List.replicate (2 ^ 63 - 1) 0).length⟩ : MerkleAccumulatorView ℕ).append
        ⟨fun a b => a + 2 * b, 0⟩ [0] = ExceptT.lift none :=
  append_panics_at_max_leaves (stores_node_hash (by rw [List.length_replicate]; omega))
    (List.cons_ne_nil 0 [])
    (by rw [List.length_replicate, MAX_ACCUMULATOR_LEAVES_eq]; omega)
    (by rw [List.length_append, List.length_replicate, List.length_singleton,
      MAX_ACCUMULATOR_LEAVES_eq]; omega)

end Append

section Store

variable {store : Store α} {old more : List α} {writes : List (Position × α)}

-- The empty store holds the frozen nodes of no leaves.
theorem stores_empty : Stores H (Store.get (fun _ => none : Store α)) [] :=
  fun l k hk => absurd hk (Nat.not_le.mpr (Nat.mul_pos (Nat.two_pow_pos l) (Nat.succ_pos k)))

-- Writing the frozen nodes keeps every frozen node in the store: a written node has the hash
-- of its only entry, and a node not written was frozen before.
theorem stores_put_many (hst : Stores H store.get old)
    (hf : Frozen H (old ++ more) old.length (old ++ more).length writes) :
    Stores H (store.put_many writes).get (old ++ more) := by
  intro l k hk
  simp only [Store.get, Store.put_many]
  cases hlook : writes.reverse.lookup ⟨node l k⟩ with
  | some h =>
    obtain ⟨l₁, l₂, hrev, -⟩ := List.lookup_eq_some_iff.mp hlook
    have hmem : (⟨node l k⟩, h) ∈ writes := by
      rw [← List.mem_reverse, hrev]
      exact List.mem_append_right _ List.mem_cons_self
    obtain ⟨l', k', he, -, -⟩ := hf.sound _ hmem
    simp only [node_entry, Prod.mk.injEq, Position.mk.injEq] at he
    obtain ⟨rfl, rfl⟩ := node_inj he.1
    rw [he.2]
  | none =>
    by_cases hold : 2 ^ l * (k + 1) ≤ old.length
    · rw [subtree_append hold]
      exact hst l k hold
    · have hmem := hf.complete l k (by omega) hk
      have hne := List.lookup_eq_none_iff.mp hlook _ (List.mem_reverse.mpr hmem)
      simp [node_entry] at hne

-- put_transaction_accumulator after the leaves of the store: the root over all the leaves, and a
-- store that holds every frozen node of the new tree.
theorem put_transaction_accumulator_eq (hst : Stores H store.get old)
    (hmax : (old ++ more).length < 2 ^ 63) (hbatch : more.length * 2 + 63 < 2 ^ 64) :
    ∃ store', store.put_transaction_accumulator H old.length more =
        pure (root H.internal_node H.placeholder (old ++ more), store') ∧
      Stores H store'.get (old ++ more) := by
  obtain ⟨writes, hf, happ⟩ := append_eq_root hst hmax hbatch
  refine ⟨store.put_many writes, ?_, stores_put_many hst hf⟩
  rw [Store.put_transaction_accumulator, happ, pure_bind]

-- The writes change the store only at the nodes frozen since leaf nl.
theorem put_many_frame {L : List α} {nl c : ℕ} (hf : Frozen H L nl c writes) (p : Position)
    (hp : store.put_many writes p ≠ store p) :
    ∃ l k, p = ⟨node l k⟩ ∧ nl < 2 ^ l * (k + 1) ∧ 2 ^ l * (k + 1) ≤ c := by
  simp only [Store.put_many] at hp
  cases hlook : writes.reverse.lookup p with
  | none => simp [hlook] at hp
  | some h =>
    obtain ⟨l₁, l₂, hrev, -⟩ := List.lookup_eq_some_iff.mp hlook
    have hmem : (p, h) ∈ writes := by
      rw [← List.mem_reverse, hrev]
      exact List.mem_append_right _ List.mem_cons_self
    obtain ⟨l, k, he, h1, h2⟩ := hf.sound _ hmem
    exact ⟨l, k, congrArg Prod.fst he, h1, h2⟩

-- One put: the root hash it returns is the root of the padded tree over all the leaves and the
-- one the new store then reads; the store keeps every frozen node and changes only at the nodes
-- frozen by the new leaves.
theorem put_transaction_accumulator_spec (hst : Stores H store.get old)
    (hpos : 0 < (old ++ more).length) (hmax : (old ++ more).length < 2 ^ 63)
    (hbatch : more.length * 2 + 63 < 2 ^ 64) :
    ∃ store', store.put_transaction_accumulator H old.length more =
        pure (root H.internal_node H.placeholder (old ++ more), store') ∧
      Stores H store'.get (old ++ more) ∧
      (⟨store'.get, (old ++ more).length⟩ : MerkleAccumulatorView α).get_root_hash H =
        pure (root H.internal_node H.placeholder (old ++ more)) ∧
      ∀ p, store' p ≠ store p → ∃ l k, p = ⟨node l k⟩ ∧ old.length < 2 ^ l * (k + 1) ∧
        2 ^ l * (k + 1) ≤ (old ++ more).length := by
  obtain ⟨writes, hf, happ⟩ := append_eq_root hst hmax hbatch
  have hst' := stores_put_many hst hf
  refine ⟨store.put_many writes, ?_, hst', get_root_hash_eq hst' hpos hmax, put_many_frame hf⟩
  rw [Store.put_transaction_accumulator, happ, pure_bind]

theorem put_transaction_accumulator_spec_three :
    ∃ store', Store.put_transaction_accumulator ⟨fun a b => a + 2 * b, 0⟩ (fun _ => none)
        ([] : List ℕ).length [1, 2, 3] =
        pure (root (fun a b => a + 2 * b) 0 ([] ++ [1, 2, 3]), store') ∧
      Stores ⟨fun a b => a + 2 * b, 0⟩ (Store.get store') ([] ++ [1, 2, 3]) ∧
      (⟨Store.get store', ([] ++ [1, 2, 3]).length⟩ : MerkleAccumulatorView ℕ).get_root_hash
          ⟨fun a b => a + 2 * b, 0⟩ = pure (root (fun a b => a + 2 * b) 0 ([] ++ [1, 2, 3])) ∧
      ∀ p, store' p ≠ (fun _ => none : Store ℕ) p → ∃ l k, p = ⟨node l k⟩ ∧
        ([] : List ℕ).length < 2 ^ l * (k + 1) ∧ 2 ^ l * (k + 1) ≤ ([] ++ [1, 2, 3]).length :=
  put_transaction_accumulator_spec stores_empty (by decide) (by decide) (by decide)

end Store

section Run

variable {store : Store α} {old : List α}

-- Over any run, each put returns the root of the padded tree over all the leaves put so far,
-- and the store holds every frozen node of the last one.
theorem put_batches_eq :
    ∀ (batches : List (List α)) (store : Store α) (old : List α), Stores H store.get old →
      (old ++ batches.flatten).length < 2 ^ 63 →
      (∀ batch ∈ batches, batch.length * 2 + 63 < 2 ^ 64) →
      ∃ store', store.put_batches H old.length batches =
          pure ((List.range batches.length).map fun i =>
            root H.internal_node H.placeholder (old ++ (batches.take (i + 1)).flatten), store') ∧
        Stores H store'.get (old ++ batches.flatten)
  | [], store, old, hst, _, _ => ⟨store, rfl, by simpa using hst⟩
  | batch :: batches, store, old, hst, hmax, hbatch => by
    have hmax' : (old ++ batch ++ batches.flatten).length < 2 ^ 63 := by
      simpa [List.append_assoc] using hmax
    have hle : (old ++ batch).length ≤ (old ++ batch ++ batches.flatten).length := by simp
    obtain ⟨store₁, hput, hst₁⟩ := put_transaction_accumulator_eq hst (by omega)
      (hbatch batch List.mem_cons_self)
    obtain ⟨store₂, hrun, hst₂⟩ := put_batches_eq batches store₁ (old ++ batch) hst₁ hmax'
      fun b hb => hbatch b (List.mem_cons_of_mem _ hb)
    refine ⟨store₂, ?_, by simpa [List.append_assoc] using hst₂⟩
    rw [Store.put_batches, hput, pure_bind]
    dsimp only
    rw [← List.length_append, hrun, pure_bind, List.length_cons, List.range_succ_eq_map]
    simp only [List.map_cons, List.map_map, List.take_succ_cons, List.take_zero,
      List.flatten_cons, List.flatten_nil, List.append_nil, List.append_assoc]
    rfl

theorem put_batches_eq_two_batches :
    ∃ store', Store.put_batches ⟨fun a b => a + 2 * b, 0⟩ (fun _ => none) ([] : List ℕ).length
        [[1, 2, 3], [4, 5]] =
        pure ((List.range [[1, 2, 3], [4, 5]].length).map fun i =>
          root (fun a b => a + 2 * b) 0 ([] ++ ([[1, 2, 3], [4, 5]].take (i + 1)).flatten), store') ∧
      Stores ⟨fun a b => a + 2 * b, 0⟩ (Store.get store') ([] ++ [[1, 2, 3], [4, 5]].flatten) :=
  put_batches_eq [[1, 2, 3], [4, 5]] (fun _ => none) [] stores_empty (by decide) (by decide)

end Run

end Zapatos.Storage

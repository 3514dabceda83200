import Zapatos.JellyfishMerkle.NodeType

namespace Zapatos.JellyfishMerkle

open SparseMerkle

inductive ChildInfo (K H : Type) where
  | Internal (hash : Option H) (leaf_count : Option ℕ)
  | Leaf (node : LeafNode K H)
deriving DecidableEq, Repr

-- The expect calls on a hash or leaf count not known yet panic: none.
def ChildInfo.into_child {K H : Type} (c : Hasher HashValue.LENGTH_IN_BITS H) (version : ℕ) :
    ChildInfo K H → Option (Child H)
  | .Internal hash leaf_count => do
    let hash ← hash
    let leaf_count ← leaf_count
    pure ⟨hash, version, .Internal leaf_count⟩
  | .Leaf node => some ⟨node.hash c, version, .Leaf⟩

structure InternalInfo (K H : Type) where
  node_key : NodeKey
  children : Vector (Option (ChildInfo K H)) 16
deriving DecidableEq, Repr

namespace InternalInfo

variable {K H : Type}

def new_empty (node_key : NodeKey) : InternalInfo K H := ⟨node_key, Vector.replicate 16 none⟩

def set_child (info : InternalInfo K H) (index : Nibble) (child_info : ChildInfo K H) :
    InternalInfo K H :=
  { info with children := info.children.set index (some child_info) }

def into_internal_node (c : Hasher HashValue.LENGTH_IN_BITS H) (info : InternalInfo K H)
    (version : ℕ) : Option (NodeKey × InternalNode H) := do
  let children ← (List.finRange 16).filterMapM fun index =>
    match info.children[index] with
    | some child_info => (child_info.into_child c version).map fun child => some (index, child)
    | none => some none
  let node ← InternalNode.new children
  pure (info.node_key, node)

-- The index of the rightmost child present: rposition(is_some), which the callers expect.
def rightmost_child_index (info : InternalInfo K H) : Option Nibble :=
  (List.finRange 16).reverse.find? fun index => info.children[index].isSome

end InternalInfo

-- The restorer and the store it writes to. The store is reached through TreeWriter.
structure JellyfishMerkleRestore (K H S : Type) where
  store : S
  version : ℕ
  partial_nodes : List (InternalInfo K H)
  frozen_nodes : List (NodeKey × Node K H)
  previous_leaf : Option (LeafNode K H)
  num_keys_received : ℕ
  expected_root_hash : H
  finished : Bool
  async_commit : Bool
  async_commit_result : Option (Except String Unit)

-- The errors of add_chunk_impl: an ensure! with its message, the proof check, the store.
inductive AptosDbError (H : Type) where
  | Other (message : String)
  | RangeProof (error : SparseMerkleRangeProofError H)
  | Store (message : String)

structure TreeWriter (K H S : Type) where
  write_node_batch : S → List (NodeKey × Node K H) → Except String S

namespace JellyfishMerkleRestore

variable {K H S : Type} [DecidableEq H] (c : Hasher HashValue.LENGTH_IN_BITS H)

def new_overwrite (store : S) (version : ℕ) (expected_root_hash : H) :
    JellyfishMerkleRestore K H S :=
  ⟨store, version, [InternalInfo.new_empty (NodeKey.new_empty_path version)], [], none, 0,
    expected_root_hash, false, false, none⟩

-- HashMap::insert on frozen_nodes.
def freeze_node (self : JellyfishMerkleRestore K H S) (node_key : NodeKey) (node : Node K H) :
    JellyfishMerkleRestore K H S :=
  { self with frozen_nodes := (node_key, node) :: self.frozen_nodes.filter (·.1 ≠ node_key) }

-- partial_nodes[i].set_child, which panics when there is no i-th partial node.
def set_child_at (self : JellyfishMerkleRestore K H S) (i : ℕ) (index : Nibble)
    (child_info : ChildInfo K H) : Option (JellyfishMerkleRestore K H S) := do
  let node ← self.partial_nodes[i]?
  pure { self with partial_nodes := self.partial_nodes.set i (node.set_child index child_info) }

def push_partial_node (self : JellyfishMerkleRestore K H S) (info : InternalInfo K H) :
    JellyfishMerkleRestore K H S :=
  { self with partial_nodes := self.partial_nodes ++ [info] }

def freeze_previous_leaf (self : JellyfishMerkleRestore K H S) :
    Option (JellyfishMerkleRestore K H S) :=
  if self.num_keys_received = 0 then some self
  else do
    let last_node ← self.partial_nodes.getLast?
    let rightmost_child_index ← last_node.rightmost_child_index
    match last_node.children[rightmost_child_index] with
    | some (.Leaf node) =>
      pure (self.freeze_node
        (last_node.node_key.gen_child_node_key self.version rightmost_child_index) (.Leaf node))
    | _ => none

-- Sets the hash and leaf count of the rightmost child of the last partial node, which must be an
-- internal child with neither known yet.
def update_rightmost_parent (self : JellyfishMerkleRestore K H S) (node_hash : H)
    (node_leaf_count : ℕ) : Option (JellyfishMerkleRestore K H S) :=
  match self.partial_nodes.getLast? with
  | none => some self
  | some parent_node => do
    let rightmost_child_index ← parent_node.rightmost_child_index
    match parent_node.children[rightmost_child_index] with
    | some (.Internal none none) =>
      self.set_child_at (self.partial_nodes.length - 1) rightmost_child_index
        (.Internal (some node_hash) (some node_leaf_count))
    | _ => none

-- The while loop of freeze_internal_nodes; each round pops one partial node.
def freeze_internal_nodes_loop (num_remaining_nodes : ℕ) :
    ℕ → JellyfishMerkleRestore K H S → Option (JellyfishMerkleRestore K H S)
  | 0, self => some self
  | fuel + 1, self =>
    if self.partial_nodes.length > num_remaining_nodes then do
      let last_node ← self.partial_nodes.getLast?
      let self := { self with partial_nodes := self.partial_nodes.dropLast }
      let (node_key, internal_node) ← last_node.into_internal_node c self.version
      let self := self.freeze_node node_key (.Internal internal_node)
      let self ← self.update_rightmost_parent (internal_node.hash c) internal_node.leaf_count
      freeze_internal_nodes_loop num_remaining_nodes fuel self
    else some self

def freeze_internal_nodes (self : JellyfishMerkleRestore K H S) (num_remaining_nodes : ℕ) :
    Option (JellyfishMerkleRestore K H S) :=
  freeze_internal_nodes_loop c num_remaining_nodes self.partial_nodes.length self

def freeze (self : JellyfishMerkleRestore K H S) (num_remaining_partial_nodes : ℕ) :
    Option (JellyfishMerkleRestore K H S) := do
  let self ← self.freeze_previous_leaf
  self.freeze_internal_nodes c num_remaining_partial_nodes

-- insert_at_leaf, entered with the nibbles of the new key consumed up to the existing leaf's
-- level, that is one per partial node.
def insert_at_leaf (self : JellyfishMerkleRestore K H S) (child_index : Nibble)
    (existing_leaf new_leaf : LeafNode K H) : Option (JellyfishMerkleRestore K H S) := do
  let num_existing_partial_nodes := self.partial_nodes.length
  let self ← self.set_child_at (num_existing_partial_nodes - 1) child_index (.Internal none none)
  let new_hashed_key := new_leaf.account_key
  let common_prefix_len := common_prefix_nibbles_len existing_leaf.account_key new_hashed_key
  if common_prefix_len ≥ ROOT_NIBBLE_HEIGHT then none
  let self := (List.range' num_existing_partial_nodes
      (common_prefix_len - num_existing_partial_nodes)).foldl
    (fun self visited => self.push_partial_node
      ((InternalInfo.new_empty ⟨self.version, (nibbles new_hashed_key).take visited⟩).set_child
        (get_nibble new_hashed_key visited) (.Internal none none)))
    self
  let visited := max num_existing_partial_nodes common_prefix_len
  let existing_child_index := get_nibble existing_leaf.account_key common_prefix_len
  let self := self.push_partial_node
    ((InternalInfo.new_empty ⟨self.version, (nibbles new_hashed_key).take visited⟩).set_child
      existing_child_index (.Leaf existing_leaf))
  let self ← self.freeze c self.partial_nodes.length
  let new_child_index := get_nibble new_hashed_key common_prefix_len
  if new_child_index ≤ existing_child_index then none
  self.set_child_at (self.partial_nodes.length - 1) new_child_index (.Leaf new_leaf)

-- The loop of add_one over the nibbles of the new key, from level i down.
def add_one_loop (new_leaf : LeafNode K H) :
    ℕ → ℕ → JellyfishMerkleRestore K H S → Option (JellyfishMerkleRestore K H S)
  | _, 0, self => some self
  | i, fuel + 1, self => do
    let child_index := get_nibble new_leaf.account_key i
    let node ← self.partial_nodes[i]?
    match node.children[child_index] with
    | some (.Leaf existing_leaf) =>
      if i = self.partial_nodes.length - 1 then
        self.insert_at_leaf c child_index existing_leaf new_leaf
      else none
    | some (.Internal _ _) => add_one_loop new_leaf (i + 1) fuel self
    | none => do
      let self ← self.freeze c (i + 1)
      self.set_child_at i child_index (.Leaf new_leaf)

def add_one (self : JellyfishMerkleRestore K H S) (hash_key : K → BitVec HashValue.LENGTH_IN_BITS)
    (new_key : K) (new_value_hash : H) : Option (JellyfishMerkleRestore K H S) :=
  add_one_loop c ⟨hash_key new_key, new_value_hash, (new_key, self.version)⟩ 0 ROOT_NIBBLE_HEIGHT
    self

-- compute_left_sibling_impl over a slice of 2 ^ height slots: its hash and whether it is a leaf.
def compute_left_sibling_impl : ℕ → List (Option (ChildInfo K H)) → Option (H × Bool)
  | 0, [some (.Internal hash _)] => hash.map (·, false)
  | 0, [some (.Leaf node)] => some (node.hash c, true)
  | 0, [none] => some (c.placeholder, true)
  | 0, _ => none
  | height + 1, children => do
    let (left_hash, left_is_leaf) ← compute_left_sibling_impl height (children.take (2 ^ height))
    let (right_hash, right_is_leaf) ←
      compute_left_sibling_impl height (children.drop (2 ^ height))
    if left_hash = c.placeholder ∧ right_is_leaf then pure (right_hash, true)
    else if left_is_leaf ∧ right_hash = c.placeholder then pure (left_hash, true)
    else pure (c.node left_hash right_hash, false)

def compute_left_sibling (partial_node : InternalInfo K H) (n : Nibble) (height : ℕ) :
    Option H := do
  if height ≥ 4 then none
  let width := 2 ^ height
  let start := (get_child_and_sibling_half_start n height).2
  let (hash, _) ← compute_left_sibling_impl c height
    ((partial_node.children.toList.drop start).take width)
  pure hash

-- The left siblings on the path to the key, from the root down, and the number of right ones.
def collect_siblings (self : JellyfishMerkleRestore K H S)
    (previous_key : BitVec HashValue.LENGTH_IN_BITS) : Option (List H × ℕ) :=
  (HashValue.iter_bits previous_key).zipIdx.foldlM
    (fun (left_siblings, num_visited_right_siblings) (bit, i) =>
      if bit then do
        let sibling ← if i ≥ self.partial_nodes.length * 4 then some c.placeholder
          else do
            let partial_node ← self.partial_nodes[i / 4]?
            compute_left_sibling c partial_node (get_nibble previous_key (i / 4)) (3 - i % 4)
        pure (left_siblings ++ [sibling], num_visited_right_siblings)
      else pure (left_siblings, num_visited_right_siblings + 1))
    ([], 0)

-- The bottom-up loop that drops extra placeholder siblings on the left and extra right ones.
def trim_siblings (num_right_siblings : ℕ) :
    List Bool → List H × ℕ → Option (List H × ℕ)
  | [], acc => some acc
  | bit :: bits, (left_siblings, num_visited_right_siblings) =>
    if bit then do
      let last ← left_siblings.getLast?
      if last = c.placeholder then
        trim_siblings num_right_siblings bits (left_siblings.dropLast, num_visited_right_siblings)
      else some (left_siblings, num_visited_right_siblings)
    else if num_visited_right_siblings > num_right_siblings then
      trim_siblings num_right_siblings bits (left_siblings, num_visited_right_siblings - 1)
    else some (left_siblings, num_visited_right_siblings)

def verify (self : JellyfishMerkleRestore K H S) (proof : SparseMerkleRangeProof H) :
    Option (Except (AptosDbError H) Unit) := do
  let previous_leaf ← self.previous_leaf
  let previous_key := previous_leaf.account_key
  let (left_siblings, num_visited_right_siblings) ← self.collect_siblings c previous_key
  if num_visited_right_siblings < proof.right_siblings.length then
    return .error (.Other "Too many right siblings in the proof.")
  let (left_siblings, _) ← trim_siblings c proof.right_siblings.length
    (HashValue.iter_bits previous_key).reverse (left_siblings, num_visited_right_siblings)
  pure ((proof.verify c self.expected_root_hash ⟨previous_key, previous_leaf.value_hash⟩
    left_siblings.reverse).mapError .RangeProof)

-- The loop of add_chunk_impl over the chunk: an error returns with what was added before it.
def add_keys (hash_key : K → BitVec HashValue.LENGTH_IN_BITS) :
    JellyfishMerkleRestore K H S → List (K × H) →
      Option (JellyfishMerkleRestore K H S × Except (AptosDbError H) Unit)
  | self, [] => some (self, .ok ())
  | self, (key, value_hash) :: rest =>
    let hashed_key := hash_key key
    if self.previous_leaf.any (fun prev_leaf => !(prev_leaf.account_key < hashed_key)) then
      some (self, .error (.Other "State keys must come in increasing order."))
    else do
      let self := { self with previous_leaf := some ⟨hashed_key, value_hash, (key, self.version)⟩ }
      let self ← self.add_one c hash_key key value_hash
      add_keys hash_key { self with num_keys_received := self.num_keys_received + 1 } rest

def wait_for_async_commit (self : JellyfishMerkleRestore K H S) :
    JellyfishMerkleRestore K H S × Except (AptosDbError H) Unit :=
  match self.async_commit_result with
  | none => (self, .ok ())
  | some result => ({ self with async_commit_result := none }, result.mapError .Store)

-- The frozen nodes go to the store; an asynchronous write is done at once and its result kept
-- for the next wait_for_async_commit.
def write_frozen_nodes (writer : TreeWriter K H S) (self : JellyfishMerkleRestore K H S) :
    JellyfishMerkleRestore K H S × Except (AptosDbError H) Unit :=
  if self.async_commit then
    match self.wait_for_async_commit with
    | (self, .error e) => (self, .error e)
    | (self, .ok ()) =>
      match writer.write_node_batch self.store self.frozen_nodes with
      | .ok store =>
        ({ self with store, frozen_nodes := [], async_commit_result := some (.ok ()) }, .ok ())
      | .error e =>
        ({ self with frozen_nodes := [], async_commit_result := some (.error e) }, .ok ())
  else
    match writer.write_node_batch self.store self.frozen_nodes with
    | .ok store => ({ self with store, frozen_nodes := [] }, .ok ())
    | .error e => (self, .error (.Store e))

-- add_chunk_impl with the restorer it leaves behind, on an error as well; none is a panic.
def add_chunk_impl (hash_key : K → BitVec HashValue.LENGTH_IN_BITS) (writer : TreeWriter K H S)
    (self : JellyfishMerkleRestore K H S) (chunk : List (K × H)) (proof : SparseMerkleRangeProof H) :
    Option (JellyfishMerkleRestore K H S × Except (AptosDbError H) Unit) :=
  if self.finished then some (self, .ok ())
  else
    let skip_until := self.previous_leaf.map fun prev_leaf =>
      chunk.findIdx? fun (key, _) => prev_leaf.account_key < hash_key key
    match skip_until with
    | some none => some (self, .ok ())
    | _ =>
      let chunk := chunk.drop ((skip_until.getD none).getD 0)
      if chunk.isEmpty then some (self, .ok ())
      else do
        let (self, result) ← add_keys c hash_key self chunk
        match result with
        | .error e => pure (self, .error e)
        | .ok () =>
          match ← self.verify c proof with
          | .error e => pure (self, .error e)
          | .ok () => pure (write_frozen_nodes writer self)

end JellyfishMerkleRestore

end Zapatos.JellyfishMerkle

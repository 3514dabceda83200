import Zapatos.Types.AccumulatorProof
import Zapatos.Types.FrozenSubtrees

namespace Zapatos.Storage

open position accumulator Iterator

variable {α : Type} (H : AccumulatorHasher α)

-- The errors of the module and of its store: one constructor per ensure! and format_err!, with
-- the values the message prints.
inductive MerkleAccumulatorError where
  | DoesNotExist (position : Position)
  | InvalidLeafIndex (leaf_index num_leaves : ℕ)
  | ConsistencyProofTooNew (num_leaves sub_acc_leaves : ℕ)
  | NumLeavesWithoutFirstLeafIndex
  | NoLeavesWithFirstLeafIndex
  | TooManyLeaves
  | InvalidLastLeafIndex (last_leaf_index num_leaves : ℕ)
deriving DecidableEq, Repr

-- A computation of the module: an Err, or a panic as none (an assert, an expect, a u64 overflow).
abbrev Result (β : Type) := ExceptT MerkleAccumulatorError Option β

-- MerkleAccumulatorView: HashReader::get and the number of leaves.
structure MerkleAccumulatorView (α : Type) where
  reader : Position → Except MerkleAccumulatorError α
  num_leaves : ℕ

-- The asserts of max_to_freeze, with usize::MAX = 2^64 - 1.
def max_to_freeze (num_new_leaves root_level : ℕ) : Option ℕ :=
  if root_level ≤ MAX_ACCUMULATOR_PROOF_DEPTH ∧ num_new_leaves < (2 ^ 64 - 1) / 2 ∧
      num_new_leaves * 2 ≤ 2 ^ 64 - 1 - root_level then
    some (num_new_leaves * 2 + root_level)
  else none

-- iter_ancestor_sibling().take(n): each call of next yields the sibling and moves to the parent.
def ancestor_siblings (n : ℕ) (position : Position) : Option (List Position) :=
  match n with
  | 0 => some []
  | n + 1 => do
    let sibling ← position.sibling
    let parent ← position.parent
    let rest ← ancestor_siblings n parent
    pure (sibling :: rest)

namespace MerkleAccumulatorView

variable (self : MerkleAccumulatorView α)

def read (position : Position) : Result α := ExceptT.mk (some (self.reader position))

def rightmost_leaf_index : Option ℕ := sub64 self.num_leaves 1

-- get_hash goes one level down on each call, from a level of at most 64: fuel 64 is never used
-- up.
def get_hash (fuel : ℕ) (position : Position) : Result α := do
  let idx ← self.rightmost_leaf_index
  if ← position.is_placeholder idx then pure H.placeholder
  else if ← position.is_freezable idx then self.read position
  else
    match fuel with
    | 0 => ExceptT.lift none
    | fuel + 1 => do
      let left ← position.left_child
      let left_hash ← get_hash fuel left
      let right ← position.right_child
      let right_hash ← get_hash fuel right
      pure (H.internal_node left_hash right_hash)

def get_hashes (positions : List Position) : Result (List α) := positions.mapM (self.get_hash H 64)

def get_root_hash : Result α := do
  let root ← Position.root_from_leaf_count self.num_leaves
  self.get_hash H 64 root

-- The match on left_siblings.pop() in append: the last new left sibling, which must be the
-- sibling, or else the sibling read from the store; then the parent's hash.
def hash_with_left_sibling (left_siblings : List (Position × α)) (sibling : Position) (hash : α) :
    Result (α × List (Position × α)) :=
  match left_siblings with
  | (x, left_hash) :: left_siblings =>
    if x = sibling then pure (H.internal_node left_hash hash, left_siblings)
    else ExceptT.lift none
  | [] => do
    let left_hash ← self.read sibling
    pure (H.internal_node left_hash hash, [])

-- The while loop of append over one new leaf: while the node is a right child it meets its left
-- sibling and the parent is frozen. Each pass goes one level up and is_right_child panics above
-- level 63, so 64 passes bound the loop.
def append_climb (fuel : ℕ) (pos : Position) (hash : α)
    (to_freeze left_siblings : List (Position × α)) :
    Result (Position × α × List (Position × α) × List (Position × α)) := do
  if ← pos.is_right_child then
    match fuel with
    | 0 => ExceptT.lift none
    | fuel + 1 => do
      let sibling ← pos.sibling
      let (hash, left_siblings) ← self.hash_with_left_sibling H left_siblings sibling hash
      let pos ← pos.parent
      append_climb fuel pos hash (to_freeze ++ [(pos, hash)]) left_siblings
  else pure (pos, hash, to_freeze, left_siblings)

-- The for loop of append over the new leaves from leaf_offset on; left_siblings is a stack with
-- its last node first.
def append_leaves (leaf_offset : ℕ) (new_leaves : List α)
    (to_freeze left_siblings : List (Position × α)) :
    Result (List (Position × α) × List (Position × α)) :=
  match new_leaves with
  | [] => pure (to_freeze, left_siblings)
  | leaf :: new_leaves => do
    let leaf_index ← add64 self.num_leaves leaf_offset
    let leaf_pos ← Position.from_leaf_index leaf_index
    let (pos, hash, to_freeze, left_siblings) ←
      self.append_climb H 64 leaf_pos leaf (to_freeze ++ [(leaf_pos, leaf)]) left_siblings
    append_leaves (leaf_offset + 1) new_leaves to_freeze ((pos, hash) :: left_siblings)

-- The for loop of append from the last node up to the root level: a left child meets a
-- placeholder, a right child its left sibling.
def append_walk (count : ℕ) (pos : Position) (hash : α) (left_siblings : List (Position × α)) :
    Result (α × List (Position × α)) :=
  match count with
  | 0 => pure (hash, left_siblings)
  | count + 1 => do
    let (hash, left_siblings) ←
      if ← pos.is_left_child then pure (H.internal_node hash H.placeholder, left_siblings)
      else do
        let sibling ← pos.sibling
        self.hash_with_left_sibling H left_siblings sibling hash
    let pos ← pos.parent
    append_walk count pos hash left_siblings

def append (new_leaves : List α) : Result (α × List (Position × α)) :=
  match new_leaves with
  | [] =>
    if self.num_leaves = 0 then pure (H.placeholder, [])
    else do
      let root ← Position.root_from_leaf_count self.num_leaves
      let root_hash ← self.get_hash H 64 root
      pure (root_hash, [])
  | _ => do
    let num_new_leaves := new_leaves.length
    let last_new_leaf_count ← add64 self.num_leaves num_new_leaves
    let root_level ← Position.root_level_from_leaf_count last_new_leaf_count
    let _ ← max_to_freeze num_new_leaves root_level
    let (to_freeze, left_siblings) ← self.append_leaves H 0 new_leaves [] []
    match left_siblings with
    | [] => ExceptT.lift none
    | (pos, hash) :: left_siblings => do
      let (hash, left_siblings) ←
        self.append_walk H (root_level - pos.level) pos hash left_siblings
      if left_siblings.isEmpty then pure (hash, to_freeze) else ExceptT.lift none

-- The filter may panic, as Position::is_left_child does on its assert.
def get_sibling_positions (leaf_index : ℕ) (filter : Position → Option Bool) :
    Option (List Position) := do
  let root_pos ← Position.root_from_leaf_count self.num_leaves
  let leaf ← Position.from_leaf_index leaf_index
  let siblings ← ancestor_siblings root_pos.level leaf
  siblings.filterM filter

def get_siblings (leaf_index : ℕ) (filter : Position → Option Bool) : Result (List α) := do
  let positions ← self.get_sibling_positions leaf_index filter
  self.get_hashes H positions

def get_proof (leaf_index : ℕ) : Result (AccumulatorProof α) :=
  if leaf_index < self.num_leaves then do
    let siblings ← self.get_siblings H leaf_index fun _ => pure true
    pure ⟨siblings⟩
  else throw (.InvalidLeafIndex leaf_index self.num_leaves)

def get_range_proof_positions (first_leaf_index : Option ℕ) (num_leaves : ℕ) :
    Result (List Position × List Position) :=
  match first_leaf_index with
  | none => if num_leaves = 0 then pure ([], []) else throw .NumLeavesWithoutFirstLeafIndex
  | some first_leaf_index =>
    if num_leaves > 0 then
      match add64 first_leaf_index (num_leaves - 1) with
      | none => throw .TooManyLeaves
      | some last_leaf_index =>
        if last_leaf_index < self.num_leaves then do
          let left_siblings ←
            self.get_sibling_positions first_leaf_index fun p => p.is_left_child
          let right_siblings ←
            self.get_sibling_positions last_leaf_index fun p => p.is_right_child
          pure (left_siblings, right_siblings)
        else throw (.InvalidLastLeafIndex last_leaf_index self.num_leaves)
    else throw .NoLeavesWithFirstLeafIndex

def get_range_proof (first_leaf_index : Option ℕ) (num_leaves : ℕ) :
    Result (AccumulatorRangeProof α) := do
  let (left_siblings, right_siblings) ← self.get_range_proof_positions first_leaf_index num_leaves
  let left_hashes ← self.get_hashes H left_siblings
  let right_hashes ← self.get_hashes H right_siblings
  pure ⟨left_hashes, right_hashes⟩

-- The sibling iterator yields at most one subtree per new leaf.
def get_consistency_proof (sub_acc_leaves : ℕ) : Result (AccumulatorConsistencyProof α) :=
  if sub_acc_leaves ≤ self.num_leaves then do
    let it ← FrozenSubtreeSiblingIterator.new sub_acc_leaves self.num_leaves
    let subtrees ← collect_map FrozenSubtreeSiblingIterator.next self.read
      (self.num_leaves - sub_acc_leaves + 1) it
    pure ⟨subtrees⟩
  else throw (.ConsistencyProofTooNew self.num_leaves sub_acc_leaves)

-- The frozen subtree iterator yields one subtree per set bit of the u64 count.
def get_frozen_subtree_hashes : Result (List α) :=
  collect_map FrozenSubTreeIterator.next self.read 65 (FrozenSubTreeIterator.new self.num_leaves)

end MerkleAccumulatorView

-- TransactionAccumulatorDb: the nodes written so far, by position.
abbrev Store (α : Type) := Position → Option α

namespace Store

def get (store : Store α) (position : Position) : Except MerkleAccumulatorError α :=
  match store position with
  | some hash => .ok hash
  | none => .error (.DoesNotExist position)

-- A batch of writes; the last write of a position wins.
def put_many (store : Store α) (writes : List (Position × α)) : Store α := fun position =>
  match writes.reverse.lookup position with
  | some hash => some hash
  | none => store position

-- put_transaction_accumulator: the new leaves appended after first_version leaves and the frozen
-- nodes written.
def put_transaction_accumulator (store : Store α) (first_version : ℕ) (txn_hashes : List α) :
    Result (α × Store α) := do
  let (root_hash, writes) ← (⟨store.get, first_version⟩ : MerkleAccumulatorView α).append H txn_hashes
  pure (root_hash, store.put_many writes)

end Store

end Zapatos.Storage

import Zapatos.Types.Accumulator
import Zapatos.Types.Ledger

namespace Zapatos.accumulator

open position

variable {α : Type} (H : AccumulatorHasher α)

-- AccumulatorProof: the siblings of a leaf, from the bottom level to the root level.
structure AccumulatorProof (α : Type) where
  siblings : List α
deriving DecidableEq, Repr

-- One constructor per ensure! of AccumulatorProof::verify, with the values its message prints.
inductive AccumulatorProofError (α : Type) where
  | TooManySiblings (max_depth num_siblings : ℕ)
  | RootHashMismatch (actual_root_hash expected_root_hash : α)
deriving DecidableEq, Repr

namespace AccumulatorProof

-- The closure of the fold in verify: index is the index of the ancestor of the element at the
-- current level, a left child when it is even.
def verify_step (s : α × ℕ) (sibling_hash : α) : α × ℕ :=
  (if s.2 % 2 = 0 then H.internal_node s.1 sibling_hash else H.internal_node sibling_hash s.1,
    s.2 / 2)

def verify [DecidableEq α] (self : AccumulatorProof α) (expected_root_hash element_hash : α)
    (element_index : ℕ) : Except (AccumulatorProofError α) Unit :=
  if self.siblings.length ≤ MAX_ACCUMULATOR_PROOF_DEPTH then
    let actual_root_hash := (self.siblings.foldl (verify_step H) (element_hash, element_index)).1
    if actual_root_hash = expected_root_hash then .ok ()
    else .error (.RootHashMismatch actual_root_hash expected_root_hash)
  else .error (.TooManySiblings MAX_ACCUMULATOR_PROOF_DEPTH self.siblings.length)

end AccumulatorProof

structure AccumulatorConsistencyProof (α : Type) where
  subtrees : List α
deriving DecidableEq, Repr

-- TransactionAccumulatorSummary(pub InMemoryTransactionAccumulator).
structure TransactionAccumulatorSummary (α : Type) where
  inner : InMemoryAccumulator α
deriving DecidableEq, Repr

-- The errors of TransactionAccumulatorSummary: one constructor per ensure!, with the values its
-- message prints, an error of the accumulator passed on by ?, and the context that
-- try_extend_with_proof puts on a failed verify_consistency.
inductive SummaryError (α : Type) where
  | EmptyAccumulator
  | VersionMismatch (ledger_info_version accumulator_version : ℕ)
  | RootHashMismatch (ledger_info_root_hash accumulator_root_hash : α)
  | TargetVersionOlder (target_version accumulator_version : ℕ)
  | Accumulator (error : AccumulatorError)
  | NotConsistent (error : SummaryError α)
deriving Repr

namespace TransactionAccumulatorSummary

def new (accumulator : InMemoryAccumulator α) :
    Except (SummaryError α) (TransactionAccumulatorSummary α) :=
  if !accumulator.is_empty then .ok ⟨accumulator⟩ else .error .EmptyAccumulator

def version (self : TransactionAccumulatorSummary α) : ℕ := self.inner.version

def root_hash (self : TransactionAccumulatorSummary α) : α := self.inner.root_hash

def verify_consistency [DecidableEq α] (self : TransactionAccumulatorSummary α)
    (ledger_info : LedgerInfo α) : Except (SummaryError α) Unit :=
  if ledger_info.version = self.version then
    if ledger_info.transaction_accumulator_hash = self.root_hash then .ok ()
    else .error (.RootHashMismatch ledger_info.transaction_accumulator_hash self.root_hash)
  else .error (.VersionMismatch ledger_info.version self.version)

-- target_version.saturating_add(1) stops at u64::MAX.
def try_from_genesis_proof (genesis_proof : AccumulatorConsistencyProof α) (target_version : ℕ) :
    Option (Except (SummaryError α) (TransactionAccumulatorSummary α)) :=
  let num_txns := min (target_version + 1) (2 ^ 64 - 1)
  (InMemoryAccumulator.new H genesis_proof.subtrees num_txns).map fun r =>
    match r with
    | .ok accumulator => .ok ⟨accumulator⟩
    | .error e => .error (.Accumulator e)

def try_extend_with_proof [DecidableEq α] (self : TransactionAccumulatorSummary α)
    (consistency_proof : AccumulatorConsistencyProof α) (target_li : LedgerInfo α) :
    Option (Except (SummaryError α) (TransactionAccumulatorSummary α)) :=
  if target_li.version ≥ self.inner.version then
    let num_new_txns := target_li.version - self.inner.version
    (self.inner.append_subtrees H consistency_proof.subtrees num_new_txns).map fun r =>
      match r with
      | .error e => .error (.Accumulator e)
      | .ok accumulator =>
        let new_accumulator : TransactionAccumulatorSummary α := ⟨accumulator⟩
        match new_accumulator.verify_consistency target_li with
        | .ok () => .ok new_accumulator
        | .error e => .error (.NotConsistent e)
  else some (.error (.TargetVersionOlder target_li.version self.inner.version))

end TransactionAccumulatorSummary

-- AccumulatorRangeProof: the siblings on the left of the path from the first leaf and on the
-- right of the path from the last leaf, each from the bottom level to the root level.
structure AccumulatorRangeProof (α : Type) where
  left_siblings : List α
  right_siblings : List α
deriving DecidableEq, Repr

-- One constructor per ensure! and format_err! of AccumulatorRangeProof::verify, with the values
-- its message prints.
inductive AccumulatorRangeProofError (α : Type) where
  | LeavesWithoutFirstLeafIndex
  | SiblingsNotNeeded
  | TooManyLeftSiblings (max_depth num_siblings : ℕ)
  | TooManyRightSiblings (max_depth num_siblings : ℕ)
  | NoLeavesWithFirstLeafIndex
  | MissingLeftSibling
  | MissingRightSibling
  | RootHashMismatch (actual_root_hash expected_root_hash : α)
deriving DecidableEq, Repr

-- slice::chunks_exact(2): the pairs of consecutive elements, and the remainder of at most one.
def chunks_exact_two : List α → List (α × α) × List α
  | a :: b :: rest =>
    let (chunks, remainder) := chunks_exact_two rest
    ((a, b) :: chunks, remainder)
  | remainder => ([], remainder)

namespace AccumulatorRangeProof

-- One pass of the while loop of verify: the parents of current_hashes one level up, with a left
-- sibling when the first of them is a right child and a right sibling when the last is a left
-- child. The sibling lists are the iterators, next sibling first.
def verify_pass (first_pos : Position) (current_hashes left_siblings right_siblings : List α) :
    ExceptT (AccumulatorRangeProofError α) Option (List α × List α × List α) := do
  let (parent_hashes, children, left_siblings) ←
    if ← first_pos.is_right_child then
      match left_siblings with
      | [] => throw .MissingLeftSibling
      | left_hash :: left_siblings =>
        -- expect("The first leaf must exist.")
        match current_hashes with
        | [] => ExceptT.lift none
        | right_hash :: children =>
          pure ([H.internal_node left_hash right_hash], children, left_siblings)
    else pure ([], current_hashes, left_siblings)
  let (chunks, remainder) := chunks_exact_two children
  let parent_hashes := parent_hashes ++ chunks.map fun chunk => H.internal_node chunk.1 chunk.2
  match remainder with
  | [] => pure (parent_hashes, left_siblings, right_siblings)
  | left_hash :: _ =>
    match right_siblings with
    | [] => throw .MissingRightSibling
    | right_hash :: right_siblings =>
      pure (parent_hashes ++ [H.internal_node left_hash right_hash], left_siblings, right_siblings)

-- The while loop of verify. first_pos climbs one level a pass from a leaf and its asserts fail
-- at level 64, so 64 passes bound the loop.
def verify_loop (fuel : ℕ) (first_pos : Position)
    (current_hashes left_siblings right_siblings : List α) :
    ExceptT (AccumulatorRangeProofError α) Option (List α) :=
  if current_hashes.length > 1 || !left_siblings.isEmpty || !right_siblings.isEmpty then
    match fuel with
    | 0 => ExceptT.lift none
    | fuel + 1 => do
      let (parent_hashes, left_siblings, right_siblings) ←
        verify_pass H first_pos current_hashes left_siblings right_siblings
      let first_pos ← first_pos.parent
      verify_loop fuel first_pos parent_hashes left_siblings right_siblings
  else pure current_hashes

def verify [DecidableEq α] (self : AccumulatorRangeProof α) (expected_root_hash : α)
    (first_leaf_index : Option ℕ) (leaf_hashes : List α) :
    ExceptT (AccumulatorRangeProofError α) Option Unit :=
  match first_leaf_index with
  | none =>
    if leaf_hashes.isEmpty then
      if self.left_siblings.isEmpty && self.right_siblings.isEmpty then pure ()
      else throw .SiblingsNotNeeded
    else throw .LeavesWithoutFirstLeafIndex
  | some first_leaf_index =>
    if self.left_siblings.length ≤ MAX_ACCUMULATOR_PROOF_DEPTH then
      if self.right_siblings.length ≤ MAX_ACCUMULATOR_PROOF_DEPTH then
        if !leaf_hashes.isEmpty then do
          let first_pos ← Position.from_leaf_index first_leaf_index
          let current_hashes ←
            verify_loop H 64 first_pos leaf_hashes self.left_siblings self.right_siblings
          -- current_hashes[0]
          match current_hashes with
          | [] => ExceptT.lift none
          | actual_root_hash :: _ =>
            if actual_root_hash = expected_root_hash then pure ()
            else throw (.RootHashMismatch actual_root_hash expected_root_hash)
        else throw .NoLeavesWithFirstLeafIndex
      else throw (.TooManyRightSiblings MAX_ACCUMULATOR_PROOF_DEPTH self.right_siblings.length)
    else throw (.TooManyLeftSiblings MAX_ACCUMULATOR_PROOF_DEPTH self.left_siblings.length)

end AccumulatorRangeProof

-- AccumulatorExtensionProof: an accumulator as its frozen subtree roots and leaf count, and the
-- leaves appended to it.
structure AccumulatorExtensionProof (α : Type) where
  frozen_subtree_roots : List α
  num_leaves : ℕ
  leaves : List α
deriving DecidableEq, Repr

-- The errors of AccumulatorExtensionProof::verify: one of InMemoryAccumulator::new passed on by
-- ?, and its ensure!.
inductive ExtensionProofError (α : Type) where
  | Accumulator (error : AccumulatorError)
  | RootHashMismatch (actual_root_hash expected_root_hash : α)
deriving DecidableEq, Repr

namespace AccumulatorExtensionProof

def verify [DecidableEq α] (self : AccumulatorExtensionProof α) (original_root : α) :
    Option (Except (ExtensionProofError α) (InMemoryAccumulator α)) :=
  (InMemoryAccumulator.new H self.frozen_subtree_roots self.num_leaves).bind fun r =>
    match r with
    | .error e => some (.error (.Accumulator e))
    | .ok original_tree =>
      if original_tree.root_hash = original_root then
        (original_tree.append H self.leaves).map .ok
      else some (.error (.RootHashMismatch original_tree.root_hash original_root))

end AccumulatorExtensionProof

end Zapatos.accumulator

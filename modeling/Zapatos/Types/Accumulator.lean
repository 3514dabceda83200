import Zapatos.Lib.MerkleTree
import Zapatos.Types.Position

namespace Zapatos.accumulator

open Bits MerkleTree position

-- MerkleTreeInternalNode::<H>::new(left, right).hash() and ACCUMULATOR_PLACEHOLDER_HASH.
structure AccumulatorHasher (α : Type) where
  internal_node : α → α → α
  placeholder : α

structure InMemoryAccumulator (α : Type) where
  frozen_subtree_roots : List α
  num_leaves : ℕ
  root_hash : α
deriving DecidableEq, Repr

-- One constructor per ensure! and format_err! of the module, with the values its message prints.
inductive AccumulatorError where
  | FrozenSubtreeCountMismatch (frozen_subtree_roots_len num_leaves : ℕ)
  | TooManyNewLeaves (num_leaves num_new_leaves : ℕ)
  | TooFewSubtrees
deriving DecidableEq, Repr

variable {α : Type} (H : AccumulatorHasher α)

namespace InMemoryAccumulator

-- A result of none is a panic: an expect on a None or an Err, an overflow of a u64 + or a shift
-- by 64 or more. Vectors used as stacks are kept last element first.

-- The loop of compute_root_hash over the bits of num_leaves above its trailing zeros; the
-- frozen roots are taken from the right.
def compute_root_hash_loop (bitmap : ℕ) (current_hash : α) (frozen_subtree_iter : List α) :
    Option α :=
  if bitmap > 0 then
    if bitmap &&& 1 ≠ 0 then
      match frozen_subtree_iter with
      | [] => none
      | frozen :: rest =>
        compute_root_hash_loop (bitmap >>> 1) (H.internal_node frozen current_hash) rest
    else
      compute_root_hash_loop (bitmap >>> 1) (H.internal_node current_hash H.placeholder)
        frozen_subtree_iter
  else some current_hash
termination_by bitmap
decreasing_by
  all_goals
    rw [Nat.shiftRight_one]
    omega

def compute_root_hash (frozen_subtree_roots : List α) (num_leaves : ℕ) : Option α :=
  match frozen_subtree_roots with
  | [] => some H.placeholder
  | [root] => some root
  | _ =>
    let trailing := trailing_zeros 64 num_leaves
    if trailing < 64 then
      compute_root_hash_loop H (num_leaves >>> trailing) H.placeholder frozen_subtree_roots.reverse
    else none

def new (frozen_subtree_roots : List α) (num_leaves : ℕ) :
    Option (Except AccumulatorError (InMemoryAccumulator α)) :=
  if frozen_subtree_roots.length = count_ones 64 num_leaves then
    (compute_root_hash H frozen_subtree_roots num_leaves).map fun root_hash =>
      .ok ⟨frozen_subtree_roots, num_leaves, root_hash⟩
  else some (.error (.FrozenSubtreeCountMismatch frozen_subtree_roots.length num_leaves))

def new_empty_with_root_hash (root_hash : α) : InMemoryAccumulator α := ⟨[], 0, root_hash⟩

def new_empty : InMemoryAccumulator α := new_empty_with_root_hash H.placeholder

def default : Option (InMemoryAccumulator α) := (new H [] 0).bind Except.toOption

-- The carries of append_one, the last frozen root first: each merges the two rightmost subtrees.
def append_one_loop : ℕ → List α → Option (List α)
  | 0, frozen_subtree_roots => some frozen_subtree_roots
  | n + 1, right_hash :: left_hash :: rest =>
    append_one_loop n (H.internal_node left_hash right_hash :: rest)
  | _ + 1, _ => none

def append_one (frozen_subtree_roots : List α) (num_existing_leaves : ℕ) (leaf : α) :
    Option (List α) :=
  let num_trailing_ones := trailing_zeros 64 (not64 num_existing_leaves)
  (append_one_loop H num_trailing_ones (leaf :: frozen_subtree_roots.reverse)).map List.reverse

def append_loop : List α → ℕ → List α → Option (List α × ℕ)
  | frozen_subtree_roots, num_leaves, [] => some (frozen_subtree_roots, num_leaves)
  | frozen_subtree_roots, num_leaves, leaf :: leaves => do
    let frozen_subtree_roots ← append_one H frozen_subtree_roots num_leaves leaf
    let num_leaves ← add64 num_leaves 1
    append_loop frozen_subtree_roots num_leaves leaves

def append (self : InMemoryAccumulator α) (leaves : List α) : Option (InMemoryAccumulator α) := do
  let (frozen_subtree_roots, num_leaves) ←
    append_loop H self.frozen_subtree_roots self.num_leaves leaves
  (new H frozen_subtree_roots num_leaves).bind Except.toOption

def from_leaves (leaves : List α) : Option (InMemoryAccumulator α) :=
  (default H).bind fun acc => acc.append H leaves

-- The inner loop of append_subtrees: while current_num_leaves has the bit mask, the last frozen
-- root is the left sibling of the subtree built so far.
def append_subtrees_carry (current_num_leaves mask : ℕ) (current_hash : α)
    (current_subtree_roots : List α) : Option (ℕ × α × List α) :=
  if current_num_leaves &&& mask ≠ 0 then
    match current_subtree_roots with
    | [] => none
    | left_hash :: rest =>
      append_subtrees_carry current_num_leaves ((mask <<< 1) % 2 ^ 64)
        (H.internal_node left_hash current_hash) rest
  else some (mask, current_hash, current_subtree_roots)

-- The outer loop of append_subtrees; each round takes one subtree.
def append_subtrees_loop (current_subtree_roots : List α)
    (current_num_leaves remaining_new_leaves : ℕ) (subtree_iter : List α)
    (rightmost_frozen_subtree_size : ℕ) :
    Option (Except AccumulatorError (List α × ℕ × ℕ × List α)) :=
  if remaining_new_leaves ≥ rightmost_frozen_subtree_size then
    match subtree_iter with
    | [] => some (.error .TooFewSubtrees)
    | current_hash :: subtree_iter => do
      let (mask, current_hash, current_subtree_roots) ←
        append_subtrees_carry H current_num_leaves rightmost_frozen_subtree_size current_hash
          current_subtree_roots
      let current_num_leaves ← add64 current_num_leaves rightmost_frozen_subtree_size
      append_subtrees_loop (current_hash :: current_subtree_roots) current_num_leaves
        (remaining_new_leaves - rightmost_frozen_subtree_size) subtree_iter mask
  else some (.ok (current_subtree_roots, current_num_leaves, remaining_new_leaves, subtree_iter))

def append_subtrees (self : InMemoryAccumulator α) (subtrees : List α) (num_new_leaves : ℕ) :
    Option (Except AccumulatorError (InMemoryAccumulator α)) := do
  let room ← sub64 MAX_ACCUMULATOR_LEAVES self.num_leaves
  if num_new_leaves ≤ room then
    if self.num_leaves = 0 then new H subtrees num_new_leaves
    else
      let trailing := trailing_zeros 64 self.num_leaves
      if trailing < 64 then
        match ← append_subtrees_loop H self.frozen_subtree_roots.reverse self.num_leaves
            num_new_leaves subtrees (1 <<< trailing) with
        | .error e => some (.error e)
        | .ok (current_subtree_roots, current_num_leaves, remaining_new_leaves, subtree_iter) => do
          let current_num_leaves ← add64 current_num_leaves remaining_new_leaves
          new H (current_subtree_roots.reverse ++ subtree_iter) current_num_leaves
      else none
  else some (.error (.TooManyNewLeaves self.num_leaves num_new_leaves))

def version (self : InMemoryAccumulator α) : ℕ :=
  if self.num_leaves = 0 then 0 else self.num_leaves - 1

def is_empty (self : InMemoryAccumulator α) : Bool := self.num_leaves == 0

end InMemoryAccumulator

end Zapatos.accumulator

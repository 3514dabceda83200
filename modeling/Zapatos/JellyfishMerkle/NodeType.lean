import Zapatos.Types.SparseMerkleProof

namespace Zapatos.JellyfishMerkle

open SparseMerkle

abbrev Nibble := Fin 16

def ROOT_NIBBLE_HEIGHT : ℕ := HashValue.LENGTH_IN_BITS / 4

-- NibbleExt::get_nibble: the high half of byte index / 2 for an even index, else its low half.
def get_nibble (k : BitVec HashValue.LENGTH_IN_BITS) (index : ℕ) : Nibble :=
  ⟨(k.toNat >>> (HashValue.LENGTH_IN_BITS - 4 * (index + 1))) % 16, Nat.mod_lt _ (by decide)⟩

def common_prefix_nibbles_len (a b : BitVec HashValue.LENGTH_IN_BITS) : ℕ :=
  HashValue.common_prefix_bits_len a b / 4

-- NibblePath::new_even of the 32 bytes of a hashed key.
def nibbles (k : BitVec HashValue.LENGTH_IN_BITS) : List Nibble :=
  (List.range ROOT_NIBBLE_HEIGHT).map (get_nibble k)

structure NodeKey where
  version : ℕ
  nibble_path : List Nibble
deriving DecidableEq, Repr

namespace NodeKey

def new_empty_path (version : ℕ) : NodeKey := ⟨version, []⟩

def gen_child_node_key (key : NodeKey) (version : ℕ) (n : Nibble) : NodeKey :=
  ⟨version, key.nibble_path ++ [n]⟩

end NodeKey

structure LeafNode (K H : Type) where
  account_key : BitVec HashValue.LENGTH_IN_BITS
  value_hash : H
  value_index : K × ℕ
deriving DecidableEq, Repr

def LeafNode.hash {K H : Type} (c : Hasher HashValue.LENGTH_IN_BITS H) (leaf : LeafNode K H) : H :=
  SparseMerkleLeafNode.hash c ⟨leaf.account_key, leaf.value_hash⟩

inductive NodeType where
  | Leaf
  | Internal (leaf_count : ℕ)
  | Null
deriving DecidableEq, Repr

structure Child (H : Type) where
  hash : H
  version : ℕ
  node_type : NodeType
deriving DecidableEq, Repr

namespace Child

variable {H : Type}

def is_leaf (child : Child H) : Bool := child.node_type matches .Leaf

-- The Null case is unreachable!: no child of an internal node is Null.
def leaf_count (child : Child H) : ℕ :=
  match child.node_type with
  | .Leaf => 1
  | .Internal leaf_count => leaf_count
  | .Null => 0

end Child

structure InternalNode (H : Type) where
  children : List (Nibble × Child H)
  leaf_count : ℕ
deriving DecidableEq, Repr

namespace InternalNode

variable {H : Type} [DecidableEq H] (c : Hasher HashValue.LENGTH_IN_BITS H)

-- InternalNode::new expects at least one child; without one it panics.
def new (children : List (Nibble × Child H)) : Option (InternalNode H) :=
  if children.isEmpty then none else some ⟨children, (children.map (·.2.leaf_count)).sum⟩

-- The children that the existence bitmap of range_bitmaps start width keeps.
def children_in (node : InternalNode H) (start width : ℕ) : List (Nibble × Child H) :=
  node.children.filter fun p => start ≤ p.1.val ∧ p.1.val < start + width

-- merkle_hash over the 2 ^ height children from start: a range with no child is the placeholder,
-- a range whose only child is a leaf (or a single slot) is that child, else the two halves join.
def merkle_hash (node : InternalNode H) (start : ℕ) : ℕ → H
  | 0 =>
    match node.children_in start 1 with
    | [] => c.placeholder
    | (_, child) :: _ => child.hash
  | height + 1 =>
    match node.children_in start (2 ^ (height + 1)) with
    | [] => c.placeholder
    | [(_, child)] =>
      if child.is_leaf then child.hash
      else c.node (merkle_hash node start height) (merkle_hash node (start + 2 ^ height) height)
    | _ => c.node (merkle_hash node start height) (merkle_hash node (start + 2 ^ height) height)

def hash (node : InternalNode H) : H := merkle_hash c node 0 4

end InternalNode

inductive Node (K H : Type) where
  | Internal (node : InternalNode H)
  | Leaf (node : LeafNode K H)
  | Null
deriving DecidableEq, Repr

-- The halves of a 16-slot node at a height: the one holding nibble n and its sibling.
def get_child_and_sibling_half_start (n : Nibble) (height : ℕ) : ℕ × ℕ :=
  let child_half_start := ((0xFF <<< height) % 256) &&& n.val
  let sibling_half_start := child_half_start ^^^ (1 <<< height)
  (child_half_start, sibling_half_start)

end Zapatos.JellyfishMerkle

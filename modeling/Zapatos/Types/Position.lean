import Zapatos.Lib.InOrder

namespace Zapatos.position

open Bits InOrder

def MAX_ACCUMULATOR_PROOF_DEPTH : ℕ := 63

def MAX_ACCUMULATOR_LEAVES : ℕ := 1 <<< MAX_ACCUMULATOR_PROOF_DEPTH

-- The u64 operations of the module with overflow checks on, as release builds have them: + and -
-- panic (none) on overflow, ! complements the 64 bits.
def not64 (v : ℕ) : ℕ := v ^^^ (2 ^ 64 - 1)

def add64 (a b : ℕ) : Option ℕ := if a + b < 2 ^ 64 then some (a + b) else none

def sub64 (a b : ℕ) : Option ℕ := if b ≤ a then some (a - b) else none

-- Position(u64): a node of the accumulator's binary tree, by its in-order index.
structure Position where
  index : ℕ
deriving DecidableEq, Repr

inductive NodeDirection where
  | Left
  | Right
deriving DecidableEq, Repr

def smear_ones_for_u64 (v : ℕ) : ℕ :=
  let n := v
  let n := n ||| n >>> 1
  let n := n ||| n >>> 2
  let n := n ||| n >>> 4
  let n := n ||| n >>> 8
  let n := n ||| n >>> 16
  let n := n ||| n >>> 32
  n

-- A shift by 64 or more panics under overflow checks.
def turn_off_right_most_n_bits (v n : ℕ) : Option ℕ :=
  if n < 64 then some (((v >>> n) <<< n) % 2 ^ 64) else none

def isolate_rightmost_zero_bit (v : ℕ) : ℕ := not64 v &&& ((v + 1) % 2 ^ 64)

namespace Position

def level (self : Position) : ℕ := trailing_zeros 64 (not64 self.index)

def is_leaf (self : Position) : Bool := self.index &&& 1 == 0

def from_level_and_pos (level pos : ℕ) : Option Position :=
  if level < 64 then
    if 1 <<< level > 0 then
      let level_one_bits := (1 <<< level) - 1
      let shifted_pos := if level = 63 then 0 else (pos <<< (level + 1)) % 2 ^ 64
      some ⟨shifted_pos ||| level_one_bits⟩
    else none
  else none

def from_inorder_index (index : ℕ) : Position := ⟨index⟩

def to_inorder_index (self : Position) : ℕ := self.index

def from_leaf_index (leaf_index : ℕ) : Option Position := from_level_and_pos 0 leaf_index

-- The asserts of the invariant Position.0 < u64::MAX - 1 are the guards below.
def parent (self : Position) : Option Position :=
  if self.index < 2 ^ 64 - 2 then
    some ⟨(self.index ||| isolate_rightmost_zero_bit self.index) &&&
      not64 ((isolate_rightmost_zero_bit self.index <<< 1) % 2 ^ 64)⟩
  else none

def child (self : Position) (dir : NodeDirection) : Option Position :=
  if self.is_leaf then none
  else if self.index < 2 ^ 64 - 2 then
    let direction_bit := match dir with
      | .Left => 0
      | .Right => isolate_rightmost_zero_bit self.index
    some ⟨(self.index ||| direction_bit) &&& not64 (isolate_rightmost_zero_bit self.index >>> 1)⟩
  else none

def left_child (self : Position) : Option Position :=
  if self.is_leaf then none else self.child .Left

def right_child (self : Position) : Option Position :=
  if self.is_leaf then none else self.child .Right

def is_left_child (self : Position) : Option Bool :=
  if self.index < 2 ^ 64 - 2 then
    some (self.index &&& ((isolate_rightmost_zero_bit self.index <<< 1) % 2 ^ 64) == 0)
  else none

def is_right_child (self : Position) : Option Bool := self.is_left_child.map (!·)

def sibling (self : Position) : Option Position :=
  if self.index < 2 ^ 64 - 2 then
    some ⟨self.index ^^^ ((isolate_rightmost_zero_bit self.index <<< 1) % 2 ^ 64)⟩
  else none

def root_from_leaf_index (leaf_index : ℕ) : Option Position :=
  (from_leaf_index leaf_index).map fun leaf => ⟨smear_ones_for_u64 leaf.index >>> 1⟩

def root_from_leaf_count (leaf_count : ℕ) : Option Position :=
  if leaf_count > 0 then root_from_leaf_index (leaf_count - 1) else none

def root_level_from_leaf_count (leaf_count : ℕ) : Option ℕ :=
  if leaf_count > 0 then
    some (MAX_ACCUMULATOR_PROOF_DEPTH + 1 - leading_zeros 64 (leaf_count - 1))
  else none

-- 1 << level panics for the level 64 of u64::MAX.
def right_most_child (self : Position) : Option Position :=
  if self.level < 64 then
    (add64 self.index (1 <<< self.level)).bind fun n => (sub64 n 1).map Position.mk
  else none

def left_most_child (self : Position) : Option Position :=
  (turn_off_right_most_n_bits self.index self.level).map Position.mk

def is_freezable (self : Position) (leaf_index : ℕ) : Option Bool := do
  let leaf ← from_leaf_index leaf_index
  let right_most_child ← self.right_most_child
  pure (right_most_child.index ≤ leaf.index)

def is_placeholder (self : Position) (leaf_index : ℕ) : Option Bool := do
  let leaf ← from_leaf_index leaf_index
  if self.index ≤ leaf.index then pure false
  else
    let left_most_child ← self.left_most_child
    if left_most_child.index ≤ leaf.index then pure false else pure true

end Position

def children_of_node (node : ℕ) : Option ℕ :=
  sub64 ((isolate_rightmost_zero_bit node <<< 1) % 2 ^ 64) 2

def nodes_to_left_of (node : ℕ) : Option ℕ := do
  let ones_up_to_level ← sub64 (isolate_rightmost_zero_bit node) 1
  let unset_level_zeros := node ^^^ ones_up_to_level
  sub64 unset_level_zeros (count_ones 64 unset_level_zeros)

def inorder_to_postorder (node : ℕ) : Option ℕ := do
  let children ← children_of_node node
  let left_nodes ← nodes_to_left_of node
  add64 children left_nodes

-- One pass of the loop of postorder_to_inorder over i; the state is
-- (node, bitmap, full_binary_size).
def postorder_to_inorder_step (s : ℕ × ℕ × ℕ) (i : ℕ) : ℕ × ℕ × ℕ :=
  if s.1 ≥ s.2.2 then (s.1 - s.2.2, s.2.1 ||| 1 <<< i, s.2.2 >>> 1)
  else (s.1, s.2.1, s.2.2 >>> 1)

-- node as u32 truncates; a shift of bitmap by 64 or more would panic, as from_level_and_pos then
-- does for such a level.
def postorder_to_inorder (node : ℕ) : Option ℕ :=
  let s := (List.range 64).reverse.foldl postorder_to_inorder_step (node, 0, not64 0)
  let level := s.1 % 2 ^ 32
  let pos := s.2.1 >>> level
  (Position.from_level_and_pos level pos).map Position.to_inorder_index

inductive PositionError where
  | InvalidPostorderIndex (index : ℕ)
deriving DecidableEq, Repr

namespace Position

def from_postorder_index (index : ℕ) : Option (Except PositionError Position) :=
  if index < not64 0 then (postorder_to_inorder index).map fun p => .ok ⟨p⟩
  else some (.error (.InvalidPostorderIndex index))

def to_postorder_index (self : Position) : Option ℕ := inorder_to_postorder self.to_inorder_index

end Position

section U64

theorem and_not64 {x : ℕ} (hx : x < 2 ^ 64) (y : ℕ) : x &&& not64 y = Nat.ldiff x y := by
  apply Nat.eq_of_testBit_eq
  intro j
  rw [Nat.testBit_and, not64, Nat.testBit_xor, Nat.testBit_two_pow_sub_one, Nat.testBit_ldiff]
  by_cases hj : j < 64
  · simp [hj]
  · have hxj : x.testBit j = false :=
      Nat.testBit_eq_false_of_lt (hx.trans_le (Nat.pow_le_pow_right (by norm_num) (by omega)))
    simp [hxj]

theorem testBit_not64 {v j : ℕ} (hj : j < 64) : (not64 v).testBit j = !v.testBit j := by
  rw [not64, Nat.testBit_xor, Nat.testBit_two_pow_sub_one]
  simp [hj]

@[simp] theorem add64_of_lt {a b : ℕ} (h : a + b < 2 ^ 64) : add64 a b = some (a + b) := if_pos h

@[simp] theorem sub64_of_le {a b : ℕ} (h : b ≤ a) : sub64 a b = some (a - b) := if_pos h

theorem MAX_ACCUMULATOR_LEAVES_eq : MAX_ACCUMULATOR_LEAVES = 2 ^ 63 := by
  simp [MAX_ACCUMULATOR_LEAVES, MAX_ACCUMULATOR_PROOF_DEPTH, Nat.one_shiftLeft]

end U64

section Node

variable {l k : ℕ}

-- The bit tricks on a node of the tree of height 63, whose in-order indices are those below
-- u64::MAX.
theorem isolate_rightmost_zero_bit_node (h : node l k < 2 ^ 64 - 1) :
    isolate_rightmost_zero_bit (node l k) = 2 ^ l := by
  rw [isolate_rightmost_zero_bit, Nat.mod_eq_of_lt (by omega), Nat.land_comm, and_not64 (by omega),
    ldiff_succ_node]

theorem level_node (h : node l k < 2 ^ 64 - 1) : (Position.mk (node l k)).level = l := by
  have hl : l < 64 := level_lt_of_node_lt h
  apply trailing_zeros_eq hl
  · rw [testBit_not64 hl, testBit_node_self]
    rfl
  · intro j hj
    rw [testBit_not64 (by omega), testBit_node_of_lt hj]
    rfl

theorem from_level_and_pos_node (hl : l < 63) (h : node l k < 2 ^ 64) :
    Position.from_level_and_pos l k = some ⟨node l k⟩ := by
  have hmul : k * 2 ^ (l + 1) < 2 ^ 64 := by
    unfold node at h
    rw [Nat.mul_comm]
    omega
  simp only [Position.from_level_and_pos, Nat.shiftLeft_eq, Nat.one_mul]
  rw [if_pos (by omega), if_pos (Nat.two_pow_pos l), if_neg (by omega), Nat.mod_eq_of_lt hmul,
    Nat.mul_comm, ← Nat.two_pow_add_eq_or_of_lt (low_lt l)]
  rfl

theorem from_level_and_pos_top (pos : ℕ) :
    Position.from_level_and_pos 63 pos = some ⟨node 63 0⟩ := by
  simp [Position.from_level_and_pos, node_level_zero]

theorem from_leaf_index_eq (leaf_index : ℕ) :
    Position.from_leaf_index leaf_index = some ⟨2 * leaf_index % 2 ^ 64⟩ := by
  simp [Position.from_leaf_index, Position.from_level_and_pos, Nat.shiftLeft_eq, Nat.mul_comm]

end Node

section Postorder

variable {l k : ℕ}

theorem children_of_node_eq (hl : l < 63) (h : node l k < 2 ^ 64 - 1) :
    children_of_node (node l k) = some (2 ^ (l + 1) - 2) := by
  have hpow : 2 ^ (l + 1) < 2 ^ 64 := Nat.pow_lt_pow_right (by norm_num) (by omega)
  have htwo : 2 ≤ 2 ^ (l + 1) := by
    have := Nat.one_le_two_pow (n := l)
    rw [two_pow_succ]
    omega
  rw [children_of_node, isolate_rightmost_zero_bit_node h, Nat.shiftLeft_eq, Nat.pow_one,
    ← Nat.pow_succ, Nat.mod_eq_of_lt hpow, sub64_of_le htwo]

theorem nodes_to_left_of_eq (h : node l k < 2 ^ 64 - 1) :
    nodes_to_left_of (node l k) = some (2 ^ (l + 1) * k - count_ones 64 (2 ^ (l + 1) * k)) := by
  have hpos := Nat.one_le_two_pow (n := l)
  simp only [nodes_to_left_of, isolate_rightmost_zero_bit_node h, sub64_of_le hpos,
    Option.bind_eq_bind, Option.bind_some, node_xor_low, sub64_of_le (count_ones_le 64 _)]

-- On every node of the tree of height 63 except its root, the conversion is the post-order rank.
theorem inorder_to_postorder_eq {p : ℕ} (hp : p < 2 ^ 64 - 1) (hroot : p ≠ 2 ^ 63 - 1) :
    inorder_to_postorder p = some (postorder_rank 63 p) := by
  obtain ⟨l, k, rfl⟩ := exists_node p
  have htree : node l k < 2 ^ (63 + 1) - 1 := hp
  obtain ⟨hl, hk⟩ := node_lt_iff.mp htree
  have hl63 : l < 63 := by
    rcases Nat.lt_or_ge l 63 with h | h
    · exact h
    · obtain rfl : l = 63 := by omega
      obtain rfl : k = 0 := by simpa using hk
      exact absurd (node_level_zero 63) hroot
  have hrank := postorder_rank_node (w := 64) (by norm_num) htree
  have hlt := postorder_rank_lt htree
  simp only [inorder_to_postorder, children_of_node_eq hl63 hp, nodes_to_left_of_eq hp,
    Option.bind_eq_bind, Option.bind_some]
  rw [add64_of_lt (by omega), ← hrank]

theorem two_pow_succ_sub_one_shiftRight_one (n : ℕ) : (2 ^ (n + 1) - 1) >>> 1 = 2 ^ n - 1 := by
  have := two_pow_succ n
  rw [Nat.shiftRight_eq_div_pow, Nat.pow_one]
  omega

theorem postorder_to_inorder_step_ge {q b n i : ℕ} (hq : 2 ^ (n + 1) - 1 ≤ q) :
    postorder_to_inorder_step (q, b, 2 ^ (n + 1) - 1) i =
      (q - (2 ^ (n + 1) - 1), b ||| 1 <<< i, 2 ^ n - 1) := by
  simp only [postorder_to_inorder_step, ge_iff_le, hq, if_true, two_pow_succ_sub_one_shiftRight_one]

theorem postorder_to_inorder_step_lt {q b n i : ℕ} (hq : q < 2 ^ (n + 1) - 1) :
    postorder_to_inorder_step (q, b, 2 ^ (n + 1) - 1) i = (q, b, 2 ^ n - 1) := by
  simp only [postorder_to_inorder_step, ge_iff_le, Nat.not_le.mpr hq, if_false,
    two_pow_succ_sub_one_shiftRight_one]

theorem foldl_range_succ_reverse {β : Type} (f : β → ℕ → β) (b : β) (n : ℕ) :
    (List.range (n + 1)).reverse.foldl f b = (List.range n).reverse.foldl f (f b n) := by
  rw [List.range_succ, List.reverse_append, List.reverse_singleton, List.singleton_append,
    List.foldl_cons]

-- Past the root of a subtree the loop takes every size that is left: the node left over counts
-- the levels, and every bit of the bitmap below n gets set.
theorem postorder_loop_past_root {n m b : ℕ} (hb : 2 ^ n ∣ b) :
    (List.range n).reverse.foldl postorder_to_inorder_step (2 ^ (n + 1) + m - 1, b, 2 ^ n - 1) =
      (n + 1 + m, b + (2 ^ n - 1), 0) := by
  induction n generalizing m b with
  | zero =>
    simp only [List.range_zero, List.reverse_nil, List.foldl_nil, Prod.mk.injEq]
    omega
  | succ n ih =>
    have hpow := two_pow_succ (n + 1)
    have hpow' := two_pow_succ n
    have hb' : 2 ^ n ∣ b + 2 ^ n :=
      (Nat.dvd_add_right (dvd_trans (Nat.pow_dvd_pow 2 (Nat.le_succ n)) hb)).mpr dvd_rfl
    rw [foldl_range_succ_reverse, postorder_to_inorder_step_ge (by omega),
      or_one_shiftLeft_of_dvd hb,
      show 2 ^ (n + 1 + 1) + m - 1 - (2 ^ (n + 1) - 1) = 2 ^ (n + 1) + (m + 1) - 1 by omega, ih hb',
      show n + 1 + (m + 1) = n + 1 + 1 + m by omega,
      show b + 2 ^ n + (2 ^ n - 1) = b + (2 ^ (n + 1) - 1) by omega]

-- The loop run on the post-order rank of a node of the tree of height n leaves the node's level
-- and adds to b the bits 2^l * k + 2^l - 1, the position above l ones.
theorem postorder_loop_node {n b : ℕ} (h : node l k < 2 ^ (n + 1) - 1) (hb : 2 ^ n ∣ b) :
    (List.range n).reverse.foldl postorder_to_inorder_step
        (postorder_rank n (node l k), b, 2 ^ n - 1) = (l, b + (2 ^ l * k + (2 ^ l - 1)), 0) := by
  induction n generalizing l k b with
  | zero =>
    obtain ⟨hl, hk⟩ := node_lt_iff.mp h
    obtain rfl : l = 0 := by omega
    obtain rfl : k = 0 := by simpa using hk
    simp [postorder_rank]
  | succ n ih =>
    have hdvd : 2 ^ n ∣ b := dvd_trans (Nat.pow_dvd_pow 2 (Nat.le_succ n)) hb
    have hb' : 2 ^ n ∣ b + 2 ^ n := (Nat.dvd_add_right hdvd).mpr dvd_rfl
    have hpow := two_pow_succ (n + 1)
    have hpow' := two_pow_succ n
    have hpos := Nat.one_le_two_pow (n := n)
    rw [foldl_range_succ_reverse]
    rcases node_cases_succ h with hleft | ⟨rfl, rfl⟩ | ⟨hl, k', hk', hnode⟩
    · rw [postorder_rank_left hleft, postorder_to_inorder_step_lt (postorder_rank_lt hleft),
        ih hleft hdvd]
    · have hpow2 : 2 ^ (n + 2) = 2 * 2 ^ (n + 1) := two_pow_succ (n + 1)
      rw [node_level_zero, postorder_rank_root, postorder_to_inorder_step_ge (by omega),
        or_one_shiftLeft_of_dvd hb,
        show 2 ^ (n + 2) - 2 - (2 ^ (n + 1) - 1) = 2 ^ (n + 1) + 0 - 1 by omega,
        postorder_loop_past_root hb', Nat.mul_zero, Nat.zero_add, Nat.add_zero,
        show b + 2 ^ n + (2 ^ n - 1) = b + (2 ^ (n + 1) - 1) by omega]
    · have hmul : 2 ^ l * k = 2 ^ n + 2 ^ l * k' := by
        have hk2 : 2 ^ (l + 1) * k = 2 * (2 ^ l * k) := by rw [two_pow_succ, Nat.mul_assoc]
        have hk2' : 2 ^ (l + 1) * k' = 2 * (2 ^ l * k') := by rw [two_pow_succ, Nat.mul_assoc]
        unfold node at hnode
        rw [hk2, hk2'] at hnode
        omega
      rw [hnode, postorder_rank_right (by omega), Nat.add_sub_cancel,
        postorder_to_inorder_step_ge (by omega), Nat.add_sub_cancel_left,
        or_one_shiftLeft_of_dvd hb, ih hk' hb', hmul, Nat.add_assoc, Nat.add_assoc]

theorem postorder_to_inorder_rank {p : ℕ} (hp : p < 2 ^ 64 - 1) :
    postorder_to_inorder (postorder_rank 63 p) = some p := by
  obtain ⟨l, k, rfl⟩ := exists_node p
  have htree : node l k < 2 ^ (63 + 1) - 1 := hp
  obtain ⟨hl, hk⟩ := node_lt_iff.mp htree
  have hfull : not64 0 = 2 ^ (63 + 1) - 1 := by simp [not64]
  have hloop : (List.range 64).reverse.foldl postorder_to_inorder_step
      (postorder_rank 63 (node l k), 0, not64 0) = (l, 2 ^ l * k + (2 ^ l - 1), 0) := by
    rw [hfull, foldl_range_succ_reverse, postorder_to_inorder_step_lt (postorder_rank_lt htree),
      postorder_loop_node htree (dvd_zero _), Nat.zero_add]
  have hpos : (2 ^ l * k + (2 ^ l - 1)) >>> l = k := by
    have := Nat.one_le_two_pow (n := l)
    rw [Nat.shiftRight_eq_div_pow, Nat.mul_add_div (Nat.two_pow_pos l), Nat.div_eq_of_lt (by omega),
      Nat.add_zero]
  simp only [postorder_to_inorder, hloop, Nat.mod_eq_of_lt (show l < 2 ^ 32 by omega), hpos]
  rcases Nat.lt_or_ge l 63 with hl63 | hl63
  · rw [from_level_and_pos_node hl63 (by omega)]
    rfl
  · obtain rfl : l = 63 := by omega
    obtain rfl : k = 0 := by simpa using hk
    rw [from_level_and_pos_top]
    rfl

-- Every post-order index of the tree of height 63 goes back to the node of that rank.
theorem postorder_to_inorder_eq {q : ℕ} (hq : q < 2 ^ 64 - 1) :
    ∃ p < 2 ^ 64 - 1, postorder_to_inorder q = some p ∧ postorder_rank 63 p = q := by
  obtain ⟨p, hp, rfl⟩ := exists_postorder_rank_eq (H := 63) hq
  exact ⟨p, hp, postorder_to_inorder_rank hp, rfl⟩

-- The root of a full accumulator of MAX_ACCUMULATOR_LEAVES leaves is a position of the tree whose
-- post-order index 2^64 - 2 is a u64, and postorder_to_inorder maps that index back to it; but
-- to_postorder_index panics on it, since children_of_node computes (2^63 << 1) - 2 = 0 - 2.
theorem to_postorder_index_full_tree_root :
    (Position.mk (2 ^ 63 - 1)).to_postorder_index = none ∧
      postorder_rank 63 (2 ^ 63 - 1) = 2 ^ 64 - 2 ∧
      postorder_to_inorder (2 ^ 64 - 2) = some (2 ^ 63 - 1) := by
  have hrank : postorder_rank 63 (2 ^ 63 - 1) = 2 ^ 64 - 2 := postorder_rank_root 62
  have hback := postorder_to_inorder_rank (p := 2 ^ 63 - 1) (by norm_num)
  rw [hrank] at hback
  exact ⟨by decide, hrank, hback⟩

end Postorder

-- The smear fills every bit below the highest set bit of a u64.
theorem smear_ones_for_u64_eq {v : ℕ} (hv : v < 2 ^ 64) : smear_ones_for_u64 v = 2 ^ v.size - 1 := by
  have h0 : ∀ j, v.testBit j = true ↔ ∃ i, j ≤ i ∧ i < j + 1 ∧ v.testBit i = true := fun j =>
    ⟨fun h => ⟨j, le_rfl, by omega, h⟩, fun ⟨i, h1, h2, h3⟩ => by
      obtain rfl : i = j := by omega
      exact h3⟩
  have h1 := testBit_or_shiftRight (by norm_num : 1 + 1 = 2) h0
  have h2 := testBit_or_shiftRight (by norm_num : 2 + 2 = 4) h1
  have h3 := testBit_or_shiftRight (by norm_num : 4 + 4 = 8) h2
  have h4 := testBit_or_shiftRight (by norm_num : 8 + 8 = 16) h3
  have h5 := testBit_or_shiftRight (by norm_num : 16 + 16 = 32) h4
  have h6 := testBit_or_shiftRight (by norm_num : 32 + 32 = 64) h5
  have hwindow : ∀ j, (∃ i, j ≤ i ∧ i < j + 64 ∧ v.testBit i = true) ↔ j < v.size := fun j => by
    constructor
    · rintro ⟨i, hji, -, hi⟩
      exact lt_of_le_of_lt hji (Nat.lt_size.mpr (Nat.ge_two_pow_of_testBit hi))
    · intro hj
      have hv0 : v ≠ 0 := by
        rintro rfl
        simp at hj
      have hsize : v.size ≤ 64 := Nat.size_le.mpr hv
      exact ⟨v.size - 1, by omega, by omega, testBit_size_sub_one hv0⟩
  apply Nat.eq_of_testBit_eq
  intro j
  have key : (smear_ones_for_u64 v).testBit j = true ↔ j < v.size := (h6 j).trans (hwindow j)
  rw [Nat.testBit_two_pow_sub_one]
  by_cases hj : j < v.size
  · rw [key.mpr hj, decide_eq_true hj]
  · rw [decide_eq_false hj]
    exact Bool.eq_false_iff.mpr (mt key.mp hj)

section Navigation

variable {l k : ℕ}

-- Position's navigation on a node of the tree of height 63 below its root moves in that tree.
theorem parent_mk_node (hl : l < 63) (h : node l k < 2 ^ 64 - 2) :
    (Position.mk (node l k)).parent = some ⟨node (l + 1) (k / 2)⟩ := by
  have hpow : 2 ^ (l + 1) < 2 ^ 64 := Nat.pow_lt_pow_right (by norm_num) (by omega)
  have hshift : (2 ^ l <<< 1) % 2 ^ 64 = 2 ^ l <<< 1 := by
    rw [Nat.mod_eq_of_lt]
    rwa [Nat.shiftLeft_eq, Nat.pow_one, ← Nat.pow_succ]
  have hor : node l k ||| 2 ^ l < 2 ^ 64 :=
    Nat.or_lt_two_pow (by omega) (Nat.pow_lt_pow_right (by norm_num) (by omega))
  rw [Position.parent, if_pos h, isolate_rightmost_zero_bit_node (by omega), hshift,
    and_not64 hor, InOrder.parent_node]

theorem is_leaf_mk_node : (Position.mk (node l k)).is_leaf = decide (l = 0) := by
  have hmod : node l k % 2 = if l = 0 then 0 else 1 := by
    cases l with
    | zero =>
      rw [node_zero]
      simp
    | succ l =>
      rw [node_succ]
      simp
  rw [Position.is_leaf, Nat.and_one_is_mod, hmod]
  by_cases hl : l = 0 <;> simp [hl]

theorem left_child_mk_node (h : node (l + 1) k < 2 ^ 64 - 2) :
    (Position.mk (node (l + 1) k)).left_child = some ⟨node l (2 * k)⟩ := by
  have hleaf : (Position.mk (node (l + 1) k)).is_leaf = false := by
    rw [is_leaf_mk_node]
    simp
  simp only [Position.left_child, Position.child, hleaf, Bool.false_eq_true, if_false, if_pos h,
    isolate_rightmost_zero_bit_node (show node (l + 1) k < 2 ^ 64 - 1 by omega), Nat.or_zero]
  rw [and_not64 (by omega), InOrder.left_child_node]

theorem right_child_mk_node (hl : l < 63) (h : node (l + 1) k < 2 ^ 64 - 2) :
    (Position.mk (node (l + 1) k)).right_child = some ⟨node l (2 * k + 1)⟩ := by
  have hleaf : (Position.mk (node (l + 1) k)).is_leaf = false := by
    rw [is_leaf_mk_node]
    simp
  have hor : node (l + 1) k ||| 2 ^ (l + 1) < 2 ^ 64 :=
    Nat.or_lt_two_pow (by omega) (Nat.pow_lt_pow_right (by norm_num) (by omega))
  simp only [Position.right_child, Position.child, hleaf, Bool.false_eq_true, if_false, if_pos h,
    isolate_rightmost_zero_bit_node (show node (l + 1) k < 2 ^ 64 - 1 by omega)]
  rw [and_not64 hor, InOrder.right_child_node]

theorem sibling_mk_node (hl : l < 63) (h : node l k < 2 ^ 64 - 2) :
    (Position.mk (node l k)).sibling = some ⟨node l (k ^^^ 1)⟩ := by
  have hshift : (2 ^ l <<< 1) % 2 ^ 64 = 2 ^ l <<< 1 := by
    rw [Nat.mod_eq_of_lt]
    rw [Nat.shiftLeft_eq, Nat.pow_one, ← Nat.pow_succ]
    exact Nat.pow_lt_pow_right (by norm_num) (by omega)
  rw [Position.sibling, if_pos h, isolate_rightmost_zero_bit_node (by omega), hshift,
    InOrder.sibling_node]

theorem is_left_child_mk_node (hl : l < 63) (h : node l k < 2 ^ 64 - 2) :
    (Position.mk (node l k)).is_left_child = some (decide (k % 2 = 0)) := by
  have hshift : (2 ^ l <<< 1) % 2 ^ 64 = 2 ^ (l + 1) := by
    rw [Nat.shiftLeft_eq, Nat.pow_one, ← Nat.pow_succ, Nat.mod_eq_of_lt]
    exact Nat.pow_lt_pow_right (by norm_num) (by omega)
  rw [Position.is_left_child, if_pos h, isolate_rightmost_zero_bit_node (by omega), hshift]
  congr 1
  by_cases hk : k % 2 = 0
  · simp [hk, land_node_eq_zero_iff.mpr hk]
  · simp [hk, mt land_node_eq_zero_iff.mp hk]

-- The leaves under a node are those of the k-th block of 2^l leaves.
theorem right_most_child_mk_node (h : node l k < 2 ^ 64 - 1) :
    (Position.mk (node l k)).right_most_child = some ⟨node 0 (2 ^ l * (k + 1) - 1)⟩ := by
  have htree : node l k < 2 ^ (63 + 1) - 1 := h
  obtain ⟨hl, hk⟩ := node_lt_iff.mp htree
  have hmul : 2 ^ (l + 1) * (k + 1) ≤ 2 ^ (l + 1) * 2 ^ (63 - l) := Nat.mul_le_mul_left _ hk
  rw [two_pow_mul_two_pow_sub hl] at hmul
  have hk2 : 2 ^ (l + 1) * (k + 1) = 2 * (2 ^ l * (k + 1)) := by rw [two_pow_succ, Nat.mul_assoc]
  have hsplit : 2 ^ l * (k + 1) = 2 ^ l * k + 2 ^ l := Nat.mul_succ _ _
  have hnode : node l k = 2 * (2 ^ l * k) + (2 ^ l - 1) := by rw [node, two_pow_succ, Nat.mul_assoc]
  have hpos := Nat.one_le_two_pow (n := l)
  have hsum : node l k + 2 ^ l < 2 ^ 64 := by omega
  simp only [Position.right_most_child, level_node h, Nat.one_shiftLeft, if_pos (by omega : l < 64),
    add64_of_lt hsum, Option.bind_some, sub64_of_le (show 1 ≤ node l k + 2 ^ l by omega),
    Option.map_some]
  rw [node_zero, hnode]
  congr 2
  omega

theorem left_most_child_mk_node (h : node l k < 2 ^ 64 - 1) :
    (Position.mk (node l k)).left_most_child = some ⟨node 0 (2 ^ l * k)⟩ := by
  have hl : l < 64 := level_lt_of_node_lt h
  have hdiv : node l k >>> l = 2 * k := by
    have hsplit : node l k = 2 ^ l * (2 * k) + (2 ^ l - 1) := by
      rw [node, two_pow_succ, Nat.mul_assoc, Nat.mul_left_comm]
    have hpos := Nat.one_le_two_pow (n := l)
    rw [Nat.shiftRight_eq_div_pow, hsplit, Nat.mul_add_div (Nat.two_pow_pos l),
      Nat.div_eq_of_lt (by omega), Nat.add_zero]
  have hback : (2 * k) <<< l = node 0 (2 ^ l * k) := by
    rw [node_zero, Nat.shiftLeft_eq]
    ring
  have hlt : node 0 (2 ^ l * k) < 2 ^ 64 := by
    have : node 0 (2 ^ l * k) ≤ node l k := by
      rw [node_zero]
      unfold node
      rw [two_pow_succ, Nat.mul_assoc]
      omega
    omega
  rw [Position.left_most_child, level_node h, turn_off_right_most_n_bits, if_pos hl, hdiv, hback,
    Nat.mod_eq_of_lt hlt, Option.map_some]

-- The root of the smallest perfect tree from leaf 0 that holds leaf i: the 2^(size i) leaves
-- below it are the first that reach past i.
theorem root_from_leaf_index_eq {i : ℕ} (hi : i < 2 ^ 63) :
    Position.root_from_leaf_index i = some ⟨node i.size 0⟩ := by
  have hlt : 2 * i < 2 ^ 64 := by omega
  rw [Position.root_from_leaf_index, from_leaf_index_eq, Nat.mod_eq_of_lt hlt, Option.map_some,
    smear_ones_for_u64_eq hlt, node_level_zero]
  rcases Nat.eq_zero_or_pos i with rfl | hpos
  · simp
  · have hsize : (2 * i).size = i.size + 1 := by
      rw [show 2 * i = i <<< 1 by rw [Nat.shiftLeft_eq, Nat.pow_one, Nat.mul_comm],
        Nat.size_shiftLeft (by omega)]
    rw [hsize, two_pow_succ_sub_one_shiftRight_one]

end Navigation

end Zapatos.position

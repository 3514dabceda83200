import Zapatos.Lib.Bits

namespace Zapatos.InOrder

open Bits

-- In-order numbering of the complete binary tree whose leaves are level 0: the k-th node of
-- level l has l one bits, then a zero bit, then the bits of k.
def node (l k : ℕ) : ℕ := 2 ^ (l + 1) * k + (2 ^ l - 1)

theorem low_lt (l : ℕ) : 2 ^ l - 1 < 2 ^ (l + 1) := by
  have := Nat.one_le_two_pow (n := l)
  rw [Nat.pow_succ]
  omega

theorem two_pow_succ (l : ℕ) : 2 ^ (l + 1) = 2 * 2 ^ l := by
  rw [Nat.pow_succ, Nat.mul_comm]

theorem node_zero (k : ℕ) : node 0 k = 2 * k := by simp [node]

theorem node_level_zero (l : ℕ) : node l 0 = 2 ^ l - 1 := by simp [node]

theorem node_succ (l k : ℕ) : node (l + 1) k = 2 * node l k + 1 := by
  have h := Nat.one_le_two_pow (n := l)
  rw [node, node, two_pow_succ (l + 1), two_pow_succ l, Nat.mul_assoc, Nat.mul_add]
  omega

theorem two_pow_sub_one_le_node (l k : ℕ) : 2 ^ l - 1 ≤ node l k := by
  unfold node
  omega

-- A node below 2^n - 1 has a level below n.
theorem level_lt_of_node_lt {l k n : ℕ} (h : node l k < 2 ^ n - 1) : l < n := by
  have hle := two_pow_sub_one_le_node l k
  have hpos := Nat.one_le_two_pow (n := l)
  have hlt : 2 ^ l < 2 ^ n := by omega
  exact (Nat.pow_lt_pow_iff_right (by norm_num)).mp hlt

theorem node_div (l k : ℕ) : node l k / 2 ^ (l + 1) = k := by
  rw [node, Nat.mul_add_div (Nat.two_pow_pos _), Nat.div_eq_of_lt (low_lt l), Nat.add_zero]

-- A count with l trailing ones is node l k: one more is 2^l times the odd number 2k + 1.
theorem node_add_one (l k : ℕ) : node l k + 1 = 2 ^ l * (2 * k + 1) := by
  have h := Nat.one_le_two_pow (n := l)
  rw [node, two_pow_succ, Nat.mul_add, Nat.mul_one, Nat.mul_assoc, Nat.mul_left_comm (2 ^ l) 2 k]
  omega

theorem node_shiftRight_succ (l k : ℕ) : node l k >>> (l + 1) = k := by
  rw [Nat.shiftRight_eq_div_pow, node_div]

theorem node_add_one_shiftRight_succ (l k : ℕ) : (node l k + 1) >>> (l + 1) = k := by
  rw [Nat.shiftRight_eq_div_pow, node_add_one, Nat.pow_succ,
    Nat.mul_div_mul_left _ _ (Nat.two_pow_pos l)]
  omega

theorem node_shiftRight (l k : ℕ) : node l k >>> l = 2 * k := by
  have h : 2 ^ l - 1 < 2 ^ l := Nat.sub_lt (Nat.two_pow_pos l) Nat.one_pos
  rw [Nat.shiftRight_eq_div_pow, node, two_pow_succ, Nat.mul_comm 2, Nat.mul_assoc,
    Nat.mul_add_div (Nat.two_pow_pos l), Nat.div_eq_of_lt h, Nat.add_zero]

section Bits

variable {l k j : ℕ}

theorem testBit_node_of_lt (h : j < l) : (node l k).testBit j = true := by
  rw [node, Nat.testBit_two_pow_mul_add k (low_lt l), if_pos (by omega),
    Nat.testBit_two_pow_sub_one, decide_eq_true h]

theorem testBit_node_self : (node l k).testBit l = false := by
  rw [node, Nat.testBit_two_pow_mul_add k (low_lt l), if_pos (by omega),
    Nat.testBit_two_pow_sub_one, decide_eq_false (Nat.lt_irrefl l)]

theorem testBit_node_add (i : ℕ) : (node l k).testBit (l + 1 + i) = k.testBit i := by
  rw [node, Nat.testBit_two_pow_mul_add k (low_lt l), if_neg (by omega), Nat.add_sub_cancel_left]

-- The three runs of bits of a node: its level's ones, the zero, the bits of its position.
theorem zones (j l : ℕ) : j < l ∨ j = l ∨ ∃ i, j = l + 1 + i := by
  rcases Nat.lt_trichotomy j l with h | h | h
  · exact .inl h
  · exact .inr (.inl h)
  · exact .inr (.inr ⟨j - (l + 1), by omega⟩)

theorem testBit_two_pow_shiftLeft (i : ℕ) : (2 ^ l <<< 1).testBit i = decide (l + 1 = i) := by
  rw [Nat.shiftLeft_eq, ← Nat.pow_succ, Nat.testBit_two_pow]

-- The rightmost zero bit of a node, which !v & (v + 1) isolates, is the bit of its level.
theorem ldiff_succ_node : Nat.ldiff (node l k + 1) (node l k) = 2 ^ l := by
  have hsucc : node l k + 1 = 2 ^ (l + 1) * k + 2 ^ l := by
    have := Nat.one_le_two_pow (n := l)
    unfold node
    omega
  have hl : 2 ^ l < 2 ^ (l + 1) := Nat.pow_lt_pow_right (by norm_num) (by omega)
  apply Nat.eq_of_testBit_eq
  intro j
  rw [Nat.testBit_ldiff, hsucc, Nat.testBit_two_pow_mul_add k hl, Nat.testBit_two_pow]
  rcases zones j l with h | rfl | ⟨i, rfl⟩
  · rw [if_pos (by omega), testBit_node_of_lt h]
    simp
    omega
  · rw [if_pos (by omega), testBit_node_self]
    simp
  · rw [if_neg (by omega), testBit_node_add]
    simp
    omega

-- Clearing the level's ones leaves the position shifted above the level's zero bit.
theorem node_xor_low : node l k ^^^ (2 ^ l - 1) = 2 ^ (l + 1) * k := by
  apply Nat.eq_of_testBit_eq
  intro j
  rw [Nat.testBit_xor, Nat.testBit_two_pow_sub_one, Nat.testBit_two_pow_mul]
  rcases zones j l with h | rfl | ⟨i, rfl⟩
  · have hge : ¬j ≥ l + 1 := by omega
    rw [testBit_node_of_lt h]
    simp [h, hge]
  · rw [testBit_node_self]
    simp
  · rw [testBit_node_add, Nat.add_sub_cancel_left]
    simp [show ¬l + 1 + i < l by omega]

theorem parent_node :
    Nat.ldiff (node l k ||| 2 ^ l) (2 ^ l <<< 1) = node (l + 1) (k / 2) := by
  apply Nat.eq_of_testBit_eq
  intro j
  rw [Nat.testBit_ldiff, Nat.testBit_lor, testBit_two_pow_shiftLeft, Nat.testBit_two_pow]
  rcases zones j l with h | rfl | ⟨i, rfl⟩
  · rw [testBit_node_of_lt h, testBit_node_of_lt (by omega)]
    simp
    omega
  · rw [testBit_node_self, testBit_node_of_lt (by omega)]
    simp
  · cases i with
    | zero => simp [testBit_node_self]
    | succ i =>
      rw [testBit_node_add, show l + 1 + (i + 1) = l + 1 + 1 + i by omega, testBit_node_add,
        Nat.testBit_div_two]
      simp [show l ≠ l + 1 + 1 + i by omega, show l + 1 ≠ l + 1 + 1 + i by omega]

theorem two_pow_succ_shiftRight_one (l : ℕ) : 2 ^ (l + 1) >>> 1 = 2 ^ l := by
  rw [Nat.shiftRight_eq_div_pow, Nat.pow_one, Nat.pow_succ, Nat.mul_div_cancel _ (by norm_num)]

theorem left_child_node :
    Nat.ldiff (node (l + 1) k) (2 ^ (l + 1) >>> 1) = node l (2 * k) := by
  apply Nat.eq_of_testBit_eq
  intro j
  rw [Nat.testBit_ldiff, two_pow_succ_shiftRight_one, Nat.testBit_two_pow]
  rcases zones j l with h | rfl | ⟨i, rfl⟩
  · rw [testBit_node_of_lt (by omega), testBit_node_of_lt h]
    simp
    omega
  · rw [testBit_node_of_lt (by omega), testBit_node_self]
    simp
  · rw [testBit_node_add]
    cases i with
    | zero => simp [testBit_node_self, Nat.testBit_zero]
    | succ i =>
      rw [show l + 1 + (i + 1) = l + 1 + 1 + i by omega, testBit_node_add,
        ← Nat.testBit_div_two, Nat.mul_div_cancel_left k two_pos]
      simp
      omega

theorem right_child_node :
    Nat.ldiff (node (l + 1) k ||| 2 ^ (l + 1)) (2 ^ (l + 1) >>> 1) = node l (2 * k + 1) := by
  apply Nat.eq_of_testBit_eq
  intro j
  rw [Nat.testBit_ldiff, Nat.testBit_lor, two_pow_succ_shiftRight_one, Nat.testBit_two_pow,
    Nat.testBit_two_pow]
  rcases zones j l with h | rfl | ⟨i, rfl⟩
  · rw [testBit_node_of_lt (by omega), testBit_node_of_lt h]
    simp
    omega
  · rw [testBit_node_of_lt (by omega), testBit_node_self]
    simp
  · rw [testBit_node_add]
    cases i with
    | zero => simp [testBit_node_self, Nat.testBit_zero]
    | succ i =>
      rw [show l + 1 + (i + 1) = l + 1 + 1 + i by omega, testBit_node_add,
        ← Nat.testBit_div_two, show (2 * k + 1) / 2 = k by omega]
      simp [show l + 1 ≠ l + 1 + 1 + i by omega, show l ≠ l + 1 + 1 + i by omega]

theorem sibling_node : node l k ^^^ (2 ^ l <<< 1) = node l (k ^^^ 1) := by
  apply Nat.eq_of_testBit_eq
  intro j
  rw [Nat.testBit_xor, testBit_two_pow_shiftLeft]
  rcases zones j l with h | rfl | ⟨i, rfl⟩
  · rw [testBit_node_of_lt h, testBit_node_of_lt h]
    simp
    omega
  · rw [testBit_node_self, testBit_node_self]
    simp
  · rw [testBit_node_add, testBit_node_add, Nat.testBit_xor]
    cases i with
    | zero => simp
    | succ i =>
      rw [Nat.testBit_eq_false_of_lt (Nat.one_lt_two_pow (Nat.succ_ne_zero i)), Bool.xor_false]
      simp

-- A node is a left child exactly when the bit above its level's zero is clear.
theorem land_node_eq_zero_iff : node l k &&& 2 ^ (l + 1) = 0 ↔ k % 2 = 0 := by
  have hbit : (node l k).testBit (l + 1) = k.testBit 0 := by
    simpa using testBit_node_add (l := l) (k := k) 0
  rw [Nat.and_two_pow, hbit, Nat.testBit_zero]
  rcases Nat.mod_two_eq_zero_or_one k with h | h <;> simp [h]

end Bits

theorem node_inj {l k l' k' : ℕ} (h : node l k = node l' k') : l = l' ∧ k = k' := by
  have hl : l = l' := by
    rcases Nat.lt_trichotomy l l' with hlt | heq | hgt
    · have hbit := testBit_node_of_lt (k := k') hlt
      rw [← h, testBit_node_self] at hbit
      cases hbit
    · exact heq
    · have hbit := testBit_node_of_lt (k := k) hgt
      rw [h, testBit_node_self] at hbit
      cases hbit
  subst hl
  exact ⟨rfl, by rw [← node_div l k, h, node_div]⟩

-- Every in-order index is a node: its trailing ones are the level.
theorem exists_node (p : ℕ) : ∃ l k, p = node l k := by
  induction p using Nat.strong_induction_on with
  | _ p ih =>
    rcases Nat.mod_two_eq_zero_or_one p with h | h
    · exact ⟨0, p / 2, by rw [node_zero]; omega⟩
    · obtain ⟨l, k, hq⟩ := ih (p / 2) (by omega)
      exact ⟨l + 1, k, by rw [node_succ, ← hq]; omega⟩

section Tree

variable {n l k : ℕ}

theorem two_pow_mul_two_pow_sub (hl : l ≤ n) : 2 ^ (l + 1) * 2 ^ (n - l) = 2 ^ (n + 1) := by
  rw [← Nat.pow_add]
  congr 1
  omega

-- Node l k lies in the perfect tree of height n, whose in-order indices are those below
-- 2^(n+1) - 1, exactly when its level is at most n and it is among the 2^(n-l) nodes of its level.
theorem node_lt_iff : node l k < 2 ^ (n + 1) - 1 ↔ l ≤ n ∧ k < 2 ^ (n - l) := by
  have hlow := two_pow_succ l
  have hpos := Nat.one_le_two_pow (n := l)
  constructor
  · intro h
    have hl : l ≤ n := by
      by_contra hl
      have : 2 ^ (n + 1) ≤ 2 ^ l := Nat.pow_le_pow_right (by norm_num) (by omega)
      unfold node at h
      omega
    refine ⟨hl, ?_⟩
    by_contra hk
    have hmul : 2 ^ (l + 1) * 2 ^ (n - l) ≤ 2 ^ (l + 1) * k := Nat.mul_le_mul_left _ (by omega)
    rw [two_pow_mul_two_pow_sub hl] at hmul
    unfold node at h
    omega
  · rintro ⟨hl, hk⟩
    have hmul : 2 ^ (l + 1) * (k + 1) ≤ 2 ^ (l + 1) * 2 ^ (n - l) := Nat.mul_le_mul_left _ hk
    rw [two_pow_mul_two_pow_sub hl, Nat.mul_succ] at hmul
    unfold node
    omega

theorem node_add_two_pow (hl : l ≤ n) (k : ℕ) :
    node l (k + 2 ^ (n - l)) = node l k + 2 ^ (n + 1) := by
  unfold node
  rw [Nat.mul_add, two_pow_mul_two_pow_sub hl]
  omega

-- A node of the perfect tree of height n + 1 lies in its left subtree, is its root, or lies in
-- its right subtree, 2^(n+1) after the matching node of the left one.
theorem node_cases_succ (h : node l k < 2 ^ (n + 2) - 1) :
    node l k < 2 ^ (n + 1) - 1 ∨ (l = n + 1 ∧ k = 0) ∨
      (l ≤ n ∧ ∃ k', node l k' < 2 ^ (n + 1) - 1 ∧ node l k = node l k' + 2 ^ (n + 1)) := by
  obtain ⟨hl, hk⟩ := node_lt_iff.mp h
  rcases Nat.lt_or_ge n l with hnl | hnl
  · obtain rfl : l = n + 1 := by omega
    exact .inr (.inl ⟨rfl, by simpa using hk⟩)
  · rcases Nat.lt_or_ge k (2 ^ (n - l)) with hk' | hk'
    · exact .inl (node_lt_iff.mpr ⟨hnl, hk'⟩)
    · have hpow : 2 ^ (n + 1 - l) = 2 * 2 ^ (n - l) := by
        rw [show n + 1 - l = n - l + 1 by omega, two_pow_succ]
      refine .inr (.inr ⟨hnl, k - 2 ^ (n - l), node_lt_iff.mpr ⟨hnl, by omega⟩, ?_⟩)
      rw [← node_add_two_pow hnl, Nat.sub_add_cancel hk']

end Tree

-- The post-order rank of in-order index p in the perfect tree of height H: its left subtree
-- first, then its right subtree (in-order indices from 2^H on), then its root 2^H - 1.
def postorder_rank : ℕ → ℕ → ℕ
  | 0, _ => 0
  | H + 1, p =>
    if p < 2 ^ (H + 1) - 1 then postorder_rank H p
    else if p = 2 ^ (H + 1) - 1 then 2 ^ (H + 2) - 2
    else 2 ^ (H + 1) - 1 + postorder_rank H (p - 2 ^ (H + 1))

section Rank

variable {H p : ℕ}

theorem postorder_rank_left (h : p < 2 ^ (H + 1) - 1) :
    postorder_rank (H + 1) p = postorder_rank H p := by
  rw [postorder_rank, if_pos h]

theorem postorder_rank_root (H : ℕ) :
    postorder_rank (H + 1) (2 ^ (H + 1) - 1) = 2 ^ (H + 2) - 2 := by
  rw [postorder_rank, if_neg (Nat.lt_irrefl _), if_pos rfl]

theorem postorder_rank_right (h : 2 ^ (H + 1) - 1 < p) :
    postorder_rank (H + 1) p = 2 ^ (H + 1) - 1 + postorder_rank H (p - 2 ^ (H + 1)) := by
  rw [postorder_rank, if_neg (by omega), if_neg (by omega)]

theorem postorder_rank_lt (h : p < 2 ^ (H + 1) - 1) : postorder_rank H p < 2 ^ (H + 1) - 1 := by
  induction H generalizing p with
  | zero => simp [postorder_rank]
  | succ H ih =>
    have hpow : 2 ^ (H + 2) = 2 * 2 ^ (H + 1) := two_pow_succ (H + 1)
    have hpos := Nat.one_le_two_pow (n := H + 1)
    rcases Nat.lt_trichotomy p (2 ^ (H + 1) - 1) with hp | rfl | hp
    · rw [postorder_rank_left hp]
      have := ih hp
      omega
    · rw [postorder_rank_root]
      omega
    · rw [postorder_rank_right hp]
      have := ih (p := p - 2 ^ (H + 1)) (by omega)
      omega

-- Every post-order rank of the tree of height H is the rank of one of its nodes.
theorem exists_postorder_rank_eq {q : ℕ} (h : q < 2 ^ (H + 1) - 1) :
    ∃ p < 2 ^ (H + 1) - 1, postorder_rank H p = q := by
  induction H generalizing q with
  | zero => exact ⟨0, by simp, by simp [postorder_rank] at h ⊢; omega⟩
  | succ H ih =>
    have hpow : 2 ^ (H + 2) = 2 * 2 ^ (H + 1) := two_pow_succ (H + 1)
    have hpos := Nat.one_le_two_pow (n := H + 1)
    rcases Nat.lt_or_ge q (2 ^ (H + 1) - 1) with hq | hq
    · obtain ⟨p, hp, rfl⟩ := ih hq
      exact ⟨p, by omega, postorder_rank_left hp⟩
    · rcases Nat.eq_or_lt_of_le (show q ≤ 2 ^ (H + 2) - 2 by omega) with rfl | hq'
      · exact ⟨2 ^ (H + 1) - 1, by omega, postorder_rank_root H⟩
      · obtain ⟨p, hp, hrank⟩ := ih (q := q - (2 ^ (H + 1) - 1)) (by omega)
        refine ⟨p + 2 ^ (H + 1), by omega, ?_⟩
        rw [postorder_rank_right (by omega), Nat.add_sub_cancel, hrank]
        omega

-- The rank in closed form: the 2^(l+1) - 2 nodes below the node, then for every set bit i of k
-- the 2^(l+1+i) - 1 nodes of the left sibling subtree passed on the way down.
theorem postorder_rank_node {w l k : ℕ} (hw : H < w) (h : node l k < 2 ^ (H + 1) - 1) :
    postorder_rank H (node l k) =
      2 ^ (l + 1) - 2 + (2 ^ (l + 1) * k - count_ones w (2 ^ (l + 1) * k)) := by
  induction H generalizing l k with
  | zero =>
    obtain ⟨hl, hk⟩ := node_lt_iff.mp h
    obtain rfl : l = 0 := by omega
    obtain rfl : k = 0 := by simpa using hk
    simp [postorder_rank, count_ones]
  | succ H ih =>
    rcases node_cases_succ h with hleft | ⟨rfl, rfl⟩ | ⟨hl, k', hk', hnode⟩
    · rw [postorder_rank_left hleft, ih (by omega) hleft]
    · rw [node_level_zero, postorder_rank_root]
      simp [count_ones]
    · have hmul : 2 ^ (l + 1) * k = 2 ^ (H + 1) + 2 ^ (l + 1) * k' := by
        unfold node at hnode
        omega
      have hlt : 2 ^ (l + 1) * k' < 2 ^ (H + 1) := by
        unfold node at hk'
        omega
      have hcount := count_ones_le w (2 ^ (l + 1) * k')
      have hpos := Nat.one_le_two_pow (n := l)
      have hlow := two_pow_succ l
      rw [hnode, postorder_rank_right (by omega), Nat.add_sub_cancel, ih (by omega) hk', hmul,
        count_ones_two_pow_add (by omega) hlt]
      omega

end Rank

-- Perfect subtrees given as (first leaf, height), laid left to right over the leaves
-- [start, stop), each starting at a multiple of its size.
inductive Cover : ℕ → ℕ → List (ℕ × ℕ) → Prop
  | nil (start : ℕ) : Cover start start []
  | cons {start stop h : ℕ} {rest : List (ℕ × ℕ)} :
      2 ^ h ∣ start → Cover (start + 2 ^ h) stop rest → Cover start stop ((start, h) :: rest)

theorem Cover.le {start stop : ℕ} {cover : List (ℕ × ℕ)} (h : Cover start stop cover) :
    start ≤ stop := by
  induction h with
  | nil => exact le_rfl
  | cons _ _ ih => omega

theorem Cover.mem {start stop : ℕ} {cover : List (ℕ × ℕ)} (h : Cover start stop cover) :
    ∀ t ∈ cover, 2 ^ t.2 ∣ t.1 ∧ start ≤ t.1 ∧ t.1 + 2 ^ t.2 ≤ stop := by
  induction h with
  | nil => simp
  | cons hdvd hrest ih =>
    intro t ht
    rcases List.mem_cons.mp ht with rfl | ht
    · exact ⟨hdvd, le_rfl, hrest.le⟩
    · obtain ⟨h1, h2, h3⟩ := ih t ht
      exact ⟨h1, by omega, h3⟩

theorem Cover.length_le {start stop : ℕ} {cover : List (ℕ × ℕ)} (h : Cover start stop cover) :
    cover.length ≤ stop - start := by
  induction h with
  | nil => simp
  | @cons start stop h rest _ hrest ih =>
    have := hrest.le
    have := Nat.one_le_two_pow (n := h)
    rw [List.length_cons]
    omega

-- Each subtree of a cover is the largest perfect subtree that starts at its first leaf, is
-- aligned to its size and ends by leaf stop.
def Largest (stop : ℕ) (cover : List (ℕ × ℕ)) : Prop :=
  ∀ t ∈ cover, ∀ h, 2 ^ h ∣ t.1 → t.1 + 2 ^ h ≤ stop → h ≤ t.2

-- A cover whose heights are the set bits of its length, highest first, takes the largest
-- subtree at each step.
theorem Cover.largest_of_bits_desc {start stop w : ℕ} {cover : List (ℕ × ℕ)}
    (hcover : Cover start stop cover) (hw : stop - start < 2 ^ w)
    (hbits : cover.map Prod.snd = bits_desc w (stop - start)) : Largest stop cover := by
  induction hcover with
  | nil => simp [Largest]
  | @cons start stop h rest _ hrest ih =>
    have hle := hrest.le
    have hlt := lt_two_pow_succ_of_bits_desc_eq_cons hw hbits.symm
    have hhw : h < w := by
      by_contra hc
      have := Nat.pow_le_pow_right (n := 2) (by norm_num) (Nat.not_lt.mp hc)
      omega
    rw [List.map_cons, bits_desc_eq_cons hhw (by omega) hlt, List.cons.injEq,
      show stop - start - 2 ^ h = stop - (start + 2 ^ h) by omega] at hbits
    have hrest_largest := ih (by omega) hbits.2
    intro t ht
    rcases List.mem_cons.mp ht with rfl | ht
    · intro h' _ hfit
      dsimp only at hfit hlt ⊢
      by_contra hc
      have := Nat.pow_le_pow_right (n := 2) (by norm_num) (show h + 1 ≤ h' by omega)
      omega
    · exact hrest_largest t ht

-- The in-order index of the root of a perfect subtree given as (first leaf, height).
def subtree_root (t : ℕ × ℕ) : ℕ := node t.2 (t.1 / 2 ^ t.2)

-- The root of an aligned subtree lies 2^h - 1 after its first leaf, whose in-order index is
-- 2 * start.
theorem subtree_root_of_dvd {start h : ℕ} (hdvd : 2 ^ h ∣ start) :
    subtree_root (start, h) = 2 * start + (2 ^ h - 1) := by
  obtain ⟨a, rfl⟩ := hdvd
  rw [subtree_root, Nat.mul_div_cancel_left a (Nat.two_pow_pos h), node, two_pow_succ,
    Nat.mul_assoc]

end Zapatos.InOrder

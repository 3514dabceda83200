import Mathlib

namespace SparseMerkle

-- Hashing of a binary sparse Merkle tree over w-bit keys. Leaf and node hashing are injective
-- and domain separated, and the placeholder of an empty subtree is the image of neither.
structure Hasher (w : ℕ) (H : Type) where
  leaf : BitVec w → H → H
  node : H → H → H
  placeholder : H
  leaf_inj : ∀ {k v k' v'}, leaf k v = leaf k' v' → k = k' ∧ v = v'
  node_inj : ∀ {a b a' b'}, node a b = node a' b' → a = a' ∧ b = b'
  leaf_ne_node : ∀ k v a b, leaf k v ≠ node a b
  leaf_ne_placeholder : ∀ k v, leaf k v ≠ placeholder
  node_ne_placeholder : ∀ a b, node a b ≠ placeholder

variable {w : ℕ} {H : Type}

namespace Hasher

variable (hs : Hasher w H)

-- The parent of x and its sibling s, with x on the side that bit b selects.
def join (b : Bool) (s x : H) : H := if b then hs.node s x else hs.node x s

def bottom : Option (BitVec w × H) → H
  | none => hs.placeholder
  | some e => hs.leaf e.1 e.2

variable {hs}

theorem join_inj {b : Bool} {s x s' x' : H} (h : hs.join b s x = hs.join b s' x') :
    s = s' ∧ x = x' := by
  cases b
  · obtain ⟨hx, hs'⟩ := hs.node_inj h
    exact ⟨hs', hx⟩
  · exact hs.node_inj h

theorem leaf_ne_join (k : BitVec w) (v : H) (b : Bool) (s x : H) : hs.leaf k v ≠ hs.join b s x := by
  cases b <;> exact hs.leaf_ne_node _ _ _ _

theorem join_ne_placeholder (b : Bool) (s x : H) : hs.join b s x ≠ hs.placeholder := by
  cases b <;> exact hs.node_ne_placeholder _ _

theorem node_eq_join (b : Bool) (f : Bool → H) : hs.node (f false) (f true) = hs.join b (f !b) (f b) := by
  cases b <;> rfl

end Hasher

section Tree

variable (hs : Hasher w H)

def child (d : ℕ) (b : Bool) (es : List (BitVec w × H)) : List (BitVec w × H) :=
  es.filter (fun e => e.1.getMsbD d == b)

-- The root of the subtree at depth d holding the entries es, with n levels below it. A subtree
-- with one entry is that entry's leaf; the last branch is reached only by keys that agree on
-- every bit, which distinct keys of width d + n do not.
def subtreeRoot : ℕ → ℕ → List (BitVec w × H) → H
  | _, _, [] => hs.placeholder
  | _, _, [(k, v)] => hs.leaf k v
  | 0, _, _ :: _ :: _ => hs.placeholder
  | n + 1, d, es@(_ :: _ :: _) =>
    hs.node (subtreeRoot n (d + 1) (child d false es)) (subtreeRoot n (d + 1) (child d true es))

-- The hash at depth d of the path that key k takes, with siblings ss from depth d + 1 down and
-- x at its bottom.
def pathRoot (k : BitVec w) : ℕ → List H → H → H
  | _, [], x => x
  | d, s :: ss, x => hs.join (k.getMsbD d) s (pathRoot k (d + 1) ss x)

-- The entries left after following the bits of k from depth d for j levels.
def descend (k : BitVec w) : ℕ → ℕ → List (BitVec w × H) → List (BitVec w × H)
  | _, 0, es => es
  | d, j + 1, es => descend k (d + 1) j (child d (k.getMsbD d) es)

-- The proof an honest prover gives for k: the siblings along k's path, and the leaf at its end.
def proofPath (k : BitVec w) : ℕ → ℕ → List (BitVec w × H) → List H × Option (BitVec w × H)
  | _, _, [] => ([], none)
  | _, _, [e] => ([], some e)
  | 0, _, _ :: _ :: _ => ([], none)
  | n + 1, d, es@(_ :: _ :: _) =>
    let below := proofPath k n (d + 1) (child d (k.getMsbD d) es)
    (subtreeRoot hs n (d + 1) (child d (!k.getMsbD d) es) :: below.1, below.2)

def Agree (k : BitVec w) (d : ℕ) (es : List (BitVec w × H)) : Prop :=
  ∀ e ∈ es, ∀ i < d, e.1.getMsbD i = k.getMsbD i

theorem subtreeRoot_join (n d : ℕ) (a b : BitVec w × H) (es : List (BitVec w × H)) (bit : Bool) :
    subtreeRoot hs (n + 1) d (a :: b :: es) =
      hs.join bit (subtreeRoot hs n (d + 1) (child d (!bit) (a :: b :: es)))
        (subtreeRoot hs n (d + 1) (child d bit (a :: b :: es))) := by
  rw [subtreeRoot]
  exact hs.node_eq_join bit fun c => subtreeRoot hs n (d + 1) (child d c (a :: b :: es))

theorem pathRoot_proofPath (k : BitVec w) : ∀ (n d : ℕ) (es : List (BitVec w × H)),
    pathRoot hs k d (proofPath hs k n d es).1 (hs.bottom (proofPath hs k n d es).2) =
      subtreeRoot hs n d es
  | _, _, [] => by simp only [proofPath, subtreeRoot, pathRoot, Hasher.bottom]
  | _, _, [(_, _)] => by simp only [proofPath, subtreeRoot, pathRoot, Hasher.bottom]
  | 0, _, _ :: _ :: _ => by simp only [proofPath, subtreeRoot, pathRoot, Hasher.bottom]
  | n + 1, d, a :: b :: es => by
    rw [subtreeRoot_join hs n d a b es (k.getMsbD d),
      ← pathRoot_proofPath k n (d + 1) (child d (k.getMsbD d) (a :: b :: es))]
    rfl

theorem foldl_join_eq_pathRoot (k : BitVec w) : ∀ (ss : List H) (d : ℕ) (x : H),
    (ss.reverse.zip ((List.range' d ss.length).map k.getMsbD).reverse).foldl
      (fun x step => hs.join step.2 step.1 x) x = pathRoot hs k d ss x
  | [], _, _ => rfl
  | s :: ss, d, x => by
    rw [List.reverse_cons, List.length_cons, List.range'_succ, List.map_cons, List.reverse_cons,
      List.zip_append (by simp), List.foldl_append, foldl_join_eq_pathRoot k ss (d + 1) x]
    rfl

variable {hs}

theorem subtreeRoot_eq_join {n d : ℕ} {es : List (BitVec w × H)} {b : Bool} {s x : H}
    (h : subtreeRoot hs n d es = hs.join b s x) :
    ∃ m, n = m + 1 ∧ s = subtreeRoot hs m (d + 1) (child d (!b) es) ∧
      x = subtreeRoot hs m (d + 1) (child d b es) := by
  match n, es with
  | _, [] =>
    rw [subtreeRoot] at h
    exact absurd h.symm (Hasher.join_ne_placeholder _ _ _)
  | _, [(_, _)] =>
    rw [subtreeRoot] at h
    exact absurd h (Hasher.leaf_ne_join _ _ _ _ _)
  | 0, _ :: _ :: _ =>
    rw [subtreeRoot] at h
    exact absurd h.symm (Hasher.join_ne_placeholder _ _ _)
  | m + 1, _ :: _ :: _ =>
    rw [subtreeRoot_join hs m d _ _ _ b] at h
    obtain ⟨hs', hx⟩ := Hasher.join_inj h
    exact ⟨m, rfl, hs'.symm, hx.symm⟩

theorem subtreeRoot_eq_leaf {n d : ℕ} {es : List (BitVec w × H)} {k : BitVec w} {v : H}
    (h : subtreeRoot hs n d es = hs.leaf k v) : es = [(k, v)] := by
  match n, es with
  | _, [] =>
    rw [subtreeRoot] at h
    exact absurd h.symm (hs.leaf_ne_placeholder _ _)
  | _, [(k', v')] =>
    rw [subtreeRoot] at h
    obtain ⟨rfl, rfl⟩ := hs.leaf_inj h
    rfl
  | 0, _ :: _ :: _ =>
    rw [subtreeRoot] at h
    exact absurd h.symm (hs.leaf_ne_placeholder _ _)
  | m + 1, _ :: _ :: _ =>
    rw [subtreeRoot] at h
    exact absurd h.symm (hs.leaf_ne_node _ _ _ _)

theorem subtreeRoot_eq_placeholder {n d : ℕ} {es : List (BitVec w × H)}
    (h : subtreeRoot hs n d es = hs.placeholder) : es = [] ∨ n = 0 ∧ 2 ≤ es.length := by
  match n, es with
  | _, [] => exact .inl rfl
  | _, [(_, _)] =>
    rw [subtreeRoot] at h
    exact absurd h (hs.leaf_ne_placeholder _ _)
  | 0, _ :: _ :: _ => exact .inr ⟨rfl, by simp⟩
  | m + 1, _ :: _ :: _ =>
    rw [subtreeRoot] at h
    exact absurd h (hs.node_ne_placeholder _ _)

-- An accepted path pins the hash at its bottom to the subtree that k's bits lead to.
theorem pathRoot_eq_subtreeRoot (k : BitVec w) : ∀ (ss : List H) {n d : ℕ}
    {es : List (BitVec w × H)} {x : H}, pathRoot hs k d ss x = subtreeRoot hs n d es →
    ss.length ≤ n ∧ x = subtreeRoot hs (n - ss.length) (d + ss.length) (descend k d ss.length es)
  | [], _, _, _, _, h => ⟨Nat.zero_le _, h⟩
  | s :: ss, _, d, es, x, h => by
    obtain ⟨m, rfl, -, hx⟩ := subtreeRoot_eq_join h.symm
    obtain ⟨hlen, hbottom⟩ := pathRoot_eq_subtreeRoot k ss hx
    refine ⟨by simp only [List.length_cons]; omega, ?_⟩
    rw [List.length_cons, Nat.add_sub_add_right, show d + (ss.length + 1) = d + 1 + ss.length by omega]
    exact hbottom

end Tree

section Descend

variable {k : BitVec w}

theorem descend_sublist : ∀ (d j : ℕ) (es : List (BitVec w × H)), (descend k d j es).Sublist es
  | _, 0, _ => List.Sublist.refl _
  | d, j + 1, _ => (descend_sublist (d + 1) j _).trans List.filter_sublist

theorem agree_descend : ∀ (d j : ℕ) (es : List (BitVec w × H)), Agree k d es →
    Agree k (d + j) (descend k d j es)
  | _, 0, _, h => h
  | d, j + 1, es, h => by
    have hchild : Agree k (d + 1) (child d (k.getMsbD d) es) := by
      intro e he i hi
      obtain ⟨hes, hbit⟩ := List.mem_filter.mp he
      rcases Nat.lt_succ_iff_lt_or_eq.mp hi with hi | rfl
      · exact h e hes i hi
      · exact beq_iff_eq.mp hbit
    rw [show d + (j + 1) = d + 1 + j by omega]
    exact agree_descend (d + 1) j _ hchild

theorem mem_descend {e : BitVec w × H} (hk : e.1 = k) : ∀ {d j : ℕ} {es : List (BitVec w × H)},
    e ∈ es → e ∈ descend k d j es
  | _, 0, _, he => he
  | _, _ + 1, _, he => by
    rw [descend]
    exact mem_descend hk (List.mem_filter.mpr ⟨he, by rw [hk, beq_self_eq_true]⟩)

-- Distinct keys that agree with k on all w bits are at most one.
theorem length_le_one_of_agree : ∀ {es : List (BitVec w × H)}, Agree k w es →
    (es.map Prod.fst).Nodup → es.length ≤ 1
  | [], _, _ => Nat.zero_le _
  | [_], _, _ => Nat.le_refl _
  | a :: b :: _, h, hnd => by
    have ha : a.1 = k := BitVec.eq_of_getMsbD_eq (h a (by simp))
    have hb : b.1 = k := BitVec.eq_of_getMsbD_eq (h b (by simp))
    simp only [List.map_cons, List.nodup_cons, List.mem_cons] at hnd
    exact absurd (Or.inl (ha.trans hb.symm)) hnd.1

end Descend

-- What the bottom o of a path for k that ends at depth m says about the entries es.
structure PathBottom (k : BitVec w) (m : ℕ) (es : List (BitVec w × H))
    (o : Option (BitVec w × H)) : Prop where
  of_key : ∀ e ∈ es, e.1 = k → o = some e
  mem : ∀ e, o = some e → e ∈ es
  agree : ∀ e, o = some e → ∀ i < m, e.1.getMsbD i = k.getMsbD i

section Bottom

variable {hs : Hasher w H} {k : BitVec w} {n d : ℕ} {es : List (BitVec w × H)}

theorem pathBottom_of_pathRoot (hag : Agree k d es) (hnd : (es.map Prod.fst).Nodup)
    (hw : n + d = w) {ss : List H} {o : Option (BitVec w × H)}
    (h : pathRoot hs k d ss (hs.bottom o) = subtreeRoot hs n d es) :
    ss.length ≤ n ∧ PathBottom k (d + ss.length) es o := by
  obtain ⟨hlen, hx⟩ := pathRoot_eq_subtreeRoot k ss h
  have hsub := descend_sublist (k := k) d ss.length es
  have hagD := agree_descend d ss.length es hag
  have hkD : ∀ e ∈ es, e.1 = k → e ∈ descend k d ss.length es := fun e he hk => mem_descend hk he
  refine ⟨hlen, ?_⟩
  cases o with
  | none =>
    rcases subtreeRoot_eq_placeholder hx.symm with hD | ⟨hn, h2⟩
    · refine ⟨fun e he hk => ?_, fun _ h => (nomatch h), fun _ h => (nomatch h)⟩
      have := hkD e he hk
      rw [hD] at this
      cases this
    · have hagW : Agree k w (descend k d ss.length es) := by
        rwa [show d + ss.length = w by omega] at hagD
      have := length_le_one_of_agree hagW ((hsub.map Prod.fst).nodup hnd)
      omega
  | some e =>
    have hD : descend k d ss.length es = [e] := subtreeRoot_eq_leaf hx.symm
    have heD : e ∈ descend k d ss.length es := by
      rw [hD]
      exact List.mem_singleton_self e
    refine ⟨fun e' he' hk => ?_, fun e' he' => ?_, fun e' he' => ?_⟩
    · have := hkD e' he' hk
      rw [hD, List.mem_singleton] at this
      rw [this]
    · cases he'
      exact hsub.subset heD
    · cases he'
      exact hagD e heD

end Bottom

-- Finite maps from w-bit keys, the data a sparse Merkle tree commits to.
structure SparseMap (w : ℕ) (H : Type) where
  entries : List (BitVec w × H)
  nodup : (entries.map Prod.fst).Nodup

namespace SparseMap

def get (M : SparseMap w H) (k : BitVec w) : Option H := M.entries.lookup k

def root (hs : Hasher w H) (M : SparseMap w H) : H := subtreeRoot hs w 0 M.entries

theorem agree_zero (M : SparseMap w H) (k : BitVec w) : Agree k 0 M.entries :=
  fun _ _ _ hi => absurd hi (Nat.not_lt_zero _)

end SparseMap

-- The free hasher: digests are the terms that build them, so every assumption of a hasher holds.
inductive Digest (w : ℕ) where
  | value (n : ℕ)
  | leaf (key : BitVec w) (value_hash : Digest w)
  | node (left right : Digest w)
  | placeholder
deriving DecidableEq

def Digest.hasher (w : ℕ) : Hasher w (Digest w) where
  leaf := .leaf
  node := .node
  placeholder := .placeholder
  leaf_inj h := Digest.leaf.inj h
  node_inj h := Digest.node.inj h
  leaf_ne_node _ _ _ _ := nofun
  leaf_ne_placeholder _ _ := nofun
  node_ne_placeholder _ _ := nofun

end SparseMerkle

import Zapatos.JellyfishMerkle.NodeType
import Zapatos.Lib.Bytes
import Zapatos.Lib.Bits
import Zapatos.Lib.Basic

namespace Zapatos.JellyfishMerkle

open Bytes Bits

-- HashValue::to_vec and HashValue::from_slice for the hash type of the tree: 32 bytes that read
-- back as the hash.
structure HashBytes (H : Type) where
  to_vec : H → List UInt8
  from_slice : List UInt8 → Option H
  length_to_vec : ∀ h, (to_vec h).length = 32
  from_slice_to_vec : ∀ h, from_slice (to_vec h) = some h

-- BCS for the key type of the leaves: a value's bytes, and a reader that takes one value off the
-- front of a byte string.
structure BcsCodec (K : Type) where
  serialize : K → List UInt8
  deserialize : List UInt8 → Option (K × List UInt8)
  deserialize_serialize : ∀ k rest, deserialize (serialize k ++ rest) = some (k, rest)

-- The failures of Node::decode: a short read, NodeDecodeError, the ensure! checks of
-- InternalNode::deserialize and new_impl, and a failed BCS read of a leaf.
inductive DecodeError where
  | UnexpectedEof
  | EmptyInput
  | UnknownTag (unknown_tag : UInt8)
  | NoChildren
  | ExtraLeaves (existing leaves : ℕ)
  | NotEnoughBytes (children bytes : ℕ)
  | HashValueParseError
  | ChildrenEmpty
  | Bcs
deriving DecidableEq, Repr

section Varint

-- The loop of serialize_u64_varint with k passes left: seven bits a byte, the high bit set while
-- more follow; after eight bytes the rest goes raw into a ninth, under the two assertions.
def serialize_u64_varint_loop : ℕ → ℕ → Option (List UInt8)
  | 0, num => if num ≠ 0 ∧ num ≤ 0xFF then some [UInt8.ofNat num] else none
  | k + 1, num =>
    let low_bits : UInt8 := UInt8.ofNat num &&& 0x7F
    let num := num >>> 7
    let more : UInt8 := if num = 0 then 0 else 0x80
    if more = 0 then some [low_bits ||| more]
    else (serialize_u64_varint_loop k num).map ((low_bits ||| more) :: ·)

def serialize_u64_varint (num : ℕ) : Option (List UInt8) := serialize_u64_varint_loop 8 num

-- The loop of deserialize_u64_varint at byte i with k passes left, then the raw ninth byte.
def deserialize_u64_varint_loop : ℕ → ℕ → ℕ → List UInt8 → Except DecodeError (ℕ × List UInt8)
  | _, 0, num, reader =>
    match reader with
    | [] => .error .UnexpectedEof
    | byte :: reader => .ok (num ||| byte.toNat <<< 56, reader)
  | i, k + 1, num, reader =>
    match reader with
    | [] => .error .UnexpectedEof
    | byte :: reader =>
      let num := num ||| (byte &&& 0x7F).toNat <<< (i * 7)
      if byte &&& 0x80 = 0 then .ok (num, reader)
      else deserialize_u64_varint_loop (i + 1) k num reader

def deserialize_u64_varint (reader : List UInt8) : Except DecodeError (ℕ × List UInt8) :=
  deserialize_u64_varint_loop 0 8 0 reader

theorem toNat_ofNat_and_7F (num : ℕ) : (UInt8.ofNat num &&& 0x7F).toNat = num % 128 := by
  rw [UInt8.toNat_and, UInt8.toNat_ofNat']
  rw [show (0x7F : UInt8).toNat = 2 ^ 7 - 1 from rfl, Nat.and_two_pow_sub_one_eq_mod]
  omega

theorem toNat_or_80 {b : UInt8} (h : b.toNat < 128) : (b ||| 0x80).toNat = b.toNat + 128 := by
  rw [UInt8.toNat_or, show (0x80 : UInt8).toNat = 2 ^ 7 * 1 from rfl, Nat.lor_comm,
    ← Nat.two_pow_add_eq_or_of_lt h]
  omega

theorem and_7F_of_toNat {b : UInt8} : (b &&& 0x7F).toNat = b.toNat % 128 := by
  rw [UInt8.toNat_and, show (0x7F : UInt8).toNat = 2 ^ 7 - 1 from rfl, Nat.and_two_pow_sub_one_eq_mod]

theorem and_80_eq_zero_iff (b : UInt8) : b &&& 0x80 = 0 ↔ b.toNat < 128 := by
  have h : ∀ x : Fin 256, x.val &&& 128 = x.val / 128 * 128 := by decide +kernel
  rw [← UInt8.toNat_inj, UInt8.toNat_and, show (0x80 : UInt8).toNat = 128 from rfl,
    h ⟨b.toNat, b.toNat_lt⟩]
  simp

-- The bytes written from pass 8 - k on read back, at any accumulator below the bits of that pass
-- and with any bytes after them.
theorem varint_loop_round_trip : ∀ (k i acc num : ℕ), i + k = 8 → acc < 2 ^ (7 * i) →
    num < 2 ^ (7 * k + 8) → (k = 0 → num ≠ 0) →
    ∃ bytes, serialize_u64_varint_loop k num = some bytes ∧ ∀ rest,
      deserialize_u64_varint_loop i k acc (bytes ++ rest) = .ok (acc + num * 2 ^ (7 * i), rest) := by
  intro k
  induction k with
  | zero =>
    intro i acc num hik hacc hnum hne
    have hle : num ≤ 0xFF := by omega
    refine ⟨[UInt8.ofNat num], by simp [serialize_u64_varint_loop, hne rfl, hle], fun rest => ?_⟩
    have hi : i = 8 := by omega
    subst hi
    simp only [List.singleton_append, deserialize_u64_varint_loop, UInt8.toNat_ofNat',
      Nat.mod_eq_of_lt (show num < 2 ^ 8 by omega), or_shiftLeft_eq_add hacc]
  | succ k ih =>
    intro i acc num hik hacc hnum _
    have hlow := toNat_ofNat_and_7F num
    have hshift : num >>> 7 = num / 128 := Nat.shiftRight_eq_div_pow num 7
    by_cases hz : num / 128 = 0
    · refine ⟨[UInt8.ofNat num &&& 0x7F], by simp [serialize_u64_varint_loop, hshift, hz],
        fun rest => ?_⟩
      have hbyte : (UInt8.ofNat num &&& 0x7F) &&& 0x80 = 0 := by
        rw [and_80_eq_zero_iff, hlow]
        omega
      simp only [List.singleton_append, deserialize_u64_varint_loop, hbyte, if_true, and_7F_of_toNat,
        hlow, Nat.mod_mod, Nat.mul_comm i 7, or_shiftLeft_eq_add hacc]
      rw [Nat.mod_eq_of_lt (by omega)]
    · have hbyte_nat : (UInt8.ofNat num &&& 0x7F ||| 0x80).toNat = num % 128 + 128 := by
        rw [toNat_or_80 (by rw [hlow]; omega), hlow]
      have hacc' : acc + num % 128 * 2 ^ (7 * i) < 2 ^ (7 * (i + 1)) := by
        have hr : num % 128 * 2 ^ (7 * i) ≤ 127 * 2 ^ (7 * i) :=
          Nat.mul_le_mul_right _ (by omega)
        rw [show 7 * (i + 1) = 7 * i + 7 by ring, pow_add]
        norm_num
        omega
      have hnum' : num / 128 < 2 ^ (7 * k + 8) := by
        have hpow : 2 ^ (7 * (k + 1) + 8) = 2 ^ (7 * k + 8) * 128 := by
          rw [show 7 * (k + 1) + 8 = 7 * k + 8 + 7 by ring, pow_add]
          norm_num
        rw [Nat.div_lt_iff_lt_mul (by norm_num)]
        omega
      obtain ⟨bytes, hser, hde⟩ := ih (i + 1) (acc + num % 128 * 2 ^ (7 * i)) (num / 128) (by omega)
        hacc' hnum' (fun _ => hz)
      refine ⟨(UInt8.ofNat num &&& 0x7F ||| 0x80) :: bytes, ?_, fun rest => ?_⟩
      · have h80 : (0x80 : UInt8) ≠ 0 := by decide
        simp only [serialize_u64_varint_loop, hshift, hz, if_false, if_neg h80, hser, Option.map_some]
      · have hcont : ¬((UInt8.ofNat num &&& 0x7F ||| 0x80) &&& 0x80 = 0) := by
          rw [and_80_eq_zero_iff, hbyte_nat]
          omega
        have hpay : ((UInt8.ofNat num &&& 0x7F ||| 0x80) &&& 0x7F).toNat = num % 128 := by
          rw [and_7F_of_toNat, hbyte_nat]
          omega
        rw [List.cons_append, deserialize_u64_varint_loop]
        simp only [hcont, if_false, hpay, Nat.mul_comm i 7, or_shiftLeft_eq_add hacc, hde rest]
        congr 2
        have hpow : 2 ^ (7 * (i + 1)) = 2 ^ (7 * i) * 128 := by
          rw [show 7 * (i + 1) = 7 * i + 7 by ring, pow_add]
          norm_num
        calc acc + num % 128 * 2 ^ (7 * i) + num / 128 * 2 ^ (7 * (i + 1))
            = acc + (128 * (num / 128) + num % 128) * 2 ^ (7 * i) := by rw [hpow]; ring
          _ = acc + num * 2 ^ (7 * i) := by rw [Nat.div_add_mod]

theorem varint_round_trip {n : ℕ} (h : n < 2 ^ 64) :
    ∃ bytes, serialize_u64_varint n = some bytes ∧
      ∀ rest, deserialize_u64_varint (bytes ++ rest) = .ok (n, rest) := by
  obtain ⟨bytes, hser, hde⟩ := varint_loop_round_trip 8 0 0 n rfl (by norm_num) (by simpa using h)
    (by simp)
  refine ⟨bytes, hser, fun rest => ?_⟩
  rw [deserialize_u64_varint]
  simpa using hde rest

end Varint

section Storable

variable {H : Type}

-- What serialize can write for a child: a u64 version, and a leaf or an internal node whose
-- leaf count is a usize.
def Child.Storable (child : Child H) : Prop :=
  child.version < 2 ^ 64 ∧
    match child.node_type with
    | .Leaf => True
    | .Internal leaf_count => leaf_count < 2 ^ 64
    | .Null => False

end Storable

namespace InternalNode

variable {H : Type} (hb : HashBytes H)

def generate_bitmaps (node : InternalNode H) : ℕ × ℕ :=
  node.children.foldl (fun (existence_bitmap, leaf_bitmap) (nibble, child) =>
    (existence_bitmap ||| 1 <<< nibble.val,
      if child.is_leaf then leaf_bitmap ||| 1 <<< nibble.val else leaf_bitmap)) (0, 0)

-- What serialize writes for one child; none is the unreachable! of a Null child.
def serialize_child (child : Child H) : Option (List UInt8) := do
  let version ← serialize_u64_varint child.version
  let leaf_count ← match child.node_type with
    | .Leaf => some []
    | .Internal leaf_count => serialize_u64_varint leaf_count
    | .Null => none
  pure (version ++ hb.to_vec child.hash ++ leaf_count)

-- The loop also clears each child's bit in its copy of existence_bitmap, which nothing reads.
def serialize (node : InternalNode H) : Option (List UInt8) := do
  let (existence_bitmap, leaf_bitmap) := node.generate_bitmaps
  let children ← node.children.mapM fun (_, child) => serialize_child hb child
  pure (to_le 2 existence_bitmap ++ to_le 2 leaf_bitmap ++ children.flatten)

-- One pass of the loop of deserialize: the child at next_child, read off the front of reader.
def deserialize_child (leaf_bitmap next_child children : ℕ) (reader : List UInt8) :
    Except DecodeError (Child H × List UInt8) := do
  let (version, reader) ← deserialize_u64_varint reader
  if reader.length < 32 then throw (.NotEnoughBytes children reader.length)
  let hash ← match hb.from_slice (reader.take 32) with
    | some hash => pure hash
    | none => throw .HashValueParseError
  let reader := reader.drop 32
  if leaf_bitmap &&& 1 <<< next_child ≠ 0 then pure (⟨hash, version, .Leaf⟩, reader)
  else do
    let (leaf_count, reader) ← deserialize_u64_varint reader
    pure (⟨hash, version, .Internal leaf_count⟩, reader)

-- The loop of deserialize with k passes left; it returns the bitmap it leaves for the final
-- assertion. None is the assertion of Nibble::from on the lowest set bit.
def deserialize_children (leaf_bitmap : ℕ) :
    ℕ → ℕ → List UInt8 → Option (Except DecodeError (ℕ × List (Nibble × Child H)))
  | 0, existence_bitmap, _ => some (.ok (existence_bitmap, []))
  | k + 1, existence_bitmap, reader =>
    let next_child := trailing_zeros 16 existence_bitmap
    if h : next_child < 16 then
      match deserialize_child hb leaf_bitmap next_child (count_ones 16 existence_bitmap) reader with
      | .error e => some (.error e)
      | .ok (child, reader) =>
        (deserialize_children leaf_bitmap k (existence_bitmap &&& (1 <<< next_child ^^^ 0xFFFF))
          reader).map (Except.map fun (existence_bitmap, children) =>
            (existence_bitmap, (⟨next_child, h⟩, child) :: children))
    else none

-- None is the panic of assert_eq!(existence_bitmap, 0).
def deserialize (data : List UInt8) : Option (Except DecodeError (InternalNode H)) :=
  match read 2 data with
  | none => some (.error .UnexpectedEof)
  | some (existence_bytes, data) =>
    match read 2 data with
    | none => some (.error .UnexpectedEof)
    | some (leaf_bytes, reader) =>
      let existence_bitmap := of_le existence_bytes
      let leaf_bitmap := of_le leaf_bytes
      if existence_bitmap = 0 then some (.error .NoChildren)
      else if existence_bitmap &&& leaf_bitmap ≠ leaf_bitmap then
        some (.error (.ExtraLeaves existence_bitmap leaf_bitmap))
      else
        match deserialize_children hb leaf_bitmap (count_ones 16 existence_bitmap) existence_bitmap
            reader with
        | none => none
        | some (.error e) => some (.error e)
        | some (.ok (existence_bitmap, children)) =>
          if existence_bitmap = 0 then
            some (match InternalNode.new children with
              | some node => .ok node
              | none => .error .ChildrenEmpty)
          else none

theorem serialize_child_round_trip {child : Child H} (hc : child.Storable) :
    ∃ bytes, serialize_child hb child = some bytes ∧ ∀ leaf_bitmap next_child children rest,
      leaf_bitmap.testBit next_child = child.is_leaf →
      deserialize_child hb leaf_bitmap next_child children (bytes ++ rest) = .ok (child, rest) := by
  obtain ⟨hash, version, node_type⟩ := child
  obtain ⟨hversion, htype⟩ := hc
  obtain ⟨vbytes, hvser, hvde⟩ := varint_round_trip hversion
  have hhash : ∀ rest, (hb.to_vec hash ++ rest).take 32 = hb.to_vec hash ∧
      (hb.to_vec hash ++ rest).drop 32 = rest ∧ ¬(hb.to_vec hash ++ rest).length < 32 := fun rest => by
    have := hb.length_to_vec hash
    refine ⟨?_, ?_, ?_⟩
    · rw [List.take_append_of_le_length (by omega), List.take_of_length_le (by omega)]
    · rw [List.drop_append_of_le_length (by omega), List.drop_of_length_le (by omega), List.nil_append]
    · simp
      omega
  cases node_type with
  | Leaf =>
    refine ⟨vbytes ++ hb.to_vec hash ++ [], by simp [serialize_child, hvser], ?_⟩
    intro leaf_bitmap next_child children rest hleaf
    obtain ⟨htake, hdrop, hlen⟩ := hhash rest
    have hbit : leaf_bitmap &&& 1 <<< next_child ≠ 0 :=
      (and_shiftLeft_one_ne_zero_iff _ _).mpr (by simpa [Child.is_leaf] using hleaf)
    simp only [deserialize_child, List.append_nil, List.append_assoc, hvde, Except.ok_bind, hlen,
      if_false, htake, hb.from_slice_to_vec, Except.pure_eq_ok, hdrop, if_pos hbit]
  | Internal leaf_count =>
    obtain ⟨lbytes, hlser, hlde⟩ := varint_round_trip htype
    refine ⟨vbytes ++ hb.to_vec hash ++ lbytes, by simp [serialize_child, hvser, hlser], ?_⟩
    intro leaf_bitmap next_child children rest hleaf
    obtain ⟨htake, hdrop, hlen⟩ := hhash (lbytes ++ rest)
    have hbit : ¬(leaf_bitmap &&& 1 <<< next_child ≠ 0) := by
      rw [and_shiftLeft_one_ne_zero_iff]
      simpa [Child.is_leaf] using hleaf
    simp only [deserialize_child, List.append_assoc, hvde, Except.ok_bind, hlen, if_false, htake,
      hb.from_slice_to_vec, Except.pure_eq_ok, hdrop, if_neg hbit, hlde]
  | Null => exact htype.elim


-- Each pass of the loop reads the child at the lowest bit still set and clears that bit; with the
-- children written in increasing nibble order it reads them all back in order.
theorem deserialize_children_round_trip (leaf_bitmap : ℕ) :
    ∀ (r : List (Nibble × Child H)) (e : ℕ), r.Pairwise (fun a b => a.1 < b.1) →
      (∀ c ∈ r, c.2.Storable) → (∀ c ∈ r, leaf_bitmap.testBit c.1.val = c.2.is_leaf) →
      (∀ j, e.testBit j = true ↔ j ∈ r.map (·.1.val)) →
      ∃ bss, r.mapM (fun (_, child) => serialize_child hb child) = some bss ∧ ∀ rest,
        deserialize_children hb leaf_bitmap r.length e (bss.flatten ++ rest) = some (.ok (0, r)) := by
  intro r
  induction r with
  | nil =>
    intro e _ _ _ he
    have he0 : e = 0 := eq_zero_of_testBit fun j => by simpa using he j
    exact ⟨[], rfl, fun rest => by rw [he0]; rfl⟩
  | cons p r ih =>
    obtain ⟨nibble, child⟩ := p
    intro e hsorted hstor hleaf he
    obtain ⟨hlt, hsorted⟩ := List.pairwise_cons.mp hsorted
    obtain ⟨cbytes, hcser, hcde⟩ := serialize_child_round_trip hb (hstor _ List.mem_cons_self)
    have he' : ∀ j, (e &&& (1 <<< nibble.val ^^^ 0xFFFF)).testBit j = true ↔ j ∈ r.map (·.1.val) := by
      intro j
      rw [Nat.one_shiftLeft, show (0xFFFF : ℕ) = 2 ^ 16 - 1 from rfl,
        testBit_and_xor_two_pow nibble.isLt]
      constructor
      · intro hj
        simp only [Bool.and_eq_true, decide_eq_true_eq, Bool.not_eq_true', decide_eq_false_iff_not] at hj
        obtain ⟨hj, -, hne⟩ := hj
        rw [he j, List.map_cons, List.mem_cons] at hj
        exact hj.resolve_left (Ne.symm hne)
      · intro hj
        obtain ⟨⟨nibble', child'⟩, hmem, rfl⟩ := List.mem_map.mp hj
        have hlt' := hlt _ hmem
        simp only [Bool.and_eq_true, decide_eq_true_eq, Bool.not_eq_true', decide_eq_false_iff_not]
        refine ⟨(he _).mpr (List.mem_cons_of_mem _ hj), nibble'.isLt, ?_⟩
        exact Nat.ne_of_lt hlt'
    obtain ⟨bss, hser, hde⟩ := ih _ hsorted (fun c hc => hstor c (List.mem_cons_of_mem _ hc))
      (fun c hc => hleaf c (List.mem_cons_of_mem _ hc)) he'
    have htz : trailing_zeros 16 e = nibble.val := by
      refine trailing_zeros_eq nibble.isLt ((he _).mpr List.mem_cons_self) fun j hj => ?_
      by_contra hset
      rw [Bool.not_eq_false, he j, List.map_cons, List.mem_cons] at hset
      rcases hset with rfl | hmem
      · exact absurd hj (Nat.lt_irrefl _)
      · obtain ⟨⟨nibble', child'⟩, hmem', rfl⟩ := List.mem_map.mp hmem
        have := hlt _ hmem'
        simp only [Fin.lt_def] at this hj
        omega
    refine ⟨cbytes :: bss, by simp [List.mapM_cons, hcser, hser], fun rest => ?_⟩
    rw [List.length_cons, List.flatten_cons, List.append_assoc, deserialize_children]
    simp only [htz, nibble.isLt, dite_true, hcde _ _ _ _ (hleaf _ List.mem_cons_self), hde rest,
      Option.map_some, Except.map]

theorem foldl_bitmaps_testBit (j : ℕ) : ∀ (l : List (Nibble × Child H)) (acc : ℕ × ℕ),
    (l.foldl (fun (existence_bitmap, leaf_bitmap) (nibble, child) =>
      (existence_bitmap ||| 1 <<< nibble.val,
        if child.is_leaf then leaf_bitmap ||| 1 <<< nibble.val else leaf_bitmap)) acc).1.testBit j =
      (acc.1.testBit j || l.any fun c => c.1.val = j) ∧
    (l.foldl (fun (existence_bitmap, leaf_bitmap) (nibble, child) =>
      (existence_bitmap ||| 1 <<< nibble.val,
        if child.is_leaf then leaf_bitmap ||| 1 <<< nibble.val else leaf_bitmap)) acc).2.testBit j =
      (acc.2.testBit j || l.any fun c => c.1.val = j && c.2.is_leaf) := by
  intro l
  induction l with
  | nil => simp
  | cons p l ih =>
    intro acc
    obtain ⟨nibble, child⟩ := p
    obtain ⟨ih₁, ih₂⟩ := ih (acc.1 ||| 1 <<< nibble.val,
      if child.is_leaf then acc.2 ||| 1 <<< nibble.val else acc.2)
    rw [List.foldl_cons]
    refine ⟨?_, ?_⟩
    · rw [ih₁, testBit_or_shiftLeft_one, List.any_cons, Bool.or_assoc]
    · rw [ih₂, List.any_cons]
      cases hleaf : child.is_leaf
      · simp
      · rw [if_pos rfl, testBit_or_shiftLeft_one, Bool.or_assoc]
        simp

theorem generate_bitmaps_testBit (node : InternalNode H) (j : ℕ) :
    node.generate_bitmaps.1.testBit j = (node.children.any fun c => c.1.val = j) ∧
    node.generate_bitmaps.2.testBit j = (node.children.any fun c => c.1.val = j && c.2.is_leaf) := by
  have h := foldl_bitmaps_testBit j node.children (0, 0)
  simpa [generate_bitmaps] using h

theorem serialize_deserialize {children : List (Nibble × Child H)} {node : InternalNode H}
    (hsorted : children.Pairwise (fun a b => a.1 < b.1)) (hstor : ∀ c ∈ children, c.2.Storable)
    (hnew : InternalNode.new children = some node) :
    ∃ bytes, node.serialize hb = some bytes ∧ deserialize hb bytes = some (.ok node) := by
  have hne : children ≠ [] := by
    rintro rfl
    simp [InternalNode.new] at hnew
  have hnode : node.children = children := by
    simp only [InternalNode.new, List.isEmpty_iff, hne, if_false, Option.some.injEq] at hnew
    rw [← hnew]
  have hnd : (children.map (·.1)).Nodup :=
    (List.pairwise_map.mpr (hsorted.imp fun h => ne_of_lt h))
  have hnd' : (children.map (·.1.val)).Nodup :=
    List.pairwise_map.mpr (hsorted.imp fun h => Nat.ne_of_lt h)
  rcases hbitmaps : generate_bitmaps node with ⟨existence_bitmap, leaf_bitmap⟩
  have hE : ∀ j, existence_bitmap.testBit j = true ↔ j ∈ children.map (·.1.val) := fun j => by
    have := (generate_bitmaps_testBit node j).1
    rw [hbitmaps, hnode] at this
    simp [this]
  have hL : ∀ j, leaf_bitmap.testBit j = true ↔ ∃ c ∈ children, c.1.val = j ∧ c.2.is_leaf = true :=
    fun j => by
    have := (generate_bitmaps_testBit node j).2
    rw [hbitmaps, hnode] at this
    simp [this]
  have hlt16 : ∀ j ∈ children.map (·.1.val), j < 16 := by
    intro j hj
    obtain ⟨c, -, rfl⟩ := List.mem_map.mp hj
    exact c.1.isLt
  have hEbound : existence_bitmap < 2 ^ 16 := Nat.lt_pow_two_of_testBit _ fun i hi => by
    by_contra h
    rw [Bool.not_eq_false, hE] at h
    have := hlt16 i h
    omega
  have hLbound : leaf_bitmap < 2 ^ 16 := Nat.lt_pow_two_of_testBit _ fun i hi => by
    by_contra h
    rw [Bool.not_eq_false, hL] at h
    obtain ⟨c, -, rfl, -⟩ := h
    have := c.1.isLt
    omega
  have hE0 : existence_bitmap ≠ 0 := by
    obtain ⟨c, cs, rfl⟩ := List.exists_cons_of_ne_nil hne
    intro h0
    have := (hE c.1.val).mpr (by simp)
    rw [h0, Nat.zero_testBit] at this
    cases this
  have hsub : existence_bitmap &&& leaf_bitmap = leaf_bitmap := Nat.eq_of_testBit_eq fun j => by
    rw [Nat.testBit_and]
    cases hl : leaf_bitmap.testBit j
    · simp
    · obtain ⟨c, hc, rfl, -⟩ := (hL _).mp hl
      rw [(hE _).mpr (List.mem_map_of_mem hc)]
      rfl
  have hleaf : ∀ c ∈ children, leaf_bitmap.testBit c.1.val = c.2.is_leaf := by
    intro c hc
    cases hcl : c.2.is_leaf
    · by_contra h
      rw [Bool.not_eq_false, hL] at h
      obtain ⟨c', hc', heq, hl'⟩ := h
      have : c' = c := List.inj_on_of_nodup_map hnd hc' hc (Fin.ext heq)
      rw [this, hcl] at hl'
      cases hl'
    · exact (hL _).mpr ⟨c, hc, rfl, hcl⟩
  have hcount : count_ones 16 existence_bitmap = children.length := by
    rw [count_ones_eq_length hnd' hlt16 hE, List.length_map]
  obtain ⟨bss, hser, hde⟩ := deserialize_children_round_trip hb leaf_bitmap children existence_bitmap
    hsorted hstor hleaf hE
  refine ⟨to_le 2 existence_bitmap ++ to_le 2 leaf_bitmap ++ bss.flatten, ?_, ?_⟩
  · simp only [serialize, hbitmaps, hnode]
    rw [hser]
    rfl
  · have hread₁ := read_append (to_le 2 existence_bitmap) (to_le 2 leaf_bitmap ++ bss.flatten)
    have hread₂ := read_append (to_le 2 leaf_bitmap) bss.flatten
    rw [length_to_le] at hread₁ hread₂
    have hofE : of_le (to_le 2 existence_bitmap) = existence_bitmap := by
      rw [of_le_to_le]
      exact Nat.mod_eq_of_lt hEbound
    have hofL : of_le (to_le 2 leaf_bitmap) = leaf_bitmap := by
      rw [of_le_to_le]
      exact Nat.mod_eq_of_lt hLbound
    have hde' := hde []
    rw [List.append_nil] at hde'
    rw [List.append_assoc, deserialize, hread₁]
    dsimp only
    rw [hread₂]
    dsimp only
    rw [hofE, hofL, if_neg hE0, if_neg (not_not.mpr hsub), hcount, hde']
    dsimp only
    rw [if_pos rfl, hnew]

end InternalNode

section Leaf

variable {K H : Type} (kc : BcsCodec K) (hb : HashBytes H)

-- The 32 bytes of a hashed key, most significant first, as HashValue stores them.
def account_key_bytes (k : BitVec HashValue.LENGTH_IN_BITS) : List UInt8 := to_be 32 k.toNat

-- bcs::to_bytes of a LeafNode: its two hashes, its key, then its version as a u64.
def LeafNode.to_bcs (leaf : LeafNode K H) : List UInt8 :=
  account_key_bytes leaf.account_key ++ hb.to_vec leaf.value_hash ++
    kc.serialize leaf.value_index.1 ++ to_le 8 leaf.value_index.2

-- bcs::from_bytes of a LeafNode, which also rejects bytes left over.
def LeafNode.from_bcs (bytes : List UInt8) : Except DecodeError (LeafNode K H) :=
  match read 32 bytes with
  | none => .error .Bcs
  | some (account_key, bytes) =>
    match read 32 bytes with
    | none => .error .Bcs
    | some (value_hash, bytes) =>
      match hb.from_slice value_hash, kc.deserialize bytes with
      | some value_hash, some (key, bytes) =>
        match read 8 bytes with
        | some (version, []) =>
          .ok ⟨BitVec.ofNat HashValue.LENGTH_IN_BITS (of_be account_key), value_hash,
            (key, of_le version)⟩
        | _ => .error .Bcs
      | _, _ => .error .Bcs

theorem ofNat_of_be_account_key_bytes (k : BitVec HashValue.LENGTH_IN_BITS) :
    BitVec.ofNat HashValue.LENGTH_IN_BITS (of_be (account_key_bytes k)) = k := by
  apply BitVec.eq_of_toNat_eq
  have hlt : k.toNat < 256 ^ 32 := lt_of_lt_of_eq k.isLt (by simp [HashValue.LENGTH_IN_BITS])
  rw [account_key_bytes, of_be_to_be, BitVec.toNat_ofNat, Nat.mod_eq_of_lt hlt,
    Nat.mod_eq_of_lt k.isLt]

theorem LeafNode.from_bcs_to_bcs {leaf : LeafNode K H} (hversion : leaf.value_index.2 < 2 ^ 64) :
    LeafNode.from_bcs kc hb (leaf.to_bcs kc hb) = .ok leaf := by
  obtain ⟨account_key, value_hash, key, version⟩ := leaf
  have hread₁ : read 32 (account_key_bytes account_key ++
      (hb.to_vec value_hash ++ (kc.serialize key ++ to_le 8 version))) =
      some (account_key_bytes account_key, hb.to_vec value_hash ++ (kc.serialize key ++ to_le 8 version)) := by
    have h := read_append (account_key_bytes account_key)
      (hb.to_vec value_hash ++ (kc.serialize key ++ to_le 8 version))
    rwa [account_key_bytes, length_to_be] at h
  have hread₂ : read 32 (hb.to_vec value_hash ++ (kc.serialize key ++ to_le 8 version)) =
      some (hb.to_vec value_hash, kc.serialize key ++ to_le 8 version) := by
    have h := read_append (hb.to_vec value_hash) (kc.serialize key ++ to_le 8 version)
    rwa [hb.length_to_vec] at h
  have hread₃ : read 8 (to_le 8 version) = some (to_le 8 version, []) := by
    have h := read_append (to_le 8 version) []
    rwa [length_to_le, List.append_nil] at h
  have hversion' : of_le (to_le 8 version) = version := by
    rw [of_le_to_le]
    exact Nat.mod_eq_of_lt hversion
  simp only [LeafNode.to_bcs, List.append_assoc, LeafNode.from_bcs, hread₁, hread₂,
    hb.from_slice_to_vec, kc.deserialize_serialize, hread₃, hversion',
    ofNat_of_be_account_key_bytes]

end Leaf

inductive NodeTag where
  | Leaf
  | Internal
  | Null
deriving DecidableEq, Repr

def NodeTag.to_u8 : NodeTag → UInt8
  | .Leaf => 1
  | .Internal => 2
  | .Null => 3

def NodeTag.from_u8 (tag : UInt8) : Option NodeTag :=
  if tag = 1 then some .Leaf
  else if tag = 2 then some .Internal
  else if tag = 3 then some .Null
  else none

namespace Node

variable {K H : Type} (kc : BcsCodec K) (hb : HashBytes H)

def encode : Node K H → Option (List UInt8)
  | .Internal internal_node => (internal_node.serialize hb).map (NodeTag.Internal.to_u8 :: ·)
  | .Leaf leaf_node => some (NodeTag.Leaf.to_u8 :: leaf_node.to_bcs kc hb)
  | .Null => some [NodeTag.Null.to_u8]

def decode (val : List UInt8) : Option (Except DecodeError (Node K H)) :=
  match val with
  | [] => some (.error .EmptyInput)
  | tag :: val =>
    match NodeTag.from_u8 tag with
    | some .Internal => (InternalNode.deserialize hb val).map (Except.map .Internal)
    | some .Leaf => some ((LeafNode.from_bcs kc hb val).map .Leaf)
    | some .Null => some (.ok .Null)
    | none => some (.error (.UnknownTag tag))

end Node

-- HashValue: its 32 bytes, most significant first, read back from exactly 32 bytes.
def hash_value_bytes : HashBytes (BitVec HashValue.LENGTH_IN_BITS) where
  to_vec := account_key_bytes
  from_slice bytes :=
    if bytes.length = 32 then some (BitVec.ofNat HashValue.LENGTH_IN_BITS (of_be bytes)) else none
  length_to_vec k := length_to_be 32 k.toNat
  from_slice_to_vec k := by
    have hlen : (account_key_bytes k).length = 32 := length_to_be 32 k.toNat
    rw [if_pos hlen, ofNat_of_be_account_key_bytes]

-- BCS of a u64: eight bytes, least significant first.
def bcs_u64 : BcsCodec UInt64 where
  serialize k := to_le 8 k.toNat
  deserialize bytes := (read 8 bytes).map fun (k, rest) => (UInt64.ofNat (of_le k), rest)
  deserialize_serialize k rest := by
    have h := read_append (to_le 8 k.toNat) rest
    rw [length_to_le] at h
    rw [h, Option.map_some]
    dsimp only
    rw [of_le_to_le, Nat.mod_eq_of_lt (show k.toNat < 256 ^ 8 from k.toNat_lt), UInt64.ofNat_toNat]

theorem node_encoding_round_trip {K H : Type} (kc : BcsCodec K) (hb : HashBytes H) :
    (∀ (children : List (Nibble × Child H)) (node : InternalNode H),
      children.Pairwise (fun a b => a.1 < b.1) → (∀ c ∈ children, c.2.Storable) →
      InternalNode.new children = some node →
      ∃ bytes, (Node.Internal node : Node K H).encode kc hb = some bytes ∧
        Node.decode kc hb bytes = some (.ok (.Internal node))) ∧
    (∀ leaf : LeafNode K H, leaf.value_index.2 < 2 ^ 64 →
      ∃ bytes, (Node.Leaf leaf : Node K H).encode kc hb = some bytes ∧
        Node.decode kc hb bytes = some (.ok (.Leaf leaf))) ∧
    (∃ bytes, (Node.Null : Node K H).encode kc hb = some bytes ∧
      Node.decode kc hb bytes = some (.ok .Null)) ∧
    (∀ n < 2 ^ 64, ∃ bytes, serialize_u64_varint n = some bytes ∧
      ∀ rest, deserialize_u64_varint (bytes ++ rest) = .ok (n, rest)) := by
  refine ⟨fun children node hsorted hstor hnew => ?_, fun leaf hversion => ?_, ⟨[3], rfl, rfl⟩,
    fun n hn => varint_round_trip hn⟩
  · obtain ⟨bytes, hser, hde⟩ := InternalNode.serialize_deserialize hb hsorted hstor hnew
    refine ⟨NodeTag.Internal.to_u8 :: bytes, by simp [Node.encode, hser], ?_⟩
    simp [Node.decode, NodeTag.to_u8, NodeTag.from_u8, hde, Except.map]
  · refine ⟨NodeTag.Leaf.to_u8 :: leaf.to_bcs kc hb, rfl, ?_⟩
    simp [Node.decode, NodeTag.to_u8, NodeTag.from_u8, LeafNode.from_bcs_to_bcs kc hb hversion,
      Except.map]

theorem node_encoding_round_trip_two_children :
    ∃ bytes, (Node.Internal ⟨[(0, ⟨0, 5, .Leaf⟩), (1, ⟨0, 7, .Internal 3⟩)], 4⟩ :
        Node UInt64 (BitVec HashValue.LENGTH_IN_BITS)).encode bcs_u64 hash_value_bytes = some bytes ∧
      Node.decode bcs_u64 hash_value_bytes bytes =
        some (.ok (.Internal ⟨[(0, ⟨0, 5, .Leaf⟩), (1, ⟨0, 7, .Internal 3⟩)], 4⟩)) :=
  (node_encoding_round_trip bcs_u64 hash_value_bytes).1
    [(0, ⟨0, 5, .Leaf⟩), (1, ⟨0, 7, .Internal 3⟩)] _ (by decide)
    (fun c hc => by
      simp only [List.mem_cons, List.not_mem_nil, or_false] at hc
      rcases hc with rfl | rfl <;> exact ⟨by decide, by decide⟩)
    rfl

-- Children given out of nibble order are written in their order but read back in bitmap order,
-- so each nibble gets the bytes of another child.
theorem node_encoding_unsorted_children :
    InternalNode.new [(1, ⟨0, 5, .Leaf⟩), (0, ⟨0, 7, .Internal 3⟩)] =
      some (⟨[(1, ⟨0, 5, .Leaf⟩), (0, ⟨0, 7, .Internal 3⟩)], 4⟩ :
        InternalNode (BitVec HashValue.LENGTH_IN_BITS)) ∧
    ((Node.Internal ⟨[(1, ⟨0, 5, .Leaf⟩), (0, ⟨0, 7, .Internal 3⟩)], 4⟩ :
        Node UInt64 (BitVec HashValue.LENGTH_IN_BITS)).encode bcs_u64 hash_value_bytes).bind
      (Node.decode bcs_u64 hash_value_bytes) =
      some (.ok (.Internal ⟨[(0, ⟨0, 5, .Internal 7⟩), (1, ⟨3, 0, .Leaf⟩)], 8⟩)) :=
  ⟨rfl, rfl⟩

end Zapatos.JellyfishMerkle

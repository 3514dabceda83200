import Zapatos.JellyfishMerkle.NibblePath
import Zapatos.Lib.Bytes

namespace Zapatos.JellyfishMerkle.Physical

open Bytes

-- NodeKey as the storage layer sees it: a u64 version and the packed nibble path, ordered as the
-- derived Ord orders them (version, then num_nibbles, then bytes).
structure NodeKey where
  version : UInt64
  nibble_path : NibblePath
deriving DecidableEq, Ord, Repr

-- The failures of NodeKey::decode: a short read, then its three ensure! checks.
inductive DecodeError where
  | UnexpectedEof
  | InvalidNumberOfNibbles (num_nibbles : ℕ)
  | NumNibblesMismatch (num_nibbles : ℕ) (nibble_bytes : List UInt8)
  | PaddingNotZero (padding : UInt8)
deriving DecidableEq, Repr

namespace NodeKey

def WellFormed (k : NodeKey) : Prop := k.nibble_path.WellFormed

def encode (k : NodeKey) : List UInt8 :=
  to_be 8 k.version.toNat ++ [UInt8.ofNat k.nibble_path.num_nibbles] ++ k.nibble_path.bytes

-- None is a panic: the unwrap of the last byte, or an assertion of new_even or new_odd.
def decode (val : List UInt8) : Option (Except DecodeError NodeKey) :=
  match read 8 val with
  | none => some (.error .UnexpectedEof)
  | some (version_bytes, val) =>
    match val with
    | [] => some (.error .UnexpectedEof)
    | num_byte :: nibble_bytes =>
      let version := UInt64.ofNat (of_be version_bytes)
      let num_nibbles := num_byte.toNat
      if num_nibbles ≤ ROOT_NIBBLE_HEIGHT then
        if (num_nibbles + 1) / 2 = nibble_bytes.length then
          if num_nibbles % 2 = 0 then
            (NibblePath.new_even nibble_bytes).map fun nibble_path => .ok ⟨version, nibble_path⟩
          else
            match nibble_bytes.getLast? with
            | some last =>
              let padding := last &&& 0x0F
              if padding = 0 then
                (NibblePath.new_odd nibble_bytes).map fun nibble_path => .ok ⟨version, nibble_path⟩
              else some (.error (.PaddingNotZero padding))
            | none => none
        else some (.error (.NumNibblesMismatch num_nibbles nibble_bytes))
      else some (.error (.InvalidNumberOfNibbles num_nibbles))

theorem compare_uint64 (a b : UInt64) : compare a b = compare a.toNat b.toNat := by
  simp [compare, compareOfLessAndEq, UInt64.lt_iff_toNat_lt, UInt64.toNat_inj]

theorem compare_nibble_path (p q : NibblePath) :
    compare p q = (compare p.num_nibbles q.num_nibbles).then (compare p.bytes q.bytes) := by
  cases p
  cases q
  simp [compare, instOrdNibblePath.ord]

theorem compare_eq (a b : NodeKey) :
    compare a b = (compare a.version b.version).then (compare a.nibble_path b.nibble_path) := by
  cases a
  cases b
  simp [compare, instOrdNodeKey.ord]

-- The storage bytes compare exactly as the keys do: a big-endian version of fixed width, then a
-- length byte, then the packed path.
theorem compare_encode {a b : NodeKey} (ha : a.WellFormed) (hb : b.WellFormed) :
    compare a.encode b.encode = compare a b := by
  have hnum : ∀ k : NodeKey, k.WellFormed →
      (UInt8.ofNat k.nibble_path.num_nibbles).toNat = k.nibble_path.num_nibbles := fun k hk => by
    have := hk.num_nibbles_le
    rw [UInt8.toNat_ofNat']
    exact Nat.mod_eq_of_lt (by simp [ROOT_NIBBLE_HEIGHT, HashValue.LENGTH_IN_BITS] at this; omega)
  have hversion : ∀ k : NodeKey, k.version.toNat < 256 ^ 8 := fun k => k.version.toNat_lt
  rw [encode, encode, List.append_assoc, List.append_assoc,
    compare_append_of_length_eq (by simp), compare_append_of_length_eq (by simp),
    compare_singleton, compare_uint8, hnum a ha, hnum b hb,
    compare_to_be (hversion a) (hversion b), compare_eq, compare_uint64, compare_nibble_path]

theorem decode_encode {k : NodeKey} (hk : k.WellFormed) : decode k.encode = some (.ok k) := by
  obtain ⟨version, ⟨num_nibbles, bytes⟩⟩ := k
  obtain ⟨hle, hlen, hpad⟩ := hk
  dsimp only at hle hlen hpad
  have hle' : num_nibbles < 256 := by simp [ROOT_NIBBLE_HEIGHT, HashValue.LENGTH_IN_BITS] at hle; omega
  have hread : read 8 (encode ⟨version, ⟨num_nibbles, bytes⟩⟩) =
      some (to_be 8 version.toNat, UInt8.ofNat num_nibbles :: bytes) := by
    have h := read_append (to_be 8 version.toNat) (UInt8.ofNat num_nibbles :: bytes)
    rw [length_to_be] at h
    simpa only [encode, List.append_assoc, List.singleton_append] using h
  have hversion : UInt64.ofNat (of_be (to_be 8 version.toNat)) = version := by
    rw [of_be_to_be, Nat.mod_eq_of_lt (show version.toNat < 256 ^ 8 from version.toNat_lt)]
    exact UInt64.ofNat_toNat
  have hbyte : (UInt8.ofNat num_nibbles).toNat = num_nibbles := by
    rw [UInt8.toNat_ofNat']
    exact Nat.mod_eq_of_lt hle'
  have hbound : bytes.length ≤ ROOT_NIBBLE_HEIGHT / 2 := by
    simp [ROOT_NIBBLE_HEIGHT, HashValue.LENGTH_IN_BITS] at hle ⊢
    omega
  rw [decode, hread]
  dsimp only
  rw [hbyte, hversion, if_pos hle, if_pos hlen.symm]
  rcases Nat.mod_two_eq_zero_or_one num_nibbles with he | ho
  · rw [if_pos he, NibblePath.new_even, if_pos hbound, Option.map_some]
    have : bytes.length * 2 = num_nibbles := by omega
    rw [this]
  · rw [if_neg (by omega)]
    obtain ⟨init, last, rfl⟩ : ∃ init last, bytes = init ++ [last] := by
      rcases List.eq_nil_or_concat bytes with h | ⟨init, last, h⟩
      · rw [h] at hlen
        simp at hlen
        omega
      · exact ⟨init, last, by rw [h, List.concat_eq_append]⟩
    have hlast : last &&& 0x0F = 0 := hpad ho last (by simp)
    simp only [List.getLast?_concat, hlast, if_true, NibblePath.new_odd, if_pos hbound,
      Option.map_some]
    have : (init ++ [last]).length * 2 - 1 = num_nibbles := by simp at hlen ⊢; omega
    rw [this]

end NodeKey

open NibblePath in
theorem node_key_encoding_round_trip_order :
    (∀ k : NodeKey, k.WellFormed → NodeKey.decode k.encode = some (.ok k)) ∧
    (∀ a b : NodeKey, a.WellFormed → b.WellFormed →
      (compare a b = .lt ↔ compare a.encode b.encode = .lt)) ∧
    (∀ (p p' : NibblePath) (nibble : Nibble), p.WellFormed → p.push nibble = some p' →
      p'.WellFormed) ∧
    (∀ (p p' : NibblePath) (o : Option Nibble), p.WellFormed → p.pop = some (p', o) →
      p'.WellFormed) ∧
    (∀ (p p' : NibblePath) (len : ℕ), p.WellFormed → p.truncate len = some p' → p'.WellFormed) ∧
    (∀ (p p' : NibblePath) (nibble : Nibble), p.WellFormed → p.push nibble = some p' →
      p'.pop = some (p, some nibble)) := by
  refine ⟨fun k hk => NodeKey.decode_encode hk, fun a b ha hb => ?_, fun p p' _ hp h => hp.push h,
    fun p p' _ hp h => hp.pop h, fun p p' _ hp h => hp.truncate h, fun p p' _ hp h => pop_push hp h⟩
  rw [NodeKey.compare_encode ha hb]

theorem node_key_encoding_round_trip_order_odd_path :
    NodeKey.decode (⟨7, ⟨1, [0x30]⟩⟩ : NodeKey).encode = some (.ok ⟨7, ⟨1, [0x30]⟩⟩) :=
  node_key_encoding_round_trip_order.1 _ ⟨by decide, rfl, fun _ b hb => by simp at hb; subst hb; decide⟩

end Zapatos.JellyfishMerkle.Physical

import Zapatos.JellyfishMerkle.NodeType

namespace Zapatos.JellyfishMerkle

section Byte

-- The halves of a byte as numbers: the arithmetic behind the nibble operations.
theorem toNat_and_0F (b : UInt8) : (b &&& 0x0F).toNat = b.toNat % 16 := by
  rw [UInt8.toNat_and]
  exact Nat.and_two_pow_sub_one_eq_mod b.toNat 4

theorem toNat_shiftRight_4 (b : UInt8) : (b >>> 4).toNat = b.toNat / 16 := by
  rw [UInt8.toNat_shiftRight]
  simp [Nat.shiftRight_eq_div_pow]

theorem toNat_and_F0 (b : UInt8) : (b &&& 0xF0).toNat = b.toNat / 16 * 16 := by
  have h : ∀ x : Fin 256, x.val &&& 240 = x.val / 16 * 16 := by decide +kernel
  rw [UInt8.toNat_and]
  exact h ⟨b.toNat, b.toNat_lt⟩

theorem toNat_shiftLeft_4 {n : ℕ} (h : n < 16) : (UInt8.ofNat n <<< 4).toNat = n * 16 := by
  rw [UInt8.toNat_shiftLeft, UInt8.toNat_ofNat']
  simp [Nat.shiftLeft_eq]
  omega

theorem toNat_or_of_mod_eq_zero {b : UInt8} {n : ℕ} (hb : b.toNat % 16 = 0) (h : n < 16) :
    (b ||| UInt8.ofNat n).toNat = b.toNat + n := by
  have hq : b.toNat = 2 ^ 4 * (b.toNat / 16) := by omega
  rw [UInt8.toNat_or, UInt8.toNat_ofNat', Nat.mod_eq_of_lt (by omega : n < 2 ^ 8), hq,
    ← Nat.two_pow_add_eq_or_of_lt (by omega : n < 2 ^ 4)]

-- Nibble::from on the low half and on the high half of a byte, which are below 16, so that its
-- assertion holds.
def nibble_of_low (b : UInt8) : Nibble :=
  ⟨(b &&& 0x0F).toNat, by rw [toNat_and_0F]; omega⟩

def nibble_of_high (b : UInt8) : Nibble :=
  ⟨(b >>> 4).toNat, by rw [toNat_shiftRight_4]; have := b.toNat_lt; omega⟩

end Byte

structure NibblePath where
  num_nibbles : ℕ
  bytes : List UInt8
deriving DecidableEq, Ord, Repr

namespace NibblePath

-- At most ROOT_NIBBLE_HEIGHT nibbles, two to a byte, and for an odd count a zero low half in the
-- last byte.
structure WellFormed (p : NibblePath) : Prop where
  num_nibbles_le : p.num_nibbles ≤ ROOT_NIBBLE_HEIGHT
  length_bytes : p.bytes.length = (p.num_nibbles + 1) / 2
  padding : p.num_nibbles % 2 = 1 → ∀ b ∈ p.bytes.getLast?, b &&& 0x0F = 0

def new_even (bytes : List UInt8) : Option NibblePath :=
  if bytes.length ≤ ROOT_NIBBLE_HEIGHT / 2 then some ⟨bytes.length * 2, bytes⟩ else none

def new_odd (bytes : List UInt8) : Option NibblePath :=
  if bytes.length ≤ ROOT_NIBBLE_HEIGHT / 2 then
    match bytes.getLast? with
    | some last => if last &&& 0x0F = 0 then some ⟨bytes.length * 2 - 1, bytes⟩ else none
    | none => none
  else none

def push (p : NibblePath) (nibble : Nibble) : Option NibblePath :=
  if ROOT_NIBBLE_HEIGHT > p.num_nibbles then
    if p.num_nibbles % 2 = 0 then
      some ⟨p.num_nibbles + 1, p.bytes ++ [UInt8.ofNat nibble.val <<< 4]⟩
    else
      match p.bytes[p.num_nibbles / 2]? with
      | some b =>
        some ⟨p.num_nibbles + 1, p.bytes.set (p.num_nibbles / 2) (b ||| UInt8.ofNat nibble.val)⟩
      | none => none
  else none

-- None is the panic of num_nibbles -= 1 on a path with bytes but no nibbles.
def pop (p : NibblePath) : Option (NibblePath × Option Nibble) :=
  let (bytes, poped_nibble) : List UInt8 × Option Nibble :=
    if p.num_nibbles % 2 = 0 then
      match p.bytes.getLast? with
      | some last => (p.bytes.set (p.bytes.length - 1) (last &&& 0xF0), some (nibble_of_low last))
      | none => (p.bytes, none)
    else
      match p.bytes.getLast? with
      | some byte => (p.bytes.dropLast, some (nibble_of_high byte))
      | none => (p.bytes, none)
  if poped_nibble.isSome then
    if p.num_nibbles = 0 then none else some (⟨p.num_nibbles - 1, bytes⟩, poped_nibble)
  else some (⟨p.num_nibbles, bytes⟩, poped_nibble)

def truncate (p : NibblePath) (len : ℕ) : Option NibblePath :=
  if len ≤ p.num_nibbles then
    let bytes := p.bytes.take ((len + 1) / 2)
    if len % 2 ≠ 0 then
      match bytes.getLast? with
      | some last => some ⟨len, bytes.set (bytes.length - 1) (last &&& 0xF0)⟩
      | none => none
    else some ⟨len, bytes⟩
  else none

def get_nibble (p : NibblePath) (i : ℕ) : Option Nibble :=
  if i < p.num_nibbles then
    p.bytes[i / 2]?.map fun b => nibble_of_low (b >>> (if i % 2 = 1 then 0 else 4 : UInt8))
  else none

variable {p p' : NibblePath} {nibble : Nibble}

-- A path with nibbles ends in the byte that holds its last nibble; for an odd count the low half
-- of that byte is the zero padding.
theorem WellFormed.exists_last (hp : p.WellFormed) (hpos : 0 < p.num_nibbles) :
    ∃ init last, p.bytes = init ++ [last] ∧ init.length = (p.num_nibbles - 1) / 2 ∧
      (p.num_nibbles % 2 = 1 → last.toNat % 16 = 0) := by
  have hlen := hp.length_bytes
  rcases List.eq_nil_or_concat p.bytes with h | ⟨init, last, h⟩
  · rw [h] at hlen
    simp at hlen
    omega
  · rw [List.concat_eq_append] at h
    rw [h] at hlen
    refine ⟨init, last, h, by simp at hlen; omega, fun ho => ?_⟩
    have hpad := hp.padding ho last (by rw [h]; simp)
    rw [← toNat_and_0F, hpad]
    rfl

theorem WellFormed.bytes_eq_nil (hp : p.WellFormed) (h0 : p.num_nibbles = 0) : p.bytes = [] :=
  List.eq_nil_of_length_eq_zero (by rw [hp.length_bytes, h0])

theorem push_of_even (hlt : p.num_nibbles < ROOT_NIBBLE_HEIGHT) (he : p.num_nibbles % 2 = 0) :
    p.push nibble = some ⟨p.num_nibbles + 1, p.bytes ++ [UInt8.ofNat nibble.val <<< 4]⟩ := by
  simp [push, hlt, he]

theorem push_of_odd {init : List UInt8} {last : UInt8} (hlt : p.num_nibbles < ROOT_NIBBLE_HEIGHT)
    (ho : p.num_nibbles % 2 = 1) (hbytes : p.bytes = init ++ [last])
    (hinit : init.length = (p.num_nibbles - 1) / 2) :
    p.push nibble = some ⟨p.num_nibbles + 1, init ++ [last ||| UInt8.ofNat nibble.val]⟩ := by
  have hidx : p.num_nibbles / 2 = init.length := by omega
  simp [push, hlt, ho, hbytes, hidx]

theorem pop_of_even {init : List UInt8} {last : UInt8} (he : p.num_nibbles % 2 = 0)
    (hpos : 0 < p.num_nibbles) (hbytes : p.bytes = init ++ [last]) :
    p.pop = some (⟨p.num_nibbles - 1, init ++ [last &&& 0xF0]⟩, some (nibble_of_low last)) := by
  simp [pop, he, hbytes, Nat.pos_iff_ne_zero.mp hpos]

theorem pop_of_odd {init : List UInt8} {last : UInt8} (ho : p.num_nibbles % 2 = 1)
    (hbytes : p.bytes = init ++ [last]) :
    p.pop = some (⟨p.num_nibbles - 1, init⟩, some (nibble_of_high last)) := by
  have hne : p.num_nibbles ≠ 0 := by omega
  simp [pop, ho, hbytes, hne]

theorem pop_of_bytes_eq_nil (h : p.bytes = []) : p.pop = some (p, none) := by
  cases p
  simp_all [pop]

theorem shiftLeft_4_and_0F (nibble : Nibble) : (UInt8.ofNat nibble.val <<< 4) &&& 0x0F = 0 := by
  apply UInt8.toNat_inj.mp
  rw [toNat_and_0F, toNat_shiftLeft_4 nibble.isLt]
  simp

theorem and_F0_and_0F (b : UInt8) : (b &&& 0xF0) &&& 0x0F = 0 := by
  apply UInt8.toNat_inj.mp
  rw [toNat_and_0F, toNat_and_F0]
  simp

theorem WellFormed.push (hp : p.WellFormed) (h : p.push nibble = some p') : p'.WellFormed := by
  have hlt : p.num_nibbles < ROOT_NIBBLE_HEIGHT := by
    by_contra hge
    simp [NibblePath.push, hge] at h
  rcases Nat.mod_two_eq_zero_or_one p.num_nibbles with he | ho
  · rw [push_of_even hlt he, Option.some.injEq] at h
    subst h
    refine ⟨hlt, by simp [hp.length_bytes]; omega, fun _ b hb => ?_⟩
    simp only [List.getLast?_concat, Option.mem_def, Option.some.injEq] at hb
    rw [← hb]
    exact shiftLeft_4_and_0F nibble
  · obtain ⟨init, last, hbytes, hinit, -⟩ := hp.exists_last (by omega)
    rw [push_of_odd hlt ho hbytes hinit, Option.some.injEq] at h
    subst h
    refine ⟨hlt, by simp; omega, fun ho' => ?_⟩
    dsimp only at ho'
    omega

theorem WellFormed.pop (hp : p.WellFormed) {o : Option Nibble} (h : p.pop = some (p', o)) :
    p'.WellFormed := by
  rcases Nat.eq_zero_or_pos p.num_nibbles with h0 | hpos
  · rw [pop_of_bytes_eq_nil (hp.bytes_eq_nil h0), Option.some.injEq, Prod.mk.injEq] at h
    exact h.1 ▸ hp
  obtain ⟨init, last, hbytes, hinit, -⟩ := hp.exists_last hpos
  have hle := hp.num_nibbles_le
  rcases Nat.mod_two_eq_zero_or_one p.num_nibbles with he | ho
  · rw [pop_of_even he hpos hbytes, Option.some.injEq, Prod.mk.injEq] at h
    obtain ⟨rfl, -⟩ := h
    refine ⟨by dsimp only; omega, by simp; omega, fun _ b hb => ?_⟩
    simp only [List.getLast?_concat, Option.mem_def, Option.some.injEq] at hb
    rw [← hb]
    exact and_F0_and_0F last
  · rw [pop_of_odd ho hbytes, Option.some.injEq, Prod.mk.injEq] at h
    obtain ⟨rfl, -⟩ := h
    refine ⟨by dsimp only; omega, by dsimp only; omega, fun ho' => ?_⟩
    dsimp only at ho'
    omega

-- Popping a pushed nibble gives it back and restores the path, padding included.
theorem pop_push (hp : p.WellFormed) (h : p.push nibble = some p') : p'.pop = some (p, some nibble) := by
  have hlt : p.num_nibbles < ROOT_NIBBLE_HEIGHT := by
    by_contra hge
    simp [NibblePath.push, hge] at h
  rcases Nat.mod_two_eq_zero_or_one p.num_nibbles with he | ho
  · rw [push_of_even hlt he, Option.some.injEq] at h
    subst h
    have hhigh : nibble_of_high (UInt8.ofNat nibble.val <<< 4) = nibble := by
      apply Fin.ext
      change (UInt8.ofNat nibble.val <<< 4 >>> 4).toNat = nibble.val
      rw [toNat_shiftRight_4, toNat_shiftLeft_4 nibble.isLt]
      omega
    rw [pop_of_odd (by dsimp only; omega) rfl, hhigh]
    rfl
  · obtain ⟨init, last, hbytes, hinit, hpad⟩ := hp.exists_last (by omega)
    rw [push_of_odd hlt ho hbytes hinit, Option.some.injEq] at h
    subst h
    have hor := toNat_or_of_mod_eq_zero (hpad ho) nibble.isLt
    have hlow : nibble_of_low (last ||| UInt8.ofNat nibble.val) = nibble := by
      apply Fin.ext
      simp only [nibble_of_low, toNat_and_0F, hor]
      omega
    have hhigh : (last ||| UInt8.ofNat nibble.val) &&& 0xF0 = last := by
      apply UInt8.toNat_inj.mp
      rw [toNat_and_F0, hor]
      have := hpad ho
      omega
    rw [pop_of_even (by dsimp only; omega) (by dsimp only; omega) rfl, hhigh, hlow, ← hbytes]
    rfl

theorem WellFormed.truncate (hp : p.WellFormed) {len : ℕ} (h : p.truncate len = some p') :
    p'.WellFormed := by
  unfold NibblePath.truncate at h
  by_cases hle : len ≤ p.num_nibbles
  · rw [if_pos hle] at h
    have hlen : (p.bytes.take ((len + 1) / 2)).length = (len + 1) / 2 := by
      rw [List.length_take, hp.length_bytes]
      omega
    have hnum := hp.num_nibbles_le
    by_cases hodd : len % 2 ≠ 0
    · rw [if_pos hodd] at h
      rcases List.eq_nil_or_concat (p.bytes.take ((len + 1) / 2)) with hnil | ⟨init, last, hcat⟩
      · rw [hnil] at hlen
        simp at hlen
        omega
      · rw [List.concat_eq_append] at hcat
        have hset : (init ++ [last]).set ((init ++ [last]).length - 1) (last &&& 0xF0) =
            init ++ [last &&& 0xF0] := by simp
        rw [hcat, List.getLast?_concat] at h
        dsimp only at h
        rw [hset, Option.some.injEq] at h
        rw [hcat] at hlen
        subst h
        refine ⟨by dsimp only; omega, by simp at hlen ⊢; omega, fun _ b hb => ?_⟩
        simp only [List.getLast?_concat, Option.mem_def, Option.some.injEq] at hb
        rw [← hb]
        exact and_F0_and_0F last
    · rw [if_neg hodd, Option.some.injEq] at h
      subst h
      refine ⟨by dsimp only; omega, hlen, fun ho => ?_⟩
      dsimp only at ho
      omega
  · rw [if_neg hle] at h
    cases h

end NibblePath

end Zapatos.JellyfishMerkle

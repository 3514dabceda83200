import Mathlib

namespace Zapatos.Bits

-- Bit counts of a w-bit word: count_ones, trailing_zeros and leading_zeros of the unsigned
-- integer types, read off the bits below w.
def count_ones (w n : ℕ) : ℕ := ((List.range w).filter n.testBit).length

def trailing_zeros (w n : ℕ) : ℕ := ((List.range w).find? n.testBit).getD w

def leading_zeros (w n : ℕ) : ℕ := (((List.range w).reverse.find? n.testBit).map (w - 1 - ·)).getD w

-- The lowest set bit below w is the number of trailing zeros.
theorem trailing_zeros_eq {w n i : ℕ} (hi : i < w) (hset : n.testBit i = true)
    (hbelow : ∀ j < i, n.testBit j = false) : trailing_zeros w n = i := by
  have hfind : (List.range w).find? n.testBit = some i :=
    List.find?_range_eq_some.mpr ⟨hset, List.mem_range.mpr hi, fun j hj => by simp [hbelow j hj]⟩
  simp [trailing_zeros, hfind]

-- A word whose set bits are the distinct positions s, all below w, has s.length ones.
theorem count_ones_eq_length {w n : ℕ} {s : List ℕ} (hnd : s.Nodup) (hs : ∀ i ∈ s, i < w)
    (h : ∀ i, n.testBit i = true ↔ i ∈ s) : count_ones w n = s.length := by
  have hperm : ((List.range w).filter n.testBit).Perm s := by
    refine (List.perm_ext_iff_of_nodup (List.nodup_range.filter _) hnd).mpr fun i => ?_
    rw [List.mem_filter, List.mem_range, h i]
    exact ⟨fun hi => hi.2, fun hi => ⟨hs i hi, hi⟩⟩
  exact hperm.length_eq

-- Clearing bit i of a w-bit word with the complement mask of that bit.
theorem testBit_and_xor_two_pow {w n i j : ℕ} (hi : i < w) :
    (n &&& (2 ^ i ^^^ (2 ^ w - 1))).testBit j = (n.testBit j && (decide (j < w) && !decide (i = j))) := by
  rw [Nat.testBit_and, Nat.testBit_xor, Nat.testBit_two_pow, Nat.testBit_two_pow_sub_one]
  by_cases hij : i = j
  · subst hij
    simp [hi]
  · simp [hij]

theorem eq_zero_of_testBit {n : ℕ} (h : ∀ i, n.testBit i = false) : n = 0 :=
  Nat.zero_of_testBit_eq_false h

-- OR-ing a bit into a word at a position of its own.
theorem testBit_or_shiftLeft_one (n i j : ℕ) :
    (n ||| 1 <<< i).testBit j = (n.testBit j || decide (i = j)) := by
  rw [Nat.testBit_or, Nat.one_shiftLeft, Nat.testBit_two_pow]

theorem and_shiftLeft_one_ne_zero_iff (n i : ℕ) : n &&& 1 <<< i ≠ 0 ↔ n.testBit i = true := by
  rw [Nat.one_shiftLeft, Nat.and_two_pow]
  cases n.testBit i <;> simp

theorem shiftRight_and_one_ne_zero_iff (n i : ℕ) : n >>> i &&& 1 ≠ 0 ↔ n.testBit i = true := by
  rw [Nat.and_one_is_mod, Nat.testBit_eq_decide_div_mod_eq, Nat.shiftRight_eq_div_pow]
  have := Nat.mod_two_eq_zero_or_one (n / 2 ^ i)
  constructor
  · intro h
    simp only [decide_eq_true_eq]
    omega
  · intro h
    simp only [decide_eq_true_eq] at h
    omega

-- OR-ing in a value above the bits already set adds it.
theorem or_shiftLeft_eq_add {acc s : ℕ} (h : acc < 2 ^ s) (v : ℕ) :
    acc ||| v <<< s = acc + v * 2 ^ s := by
  rw [Nat.shiftLeft_eq, Nat.lor_comm, Nat.mul_comm, ← Nat.two_pow_add_eq_or_of_lt h]
  omega

theorem count_ones_succ (w n : ℕ) :
    count_ones (w + 1) n = count_ones w n + (if n.testBit w then 1 else 0) := by
  by_cases hw : n.testBit w <;> simp [count_ones, List.range_succ, List.filter_append, hw]

-- A word has no more ones than its value below w.
theorem count_ones_le_mod (w n : ℕ) : count_ones w n ≤ n % 2 ^ w := by
  induction w with
  | zero => simp [count_ones]
  | succ w ih =>
    have hpow := Nat.one_le_two_pow (n := w)
    rw [count_ones_succ, Nat.mod_pow_succ, Nat.testBit_eq_decide_div_mod_eq]
    by_cases hbit : n / 2 ^ w % 2 = 1
    · simp only [hbit, decide_true, if_true, Nat.mul_one]
      omega
    · simp only [hbit, decide_false, Bool.false_eq_true, if_false]
      omega

theorem count_ones_le (w n : ℕ) : count_ones w n ≤ n :=
  (count_ones_le_mod w n).trans (Nat.mod_le n _)

-- Setting a bit above every bit of b adds one.
theorem count_ones_two_pow_add {w i b : ℕ} (hi : i < w) (hb : b < 2 ^ i) :
    count_ones w (2 ^ i + b) = count_ones w b + 1 := by
  have hbi : b.testBit i = false := Nat.testBit_eq_false_of_lt hb
  have hbits : ∀ j, (2 ^ i + b).testBit j = (decide (j = i) || b.testBit j) := fun j => by
    rcases Nat.lt_trichotomy j i with hj | rfl | hj
    · rw [Nat.testBit_two_pow_add_gt hj]
      simp [Nat.ne_of_lt hj]
    · rw [Nat.testBit_two_pow_add_eq, hbi]
      simp
    · have hpow : 2 ^ (i + 1) ≤ 2 ^ j := Nat.pow_le_pow_right (by norm_num) hj
      have hsum : 2 ^ i + b < 2 ^ j := by
        rw [Nat.pow_succ] at hpow
        omega
      rw [Nat.testBit_eq_false_of_lt hsum,
        Nat.testBit_eq_false_of_lt (hb.trans_le (Nat.pow_le_pow_right (by norm_num) hj.le))]
      simp [Nat.ne_of_gt hj]
  have hcount := count_ones_eq_length (w := w) (n := 2 ^ i + b)
    (s := i :: (List.range w).filter b.testBit)
    (List.nodup_cons.mpr ⟨by simp [hbi], List.nodup_range.filter _⟩)
    (fun j hj => by
      rcases List.mem_cons.mp hj with rfl | hj
      · exact hi
      · exact List.mem_range.mp (List.mem_filter.mp hj).1)
    (fun j => by
      rw [hbits j, Bool.or_eq_true, decide_eq_true_iff, List.mem_cons, List.mem_filter,
        List.mem_range]
      constructor
      · rintro (h | h)
        · exact .inl h
        · exact .inr ⟨by
            by_contra hj
            exact absurd (Nat.ge_two_pow_of_testBit h)
              (Nat.not_le.mpr (hb.trans_le (Nat.pow_le_pow_right (by norm_num) (by omega)))), h⟩
      · rintro (h | h)
        · exact .inl h
        · exact .inr h.2)
  rw [hcount, List.length_cons]
  rfl

-- The highest set bit of a nonzero word is below its size.
theorem testBit_size_sub_one {v : ℕ} (hv : v ≠ 0) : v.testBit (v.size - 1) = true := by
  have hsize : 0 < v.size := Nat.size_pos.mpr (Nat.pos_of_ne_zero hv)
  have hle : 2 ^ (v.size - 1) ≤ v := Nat.lt_size.mp (by omega)
  have hlt : v < 2 ^ (v.size - 1) * 2 :=
    calc v < 2 ^ v.size := Nat.lt_size_self v
      _ = 2 ^ (v.size - 1) * 2 := by rw [← Nat.pow_succ, Nat.succ_eq_add_one, Nat.sub_add_cancel hsize]
  have hdiv : v / 2 ^ (v.size - 1) = 1 := Nat.div_eq_of_lt_le (by omega) (by omega)
  rw [Nat.testBit_eq_decide_div_mod_eq, hdiv]
  rfl

-- OR-ing a word with itself shifted right by m doubles the window of bits that each bit sees.
theorem testBit_or_shiftRight {x v m m' : ℕ} (hm : m + m = m')
    (hx : ∀ j, x.testBit j = true ↔ ∃ i, j ≤ i ∧ i < j + m ∧ v.testBit i = true) (j : ℕ) :
    (x ||| x >>> m).testBit j = true ↔ ∃ i, j ≤ i ∧ i < j + m' ∧ v.testBit i = true := by
  rw [Nat.testBit_or, Nat.testBit_shiftRight, Bool.or_eq_true, hx, hx]
  constructor
  · rintro (⟨i, h1, h2, h3⟩ | ⟨i, h1, h2, h3⟩)
    · exact ⟨i, h1, by omega, h3⟩
    · exact ⟨i, by omega, by omega, h3⟩
  · rintro ⟨i, h1, h2, h3⟩
    by_cases hi : i < j + m
    · exact .inl ⟨i, h1, hi, h3⟩
    · exact .inr ⟨i, by omega, by omega, h3⟩

-- The highest set bit below w is the first one met when the bits are scanned from the top.
theorem find?_range_reverse_testBit {w n i : ℕ} (hi : i < w) (hset : n.testBit i = true)
    (habove : ∀ j, i < j → j < w → n.testBit j = false) :
    (List.range w).reverse.find? n.testBit = some i := by
  induction w with
  | zero => omega
  | succ w ih =>
    rw [List.range_succ, List.reverse_append, List.reverse_singleton, List.singleton_append,
      List.find?_cons]
    rcases Nat.lt_succ_iff_lt_or_eq.mp hi with hlt | rfl
    · rw [habove w hlt (by omega)]
      exact ih hlt fun j hij hjw => habove j hij (by omega)
    · rw [hset]

theorem leading_zeros_eq {w n i : ℕ} (hi : i < w) (hset : n.testBit i = true)
    (habove : ∀ j, i < j → j < w → n.testBit j = false) : leading_zeros w n = w - 1 - i := by
  simp [leading_zeros, find?_range_reverse_testBit hi hset habove]

-- A nonzero w-bit word has w - size leading zeros.
theorem leading_zeros_eq_sub_size {w n : ℕ} (hn : n ≠ 0) (hw : n < 2 ^ w) :
    leading_zeros w n = w - n.size := by
  have hsize : n.size ≤ w := Nat.size_le.mpr hw
  have hpos : 0 < n.size := Nat.size_pos.mpr (Nat.pos_of_ne_zero hn)
  have habove : ∀ j, n.size - 1 < j → j < w → n.testBit j = false := fun j hj _ =>
    Nat.testBit_eq_false_of_lt
      ((Nat.lt_size_self n).trans_le (Nat.pow_le_pow_right (by norm_num) (by omega)))
  rw [leading_zeros_eq (by omega) (testBit_size_sub_one hn) habove]
  omega

-- A nonzero w-bit word has a number of trailing zeros below w, the largest power of two
-- dividing it.
theorem exists_trailing_zeros {w n : ℕ} (hn : n ≠ 0) (hw : n < 2 ^ w) :
    ∃ t < w, trailing_zeros w n = t ∧ 2 ^ t ∣ n ∧ ∀ h, 2 ^ h ∣ n → h ≤ t := by
  have hex := Nat.exists_testBit_of_ne_zero hn
  have hset : n.testBit (Nat.find hex) = true := Nat.find_spec hex
  have hbelow : ∀ j < Nat.find hex, n.testBit j = false := fun j hj => by
    simpa using Nat.find_min hex hj
  have htw : Nat.find hex < w := by
    by_contra h
    have := Nat.ge_two_pow_of_testBit hset
    have := Nat.pow_le_pow_right (n := 2) (by norm_num) (Nat.not_lt.mp h)
    omega
  refine ⟨Nat.find hex, htw, trailing_zeros_eq htw hset hbelow, ?_, fun h hdvd => ?_⟩
  · refine Nat.dvd_of_mod_eq_zero (Nat.eq_of_testBit_eq fun j => ?_)
    rw [Nat.testBit_mod_two_pow, Nat.zero_testBit]
    by_cases hj : j < Nat.find hex
    · simp [hbelow j hj]
    · simp [hj]
  · obtain ⟨c, rfl⟩ := hdvd
    rw [Nat.testBit_two_pow_mul, Bool.and_eq_true, decide_eq_true_eq] at hset
    exact hset.1

theorem testBit_eq_false_of_two_pow_dvd {n t i : ℕ} (h : 2 ^ t ∣ n) (hi : i < t) :
    n.testBit i = false := by
  obtain ⟨c, rfl⟩ := h
  rw [Nat.testBit_two_pow_mul]
  simp [Nat.not_le.mpr hi]

theorem two_pow_dvd_of_testBit_eq_false {n t : ℕ} (h : ∀ i < t, n.testBit i = false) :
    2 ^ t ∣ n := by
  refine Nat.dvd_of_mod_eq_zero (Nat.eq_of_testBit_eq fun j => ?_)
  rw [Nat.testBit_mod_two_pow, Nat.zero_testBit]
  by_cases hj : j < t
  · simp [h j hj]
  · simp [hj]

theorem lt_of_testBit_of_lt_two_pow {n w i : ℕ} (hn : n < 2 ^ w) (h : n.testBit i = true) :
    i < w := by
  by_contra hc
  rw [Nat.testBit_eq_false_of_lt (hn.trans_le (Nat.pow_le_pow_right (by norm_num) (Nat.not_lt.mp hc)))]
    at h
  cases h

-- The numbers from an aligned a to a + 2^t - 1 agree from bit t on.
theorem shiftRight_eq_of_lt_add {a n t : ℕ} (hdvd : 2 ^ t ∣ a) (hle : a ≤ n) (hlt : n < a + 2 ^ t) :
    n >>> t = a >>> t := by
  obtain ⟨q, rfl⟩ := hdvd
  rw [Nat.shiftRight_eq_div_pow, Nat.shiftRight_eq_div_pow,
    Nat.mul_div_cancel_left q (Nat.two_pow_pos t)]
  refine Nat.div_eq_of_lt_le (by rw [Nat.mul_comm]; exact hle) ?_
  rw [Nat.succ_mul, Nat.mul_comm]
  exact hlt

-- Clearing more low bits gives a smaller number.
theorem two_pow_mul_shiftRight_le {m i j : ℕ} (h : j ≤ i) : 2 ^ i * (m >>> i) ≤ 2 ^ j * (m >>> j) := by
  obtain ⟨d, rfl⟩ := Nat.exists_eq_add_of_le h
  rw [Nat.shiftRight_add, Nat.pow_add, Nat.mul_assoc, Nat.shiftRight_eq_div_pow (m >>> j) d]
  exact Nat.mul_le_mul_left _ (Nat.mul_div_le _ _)

theorem mod_two_pow_eq_of_testBit {n j : ℕ} (h : ∀ i < j, n.testBit i = true) :
    n % 2 ^ j = 2 ^ j - 1 := by
  refine Nat.eq_of_testBit_eq fun i => ?_
  rw [Nat.testBit_mod_two_pow, Nat.testBit_two_pow_sub_one]
  by_cases hi : i < j
  · simp [hi, h i hi]
  · simp [hi]

-- When the low j bits of n are set, n + 1 ends the block of 2^j that holds n.
theorem two_pow_mul_shiftRight_add_one {n j : ℕ} (h : ∀ i < j, n.testBit i = true) :
    2 ^ j * (n >>> j + 1) = n + 1 := by
  have hmod := mod_two_pow_eq_of_testBit h
  have hsplit := Nat.div_add_mod n (2 ^ j)
  have hpos := Nat.two_pow_pos j
  rw [Nat.shiftRight_eq_div_pow, Nat.mul_add, Nat.mul_one]
  omega

-- A nonzero w-bit word has a lowest set bit, its number of trailing zeros.
theorem exists_lowest_bit {w n : ℕ} (hn : n ≠ 0) (hw : n < 2 ^ w) :
    ∃ z < w, n.testBit z = true ∧ (∀ i < z, n.testBit i = false) ∧ trailing_zeros w n = z := by
  have hex := Nat.exists_testBit_of_ne_zero hn
  have hset : n.testBit (Nat.find hex) = true := Nat.find_spec hex
  have hbelow : ∀ j < Nat.find hex, n.testBit j = false := fun j hj => by
    simpa using Nat.find_min hex hj
  have htw : Nat.find hex < w := by
    by_contra h
    have := Nat.ge_two_pow_of_testBit hset
    have := Nat.pow_le_pow_right (n := 2) (by norm_num) (Nat.not_lt.mp h)
    omega
  exact ⟨Nat.find hex, htw, hset, hbelow, trailing_zeros_eq htw hset hbelow⟩

-- Clearing the highest set bit of a word subtracts it.
theorem ldiff_two_pow_add {i r : ℕ} (hr : r < 2 ^ i) : Nat.ldiff (2 ^ i + r) (2 ^ i) = r := by
  apply Nat.eq_of_testBit_eq
  intro j
  rw [Nat.testBit_ldiff, Nat.testBit_two_pow]
  rcases Nat.lt_trichotomy j i with hj | rfl | hj
  · rw [Nat.testBit_two_pow_add_gt hj]
    simp [Nat.ne_of_gt hj]
  · simp [Nat.testBit_eq_false_of_lt hr]
  · have hpow : 2 ^ (i + 1) ≤ 2 ^ j := Nat.pow_le_pow_right (by norm_num) hj
    have hsum : 2 ^ i + r < 2 ^ j := by
      rw [Nat.pow_succ] at hpow
      omega
    rw [Nat.testBit_eq_false_of_lt hsum,
      Nat.testBit_eq_false_of_lt (hr.trans_le (Nat.pow_le_pow_right (by norm_num) hj.le))]
    simp

-- Setting bit i of a multiple of 2^(i+1) adds 2^i.
theorem or_one_shiftLeft_of_dvd {b i : ℕ} (hb : 2 ^ (i + 1) ∣ b) : b ||| 1 <<< i = b + 2 ^ i := by
  obtain ⟨c, rfl⟩ := hb
  rw [Nat.one_shiftLeft,
    ← Nat.two_pow_add_eq_or_of_lt (Nat.pow_lt_pow_right (by norm_num) (Nat.lt_succ_self i))]

-- The set bits of a w-bit word, highest first.
def bits_desc (w n : ℕ) : List ℕ := (List.range w).reverse.filter n.testBit

theorem bits_desc_succ (w n : ℕ) :
    bits_desc (w + 1) n = if n.testBit w then w :: bits_desc w n else bits_desc w n := by
  by_cases hw : n.testBit w <;> simp [bits_desc, List.range_succ, hw]

@[simp] theorem bits_desc_zero (w : ℕ) : bits_desc w 0 = [] := by
  simp [bits_desc]

theorem bits_desc_of_lt {w v n : ℕ} (hn : n < 2 ^ v) (hvw : v ≤ w) : bits_desc w n = bits_desc v n := by
  induction w, hvw using Nat.le_induction with
  | base => rfl
  | succ w hvw ih =>
    have hbit : n.testBit w = false :=
      Nat.testBit_eq_false_of_lt (hn.trans_le (Nat.pow_le_pow_right (by norm_num) hvw))
    rw [bits_desc_succ, hbit, if_neg Bool.false_ne_true, ih]

-- Taking off the highest set bit i leaves the bits below it.
theorem bits_desc_eq_cons {w i n : ℕ} (hi : i < w) (hle : 2 ^ i ≤ n) (hlt : n < 2 ^ (i + 1)) :
    bits_desc w n = i :: bits_desc w (n - 2 ^ i) := by
  have hrest : n - 2 ^ i < 2 ^ i := by
    rw [Nat.pow_succ] at hlt
    omega
  have hsplit : 2 ^ i * 1 + (n - 2 ^ i) = n := by omega
  have hbit : n.testBit i = true := by
    rw [← hsplit, Nat.testBit_two_pow_mul_add 1 hrest, if_neg (Nat.lt_irrefl i), Nat.sub_self]
    rfl
  have hlow : bits_desc i n = bits_desc i (n - 2 ^ i) := by
    refine List.filter_congr fun j hj => ?_
    have hj : j < i := List.mem_range.mp (List.mem_reverse.mp hj)
    rw [← hsplit, Nat.testBit_two_pow_mul_add 1 hrest, if_pos hj, hsplit]
  rw [bits_desc_of_lt hlt hi, bits_desc_succ, hbit, if_pos rfl, hlow,
    bits_desc_of_lt hrest (Nat.le_of_lt hi)]

-- The highest set bit i of a w-bit word bounds it by 2^(i + 1).
theorem lt_two_pow_succ_of_bits_desc_eq_cons {w n i : ℕ} {rest : List ℕ} (hn : n < 2 ^ w)
    (h : bits_desc w n = i :: rest) : n < 2 ^ (i + 1) := by
  induction w with
  | zero => simp [bits_desc] at h
  | succ w ih =>
    rw [bits_desc_succ] at h
    by_cases hb : n.testBit w = true
    · rw [if_pos hb, List.cons.injEq] at h
      rw [← h.1]
      exact hn
    · rw [if_neg hb] at h
      refine ih (Nat.lt_pow_two_of_testBit n fun j hj => ?_) h
      rcases Nat.eq_or_lt_of_le hj with rfl | hj
      · simpa using hb
      · exact Nat.testBit_eq_false_of_lt
          (hn.trans_le (Nat.pow_le_pow_right (by norm_num) (by omega)))

end Zapatos.Bits

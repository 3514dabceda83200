import Zapatos.Datastructures.OrderedMap
import Zapatos.Lib.SortedList
import Zapatos.Lib.Basic

namespace Zapatos.Datastructures.OrderedMap

open Move SortedList

variable {K V : Type} [LinearOrder K]

def Sorted (m : OrderedMap K V) : Prop := SortedList.Sorted Entry.key m.entries

def lookup (m : OrderedMap K V) (k : K) : Option V :=
  (SortedList.lookup Entry.key m.entries k).map Entry.value

structure Refines (m : OrderedMap K V) (M : K → Option V) : Prop where
  sorted : m.Sorted
  lookup_eq : ∀ k, m.lookup k = M k

section BinarySearch

variable {es : List (Entry K V)} {key : K}

def SearchInv (key : K) (es : List (Entry K V)) (l r : ℕ) : Prop :=
  l ≤ r ∧ r ≤ es.length ∧ (∀ j (h : j < es.length), j < l → es[j].key < key) ∧
    ∀ j (h : j < es.length), r ≤ j → key ≤ es[j].key

theorem searchInv_lt {l r : ℕ} (hs : SortedList.Sorted Entry.key es) (h : SearchInv key es l r)
    (hr : l < r) (hm : l + (r - l) / 2 < es.length)
    (hlt : compare es[l + (r - l) / 2].key key = .lt) :
    SearchInv key es (l + (r - l) / 2 + 1) r := by
  obtain ⟨-, hr', hbelow, habove⟩ := h
  refine ⟨by omega, hr', fun j hj hjl => ?_, habove⟩
  exact lt_of_le_of_lt (hs.getElem_le (by omega) hm) (compare_lt_iff_lt.mp hlt)

theorem searchInv_ge {l r : ℕ} (hs : SortedList.Sorted Entry.key es) (h : SearchInv key es l r)
    (hm : l + (r - l) / 2 < es.length)
    (hge : compare es[l + (r - l) / 2].key key ≠ .lt) :
    SearchInv key es l (l + (r - l) / 2) := by
  obtain ⟨-, -, hbelow, habove⟩ := h
  refine ⟨by omega, by omega, hbelow, fun j hj hjm => ?_⟩
  have hk : key ≤ es[l + (r - l) / 2].key := not_lt.mp fun h => hge (compare_lt_iff_lt.mpr h)
  exact hk.trans (hs.getElem_le hjm hj)

theorem binary_search_inv {l r : ℕ} (hs : SortedList.Sorted Entry.key es)
    (h : SearchInv key es l r) :
    SearchInv key es (binary_search key es l r) (binary_search key es l r) := by
  fun_induction binary_search key es l r with
  | case1 l r hlr mid hlt ih => exact ih (searchInv_lt hs h hlr.1 (by omega) hlt)
  | case2 l r hlr mid hge ih => exact ih (searchInv_ge hs h (by omega) hge)
  | case3 l r hlr =>
    obtain rfl : l = r := by have := h.1; have := h.2.1; omega
    exact h

theorem binary_search_splits (hs : SortedList.Sorted Entry.key es) (key : K) :
    Splits Entry.key key es (binary_search key es 0 es.length) := by
  have hinit : SearchInv key es 0 es.length :=
    ⟨Nat.zero_le _, le_rfl, fun _ _ h => absurd h (Nat.not_lt_zero _), fun _ hj h => by omega⟩
  obtain ⟨-, hlen, hbelow, habove⟩ := binary_search_inv hs hinit
  refine ⟨hlen, fun x hx => ?_, fun x hx => ?_⟩
  · obtain ⟨j, hj, rfl⟩ := List.mem_take_iff_getElem.mp hx
    exact hbelow j _ (by omega)
  · obtain ⟨j, hj, rfl⟩ := List.mem_drop_iff_getElem.mp hx
    simpa only [Nat.add_comm] using habove _ hj (by omega)

theorem binary_search_eq_findIdx (hs : SortedList.Sorted Entry.key es) (key : K) :
    binary_search key es 0 es.length = es.findIdx fun e => decide (key ≤ e.key) :=
  (binary_search_splits hs key).eq_findIdx

theorem getElem?_key_eq_some_iff (hs : SortedList.Sorted Entry.key es) (key : K) :
    (es[binary_search key es 0 es.length]?.map Entry.key = some key) ↔
      (SortedList.lookup Entry.key es key).isSome := by
  rw [lookup_isSome, ← (binary_search_splits hs key).head_key_iff hs, List.head?_drop]
  simp

end BinarySearch

section Operations

variable {m : OrderedMap K V} {M : K → Option V}

theorem Refines.isSome_iff (h : m.Refines M) (k : K) :
    (SortedList.lookup Entry.key m.entries k).isSome ↔ (M k).isSome := by
  rw [← h.lookup_eq k, lookup, Option.isSome_map]

theorem Refines.eq_some_of_lookup (h : m.Refines M) {k : K} {e : Entry K V}
    (he : SortedList.lookup Entry.key m.entries k = some e) : M k = some e.value := by
  rw [← h.lookup_eq k, lookup, he, Option.map_some]

theorem refines_of_lookup {entries : List (Entry K V)} {M' : K → Option V}
    (hs : SortedList.Sorted Entry.key entries)
    (hl : ∀ k, (SortedList.lookup Entry.key entries k).map Entry.value = M' k) :
    Refines ⟨entries⟩ M' :=
  ⟨hs, hl⟩

theorem Refines.key_eq_some_iff (h : m.Refines M) (k : K) :
    (m.entries[binary_search k m.entries 0 m.entries.length]?.map Entry.key = some k) ↔
      (M k).isSome := by
  rw [getElem?_key_eq_some_iff h.sorted, h.isSome_iff]

theorem Refines.insert_at_search (h : m.Refines M) {k : K} (hk : M k = none) (v : V) :
    ∃ es, vector.insert m.entries (binary_search k m.entries 0 m.entries.length) ⟨k, v⟩ = .ok es ∧
      Refines ⟨es⟩ (Function.update M k (some v)) := by
  have hsp := binary_search_splits h.sorted k
  have hne : ∀ x ∈ (m.entries.drop (binary_search k m.entries 0 m.entries.length)).head?,
      x.key ≠ k := by
    intro x hx hxk
    have := (h.key_eq_some_iff k).mp (by simp_all [List.head?_drop])
    simp [hk] at this
  obtain ⟨hs', hl'⟩ := hsp.insert h.sorted (a := ⟨k, v⟩) rfl (hsp.strict h.sorted hne)
  refine ⟨_, by simp [vector.insert, hsp.1, insertIdx_eq_take_drop _ _ hsp.1],
    refines_of_lookup hs' fun k' => ?_⟩
  rw [hl' k', Function.update_apply]
  by_cases hkk : k = k'
  · simp [hkk]
  · simp [hkk, Ne.symm hkk, ← h.lookup_eq k', lookup]

theorem Refines.found_at_search (h : m.Refines M) {k : K} {i : ℕ}
    (hi : i = binary_search k m.entries 0 m.entries.length)
    (hf : m.entries[i]?.map Entry.key = some k) :
    ∃ hlen : i < m.entries.length, m.entries[i].key = k ∧ M k = some m.entries[i].value ∧
      m.entries = m.entries.take i ++ m.entries[i] :: m.entries.drop (i + 1) := by
  obtain ⟨a, ha, rfl⟩ := Option.map_eq_some_iff.mp hf
  obtain ⟨hlen, rfl⟩ := List.getElem?_eq_some_iff.mp ha
  exact ⟨hlen, rfl, h.eq_some_of_lookup (h.sorted.lookup_of_mem (List.getElem_mem hlen)),
    eq_take_append_getElem_drop _ hlen⟩

theorem Refines.erase_at {k : K} {i : ℕ} (h : m.Refines M) (hlen : i < m.entries.length)
    (hk : m.entries[i].key = k) :
    Refines ⟨m.entries.eraseIdx i⟩ (Function.update M k none) := by
  have hs := h.sorted
  rw [Sorted, eq_take_append_getElem_drop _ hlen] at hs
  obtain ⟨hs', hl'⟩ := hs.erase_middle
  rw [List.eraseIdx_eq_take_drop_succ]
  refine refines_of_lookup hs' fun k' => ?_
  rw [hl' k', Function.update_apply, hk, ← eq_take_append_getElem_drop _ hlen]
  by_cases hkk : k = k'
  · simp [hkk]
  · simp [hkk, Ne.symm hkk, ← h.lookup_eq k', lookup]

theorem add_refines (h : m.Refines M) (k : K) (v : V) :
    ((M k).isSome → m.add k v = .error (invalid_argument EKEY_ALREADY_EXISTS)) ∧
    (M k = none → ∃ m', m.add k v = .ok m' ∧ m'.Refines (Function.update M k (some v))) := by
  constructor
  · intro hk
    simp [add, (h.key_eq_some_iff k).mpr hk]
  · intro hk
    have hne : ¬(m.entries[binary_search k m.entries 0 m.entries.length]?.map Entry.key = some k) :=
      fun he => by simpa [hk] using (h.key_eq_some_iff k).mp he
    obtain ⟨es, hins, hr⟩ := h.insert_at_search hk v
    exact ⟨_, by simp [add, hne, hins], hr⟩

theorem upsert_refines (h : m.Refines M) (k : K) (v : V) :
    ∃ m', m.upsert k v = .ok (m', M k) ∧ m'.Refines (Function.update M k (some v)) := by
  by_cases hf : m.entries[binary_search k m.entries 0 m.entries.length]?.map Entry.key = some k
  · obtain ⟨hlen, hk, hMk, hsplit⟩ := h.found_at_search rfl hf
    have hs := h.sorted
    rw [Sorted, hsplit] at hs
    obtain ⟨hs', hl'⟩ := hs.replace_middle (b := ⟨k, v⟩) hk.symm
    refine ⟨_, by simp [upsert, hlen, hk, vector.replace, hMk, List.set_eq_take_append_cons_drop],
      refines_of_lookup hs' fun k' => ?_⟩
    rw [hl' k', Function.update_apply, hk, ← hsplit]
    by_cases hkk : k = k'
    · simp [hkk]
    · simp [hkk, Ne.symm hkk, ← h.lookup_eq k', lookup]
  · have hk : M k = none := by
      rw [← Option.not_isSome_iff_eq_none, ← h.key_eq_some_iff k]
      exact hf
    obtain ⟨es, hins, hr⟩ := h.insert_at_search hk v
    exact ⟨_, by simp [upsert, hf, hins, hk], hr⟩

theorem remove_refines (h : m.Refines M) (k : K) :
    (M k = none → m.remove k = .error (invalid_argument EKEY_NOT_FOUND)) ∧
    ∀ v, M k = some v → ∃ m', m.remove k = .ok (m', v) ∧ m'.Refines (Function.update M k none) := by
  constructor
  · intro hk
    have hnf : ∀ (hlen : binary_search k m.entries 0 m.entries.length < m.entries.length),
        m.entries[binary_search k m.entries 0 m.entries.length].key ≠ k := by
      intro hlen hkey
      have := (h.key_eq_some_iff k).mp (by simp [hlen, hkey])
      simp [hk] at this
    by_cases hlen : binary_search k m.entries 0 m.entries.length < m.entries.length
    · simp [remove, hlen, vector.remove, Ne.symm (hnf hlen)]
    · simp [remove, hlen]
  · intro v hv
    have hf := (h.key_eq_some_iff k).mpr (by simp [hv])
    obtain ⟨hlen, hk, hMk, -⟩ := h.found_at_search rfl hf
    rw [hv, Option.some.injEq] at hMk
    exact ⟨_, by simp [remove, hlen, vector.remove, hk, hMk], h.erase_at hlen hk⟩

theorem remove_or_none_refines (h : m.Refines M) (k : K) :
    ∃ m', m.remove_or_none k = .ok (m', M k) ∧ m'.Refines (Function.update M k none) := by
  by_cases hf : m.entries[binary_search k m.entries 0 m.entries.length]?.map Entry.key = some k
  · obtain ⟨hlen, hk, hMk, -⟩ := h.found_at_search rfl hf
    exact ⟨_, by simp [remove_or_none, vector.remove, hlen, hk, hMk], h.erase_at hlen hk⟩
  · have hk : M k = none := by
      rw [← Option.not_isSome_iff_eq_none, ← h.key_eq_some_iff k]
      exact hf
    refine ⟨m, by simp [remove_or_none, hf, hk], h.sorted, fun k' => ?_⟩
    rw [Function.update_apply, h.lookup_eq k']
    split <;> simp_all

def InOrder (M : K → Option V) (old_key new_key : K) : Prop :=
  ∀ k, (M k).isSome → k ≠ old_key → (k < old_key → k < new_key) ∧ (old_key < k → new_key < k)

theorem Refines.neighbours_iff {old_key : K} {i : ℕ} (h : m.Refines M) (new_key : K)
    (hlen : i < m.entries.length) (hk : m.entries[i].key = old_key) :
    ((∀ hi : 0 < i, m.entries[i - 1].key < new_key) ∧
      ∀ hi : i + 1 < m.entries.length, new_key < m.entries[i + 1].key) ↔
      InOrder M old_key new_key := by
  have hs := h.sorted
  constructor
  · rintro ⟨hprev, hnext⟩ k hMk hne
    obtain ⟨e, he, rfl⟩ := lookup_isSome.mp ((h.isSome_iff k).mpr hMk)
    obtain ⟨j, hj, rfl⟩ := List.getElem_of_mem he
    rcases lt_trichotomy j i with hji | rfl | hji
    · have hle := hs.getElem_le (i := j) (j := i - 1) (by omega) (by omega)
      exact ⟨fun _ => lt_of_le_of_lt hle (hprev (by omega)), fun hlt =>
        absurd (hk ▸ hs.getElem_lt hji hlen) (not_lt.mpr hlt.le)⟩
    · exact absurd hk hne
    · have hle := hs.getElem_le (i := i + 1) (j := j) (by omega) hj
      exact ⟨fun hlt => absurd (hk ▸ hs.getElem_lt hji hj) (not_lt.mpr hlt.le),
        fun _ => lt_of_lt_of_le (hnext (by omega)) hle⟩
  · intro hin
    have hmem : ∀ j (hj : j < m.entries.length), (M m.entries[j].key).isSome := fun j hj =>
      (h.isSome_iff _).mp (lookup_isSome.mpr ⟨_, List.getElem_mem hj, rfl⟩)
    refine ⟨fun hi => ?_, fun hi => ?_⟩
    · have hlt := hk ▸ hs.getElem_lt (show i - 1 < i by omega) hlen
      exact (hin _ (hmem _ _) hlt.ne).1 hlt
    · have hlt := hk ▸ hs.getElem_lt (show i < i + 1 by omega) hi
      exact (hin _ (hmem _ _) hlt.ne').2 hlt

theorem replace_key_inplace_eq {old_key new_key : K} {i : ℕ}
    (hi : binary_search old_key m.entries 0 m.entries.length = i) :
    m.replace_key_inplace old_key new_key =
      if h : i < m.entries.length then
        if old_key = m.entries[i].key then
          if (∀ hi : 0 < i, m.entries[i - 1].key < new_key) ∧
              ∀ hi : i + 1 < m.entries.length, new_key < m.entries[i + 1].key then
            .ok ⟨m.entries.set i { m.entries[i] with key := new_key }⟩
          else .error (invalid_argument ENEW_KEY_NOT_IN_ORDER)
        else .error (invalid_argument EKEY_NOT_FOUND)
      else .error (invalid_argument EKEY_NOT_FOUND) := by
  unfold replace_key_inplace
  simp only [hi, Except.throw_eq_error, Except.error_bind, Except.pure_eq_ok]
  by_cases hlen : i < m.entries.length
  · by_cases hkey : old_key = m.entries[i].key
    · -- the check of the right neighbour sits under both outcomes of the left one
      simp only [hlen, hkey, dif_pos, if_true, compare_lt_iff_lt, Except.ite_check_eq,
        Except.dite_check_eq, ite_and]
    · simp only [hlen, hkey, dif_pos, if_false]
  · simp only [hlen, dif_neg, not_false_eq_true]

theorem replace_key_inplace_refines (h : m.Refines M) (old_key new_key : K) :
    (M old_key = none →
      m.replace_key_inplace old_key new_key = .error (invalid_argument EKEY_NOT_FOUND)) ∧
    ∀ v, M old_key = some v →
      (InOrder M old_key new_key → ∃ m', m.replace_key_inplace old_key new_key = .ok m' ∧
        m'.Refines (Function.update (Function.update M old_key none) new_key (some v))) ∧
      (¬InOrder M old_key new_key →
        m.replace_key_inplace old_key new_key = .error (invalid_argument ENEW_KEY_NOT_IN_ORDER)) := by
  obtain ⟨i, hi⟩ : ∃ i, binary_search old_key m.entries 0 m.entries.length = i := ⟨_, rfl⟩
  have hkey := h.key_eq_some_iff old_key
  rw [hi] at hkey
  rw [replace_key_inplace_eq hi]
  constructor
  · intro hk
    by_cases hlen : i < m.entries.length
    · have hne : old_key ≠ m.entries[i].key := by
        intro hkey'
        have := hkey.mp (by simp [hlen, ← hkey'])
        simp [hk] at this
      simp [hlen, hne]
    · simp [hlen]
  · intro v hv
    obtain ⟨hlen, hk, hMk, hsplit⟩ := h.found_at_search hi.symm (hkey.mpr (by simp [hv]))
    rw [hv, Option.some.injEq] at hMk
    have hiff := h.neighbours_iff new_key hlen hk
    constructor
    · intro hin
      obtain ⟨hprev, hnext⟩ := hiff.mpr hin
      have hs := h.sorted
      rw [Sorted, hsplit] at hs
      have hlt : ∀ x ∈ m.entries.take i, x.key < new_key := by
        intro x hx
        obtain ⟨j, hj, rfl⟩ := List.mem_take_iff_getElem.mp hx
        exact lt_of_le_of_lt (h.sorted.getElem_le (i := j) (j := i - 1) (by omega) (by omega))
          (hprev (by omega))
      have hgt : ∀ x ∈ m.entries.drop (i + 1), new_key < x.key := by
        intro x hx
        obtain ⟨j, hj, rfl⟩ := List.mem_drop_iff_getElem.mp hx
        have hle := h.sorted.getElem_le (i := i + 1) (j := i + 1 + j) (by omega) (by omega)
        exact lt_of_lt_of_le (hnext (by omega)) (by simpa only [Nat.add_comm j] using hle)
      obtain ⟨hs', -, -⟩ := sorted_middle.mp hs
      refine ⟨_, ?_, refines_of_lookup
        ((sorted_middle (a := Entry.mk new_key v)).mpr ⟨hs', hlt, hgt⟩) fun k' => ?_⟩
      · rw [dif_pos hlen, if_pos hk.symm, if_pos ⟨hprev, hnext⟩]
        simp [List.set_eq_take_append_cons_drop, hlen, ← hMk]
      · obtain ⟨-, hl'⟩ := hs.erase_middle
        rw [lookup_middle hlt hgt, hl' k', Function.update_apply, Function.update_apply, hk]
        by_cases hnk : new_key = k'
        · simp [hnk]
        · rw [if_neg hnk, if_neg (Ne.symm hnk), ← hsplit]
          by_cases hok : old_key = k'
          · simp [hok]
          · simp [hok, Ne.symm hok, ← h.lookup_eq k', lookup]
    · intro hin
      have hnb := mt hiff.mp hin
      simp only [hlen, hk, dite_true, if_true]
      rw [if_neg hnb]

theorem trim_refines (h : m.Refines M) (at' : ℕ) :
    (m.length < at' → m.trim at' = .error vector.EINDEX_OUT_OF_BOUNDS) ∧
    (at' ≤ m.length → ∃ m₁ m₂, m.trim at' = .ok (m₁, m₂) ∧ m₁.Sorted ∧ m₂.Sorted ∧
      m₁.length = at' ∧ (∀ k, M k = (m₁.lookup k).or (m₂.lookup k)) ∧
      ∀ k₁ k₂, (m₁.lookup k₁).isSome → (m₂.lookup k₂).isSome → k₁ < k₂) := by
  simp only [length]
  constructor
  · intro hlt
    simp [trim, vector.trim, not_le.mpr hlt]
  · intro hle
    have hs := h.sorted
    rw [Sorted, ← List.take_append_drop at' m.entries] at hs
    obtain ⟨hs₁, hs₂, h₁₂⟩ := sorted_append.mp hs
    refine ⟨⟨m.entries.take at'⟩, ⟨m.entries.drop at'⟩, by simp [trim, vector.trim, hle], hs₁, hs₂,
      by simpa using hle, fun k => ?_, fun k₁ k₂ hk₁ hk₂ => ?_⟩
    · rw [← h.lookup_eq k]
      simp only [lookup]
      rw [← Option.map_or, ← lookup_append, List.take_append_drop]
    · have hk₁' : (SortedList.lookup Entry.key (m.entries.take at') k₁).isSome := by
        simpa [lookup] using hk₁
      have hk₂' : (SortedList.lookup Entry.key (m.entries.drop at') k₂).isSome := by
        simpa [lookup] using hk₂
      obtain ⟨a, ha, rfl⟩ := lookup_isSome.mp hk₁'
      obtain ⟨b, hb, rfl⟩ := lookup_isSome.mp hk₂'
      exact h₁₂ a ha b hb

theorem Refines.internal_find_found (h : m.Refines M) {k : K}
    (hf : m.entries[binary_search k m.entries 0 m.entries.length]?.map Entry.key = some k) :
    m.internal_find k = .Position (binary_search k m.entries 0 m.entries.length) := by
  obtain ⟨hlen, -⟩ := h.found_at_search rfl hf
  simp only [internal_find, internal_lower_bound]
  rw [if_neg (Nat.ne_of_lt hlen)]
  exact if_pos hf

theorem Refines.internal_find_absent (h : m.Refines M) {k : K} (hk : M k = none) :
    m.internal_find k = .End := by
  have hf := mt (h.key_eq_some_iff k).mp (by simp [hk])
  simp only [internal_find, internal_lower_bound]
  split_ifs
  · rfl
  · exact if_neg hf

theorem get_refines (h : m.Refines M) (k : K) : m.get k = M k := by
  by_cases hf : m.entries[binary_search k m.entries 0 m.entries.length]?.map Entry.key = some k
  · obtain ⟨hlen, -, hMk, -⟩ := h.found_at_search rfl hf
    rw [get, h.internal_find_found hf, hMk]
    dsimp only
    rw [List.getElem?_eq_getElem hlen, Option.map_some]
  · have hk : M k = none := by
      rw [← Option.not_isSome_iff_eq_none, ← h.key_eq_some_iff k]
      exact hf
    rw [get, h.internal_find_absent hk, hk]

theorem contains_refines (h : m.Refines M) (k : K) : m.contains k = (M k).isSome := by
  by_cases hf : m.entries[binary_search k m.entries 0 m.entries.length]?.map Entry.key = some k
  · rw [contains, h.internal_find_found hf, (h.key_eq_some_iff k).mp hf]
    rfl
  · have hk : M k = none := by
      rw [← Option.not_isSome_iff_eq_none, ← h.key_eq_some_iff k]
      exact hf
    rw [contains, h.internal_find_absent hk, hk]
    rfl

def IteratorPtr.position (self : IteratorPtr) (map : OrderedMap K V) : ℕ :=
  match self with
  | .End => map.entries.length
  | .Position index => index

theorem iter_add_eq (it : IteratorPtr) (k : K) (v : V) :
    it.iter_add m k v =
      if h : it.position m ≤ m.entries.length then
        if (∀ hi : 0 < it.position m, m.entries[it.position m - 1].key < k) ∧
            ∀ hi : it.position m < m.entries.length, k < m.entries[it.position m].key then
          .ok ⟨m.entries.insertIdx (it.position m) ⟨k, v⟩⟩
        else .error (invalid_argument ENEW_KEY_NOT_IN_ORDER)
      else .error vector.EINDEX_OUT_OF_BOUNDS := by
  cases it with
  | End =>
    unfold IteratorPtr.iter_add IteratorPtr.position
    by_cases hp0 : 0 < m.entries.length
    · simp only [hp0, le_refl, dite_true, if_true, lt_irrefl, dite_false,
        List.getElem?_eq_getElem (show m.entries.length - 1 < m.entries.length by omega)]
      simp only [Except.throw_eq_error, Except.error_bind, vector.insert, le_refl, if_true,
        Except.ok_bind, Except.pure_eq_ok, compare_lt_iff_lt, forall_prop_of_true trivial,
        forall_prop_of_false not_false, and_true]
    · simp_all [vector.insert]
  | Position p =>
    unfold IteratorPtr.iter_add IteratorPtr.position
    by_cases hle : p ≤ m.entries.length
    · by_cases hp0 : 0 < p
      · simp only [hle, hp0, dite_true, if_true,
          List.getElem?_eq_getElem (show p - 1 < m.entries.length by omega)]
        simp only [Except.throw_eq_error, Except.error_bind, vector.insert, hle, if_true,
          Except.ok_bind, Except.pure_eq_ok, compare_lt_iff_lt, Except.dite_check_eq,
          forall_prop_of_true trivial, ite_and]
      · obtain rfl : p = 0 := by omega
        by_cases hl : 0 < m.entries.length
        · by_cases hk : k < m.entries[0].key <;> simp [hl, hk, compare_lt_iff_lt, vector.insert]
        · simp [hl, vector.insert]
    · have hnone : m.entries[p - 1]? = none := List.getElem?_eq_none (by omega)
      simp [hle, hnone, show 0 < p by omega]

theorem iter_add_refines (h : m.Refines M) (it : IteratorPtr) (k : K) (v : V) :
    ((it.position m ≤ m.length ∧ (∀ x ∈ m.entries.take (it.position m), x.key < k) ∧
        ∀ x ∈ m.entries.drop (it.position m), k < x.key) →
      M k = none ∧ ∃ m', it.iter_add m k v = .ok m' ∧
        m'.Refines (Function.update M k (some v))) ∧
    (m.length < it.position m → it.iter_add m k v = .error vector.EINDEX_OUT_OF_BOUNDS) ∧
    (it.position m ≤ m.length →
      ¬((∀ x ∈ m.entries.take (it.position m), x.key < k) ∧
        ∀ x ∈ m.entries.drop (it.position m), k < x.key) →
      it.iter_add m k v = .error (invalid_argument ENEW_KEY_NOT_IN_ORDER)) := by
  simp only [length]
  have hiff := fun hle => h.sorted.neighbours_iff (p := it.position m) hle k
  refine ⟨fun ⟨hle, hlt, hgt⟩ => ?_, fun hlt => ?_, fun hle hn => ?_⟩
  · have hsp : Splits Entry.key k m.entries (it.position m) := ⟨hle, hlt, fun x hx => (hgt x hx).le⟩
    have hk : M k = none := by
      rw [← h.lookup_eq k, lookup, Option.map_eq_none_iff, lookup_eq_none]
      intro a ha hak
      rw [← List.take_append_drop (it.position m) m.entries, List.mem_append] at ha
      rcases ha with ha | ha
      · exact (hlt a ha).ne hak
      · exact (hgt a ha).ne' hak
    obtain ⟨hs', hl'⟩ := hsp.insert h.sorted (a := ⟨k, v⟩) rfl hgt
    refine ⟨hk, _, ?_, refines_of_lookup hs' fun k' => ?_⟩
    · rw [iter_add_eq, dif_pos hle, if_pos ((hiff hle).mpr ⟨hlt, hgt⟩),
        insertIdx_eq_take_drop _ _ hle]
    · rw [hl' k', Function.update_apply]
      by_cases hkk : k = k'
      · simp [hkk]
      · simp [hkk, Ne.symm hkk, ← h.lookup_eq k', lookup]
  · rw [iter_add_eq, dif_neg (not_le.mpr hlt)]
  · rw [iter_add_eq, dif_pos hle, if_neg (mt (hiff hle).mp hn)]

end Operations

section Append

variable {es os rr ow : List (Entry K V)} {cur other : Entry K V}

def Overwrites (os : List (Entry K V)) (e : Entry K V) : Bool :=
  (SortedList.lookup Entry.key os e.key).isSome

theorem overwrites_snoc_of_lt {os : List (Entry K V)} {e : Entry K V} (he : e.key < other.key) :
    Overwrites (os ++ [other]) e = Overwrites os e := by
  simp [Overwrites, lookup_append, lookup_cons, he.ne']

theorem filter_overwrites_snoc {l os : List (Entry K V)} (hl : ∀ e ∈ l, e.key < other.key) :
    l.filter (Overwrites (os ++ [other])) = l.filter (Overwrites os) :=
  List.filter_congr fun e he => overwrites_snoc_of_lt (hl e he)

theorem sorted_snoc {l : List (Entry K V)} {a : Entry K V} :
    SortedList.Sorted Entry.key (l ++ [a]) ↔
      SortedList.Sorted Entry.key l ∧ ∀ x ∈ l, x.key < a.key := by
  simp [SortedList.Sorted, List.pairwise_append]

theorem sorted_cons_reverse {a : Entry K V} (hrr : SortedList.Sorted Entry.key rr.reverse)
    (ha : ∀ x ∈ rr, a.key < x.key) : SortedList.Sorted Entry.key (rr ++ [a]).reverse := by
  rw [List.reverse_append]
  exact sorted_cons.mpr ⟨fun b hb => ha b (List.mem_reverse.mp hb), hrr⟩

-- The entries kept in place when cur is not above other: all of them, or all but cur if cur is
-- overwritten.
theorem append_else_facts {es' : List (Entry K V)} (os' ow : List (Entry K V))
    (hes : SortedList.Sorted Entry.key (es' ++ [cur])) (hng : ¬compare cur.key other.key = .gt)
    (hne : ¬(compare cur.key other.key = .eq ∧ (es' ++ [cur]).length = 1))
    (hos' : ∀ y ∈ os', y.key < other.key) :
    ∃ kept ow', (if compare cur.key other.key = .eq then es' else es' ++ [cur]) = kept ∧
      (if compare cur.key other.key = .eq then ow ++ [cur] else ow) = ow' ∧
      SortedList.Sorted Entry.key kept ∧ kept ≠ [] ∧ (∀ y ∈ kept, y ∈ es' ++ [cur]) ∧
      (∀ y ∈ kept, y.key < other.key) ∧
      (∀ k, (SortedList.lookup Entry.key kept k).or (SortedList.lookup Entry.key [other] k) =
        (SortedList.lookup Entry.key [other] k).or (SortedList.lookup Entry.key (es' ++ [cur]) k)) ∧
      ow ++ ((es' ++ [cur]).filter (Overwrites (os' ++ [other]))).reverse =
        ow' ++ (kept.filter (Overwrites os')).reverse := by
  obtain ⟨hes', hlt⟩ := sorted_snoc.mp hes
  have hle : cur.key ≤ other.key := not_lt.mp fun h => hng (compare_gt_iff_gt.mpr h)
  by_cases hq : compare cur.key other.key = .eq
  · have hq' : cur.key = other.key := compare_eq_iff_eq.mp hq
    have hne' : es' ≠ [] := fun h => hne ⟨hq, by simp [h]⟩
    have hbelow : ∀ y ∈ es', y.key < other.key := fun y hy => hq' ▸ hlt y hy
    refine ⟨es', ow ++ [cur], by simp [hq], by simp [hq], hes', hne', fun y hy => by simp [hy],
      hbelow, fun k => ?_, ?_⟩
    · rw [lookup_append, lookup_cons, lookup_cons]
      by_cases hk : other.key = k
      · simp [hk, (lookup_eq_none.mpr fun y hy => hk ▸ (hbelow y hy).ne)]
      · simp [hk, show cur.key ≠ k from hq' ▸ hk]
    · have hcur : Overwrites (os' ++ [other]) cur = true := by
        simp [Overwrites, lookup_append, lookup_cons, hq', lookup_eq_none.mpr
          fun y hy => (hos' y hy).ne]
      rw [List.filter_append, filter_overwrites_snoc hbelow]
      simp [hcur]
  · have hlt' : cur.key < other.key := lt_of_le_of_ne hle fun h => hq (compare_eq_iff_eq.mpr h)
    have hbelow : ∀ y ∈ es' ++ [cur], y.key < other.key := by
      intro y hy
      rcases List.mem_append.mp hy with hy | hy
      · exact (hlt y hy).trans hlt'
      · rw [List.mem_singleton.mp hy]
        exact hlt'
    refine ⟨es' ++ [cur], ow, by simp [hq], by simp [hq], hes, by simp, fun y hy => hy, hbelow,
      fun k => ?_, by rw [filter_overwrites_snoc hbelow]⟩
    rw [lookup_cons]
    by_cases hk : other.key = k
    · simp [hk, (lookup_eq_none.mpr fun y hy => hk ▸ (hbelow y hy).ne)]
    · simp [hk]

theorem append_impl_loop_spec (rr ow : List (Entry K V)) (hes : SortedList.Sorted Entry.key es)
    (hos : SortedList.Sorted Entry.key os) (hne : es ≠ []) (hone : os ≠ [])
    (hrr : SortedList.Sorted Entry.key rr.reverse) (hbig : ∀ x ∈ rr, ∀ y ∈ es ++ os, y.key < x.key) :
    ∃ E rr', append_impl_loop es os rr ow =
        .ok (E, rr', ow ++ (es.filter (Overwrites os)).reverse) ∧
      SortedList.Sorted Entry.key (E ++ rr'.reverse) ∧
      ∀ k, SortedList.lookup Entry.key (E ++ rr'.reverse) k =
        ((SortedList.lookup Entry.key os k).or (SortedList.lookup Entry.key es k)).or
          (SortedList.lookup Entry.key rr.reverse k) := by
  fun_induction append_impl_loop es os rr ow with
  | case1 es os rr ow cur other hc ho ord hgt hl =>
    obtain ⟨es', rfl⟩ := List.getLast?_eq_some_iff.mp hc
    obtain rfl : es' = [] := by simpa using hl
    have hgt' : other.key < cur.key := compare_gt_iff_gt.mp hgt
    have habove : ∀ y ∈ os, y.key < cur.key := by
      obtain ⟨os', rfl⟩ := List.getLast?_eq_some_iff.mp ho
      intro y hy
      rcases List.mem_append.mp hy with hy | hy
      · exact ((sorted_snoc.mp hos).2 y hy).trans hgt'
      · rw [List.mem_singleton.mp hy]
        exact hgt'
    have hcur : Overwrites os cur = false := by
      simp [Overwrites, lookup_eq_none.mpr fun y hy => (habove y hy).ne]
    refine ⟨os, rr ++ [cur], by simp [hcur], ?_, fun k => ?_⟩
    · rw [List.reverse_append]
      refine sorted_append.mpr ⟨hos, sorted_cons.mpr ⟨fun b hb => ?_, hrr⟩, fun y hy z hz => ?_⟩
      · exact hbig b (List.mem_reverse.mp hb) cur (by simp)
      · rcases List.mem_cons.mp (by simpa using hz) with rfl | hz
        · exact habove y hy
        · exact hbig z hz y (by simp [hy])
    · simp only [List.nil_append, List.reverse_append, List.reverse_singleton, lookup_append,
        Option.or_assoc]
  | case2 es os rr ow cur other hc ho ord hgt hl ih =>
    obtain ⟨es', rfl⟩ := List.getLast?_eq_some_iff.mp hc
    have hgt' : other.key < cur.key := compare_gt_iff_gt.mp hgt
    have hne' : es' ≠ [] := fun h => hl (by simp [h])
    obtain ⟨hes', hlt⟩ := sorted_snoc.mp hes
    have habove : ∀ y ∈ os, y.key < cur.key := by
      obtain ⟨os', rfl⟩ := List.getLast?_eq_some_iff.mp ho
      intro y hy
      rcases List.mem_append.mp hy with hy | hy
      · exact ((sorted_snoc.mp hos).2 y hy).trans hgt'
      · rw [List.mem_singleton.mp hy]
        exact hgt'
    have hcur : Overwrites os cur = false := by
      simp [Overwrites, lookup_eq_none.mpr fun y hy => (habove y hy).ne]
    rw [List.dropLast_concat] at ih ⊢
    obtain ⟨E, rr', hloop, hsorted, hlookup⟩ := ih hes' hos hne' hone
      (sorted_cons_reverse hrr fun x hx => hbig x hx cur (by simp))
      (fun x hx y hy => by
        rcases List.mem_append.mp hx with hx | hx
        · exact hbig x hx y (by rcases List.mem_append.mp hy with hy | hy <;> simp [hy])
        · rw [List.mem_singleton.mp hx]
          rcases List.mem_append.mp hy with hy | hy
          · exact hlt y hy
          · exact habove y hy)
    refine ⟨E, rr', by rw [hloop, List.filter_append]; simp [hcur], hsorted, fun k => ?_⟩
    rw [hlookup k, List.reverse_append, List.reverse_singleton, List.singleton_append,
      lookup_cons_eq_or, lookup_append]
    simp only [Option.or_assoc]
  | case3 es os rr ow cur other hc ho ord hng heq =>
    obtain ⟨es', rfl⟩ := List.getLast?_eq_some_iff.mp hc
    obtain ⟨hq, hl⟩ := heq
    obtain rfl : es' = [] := by simpa using hl
    have hq' : cur.key = other.key := compare_eq_iff_eq.mp hq
    have hother : SortedList.lookup Entry.key os cur.key = some other :=
      hq' ▸ hos.lookup_of_mem (List.mem_of_getLast? ho)
    refine ⟨os, rr, by simp [Overwrites, hother], ?_, fun k => ?_⟩
    · refine sorted_append.mpr ⟨hos, hrr, fun y hy z hz => ?_⟩
      exact hbig z (List.mem_reverse.mp hz) y (by simp_all)
    · simp only [lookup_append]
      congr 1
      by_cases hk : cur.key = k
      · subst hk
        simp [hother]
      · simp [lookup_cons, hk]
  | case4 es os rr ow cur other hc ho ord hng hne1 entries' overwritten' hol =>
    obtain ⟨es', rfl⟩ := List.getLast?_eq_some_iff.mp hc
    obtain ⟨os', rfl⟩ := List.getLast?_eq_some_iff.mp ho
    obtain rfl : os' = [] := by simpa using hol
    simp only [entries', overwritten', ord, dite_eq_ite, List.dropLast_concat]
    obtain ⟨kept, ow', hkept, how, hks, -, hmem, hkb, hswap, hfilter⟩ :=
      append_else_facts [] ow hes hng hne1 (by simp)
    refine ⟨kept, rr ++ [other], by rw [hkept, how, hfilter]; simp [Overwrites], ?_, fun k => ?_⟩
    · rw [List.reverse_append]
      refine sorted_append.mpr ⟨hks, sorted_cons.mpr ⟨fun b hb => ?_, hrr⟩, fun y hy z hz => ?_⟩
      · exact hbig b (List.mem_reverse.mp hb) other (by simp)
      · rcases List.mem_cons.mp (by simpa using hz) with rfl | hz
        · exact hkb y hy
        · exact hbig z hz y (List.mem_append_left _ (hmem y hy))
    · have := congrArg (·.or (SortedList.lookup Entry.key rr.reverse k)) (hswap k)
      simp only [Option.or_assoc] at this
      simp only [List.reverse_append, List.reverse_singleton, List.nil_append, lookup_append,
        Option.or_assoc, this]
  | case5 es os rr ow cur other hc ho ord hng hne1 entries' overwritten' hol ih =>
    obtain ⟨es', rfl⟩ := List.getLast?_eq_some_iff.mp hc
    obtain ⟨os', rfl⟩ := List.getLast?_eq_some_iff.mp ho
    obtain ⟨hos', hlto⟩ := sorted_snoc.mp hos
    have hne' : os' ≠ [] := fun h => hol (by simp [h])
    obtain ⟨kept, ow', hkept, how, hks, hkne, hmem, hkb, hswap, hfilter⟩ :=
      append_else_facts os' ow hes hng hne1 hlto
    simp only [entries', overwritten', ord, dite_eq_ite, hkept, how, List.dropLast_concat] at ih ⊢
    obtain ⟨E, rr', hloop, hsorted, hlookup⟩ := ih hks hos' hkne hne'
      (sorted_cons_reverse hrr fun x hx => hbig x hx other (by simp))
      (fun x hx y hy => by
        rcases List.mem_append.mp hx with hx | hx
        · rcases List.mem_append.mp hy with hy | hy
          · exact hbig x hx y (List.mem_append_left _ (hmem y hy))
          · exact hbig x hx y (by simp [hy])
        · rw [List.mem_singleton.mp hx]
          rcases List.mem_append.mp hy with hy | hy
          · exact hkb y hy
          · exact hlto y hy)
    refine ⟨E, rr', by rw [hloop, hfilter], hsorted, fun k => ?_⟩
    have := congrArg (·.or (SortedList.lookup Entry.key rr.reverse k)) (hswap k)
    simp only [Option.or_assoc] at this
    rw [hlookup k]
    simp only [List.reverse_append, List.reverse_singleton, lookup_append, Option.or_assoc, this]
  | case6 es os rr ow hnone =>
    obtain ⟨es', cur, rfl⟩ := (List.eq_nil_or_concat es).resolve_left hne
    obtain ⟨os', other, rfl⟩ := (List.eq_nil_or_concat os).resolve_left hone
    exact (hnone cur other (by simp) (by simp)).elim

theorem lookup_or_comm_of_lt {l₁ l₂ : List (Entry K V)}
    (hlt : ∀ x ∈ l₁, ∀ y ∈ l₂, x.key < y.key) (k : K) :
    (SortedList.lookup Entry.key l₁ k).or (SortedList.lookup Entry.key l₂ k) =
      (SortedList.lookup Entry.key l₂ k).or (SortedList.lookup Entry.key l₁ k) := by
  cases h₁ : SortedList.lookup Entry.key l₁ k with
  | none => simp
  | some x =>
    obtain ⟨hx, rfl⟩ := lookup_eq_some h₁
    have h₂ : SortedList.lookup Entry.key l₂ x.key = none :=
      lookup_eq_none.mpr fun y hy => (hlt x hx y hy).ne'
    simp [h₂]

theorem append_impl_refines {a b : OrderedMap K V} {A B : K → Option V} (ha : a.Refines A)
    (hb : b.Refines B) :
    ∃ c, a.append_impl b = .ok (c, (a.entries.filter fun e => (B e.key).isSome).reverse) ∧
      c.Refines fun k => (B k).or (A k) := by
  have hover : (a.entries.filter fun e => (B e.key).isSome) = a.entries.filter (Overwrites b.entries) :=
    List.filter_congr fun e _ => by
      rw [Overwrites]
      exact Bool.eq_iff_iff.mpr (hb.isSome_iff e.key).symm
  have hlookup : ∀ k, (B k).or (A k) = ((SortedList.lookup Entry.key b.entries k).or
      (SortedList.lookup Entry.key a.entries k)).map Entry.value := by
    intro k
    rw [← hb.lookup_eq, ← ha.lookup_eq, lookup, lookup, Option.map_or]
  rw [hover]
  by_cases hbe : b.entries = []
  · refine ⟨a, by simp [append_impl, hbe, Overwrites], ha.sorted, fun k => ?_⟩
    rw [hlookup, hbe, lookup_nil, Option.none_or]
    rfl
  by_cases hae : a.entries = []
  · refine ⟨⟨b.entries⟩, by simp [append_impl, hbe, hae], hb.sorted, fun k => ?_⟩
    rw [hlookup, hae, lookup_nil, Option.or_none]
    rfl
  obtain ⟨as, last, has⟩ := (List.eq_nil_or_concat a.entries).resolve_left hae
  obtain ⟨first, bs, hbs⟩ := List.exists_cons_of_ne_nil hbe
  have hlast : a.entries.getLast? = some last := by simp [has]
  have hfirst : b.entries.head? = some first := by simp [hbs]
  by_cases hlt : compare last.key first.key = .lt
  · have hsep : ∀ x ∈ a.entries, ∀ y ∈ b.entries, x.key < y.key := by
      intro x hx y hy
      have hxl : x.key ≤ last.key := by
        have hs := ha.sorted
        rw [Sorted, has, List.concat_eq_append] at hs
        rw [has, List.concat_eq_append] at hx
        rcases List.mem_append.mp hx with hx | hx
        · exact ((sorted_snoc.mp hs).2 x hx).le
        · rw [List.mem_singleton.mp hx]
      have hfy : first.key ≤ y.key := by
        have hs := hb.sorted
        rw [Sorted, hbs] at hs
        rw [hbs] at hy
        rcases List.mem_cons.mp hy with rfl | hy
        · exact le_rfl
        · exact ((sorted_cons.mp hs).1 y hy).le
      exact lt_of_le_of_lt hxl (lt_of_lt_of_le (compare_lt_iff_lt.mp hlt) hfy)
    have hnone : a.entries.filter (Overwrites b.entries) = [] :=
      List.filter_eq_nil_iff.mpr fun x hx => by
        simp [Overwrites, lookup_eq_none.mpr fun y hy => (hsep x hx y hy).ne']
    refine ⟨⟨a.entries ++ b.entries⟩, ?_, sorted_append.mpr ⟨ha.sorted, hb.sorted, hsep⟩,
      fun k => ?_⟩
    · simp only [append_impl, hbe, hae, List.isEmpty_iff, if_false, hlast, hfirst, if_pos hlt,
        hnone, List.reverse_nil]
    · rw [hlookup, lookup, lookup_append, lookup_or_comm_of_lt hsep]
  · obtain ⟨E, rr', hloop, hsorted, hlk⟩ := append_impl_loop_spec [] []
      ha.sorted hb.sorted hae hbe (by simp [SortedList.Sorted]) (by simp)
    refine ⟨⟨E ++ rr'.reverse⟩, ?_, hsorted, fun k => ?_⟩
    · simp only [append_impl, hbe, hae, List.isEmpty_iff, if_false, hlast, hfirst, if_neg hlt,
        hloop, List.nil_append, Except.ok_bind]
      rfl
    · rw [hlookup, lookup, hlk k]
      simp

theorem append_refines {a b : OrderedMap K V} {A B : K → Option V} (ha : a.Refines A)
    (hb : b.Refines B) : ∃ c, a.append b = .ok c ∧ c.Refines fun k => (B k).or (A k) := by
  obtain ⟨c, hc, hr⟩ := append_impl_refines ha hb
  exact ⟨c, by simp [append, hc], hr⟩

theorem append_disjoint_refines {a b : OrderedMap K V} {A B : K → Option V} (ha : a.Refines A)
    (hb : b.Refines B) :
    ((∃ k, (A k).isSome ∧ (B k).isSome) →
      a.append_disjoint b = .error (invalid_argument EKEY_ALREADY_EXISTS)) ∧
    ((∀ k, (A k).isSome → B k = none) →
      ∃ c, a.append_disjoint b = .ok c ∧ c.Refines fun k => (B k).or (A k)) := by
  obtain ⟨c, hc, hr⟩ := append_impl_refines ha hb
  have hlen : (a.entries.filter fun e => (B e.key).isSome).length = 0 ↔
      ∀ k, (A k).isSome → B k = none := by
    rw [List.length_eq_zero_iff, List.filter_eq_nil_iff]
    constructor
    · intro h k hk
      obtain ⟨e, he, rfl⟩ := lookup_isSome.mp ((ha.isSome_iff k).mpr hk)
      simpa using h e he
    · intro h e he
      have := h e.key ((ha.isSome_iff e.key).mp (lookup_isSome.mpr ⟨e, he, rfl⟩))
      simp [this]
  constructor
  · rintro ⟨k, hA, hB⟩
    have hne : ¬(a.entries.filter fun e => (B e.key).isSome).length = 0 := fun h => by
      simp [(hlen.mp h) k hA] at hB
    simp only [append_disjoint, hc, Except.ok_bind, List.length_reverse, hne, if_false]
    rfl
  · intro hdis
    refine ⟨c, ?_, hr⟩
    simp only [append_disjoint, hc, Except.ok_bind, List.length_reverse, hlen.mpr hdis, if_true]
    rfl

end Append

theorem ordered_map_refines_finite_map :
    (∀ (m : OrderedMap K V) (k : K), m.Sorted →
      binary_search k m.entries 0 m.entries.length =
        m.entries.findIdx fun e => decide (k ≤ e.key)) ∧
    (∀ (m : OrderedMap K V) (M : K → Option V), m.Refines M → ∀ k v,
      ((M k).isSome → m.add k v = .error (invalid_argument EKEY_ALREADY_EXISTS)) ∧
      (M k = none → ∃ m', m.add k v = .ok m' ∧ m'.Refines (Function.update M k (some v)))) ∧
    (∀ (m : OrderedMap K V) (M : K → Option V), m.Refines M → ∀ k v,
      ∃ m', m.upsert k v = .ok (m', M k) ∧ m'.Refines (Function.update M k (some v))) ∧
    (∀ (m : OrderedMap K V) (M : K → Option V), m.Refines M → ∀ k,
      (M k = none → m.remove k = .error (invalid_argument EKEY_NOT_FOUND)) ∧
      ∀ v, M k = some v → ∃ m', m.remove k = .ok (m', v) ∧ m'.Refines (Function.update M k none)) ∧
    (∀ (m : OrderedMap K V) (M : K → Option V), m.Refines M → ∀ k,
      ∃ m', m.remove_or_none k = .ok (m', M k) ∧ m'.Refines (Function.update M k none)) ∧
    (∀ (m : OrderedMap K V) (M : K → Option V), m.Refines M → ∀ old_key new_key,
      (M old_key = none →
        m.replace_key_inplace old_key new_key = .error (invalid_argument EKEY_NOT_FOUND)) ∧
      ∀ v, M old_key = some v →
        (InOrder M old_key new_key → ∃ m', m.replace_key_inplace old_key new_key = .ok m' ∧
          m'.Refines (Function.update (Function.update M old_key none) new_key (some v))) ∧
        (¬InOrder M old_key new_key →
          m.replace_key_inplace old_key new_key = .error (invalid_argument ENEW_KEY_NOT_IN_ORDER))) ∧
    (∀ (m : OrderedMap K V) (M : K → Option V), m.Refines M → ∀ (it : IteratorPtr) k v,
      ((it.position m ≤ m.length ∧ (∀ x ∈ m.entries.take (it.position m), x.key < k) ∧
          ∀ x ∈ m.entries.drop (it.position m), k < x.key) →
        M k = none ∧ ∃ m', it.iter_add m k v = .ok m' ∧
          m'.Refines (Function.update M k (some v))) ∧
      (m.length < it.position m → it.iter_add m k v = .error vector.EINDEX_OUT_OF_BOUNDS) ∧
      (it.position m ≤ m.length →
        ¬((∀ x ∈ m.entries.take (it.position m), x.key < k) ∧
          ∀ x ∈ m.entries.drop (it.position m), k < x.key) →
        it.iter_add m k v = .error (invalid_argument ENEW_KEY_NOT_IN_ORDER))) ∧
    (∀ (m : OrderedMap K V) (M : K → Option V), m.Refines M → ∀ at',
      (m.length < at' → m.trim at' = .error vector.EINDEX_OUT_OF_BOUNDS) ∧
      (at' ≤ m.length → ∃ m₁ m₂, m.trim at' = .ok (m₁, m₂) ∧ m₁.Sorted ∧ m₂.Sorted ∧
        m₁.length = at' ∧ (∀ k, M k = (m₁.lookup k).or (m₂.lookup k)) ∧
        ∀ k₁ k₂, (m₁.lookup k₁).isSome → (m₂.lookup k₂).isSome → k₁ < k₂)) ∧
    (∀ (a b : OrderedMap K V) (A B : K → Option V), a.Refines A → b.Refines B →
      ∃ c, a.append_impl b = .ok (c, (a.entries.filter fun e => (B e.key).isSome).reverse) ∧
        a.append b = .ok c ∧ c.Refines fun k => (B k).or (A k)) ∧
    (∀ (a b : OrderedMap K V) (A B : K → Option V), a.Refines A → b.Refines B →
      ((∃ k, (A k).isSome ∧ (B k).isSome) →
        a.append_disjoint b = .error (invalid_argument EKEY_ALREADY_EXISTS)) ∧
      ((∀ k, (A k).isSome → B k = none) →
        ∃ c, a.append_disjoint b = .ok c ∧ c.Refines fun k => (B k).or (A k))) := by
  refine ⟨fun m k hs => binary_search_eq_findIdx hs k, fun m M h => add_refines h,
    fun m M h => upsert_refines h, fun m M h => remove_refines h,
    fun m M h => remove_or_none_refines h, fun m M h => replace_key_inplace_refines h,
    fun m M h => iter_add_refines h, fun m M h => trim_refines h, fun a b A B ha hb => ?_,
    fun a b A B ha hb => append_disjoint_refines ha hb⟩
  obtain ⟨c, hc, hr⟩ := append_impl_refines ha hb
  exact ⟨c, hc, by simp [append, hc], hr⟩

theorem ordered_map_refines_finite_map_two_keys :
    (⟨[⟨1, 0⟩, ⟨3, 0⟩]⟩ : OrderedMap ℕ ℕ).Sorted ∧
      binary_search 2 [(⟨1, 0⟩ : Entry ℕ ℕ), ⟨3, 0⟩] 0 2 =
        [(⟨1, 0⟩ : Entry ℕ ℕ), ⟨3, 0⟩].findIdx fun e => decide (2 ≤ e.key) := by
  have hs : (⟨[⟨1, 0⟩, ⟨3, 0⟩]⟩ : OrderedMap ℕ ℕ).Sorted := by
    simp [Sorted, SortedList.Sorted]
  exact ⟨hs, ordered_map_refines_finite_map.1 _ 2 hs⟩

end Zapatos.Datastructures.OrderedMap

import Mathlib

namespace Zapatos.SortedList

variable {α K : Type}

theorem insertIdx_eq_take_drop (l : List α) (a : α) {i : ℕ} (h : i ≤ l.length) :
    l.insertIdx i a = l.take i ++ a :: l.drop i := by
  induction l generalizing i with
  | nil =>
    obtain rfl : i = 0 := by simpa using h
    rfl
  | cons x xs ih =>
    cases i with
    | zero => rfl
    | succ i =>
      rw [List.insertIdx_succ_cons, ih (by simpa using h)]
      rfl

section Order

variable [LinearOrder K] (key : α → K)

def Sorted (l : List α) : Prop := l.Pairwise fun a b => key a < key b

def lookup (l : List α) (k : K) : Option α := l.find? fun a => key a = k

def Splits (k : K) (l : List α) (i : ℕ) : Prop :=
  i ≤ l.length ∧ (∀ x ∈ l.take i, key x < k) ∧ ∀ x ∈ l.drop i, k ≤ key x

variable {key}

theorem sorted_append {l₁ l₂ : List α} :
    Sorted key (l₁ ++ l₂) ↔ Sorted key l₁ ∧ Sorted key l₂ ∧ ∀ a ∈ l₁, ∀ b ∈ l₂, key a < key b :=
  List.pairwise_append

theorem sorted_cons {a : α} {l : List α} :
    Sorted key (a :: l) ↔ (∀ b ∈ l, key a < key b) ∧ Sorted key l :=
  List.pairwise_cons

theorem Sorted.sublist {l₁ l₂ : List α} (h : l₁.Sublist l₂) (hs : Sorted key l₂) :
    Sorted key l₁ :=
  List.Pairwise.sublist h hs

theorem Sorted.getElem_lt {l : List α} (hs : Sorted key l) {i j : ℕ} (hij : i < j)
    (hj : j < l.length) : key l[i] < key l[j] :=
  List.pairwise_iff_getElem.mp hs i j _ hj hij

theorem Sorted.getElem_le {l : List α} (hs : Sorted key l) {i j : ℕ} (hij : i ≤ j)
    (hj : j < l.length) : key l[i] ≤ key l[j] := by
  rcases Nat.lt_or_eq_of_le hij with hij | rfl
  · exact (hs.getElem_lt hij hj).le
  · exact le_rfl

theorem sorted_middle {l₁ l₂ : List α} {a : α} :
    Sorted key (l₁ ++ a :: l₂) ↔ Sorted key (l₁ ++ l₂) ∧ (∀ x ∈ l₁, key x < key a) ∧
      ∀ x ∈ l₂, key a < key x := by
  simp only [sorted_append, sorted_cons, List.mem_cons, forall_eq_or_imp]
  constructor
  · rintro ⟨h₁, ⟨ha, h₂⟩, hx⟩
    exact ⟨⟨h₁, h₂, fun x hx' y hy => (hx x hx').2 y hy⟩, fun x hx' => (hx x hx').1, ha⟩
  · rintro ⟨⟨h₁, h₂, h₁₂⟩, hlt, hgt⟩
    exact ⟨h₁, ⟨hgt, h₂⟩, fun x hx => ⟨hlt x hx, h₁₂ x hx⟩⟩

@[simp] theorem lookup_nil (k : K) : lookup key [] k = none := rfl

theorem lookup_cons (a : α) (l : List α) (k : K) :
    lookup key (a :: l) k = if key a = k then some a else lookup key l k := by
  simp only [lookup, List.find?_cons]
  split <;> simp_all

theorem lookup_append (l₁ l₂ : List α) (k : K) :
    lookup key (l₁ ++ l₂) k = (lookup key l₁ k).or (lookup key l₂ k) :=
  List.find?_append

theorem lookup_cons_eq_or (a : α) (l : List α) (k : K) :
    lookup key (a :: l) k = (lookup key [a] k).or (lookup key l k) := by
  rw [lookup_cons, lookup_cons, lookup_nil]
  split <;> rfl

theorem lookup_eq_none {l : List α} {k : K} : lookup key l k = none ↔ ∀ a ∈ l, key a ≠ k := by
  simp [lookup]

theorem lookup_eq_some {l : List α} {k : K} {a : α} (h : lookup key l k = some a) :
    a ∈ l ∧ key a = k :=
  ⟨List.mem_of_find?_eq_some h, by simpa using List.find?_some h⟩

theorem Sorted.lookup_of_mem {l : List α} {a : α} (hs : Sorted key l) (ha : a ∈ l) :
    lookup key l (key a) = some a := by
  induction l with
  | nil => cases ha
  | cons x xs ih =>
    obtain ⟨hx, hxs⟩ := sorted_cons.mp hs
    rw [lookup_cons]
    rcases List.mem_cons.mp ha with rfl | ha
    · simp
    · rw [if_neg (hx a ha).ne]
      exact ih hxs ha

theorem lookup_isSome {l : List α} {k : K} : (lookup key l k).isSome ↔ ∃ a ∈ l, key a = k := by
  simp [lookup]

theorem lookup_middle {l₁ l₂ : List α} {a : α} (hlt : ∀ x ∈ l₁, key x < key a)
    (hgt : ∀ x ∈ l₂, key a < key x) (k : K) :
    lookup key (l₁ ++ a :: l₂) k = if key a = k then some a else lookup key (l₁ ++ l₂) k := by
  rw [lookup_append, lookup_cons, lookup_append]
  split
  · rename_i hk
    have h₁ : lookup key l₁ k = none := lookup_eq_none.mpr fun x hx => hk ▸ (hlt x hx).ne
    have h₂ : lookup key l₂ k = none := lookup_eq_none.mpr fun x hx => hk ▸ (hgt x hx).ne'
    simp [h₁]
  · rfl

theorem eq_take_append_getElem_drop (l : List α) {i : ℕ} (h : i < l.length) :
    l = l.take i ++ l[i] :: l.drop (i + 1) := by
  rw [← List.drop_eq_getElem_cons h, List.take_append_drop]

theorem Sorted.replace_middle {l₁ l₂ : List α} {a b : α} (hs : Sorted key (l₁ ++ a :: l₂))
    (hb : key b = key a) :
    Sorted key (l₁ ++ b :: l₂) ∧
      ∀ k, lookup key (l₁ ++ b :: l₂) k =
        if key a = k then some b else lookup key (l₁ ++ a :: l₂) k := by
  obtain ⟨hs', hlt, hgt⟩ := sorted_middle.mp hs
  refine ⟨sorted_middle.mpr ⟨hs', hb ▸ hlt, hb ▸ hgt⟩, fun k => ?_⟩
  rw [lookup_middle (hb ▸ hlt) (hb ▸ hgt), lookup_middle hlt hgt, hb]
  split <;> rfl

theorem Sorted.erase_middle {l₁ l₂ : List α} {a : α} (hs : Sorted key (l₁ ++ a :: l₂)) :
    Sorted key (l₁ ++ l₂) ∧
      ∀ k, lookup key (l₁ ++ l₂) k = if key a = k then none else lookup key (l₁ ++ a :: l₂) k := by
  obtain ⟨hs', hlt, hgt⟩ := sorted_middle.mp hs
  refine ⟨hs', fun k => ?_⟩
  rw [lookup_middle hlt hgt]
  split
  · rename_i hk
    subst hk
    exact lookup_eq_none.mpr fun x hx => by
      rcases List.mem_append.mp hx with hx | hx
      · exact (hlt x hx).ne
      · exact (hgt x hx).ne'
  · rfl

theorem Sorted.neighbours_iff {l : List α} (hs : Sorted key l) {p : ℕ} (hp : p ≤ l.length)
    (k : K) :
    ((∀ hi : 0 < p, key l[p - 1] < k) ∧ ∀ hi : p < l.length, k < key l[p]) ↔
      (∀ x ∈ l.take p, key x < k) ∧ ∀ x ∈ l.drop p, k < key x := by
  constructor
  · rintro ⟨hprev, hnext⟩
    refine ⟨fun x hx => ?_, fun x hx => ?_⟩
    · obtain ⟨j, hj, rfl⟩ := List.mem_take_iff_getElem.mp hx
      exact lt_of_le_of_lt (hs.getElem_le (i := j) (j := p - 1) (by omega) (by omega))
        (hprev (by omega))
    · obtain ⟨j, hj, rfl⟩ := List.mem_drop_iff_getElem.mp hx
      have hle := hs.getElem_le (i := p) (j := p + j) (by omega) (by omega)
      exact lt_of_lt_of_le (hnext (by omega)) (by simpa only [Nat.add_comm j] using hle)
  · rintro ⟨hlt, hgt⟩
    refine ⟨fun hi => hlt _ (List.mem_take_iff_getElem.mpr ⟨p - 1, by omega, rfl⟩),
      fun hi => hgt _ (List.mem_drop_iff_getElem.mpr ⟨0, by omega, by simp⟩)⟩

theorem Splits.eq_findIdx {k : K} {l : List α} {i : ℕ} (h : Splits key k l i) :
    i = l.findIdx fun a => decide (k ≤ key a) := by
  obtain ⟨hi, hlt, hge⟩ := h
  have below : ∀ j (hj : j < i), decide (k ≤ key l[j]) = false := by
    intro j hj
    have hmem : l[j] ∈ l.take i := List.mem_take_iff_getElem.mpr ⟨j, by omega, rfl⟩
    simpa using hlt _ hmem
  rcases Nat.lt_or_eq_of_le hi with hi | rfl
  · refine ((List.findIdx_eq hi).mpr ⟨?_, below⟩).symm
    have hmem : l[i] ∈ l.drop i := List.mem_drop_iff_getElem.mpr ⟨0, by omega, by simp⟩
    simpa using hge _ hmem
  · refine (List.findIdx_eq_length.mpr fun x hx => ?_).symm
    simpa using hlt x (by simpa using hx)

theorem Splits.strict {k : K} {l : List α} {i : ℕ} (hs : Sorted key l) (h : Splits key k l i)
    (hne : ∀ x ∈ (l.drop i).head?, key x ≠ k) : ∀ x ∈ l.drop i, k < key x := by
  have hd : Sorted key (l.drop i) := hs.sublist (List.drop_sublist i l)
  intro x hx
  cases hdrop : l.drop i with
  | nil => simp [hdrop] at hx
  | cons y ys =>
    rw [hdrop] at hx hd
    have hy : k < key y := lt_of_le_of_ne (h.2.2 y (by simp [hdrop])) (hne y (by simp [hdrop])).symm
    rcases List.mem_cons.mp hx with rfl | hx
    · exact hy
    · exact hy.trans ((sorted_cons.mp hd).1 x hx)

theorem Splits.head_key_iff {k : K} {l : List α} {i : ℕ} (hs : Sorted key l)
    (h : Splits key k l i) : (∃ x ∈ (l.drop i).head?, key x = k) ↔ ∃ a ∈ l, key a = k := by
  constructor
  · rintro ⟨x, hx, hk⟩
    exact ⟨x, List.mem_of_mem_drop (List.mem_of_mem_head? hx), hk⟩
  · rintro ⟨a, ha, rfl⟩
    rw [← List.take_append_drop i l, List.mem_append] at ha
    rcases ha with ha | ha
    · exact absurd (h.2.1 a ha) (lt_irrefl _)
    · cases hdrop : l.drop i with
      | nil => simp [hdrop] at ha
      | cons y ys =>
        have hd : Sorted key (y :: ys) := hdrop ▸ hs.sublist (List.drop_sublist i l)
        rw [hdrop] at ha
        refine ⟨y, rfl, le_antisymm ?_ (h.2.2 y (by simp [hdrop]))⟩
        rcases List.mem_cons.mp ha with rfl | ha
        · exact le_rfl
        · exact ((sorted_cons.mp hd).1 a ha).le

theorem Splits.insert {k : K} {l : List α} {i : ℕ} {a : α} (hs : Sorted key l)
    (h : Splits key k l i) (hk : key a = k) (hgt : ∀ x ∈ l.drop i, k < key x) :
    Sorted key (l.take i ++ a :: l.drop i) ∧
      ∀ k', lookup key (l.take i ++ a :: l.drop i) k' =
        if k = k' then some a else lookup key l k' := by
  subst hk
  refine ⟨sorted_middle.mpr ⟨by rwa [List.take_append_drop], h.2.1, hgt⟩, fun k' => ?_⟩
  rw [lookup_middle h.2.1 hgt, List.take_append_drop]

end Order

end Zapatos.SortedList

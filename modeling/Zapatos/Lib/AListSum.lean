import Mathlib

namespace Zapatos.AListSum

variable {α : Type}

def total (s : AList fun _ : α => ℕ) : ℕ := (s.entries.map Sigma.snd).sum

@[simp] theorem total_empty : total (∅ : AList fun _ : α => ℕ) = 0 := rfl

variable [DecidableEq α]

def valueAt (s : AList fun _ : α => ℕ) (a : α) : ℕ := (s.lookup a).getD 0

def Positive (s : AList fun _ : α => ℕ) : Prop := ∀ a v, s.lookup a = some v → 0 < v

def credit (s : AList fun _ : α => ℕ) (a : α) (k : ℕ) : AList fun _ : α => ℕ :=
  if a ∈ s ∨ 0 < k then s.insert a (valueAt s a + k) else s

def debit (s : AList fun _ : α => ℕ) (a : α) (k : ℕ) : AList fun _ : α => ℕ :=
  if valueAt s a - k = 0 then s.erase a else s.insert a (valueAt s a - k)

theorem sum_kerase_add_dlookup (l : List (Sigma fun _ : α => ℕ)) (a : α) :
    ((l.kerase a).map Sigma.snd).sum + (l.dlookup a).getD 0 = (l.map Sigma.snd).sum := by
  induction l with
  | nil => simp
  | cons e rest ih =>
    obtain ⟨b, v⟩ := e
    by_cases hab : a = b
    · subst hab
      simp [List.kerase_cons_eq, List.dlookup_cons_eq, Nat.add_comm]
    · have he : a ≠ (⟨b, v⟩ : Sigma fun _ : α => ℕ).1 := hab
      simp only [List.kerase_cons_ne he, List.dlookup_cons_ne rest _ he, List.map_cons,
        List.sum_cons]
      omega

variable {s : AList fun _ : α => ℕ} {a b : α} {k v : ℕ}

@[simp] theorem valueAt_empty : valueAt (∅ : AList fun _ : α => ℕ) a = 0 := rfl

theorem valueAt_of_lookup (hv : s.lookup a = some v) : valueAt s a = v := by
  simp [valueAt, hv]

theorem valueAt_eq_zero (ha : a ∉ s) : valueAt s a = 0 := by
  simp [valueAt, AList.lookup_eq_none.mpr ha]

theorem erase_insert_self : (s.insert a v).erase a = s.erase a := by
  apply AList.ext
  simp [AList.erase, AList.entries_insert, List.kerase_cons_eq]

theorem valueAt_insert : valueAt (s.insert a v) b = if b = a then v else valueAt s b := by
  by_cases hb : b = a
  · subst hb
    simp [valueAt, AList.lookup_insert]
  · simp [valueAt, AList.lookup_insert_ne hb, hb]

theorem valueAt_erase : valueAt (s.erase a) b = if b = a then 0 else valueAt s b := by
  by_cases hb : b = a
  · subst hb
    simp [valueAt, AList.lookup_erase]
  · simp [valueAt, AList.lookup_erase_ne hb, hb]

theorem valueAt_pos_of_mem (hs : Positive s) (ha : a ∈ s) : 0 < valueAt s a := by
  obtain ⟨v, hv⟩ := Option.isSome_iff_exists.mp (AList.lookup_isSome.mpr ha)
  simpa [valueAt, hv] using hs a v hv

theorem mem_of_valueAt_pos (ha : 0 < valueAt s a) : a ∈ s := by
  by_contra hn
  simp [valueAt, AList.lookup_eq_none.mpr hn] at ha

theorem Positive.mem_iff (hs : Positive s) : a ∈ s ↔ 0 < valueAt s a :=
  ⟨valueAt_pos_of_mem hs, mem_of_valueAt_pos⟩

theorem valueAt_credit : valueAt (credit s a k) b = if b = a then valueAt s a + k else valueAt s b := by
  unfold credit
  split_ifs with hc hb hb
  · rw [valueAt_insert, if_pos hb]
  · rw [valueAt_insert, if_neg hb]
  · have ha : a ∉ s := fun h => hc (.inl h)
    have hk : k = 0 := by omega
    rw [hb]
    simp [valueAt, AList.lookup_eq_none.mpr ha, hk]
  · rfl

theorem valueAt_debit :
    valueAt (debit s a k) b = if b = a then valueAt s a - k else valueAt s b := by
  unfold debit
  split_ifs with hz hb hb
  · rw [valueAt_erase, if_pos hb, hz]
  · rw [valueAt_erase, if_neg hb]
  · rw [valueAt_insert, if_pos hb]
  · rw [valueAt_insert, if_neg hb]

theorem total_erase_add : total (s.erase a) + valueAt s a = total s :=
  sum_kerase_add_dlookup s.entries a

theorem total_insert_add : total (s.insert a v) + valueAt s a = total s + v := by
  have h := total_erase_add (s := s) (a := a)
  simp only [total, AList.entries_insert, List.map_cons, List.sum_cons] at h ⊢
  simp only [AList.erase] at h
  omega

theorem total_credit : total (credit s a k) = total s + k := by
  unfold credit
  split_ifs with hc
  · have h := total_insert_add (s := s) (a := a) (v := valueAt s a + k)
    omega
  · omega

theorem total_debit (hk : k ≤ valueAt s a) : total (debit s a k) + k = total s := by
  unfold debit
  split_ifs with hz
  · have h := total_erase_add (s := s) (a := a)
    omega
  · have h := total_insert_add (s := s) (a := a) (v := valueAt s a - k)
    omega

theorem Positive.insert (hs : Positive s) (hv : 0 < v) : Positive (s.insert a v) := by
  intro b w hb
  by_cases hba : b = a
  · subst hba
    rw [AList.lookup_insert] at hb
    exact Option.some_inj.mp hb ▸ hv
  · rw [AList.lookup_insert_ne hba] at hb
    exact hs b w hb

theorem Positive.erase (hs : Positive s) : Positive (s.erase a) := by
  intro b w hb
  by_cases hba : b = a
  · subst hba
    simp [AList.lookup_erase] at hb
  · rw [AList.lookup_erase_ne hba] at hb
    exact hs b w hb

theorem Positive.credit (hs : Positive s) : Positive (credit s a k) := by
  unfold AListSum.credit
  split_ifs with hc
  · rcases hc with ha | hk
    · exact hs.insert (by have := valueAt_pos_of_mem hs ha; omega)
    · exact hs.insert (by omega)
  · exact hs

theorem Positive.debit (hs : Positive s) : Positive (debit s a k) := by
  unfold AListSum.debit
  split_ifs with hz
  · exact hs.erase
  · exact hs.insert (by omega)

theorem valueAt_le_total : valueAt s a ≤ total s := by
  have h := total_erase_add (s := s) (a := a)
  omega

theorem valueAt_add_valueAt_le_total (hab : a ≠ b) : valueAt s a + valueAt s b ≤ total s := by
  have hb : valueAt (s.erase a) b ≤ total (s.erase a) := valueAt_le_total
  rw [valueAt_erase, if_neg (Ne.symm hab)] at hb
  have h := total_erase_add (s := s) (a := a)
  omega

theorem sum_keys_map (g : ℕ → ℕ) :
    (s.keys.map fun a => g (valueAt s a)).sum = (s.entries.map fun e => g e.2).sum := by
  have hmem : ∀ e ∈ s.entries, g (valueAt s e.1) = g e.2 := by
    intro e he
    rw [valueAt, AList.mem_lookup_iff.mpr he]
    rfl
  simp only [AList.keys, List.keys, List.map_map]
  exact congrArg List.sum (List.map_congr_left hmem)

theorem sum_keys_valueAt : (s.keys.map (valueAt s)).sum = total s := by
  exact sum_keys_map (s := s) id

end Zapatos.AListSum

import Zapatos.Stdlib.SmartTableSpec

namespace Zapatos.Stdlib.smart_table

open Move Buckets

variable {K V : Type} {sip_hash_from_value : K → ℕ} {self self' : SmartTable K V}

section Lifecycle

-- The removal loop of clear drops the given buckets and leaves the others as they were.
theorem foldlM_remove_eq : ∀ (l : List ℕ) (B : AList fun _ : ℕ => List (Entry K V)), l.Nodup →
    (∀ j ∈ l, j ∈ B) → ∃ B', l.foldlM (fun buckets i => do
      let (buckets, _) ← table.remove buckets i
      pure buckets) B = .ok B' ∧ (∀ j, j ∈ B' ↔ j ∈ B ∧ j ∉ l) ∧
      ∀ j, j ∉ l → B'.lookup j = B.lookup j := by
  intro l
  induction l with
  | nil =>
    intro B _ _
    exact ⟨B, rfl, by simp, fun _ _ => rfl⟩
  | cons j l ih =>
    intro B hnd hmem
    obtain ⟨hj, hnd⟩ := List.nodup_cons.mp hnd
    obtain ⟨v, hv⟩ := Option.isSome_iff_exists.mp (AList.lookup_isSome.mpr (hmem j (by simp)))
    have hremove : table.remove B j = .ok (B.erase j, v) := table.remove_eq_ok.mpr ⟨v, hv, rfl⟩
    obtain ⟨B', hfold, hB', hlookup⟩ := ih (B.erase j) hnd fun j' hj' =>
      AList.mem_erase.mpr ⟨fun h => hj (h ▸ hj'), hmem j' (by simp [hj'])⟩
    refine ⟨B', ?_, fun j' => ?_, fun j' hj' => ?_⟩
    · rw [List.foldlM_cons, hremove]
      exact hfold
    · rw [hB', AList.mem_erase, List.mem_cons]
      tauto
    · rw [List.mem_cons, not_or] at hj'
      rw [hlookup j' hj'.2, AList.lookup_erase_ne hj'.1]

theorem inv_clear (hinv : Inv sip_hash_from_value self) (h : clear self = .ok self') :
    Inv sip_hash_from_value self' ∧ entries self' = [] := by
  have hpos : 0 < self.num_buckets := lt_of_lt_of_le Nat.one_le_two_pow hinv.level_le
  have h0 : (0 : ℕ) ∈ self.buckets := (hinv.mem_buckets 0).mpr hpos
  obtain ⟨B', hfold, hmem, hlookup⟩ := foldlM_remove_eq (List.range' 1 (self.num_buckets - 1))
    (self.buckets.insert 0 []) List.nodup_range' fun j hj => by
      rw [List.mem_range'_1] at hj
      rw [AList.mem_insert, hinv.mem_buckets]
      omega
  unfold clear at h
  rw [table.borrow_mut_eq_ok.mpr ⟨h0, rfl⟩, Except.ok_bind, hfold, Except.ok_bind] at h
  cases h
  have hbucket : ∀ j, (B'.lookup j).getD [] = [] := by
    intro j
    by_cases hj : j = 0
    · rw [hj, hlookup 0 (by simp), AList.lookup_insert]
      rfl
    · have hnot : j ∉ B' := by
        rw [hmem, AList.mem_insert, hinv.mem_buckets, List.mem_range'_1]
        omega
      rw [AList.lookup_eq_none.mpr hnot]
      rfl
  have hentries : (List.range 1).flatMap (fun j => (B'.lookup j).getD []) = [] := by
    simp [hbucket]
  refine ⟨⟨fun j => ?_, by simp, by simp, fun j e he => ?_, fun j e he => ?_, ?_, ?_⟩, hentries⟩
  · dsimp only
    rw [hmem, AList.mem_insert, hinv.mem_buckets, List.mem_range'_1]
    omega
  · simp [bucket, hbucket] at he
  · simp [bucket, hbucket] at he
  · simp [entries, bucket, hbucket]
  · simp [entries, bucket, hbucket]

theorem inv_split_initial_buckets : ∀ (n : ℕ) {t t' : SmartTable K V},
    Inv sip_hash_from_value t → split_initial_buckets n t = .ok t' →
    Inv sip_hash_from_value t' ∧ (entries t').Perm (entries t)
  | 0, _, _, hinv, h => by
    cases h
    exact ⟨hinv, .refl _⟩
  | 1, _, _, hinv, h => by
    cases h
    exact ⟨hinv, .refl _⟩
  | n + 2, _, _, hinv, h => by
    obtain ⟨t₁, h₁, h⟩ := Except.bind_eq_ok h
    obtain ⟨hinv₁, hperm₁⟩ := inv_split_one_bucket hinv h₁
    obtain ⟨hinv', hperm'⟩ := inv_split_initial_buckets (n + 1) hinv₁ h
    exact ⟨hinv', hperm'.trans hperm₁⟩

theorem inv_initial_table (sip_hash_from_value : K → ℕ) (split_load_threshold target_bucket_size : ℕ) :
    Inv sip_hash_from_value (⟨AList.insert 0 [] ∅, 1, 0, 0, split_load_threshold,
      target_bucket_size⟩ : SmartTable K V) ∧
    entries (⟨AList.insert 0 [] ∅, 1, 0, 0, split_load_threshold, target_bucket_size⟩ :
      SmartTable K V) = [] := by
  set t : SmartTable K V := ⟨AList.insert 0 [] ∅, 1, 0, 0, split_load_threshold, target_bucket_size⟩
  have hbucket : ∀ j, bucket t j = [] := by
    intro j
    simp only [t, bucket]
    by_cases hj : j = 0
    · rw [hj, AList.lookup_insert]
      rfl
    · rw [AList.lookup_insert_ne hj]
      rfl
  have hentries : entries t = [] := by simp [entries, hbucket]
  refine ⟨⟨fun j => ?_, by simp [t], by simp [t], fun j e he => ?_, fun j e he => ?_, ?_, ?_⟩,
    hentries⟩
  · simp [t, -AList.insert_empty]
  · simp [hbucket] at he
  · simp [hbucket] at he
  · simp [hentries]
  · rw [hentries]
    rfl

-- A new table has one empty bucket, then splits until it has num_initial_buckets of them.
theorem inv_new_with_config {num_initial_buckets split_load_threshold target_bucket_size : ℕ}
    {t : SmartTable K V}
    (h : new_with_config num_initial_buckets split_load_threshold target_bucket_size = .ok t) :
    Inv sip_hash_from_value t ∧ entries t = [] := by
  unfold new_with_config at h
  by_cases hle : split_load_threshold ≤ 100
  · rw [if_pos hle, table.add_eq_ok.mpr ⟨by simp, rfl⟩, Except.ok_bind] at h
    obtain ⟨hinv₀, hentries₀⟩ := inv_initial_table sip_hash_from_value
      (if split_load_threshold = 0 then 75 else split_load_threshold) target_bucket_size
    obtain ⟨hinv, hperm⟩ := inv_split_initial_buckets _ hinv₀ h
    exact ⟨hinv, List.Perm.eq_nil (hentries₀ ▸ hperm)⟩
  · rw [if_neg hle] at h
    cases h

theorem inv_update_split_load_threshold (hinv : Inv sip_hash_from_value self)
    {split_load_threshold : ℕ} (h : update_split_load_threshold self split_load_threshold = .ok self') :
    Inv sip_hash_from_value self' ∧ entries self' = entries self := by
  unfold update_split_load_threshold at h
  split at h
  · cases h
    exact ⟨{ hinv with }, rfl⟩
  · simp at h

theorem inv_update_target_bucket_size (hinv : Inv sip_hash_from_value self)
    {target_bucket_size : ℕ} (h : update_target_bucket_size self target_bucket_size = .ok self') :
    Inv sip_hash_from_value self' ∧ entries self' = entries self := by
  unfold update_target_bucket_size at h
  split at h
  · cases h
    exact ⟨{ hinv with }, rfl⟩
  · simp at h

end Lifecycle

section Refinement

variable [DecidableEq K] {size_of_val : Entry K V → ℕ}

theorem inv_add_all (hinv : Inv sip_hash_from_value self) {keys : List K} {values : List V}
    (h : add_all sip_hash_from_value size_of_val self keys values = .ok self') :
    Inv sip_hash_from_value self' := by
  unfold add_all at h
  split at h
  · simp only at h
    generalize keys.zip values = l at h
    induction l generalizing self with
    | nil =>
      cases h
      exact hinv
    | cons p l ih =>
      rw [List.foldlM_cons] at h
      obtain ⟨self₁, h₁, h⟩ := Except.bind_eq_ok h
      exact ih (inv_add hinv h₁).2.1 h
  · simp at h

theorem Inv.borrow_mut_of_view_eq_none (hinv : Inv sip_hash_from_value self) {key : K}
    (h : view self key = none) (value : V) :
    borrow_mut sip_hash_from_value self key value = .error (invalid_argument ENOT_FOUND) := by
  unfold borrow_mut
  simp only [hinv.borrow_eq (hinv.index_lt _), Except.ok_bind]
  rw [hinv.view_eq, Option.map_eq_none_iff, find?_key_eq_none_iff] at h
  have hidx : (bucket self (bucket_index self.level self.num_buckets (sip_hash_from_value key))).findIdx?
      (fun entry => entry.key == key) = none :=
    List.findIdx?_eq_none_iff.mpr fun e he => by simpa using h e he
  rw [hidx]
  rfl

theorem inv_borrow_mut (hinv : Inv sip_hash_from_value self) {key : K} {value : V}
    (h : borrow_mut sip_hash_from_value self key value = .ok self') :
    Inv sip_hash_from_value self' := by
  cases hv : view self key with
  | none =>
    rw [hinv.borrow_mut_of_view_eq_none hv] at h
    cases h
  | some v =>
    obtain ⟨self'', hbm, hinv'', -⟩ := view_borrow_mut hinv hv value
    rw [hbm, Except.ok.injEq] at h
    exact h ▸ hinv''

theorem inv_remove (hinv : Inv sip_hash_from_value self) {key : K} {v : V}
    (h : remove sip_hash_from_value self key = .ok (self', v)) :
    Inv sip_hash_from_value self' := by
  cases hv : view self key with
  | none =>
    rw [hinv.remove_of_view_eq_none hv] at h
    cases h
  | some v' =>
    obtain ⟨self'', hremove, hinv'', -⟩ := view_remove hinv hv
    rw [hremove, Except.ok.injEq, Prod.mk.injEq] at h
    exact h.1 ▸ hinv''

-- An add whose bucket already holds more than 10000 entries aborts, whether the key is there or not.
theorem Inv.add_exceed (hinv : Inv sip_hash_from_value self) {key : K} {value : V}
    (hlen : 10000 < (bucket self (bucket_index self.level self.num_buckets
      (sip_hash_from_value key))).length) :
    add sip_hash_from_value size_of_val self key value =
      .error (permission_denied EEXCEED_MAX_BUCKET_SIZE) := by
  unfold add
  simp only [hinv.borrow_eq (hinv.index_lt _), Except.ok_bind, if_neg (Nat.not_le.mpr hlen)]
  rfl

variable (sip_hash_from_value size_of_val)

-- The tables a program can hold: one from new_with_config, changed by any sequence of the
-- public operations that returned.
inductive Reachable : SmartTable K V → Prop
  | new_with_config {num_initial_buckets split_load_threshold target_bucket_size : ℕ}
      {t : SmartTable K V} :
      new_with_config num_initial_buckets split_load_threshold target_bucket_size = .ok t →
      Reachable t
  | add {t t' : SmartTable K V} {key : K} {value : V} : Reachable t →
      add sip_hash_from_value size_of_val t key value = .ok t' → Reachable t'
  | add_all {t t' : SmartTable K V} {keys : List K} {values : List V} : Reachable t →
      add_all sip_hash_from_value size_of_val t keys values = .ok t' → Reachable t'
  | upsert {t t' : SmartTable K V} {key : K} {value : V} : Reachable t →
      upsert sip_hash_from_value size_of_val t key value = .ok t' → Reachable t'
  | borrow_mut {t t' : SmartTable K V} {key : K} {value : V} : Reachable t →
      borrow_mut sip_hash_from_value t key value = .ok t' → Reachable t'
  | remove {t t' : SmartTable K V} {key : K} {v : V} : Reachable t →
      remove sip_hash_from_value t key = .ok (t', v) → Reachable t'
  | clear {t t' : SmartTable K V} : Reachable t → clear t = .ok t' → Reachable t'
  | update_split_load_threshold {t t' : SmartTable K V} {split_load_threshold : ℕ} : Reachable t →
      update_split_load_threshold t split_load_threshold = .ok t' → Reachable t'
  | update_target_bucket_size {t t' : SmartTable K V} {target_bucket_size : ℕ} : Reachable t →
      update_target_bucket_size t target_bucket_size = .ok t' → Reachable t'

-- The table seen as a finite map from keys to values: what each operation answers and what it
-- leaves behind, in terms of view.
structure RefinesMap (t : SmartTable K V) : Prop where
  contains_eq : ∀ key, contains sip_hash_from_value t key = .ok (view t key).isSome
  borrow_eq_ok_iff : ∀ key v, borrow sip_hash_from_value t key = .ok v ↔ view t key = some v
  borrow_not_found : ∀ key, view t key = none →
    borrow sip_hash_from_value t key = .error (invalid_argument ENOT_FOUND)
  remove_not_found_iff : ∀ key,
    remove sip_hash_from_value t key = .error (invalid_argument ENOT_FOUND) ↔ view t key = none
  remove_eq : ∀ key v, view t key = some v → ∃ t', remove sip_hash_from_value t key = .ok (t', v) ∧
    view t' = Function.update (view t) key none
  add_eq : ∀ key value t', add sip_hash_from_value size_of_val t key value = .ok t' →
    view t key = none ∧ view t' = Function.update (view t) key (some value)
  add_already_exist_iff : ∀ key value,
    (bucket t (bucket_index t.level t.num_buckets (sip_hash_from_value key))).length ≤ 10000 →
    (add sip_hash_from_value size_of_val t key value = .error (invalid_argument EALREADY_EXIST) ↔
      (view t key).isSome)
  add_exceed : ∀ key value,
    10000 < (bucket t (bucket_index t.level t.num_buckets (sip_hash_from_value key))).length →
    add sip_hash_from_value size_of_val t key value =
      .error (permission_denied EEXCEED_MAX_BUCKET_SIZE)
  add_aborts_arith : ∀ key value,
    (bucket t (bucket_index t.level t.num_buckets (sip_hash_from_value key))).length ≤ 10000 →
    view t key = none → AbortsArith (add sip_hash_from_value size_of_val t key value)
  borrow_mut_eq : ∀ key v, view t key = some v → ∀ value,
    ∃ t', borrow_mut sip_hash_from_value t key value = .ok t' ∧
      view t' = Function.update (view t) key (some value)
  upsert_eq : ∀ key value t', upsert sip_hash_from_value size_of_val t key value = .ok t' →
    view t' = Function.update (view t) key (some value)
  upsert_present : ∀ key v, view t key = some v → ∀ value,
    ∃ t', upsert sip_hash_from_value size_of_val t key value = .ok t'

variable {sip_hash_from_value size_of_val}

theorem Inv.refinesMap {t : SmartTable K V} (hinv : Inv sip_hash_from_value t) :
    RefinesMap sip_hash_from_value size_of_val t where
  contains_eq := hinv.contains_eq
  borrow_eq_ok_iff _ _ := hinv.borrow_eq_ok_iff
  borrow_not_found _ := hinv.borrow_of_view_eq_none
  remove_not_found_iff key := by
    constructor
    · intro h
      cases hv : view t key with
      | none => rfl
      | some v =>
        obtain ⟨t', hremove, -⟩ := view_remove hinv hv
        rw [hremove] at h
        cases h
    · exact hinv.remove_of_view_eq_none
  remove_eq _ _ hv := by
    obtain ⟨t', hremove, -, hview⟩ := view_remove hinv hv
    exact ⟨t', hremove, hview⟩
  add_eq _ _ _ h := ⟨(inv_add hinv h).1, view_add hinv h⟩
  add_already_exist_iff _ _ hlen := hinv.add_already_exist_iff hlen
  add_exceed _ _ hlen := hinv.add_exceed hlen
  add_aborts_arith _ _ hlen hv := hinv.add_aborts_arith hlen hv
  borrow_mut_eq _ _ hv value := by
    obtain ⟨t', hbm, -, hview⟩ := view_borrow_mut hinv hv value
    exact ⟨t', hbm, hview⟩
  upsert_eq _ _ _ h := (inv_upsert hinv h).2
  upsert_present _ _ hv value := upsert_of_view_eq_some hinv hv value

theorem Reachable.inv {t : SmartTable K V} (h : Reachable sip_hash_from_value size_of_val t) :
    Inv sip_hash_from_value t := by
  induction h with
  | new_with_config h => exact (inv_new_with_config h).1
  | add _ h ih => exact (inv_add ih h).2.1
  | add_all _ h ih => exact inv_add_all ih h
  | upsert _ h ih => exact (inv_upsert ih h).1
  | borrow_mut _ h ih => exact inv_borrow_mut ih h
  | remove _ h ih => exact inv_remove ih h
  | clear _ h ih => exact (inv_clear ih h).1
  | update_split_load_threshold _ h ih => exact (inv_update_split_load_threshold ih h).1
  | update_target_bucket_size _ h ih => exact (inv_update_target_bucket_size ih h).1

theorem smart_table_refines_map {t : SmartTable K V}
    (h : Reachable sip_hash_from_value size_of_val t) :
    Inv sip_hash_from_value t ∧ RefinesMap sip_hash_from_value size_of_val t :=
  ⟨h.inv, h.inv.refinesMap⟩

theorem smart_table_refines_map_after_add :
    Reachable id (fun _ => 1) (⟨AList.insert 1 [⟨5, 5, 7⟩] (AList.insert 0 [] ∅), 2, 1, 1, 75, 1024⟩ :
      SmartTable ℕ ℕ) ∧
    Inv id (⟨AList.insert 1 [⟨5, 5, 7⟩] (AList.insert 0 [] ∅), 2, 1, 1, 75, 1024⟩ : SmartTable ℕ ℕ) ∧
    RefinesMap id (fun _ => 1)
      (⟨AList.insert 1 [⟨5, 5, 7⟩] (AList.insert 0 [] ∅), 2, 1, 1, 75, 1024⟩ : SmartTable ℕ ℕ) := by
  have h₀ : new_with_config 2 75 0 =
      .ok (⟨AList.insert 1 [] (AList.insert 0 [] ∅), 2, 1, 0, 75, 0⟩ : SmartTable ℕ ℕ) := rfl
  have h₁ : add id (fun _ => 1) ⟨AList.insert 1 [] (AList.insert 0 [] ∅), 2, 1, 0, 75, 0⟩ 5 7 =
      .ok (⟨AList.insert 1 [⟨5, 5, 7⟩] (AList.insert 0 [] ∅), 2, 1, 1, 75, 1024⟩ : SmartTable ℕ ℕ) :=
    rfl
  have h := Reachable.add (.new_with_config h₀) h₁
  exact ⟨h, smart_table_refines_map h⟩

end Refinement

section Counterexample

-- One bucket that holds the keys 0, ..., n - 1 with value 0. With a target bucket size of
-- 2^64 - 1 the load factor stays 0, so no add splits it.
def single_bucket_table (sip_hash_from_value : ℕ → ℕ) (n : ℕ) : SmartTable ℕ ℕ :=
  ⟨AList.insert 0 ((List.range n).map fun k => ⟨sip_hash_from_value k, k, 0⟩) ∅, 1, 0, n, 75,
    2 ^ 64 - 1⟩

theorem bucket_index_zero_one (hash : ℕ) : bucket_index 0 1 hash = 0 := by
  simp only [bucket_index, zero_add, pow_one, pow_zero]
  split <;> omega

section SingleBucket

variable (sip_hash_from_value : ℕ → ℕ) (size_of_val : Entry ℕ ℕ → ℕ) (n : ℕ)

@[simp] theorem single_bucket_table_level : (single_bucket_table sip_hash_from_value n).level = 0 :=
  rfl

@[simp] theorem single_bucket_table_num_buckets :
    (single_bucket_table sip_hash_from_value n).num_buckets = 1 := rfl

@[simp] theorem single_bucket_table_size : (single_bucket_table sip_hash_from_value n).size = n :=
  rfl

variable {n}

theorem bucket_single_bucket_table :
    bucket (single_bucket_table sip_hash_from_value n) 0 =
      (List.range n).map fun k => ⟨sip_hash_from_value k, k, 0⟩ := by
  simp [bucket, single_bucket_table, -AList.insert_empty]

theorem add_single_bucket_table (hn : n ≤ 10000) :
    add sip_hash_from_value size_of_val (single_bucket_table sip_hash_from_value n) n 0 =
      .ok (single_bucket_table sip_hash_from_value (n + 1)) := by
  have hborrow : table.borrow (single_bucket_table sip_hash_from_value n).buckets
      (bucket_index 0 1 (sip_hash_from_value n)) =
      .ok ((List.range n).map fun k => ⟨sip_hash_from_value k, k, 0⟩) := by
    rw [bucket_index_zero_one, table.borrow_eq_ok]
    simp [single_bucket_table, -AList.insert_empty]
  have hlen : ((List.range n).map fun k => (⟨sip_hash_from_value k, k, 0⟩ : Entry ℕ ℕ)).length ≤
      10000 := by simpa using hn
  have hall : (((List.range n).map fun k => (⟨sip_hash_from_value k, k, 0⟩ : Entry ℕ ℕ)).all
      fun entry => entry.key != n) = true := by
    simp only [List.all_map, List.all_eq_true, List.mem_range]
    intro k hk
    simpa using Nat.ne_of_lt hk
  have hbm : table.borrow_mut (single_bucket_table sip_hash_from_value n).buckets
      (bucket_index 0 1 (sip_hash_from_value n))
      ((List.range n).map (fun k => ⟨sip_hash_from_value k, k, 0⟩) ++ [⟨sip_hash_from_value n, n, 0⟩]) =
      .ok (single_bucket_table sip_hash_from_value (n + 1)).buckets := by
    rw [bucket_index_zero_one, table.borrow_mut_eq_ok]
    refine ⟨by simp [single_bucket_table, -AList.insert_empty], ?_⟩
    simp [single_bucket_table, List.range_succ, -AList.insert_empty]
  have hsize : checked_add 64 n 1 = .ok (n + 1) := checked_add_eq_ok.mpr ⟨by omega, rfl⟩
  have hload : load_factor (single_bucket_table sip_hash_from_value (n + 1)) = .ok 0 := by
    have hmul : checked_mul 64 (n + 1) 100 = .ok ((n + 1) * 100) :=
      checked_mul_eq_ok.mpr ⟨by omega, rfl⟩
    have hdiv : (n + 1) * 100 / 1 / (2 ^ 64 - 1) = 0 := Nat.div_eq_of_lt (by omega)
    simp only [load_factor, single_bucket_table, hmul, Except.ok_bind,
      checked_div_eq_ok.mpr ⟨Nat.one_pos, rfl⟩, checked_div_eq_ok.mpr ⟨by omega, hdiv⟩]
  have htarget : ¬(single_bucket_table sip_hash_from_value n).target_bucket_size = 0 := by
    simp [single_bucket_table]
  have hrecord : ({
      buckets := (single_bucket_table sip_hash_from_value (n + 1)).buckets, num_buckets := 1,
      level := 0, size := n + 1,
      split_load_threshold := (single_bucket_table sip_hash_from_value n).split_load_threshold,
      target_bucket_size := (single_bucket_table sip_hash_from_value n).target_bucket_size } :
      SmartTable ℕ ℕ) = single_bucket_table sip_hash_from_value (n + 1) := rfl
  have hsplit : ¬(0 ≥ (single_bucket_table sip_hash_from_value n).split_load_threshold) := by
    simp [single_bucket_table]
  unfold add
  simp only [single_bucket_table_level, single_bucket_table_num_buckets, hborrow, Except.ok_bind,
    if_pos hlen, if_pos hall, hbm, single_bucket_table_size, hsize, if_neg htarget, hrecord, hload,
    if_neg hsplit]
  rfl

theorem reachable_single_bucket_table (hn : n ≤ 10001) :
    Reachable sip_hash_from_value size_of_val (single_bucket_table sip_hash_from_value n) := by
  induction n with
  | zero =>
    have hnew : new_with_config 1 75 (2 ^ 64 - 1) = .ok (single_bucket_table sip_hash_from_value 0) :=
      rfl
    exact .new_with_config hnew
  | succ n ih => exact .add (ih (by omega)) (add_single_bucket_table sip_hash_from_value size_of_val (by omega))

theorem view_single_bucket_table : view (single_bucket_table sip_hash_from_value (n + 1)) 0 = some 0 := by
  rw [view, entries, single_bucket_table_num_buckets, List.range_one, List.flatMap_singleton,
    bucket_single_bucket_table, List.range_succ_eq_map]
  simp

end SingleBucket

-- A present key whose bucket is over its bound gets EEXCEED_MAX_BUCKET_SIZE, not EALREADY_EXIST.
theorem add_present_key_exceeds_max_bucket_size :
    Reachable id (fun _ => 1) (single_bucket_table id 10001) ∧
      view (single_bucket_table id 10001) 0 = some 0 ∧
      add id (fun _ => 1) (single_bucket_table id 10001) 0 0 =
        .error (permission_denied EEXCEED_MAX_BUCKET_SIZE) := by
  have h := reachable_single_bucket_table id (fun _ => 1) (le_refl 10001)
  refine ⟨h, view_single_bucket_table id, h.inv.add_exceed ?_⟩
  rw [single_bucket_table_level, single_bucket_table_num_buckets, bucket_index_zero_one,
    bucket_single_bucket_table]
  simp

end Counterexample

end Zapatos.Stdlib.smart_table

import Zapatos.Stdlib.SmartTable
import Zapatos.Lib.Buckets

namespace Zapatos.Stdlib.smart_table

open Move Buckets

section Index

variable {level num_buckets : ℕ}

theorem bucket_index_lt (h : 2 ^ level ≤ num_buckets) (hash : ℕ) :
    bucket_index level num_buckets hash < num_buckets := by
  unfold bucket_index
  dsimp only
  split
  · assumption
  · exact lt_of_lt_of_le (Nat.mod_lt _ (by positivity)) h

-- The bucket to split is num_buckets without its top bit.
theorem bucket_index_of_mod_eq (h₁ : 2 ^ level ≤ num_buckets)
    (h₂ : num_buckets < 2 ^ (level + 1)) {hash : ℕ} (hx : hash % 2 ^ (level + 1) = num_buckets) :
    bucket_index level num_buckets hash = num_buckets - 2 ^ level := by
  have hlt : num_buckets - 2 ^ level < 2 ^ level := by rw [pow_succ] at h₂; omega
  unfold bucket_index
  dsimp only
  rw [if_neg (by omega), hx, Nat.mod_eq_sub_mod h₁, Nat.mod_eq_of_lt hlt]

-- After a split, a hash moves to the new bucket num_buckets exactly when its low level + 1 bits
-- are num_buckets, whether or not the level goes up.
theorem bucket_index_split (h₁ : 2 ^ level ≤ num_buckets) (h₂ : num_buckets < 2 ^ (level + 1))
    (hash : ℕ) :
    bucket_index (if num_buckets - 2 ^ level + 1 = 2 ^ level then level + 1 else level)
      (num_buckets + 1) hash =
      if hash % 2 ^ (level + 1) = num_buckets then num_buckets
      else bucket_index level num_buckets hash := by
  split
  · have hn : num_buckets + 1 = 2 ^ (level + 1) := by rw [pow_succ]; omega
    have hmod : hash % 2 ^ (level + 1 + 1) % 2 ^ (level + 1) = hash % 2 ^ (level + 1) :=
      Nat.mod_mod_of_dvd _ (pow_dvd_pow 2 (by omega))
    have hnew : bucket_index (level + 1) (num_buckets + 1) hash = hash % 2 ^ (level + 1) := by
      unfold bucket_index
      dsimp only
      split
      · rw [Nat.mod_eq_of_lt (by omega)] at hmod
        exact hmod
      · exact hmod
    have hlt : hash % 2 ^ (level + 1) < 2 ^ (level + 1) := Nat.mod_lt _ (by positivity)
    rw [hnew]
    unfold bucket_index
    dsimp only
    split_ifs <;> omega
  · unfold bucket_index
    dsimp only
    split_ifs <;> omega

theorem split_level_bounds (h₁ : 2 ^ level ≤ num_buckets) (h₂ : num_buckets < 2 ^ (level + 1)) :
    2 ^ (if num_buckets - 2 ^ level + 1 = 2 ^ level then level + 1 else level) ≤ num_buckets + 1 ∧
      num_buckets + 1 <
        2 ^ ((if num_buckets - 2 ^ level + 1 = 2 ^ level then level + 1 else level) + 1) := by
  rw [pow_succ] at h₂
  split
  · rw [pow_succ, pow_succ, pow_succ]
    omega
  · rw [pow_succ]
    omega

end Index

variable {K V : Type}

-- The entries of a table, bucket after bucket, and the finite map they stand for.
def bucket (self : SmartTable K V) (i : ℕ) : List (Entry K V) := (self.buckets.lookup i).getD []

def entries (self : SmartTable K V) : List (Entry K V) :=
  (List.range self.num_buckets).flatMap (bucket self)

theorem mem_entries {self : SmartTable K V} {e : Entry K V} :
    e ∈ entries self ↔ ∃ i < self.num_buckets, e ∈ bucket self i := by
  simp [entries]

section Invariant

variable (sip_hash_from_value : K → ℕ)

-- The linear hashing invariant.
structure Inv (t : SmartTable K V) : Prop where
  mem_buckets : ∀ i, i ∈ t.buckets ↔ i < t.num_buckets
  level_le : 2 ^ t.level ≤ t.num_buckets
  lt_level : t.num_buckets < 2 ^ (t.level + 1)
  hash_eq : ∀ i, ∀ e ∈ bucket t i, e.hash = sip_hash_from_value e.key
  index_eq : ∀ i, ∀ e ∈ bucket t i, bucket_index t.level t.num_buckets e.hash = i
  keys_nodup : ((entries t).map Entry.key).Nodup
  size_eq : t.size = (entries t).length

variable {sip_hash_from_value} {self self' : SmartTable K V}

theorem Inv.borrow_eq (hinv : Inv sip_hash_from_value self) {i : ℕ} (hi : i < self.num_buckets) :
    table.borrow self.buckets i = .ok (bucket self i) := by
  obtain ⟨b, hb⟩ := Option.isSome_iff_exists.mp
    (AList.lookup_isSome.mpr ((hinv.mem_buckets i).mpr hi))
  simp [bucket, hb]

theorem Inv.bucket_eq_nil (hinv : Inv sip_hash_from_value self) {i : ℕ}
    (hi : self.num_buckets ≤ i) : bucket self i = [] := by
  have hnot : i ∉ self.buckets := fun hm => by have := (hinv.mem_buckets i).mp hm; omega
  simp [bucket, AList.lookup_eq_none.mpr hnot]

theorem Inv.index_lt (hinv : Inv sip_hash_from_value self) (hash : ℕ) :
    bucket_index self.level self.num_buckets hash < self.num_buckets :=
  bucket_index_lt hinv.level_le hash

theorem Inv.bucket_subset (hinv : Inv sip_hash_from_value self) {i : ℕ} {e : Entry K V}
    (he : e ∈ bucket self i) : e ∈ entries self := by
  by_cases hi : i < self.num_buckets
  · exact mem_entries.mpr ⟨i, hi, he⟩
  · rw [hinv.bucket_eq_nil (by omega)] at he
    cases he

-- An entry sits in the bucket its key hashes to.
theorem Inv.mem_bucket_of_mem (hinv : Inv sip_hash_from_value self) {e : Entry K V}
    (he : e ∈ entries self) :
    e ∈ bucket self (bucket_index self.level self.num_buckets (sip_hash_from_value e.key)) := by
  obtain ⟨i, -, hi⟩ := mem_entries.mp he
  rw [← hinv.hash_eq i e hi, hinv.index_eq i e hi]
  exact hi

theorem Inv.bucket_keys_nodup (hinv : Inv sip_hash_from_value self) (i : ℕ) :
    ((bucket self i).map Entry.key).Nodup := by
  by_cases hi : i < self.num_buckets
  · have hsub : List.Sublist (bucket self i) (entries self) := by
      have h := (List.singleton_sublist.mpr (List.mem_range.mpr hi)).flatMap (bucket self)
      rwa [List.flatMap_singleton] at h
    exact (hsub.map Entry.key).nodup hinv.keys_nodup
  · simp [hinv.bucket_eq_nil (show self.num_buckets ≤ i by omega)]

theorem Inv.split_one_bucket_eq (hinv : Inv sip_hash_from_value self) :
    ∃ kept moved : List (Entry K V),
      (kept ++ moved).Perm (bucket self (self.num_buckets - 2 ^ self.level)) ∧
      (∀ e ∈ kept, e.hash % 2 ^ (self.level + 1) ≠ self.num_buckets) ∧
      (∀ e ∈ moved, e.hash % 2 ^ (self.level + 1) = self.num_buckets) ∧
      split_one_bucket self = .ok { self with
        buckets := (self.buckets.insert (self.num_buckets - 2 ^ self.level) kept).insert
          self.num_buckets moved
        num_buckets := self.num_buckets + 1
        level := if self.num_buckets - 2 ^ self.level + 1 = 2 ^ self.level then self.level + 1
          else self.level } := by
  have ht : self.num_buckets - 2 ^ self.level < self.num_buckets := by
    have := hinv.level_le
    have : 0 < 2 ^ self.level := by positivity
    omega
  -- The entries of the bucket being split keep their index unless their low bits are
  -- num_buckets.
  have hnew : ∀ e ∈ bucket self (self.num_buckets - 2 ^ self.level),
      (bucket_index (if self.num_buckets - 2 ^ self.level + 1 = 2 ^ self.level then
        self.level + 1 else self.level) (self.num_buckets + 1) e.hash != self.num_buckets) =
        decide (e.hash % 2 ^ (self.level + 1) ≠ self.num_buckets) := by
    intro e he
    have hne : self.num_buckets - 2 ^ self.level ≠ self.num_buckets := by omega
    rw [bucket_index_split hinv.level_le hinv.lt_level, hinv.index_eq _ e he]
    split
    · simp [*]
    · simp [*]
  unfold split_one_bucket
  simp only [xor_two_pow_eq_sub hinv.level_le hinv.lt_level, hinv.borrow_eq ht, Except.ok_bind]
  generalize hpred : (fun entry : Entry K V => bucket_index (if self.num_buckets - 2 ^ self.level +
    1 = 2 ^ self.level then self.level + 1 else self.level) (self.num_buckets + 1) entry.hash !=
      self.num_buckets) = pred
  replace hnew : ∀ e ∈ bucket self (self.num_buckets - 2 ^ self.level),
      pred e = decide (e.hash % 2 ^ (self.level + 1) ≠ self.num_buckets) := by
    intro e he
    rw [← hpred]
    exact hnew e he
  have hspec := vector.partition_spec pred (bucket self (self.num_buckets - 2 ^ self.level))
  generalize vector.partition (bucket self (self.num_buckets - 2 ^ self.level)) pred = r at hspec ⊢
  obtain ⟨l, p⟩ := r
  obtain ⟨hperm, hp, htake, hdrop⟩ := hspec
  refine ⟨l.take p, (l.drop p).reverse, ?_, ?_, ?_, ?_⟩
  · refine (((List.reverse_perm _).append_left _).trans ?_)
    rw [List.take_append_drop]
    exact hperm
  · intro e he
    have := hnew e (hperm.subset (List.mem_of_mem_take he))
    simpa [htake e he] using this
  · intro e he
    have := hnew e (hperm.subset (List.mem_of_mem_drop (List.mem_reverse.mp he)))
    simpa [hdrop e (List.mem_reverse.mp he)] using this
  · have hmem : self.num_buckets - 2 ^ self.level ∈ self.buckets :=
      (hinv.mem_buckets _).mpr ht
    have hnot : self.num_buckets ∉ self.buckets.insert (self.num_buckets - 2 ^ self.level)
        (l.take p) := by
      rw [AList.mem_insert, hinv.mem_buckets]
      omega
    simp [vector.trim_reverse_eq_ok.mpr ⟨hp, rfl⟩, table.borrow_mut_eq_ok.mpr ⟨hmem, rfl⟩,
      table.add_eq_ok.mpr ⟨hnot, rfl⟩]

theorem inv_split_one_bucket (hinv : Inv sip_hash_from_value self)
    (h : split_one_bucket self = .ok self') :
    Inv sip_hash_from_value self' ∧ (entries self').Perm (entries self) := by
  obtain ⟨kept, moved, hperm, hkept, hmoved, heq⟩ := hinv.split_one_bucket_eq
  rw [heq] at h
  cases h
  have hpos : 0 < 2 ^ self.level := by positivity
  have ht : self.num_buckets - 2 ^ self.level < self.num_buckets := by
    have := hinv.level_le
    omega
  have hsub : ∀ e, e ∈ kept ∨ e ∈ moved → e ∈ bucket self (self.num_buckets - 2 ^ self.level) :=
    fun e he => hperm.subset (List.mem_append.mpr he)
  set self' : SmartTable K V := { self with
    buckets := (self.buckets.insert (self.num_buckets - 2 ^ self.level) kept).insert
      self.num_buckets moved
    num_buckets := self.num_buckets + 1
    level := if self.num_buckets - 2 ^ self.level + 1 = 2 ^ self.level then self.level + 1
      else self.level }
  have hbucket : ∀ j, bucket self' j = if j = self.num_buckets then moved
      else if j = self.num_buckets - 2 ^ self.level then kept else bucket self j := by
    intro j
    simp only [bucket, self']
    split_ifs with h₁ h₂
    · rw [h₁, AList.lookup_insert]
      rfl
    · rw [AList.lookup_insert_ne h₁, h₂, AList.lookup_insert]
      rfl
    · simp [AList.lookup_insert_ne h₁, AList.lookup_insert_ne h₂]
  have hentries : (entries self').Perm (entries self) := by
    have hstep : ((List.range self.num_buckets).flatMap (bucket self') ++ moved).Perm
        ((List.range self.num_buckets).flatMap (bucket self) ++ []) := by
      refine perm_flatMap_range_update ht (fun j hj hjt => ?_) ?_
      · rw [hbucket, if_neg (by omega), if_neg hjt]
      · rw [hbucket, if_neg (by omega), if_pos rfl, List.append_nil]
        exact hperm
    have hlast : bucket self' self.num_buckets = moved := by rw [hbucket, if_pos rfl]
    simpa [entries, self', List.range_succ, hlast] using hstep
  refine ⟨⟨fun j => ?_, (split_level_bounds hinv.level_le hinv.lt_level).1,
    (split_level_bounds hinv.level_le hinv.lt_level).2, fun j e he => ?_, fun j e he => ?_,
    (hentries.map Entry.key).nodup_iff.mpr hinv.keys_nodup, ?_⟩, hentries⟩
  · simp only [self', AList.mem_insert, hinv.mem_buckets]
    omega
  · rw [hbucket] at he
    split_ifs at he
    · exact hinv.hash_eq _ e (hsub e (.inr he))
    · exact hinv.hash_eq _ e (hsub e (.inl he))
    · exact hinv.hash_eq j e he
  · simp only [self']
    rw [bucket_index_split hinv.level_le hinv.lt_level]
    rw [hbucket] at he
    split_ifs at he with hjn hjt
    · rw [if_pos (hmoved e he), hjn]
    · rw [if_neg (hkept e he), hinv.index_eq _ e (hsub e (.inl he)), hjt]
    · by_cases hx : e.hash % 2 ^ (self.level + 1) = self.num_buckets
      · have hold := hinv.index_eq j e he
        rw [bucket_index_of_mod_eq hinv.level_le hinv.lt_level hx] at hold
        exact absurd hold.symm hjt
      · rw [if_neg hx, hinv.index_eq j e he]
  · rw [hentries.length_eq]
    exact hinv.size_eq

-- No key is in two buckets: each bucket holds the keys that hash to it.
theorem keys_nodup_of_buckets {t : SmartTable K V} (f : K → ℕ)
    (hindex : ∀ i, ∀ e ∈ bucket t i, bucket_index t.level t.num_buckets (f e.key) = i)
    (hnd : ∀ i, ((bucket t i).map Entry.key).Nodup) : ((entries t).map Entry.key).Nodup := by
  rw [entries, List.map_flatMap, List.nodup_flatMap]
  refine ⟨fun i _ => hnd i, List.nodup_range.imp fun {i j} hij => ?_⟩
  intro k hki hkj
  obtain ⟨e, he, rfl⟩ := List.mem_map.mp hki
  obtain ⟨e', he', hkey⟩ := List.mem_map.mp hkj
  exact hij ((hindex i e he).symm.trans (hkey ▸ hindex j e' he'))

-- Writing bucket b at index t, where b and the entries xs hold what the old bucket and ys hold.
theorem Inv.replace_bucket (hinv : Inv sip_hash_from_value self) {t : ℕ}
    (ht : t < self.num_buckets) {b xs ys : List (Entry K V)}
    (hbuckets : self'.buckets = self.buckets.insert t b) (hnum : self'.num_buckets = self.num_buckets)
    (hlevel : self'.level = self.level)
    (hb : ∀ e ∈ b, e.hash = sip_hash_from_value e.key ∧
      bucket_index self.level self.num_buckets e.hash = t)
    (hnd : (b.map Entry.key).Nodup) (hperm : (b ++ xs).Perm (bucket self t ++ ys))
    (hsize : self'.size + xs.length = self.size + ys.length) :
    Inv sip_hash_from_value self' ∧ (entries self' ++ xs).Perm (entries self ++ ys) := by
  have hbucket : ∀ j, bucket self' j = if j = t then b else bucket self j := by
    intro j
    simp only [bucket, hbuckets]
    split_ifs with hj
    · rw [hj, AList.lookup_insert]
      rfl
    · rw [AList.lookup_insert_ne hj]
  have hentries : (entries self' ++ xs).Perm (entries self ++ ys) := by
    rw [entries, entries, hnum]
    refine perm_flatMap_range_update ht (fun j _ hjt => ?_) ?_
    · rw [hbucket, if_neg hjt]
    · rw [hbucket, if_pos rfl]
      exact hperm
  have hhash : ∀ j, ∀ e ∈ bucket self' j, e.hash = sip_hash_from_value e.key := by
    intro j e he
    rw [hbucket] at he
    split_ifs at he
    · exact (hb e he).1
    · exact hinv.hash_eq j e he
  have hindex : ∀ j, ∀ e ∈ bucket self' j,
      bucket_index self'.level self'.num_buckets e.hash = j := by
    intro j e he
    rw [hnum, hlevel]
    rw [hbucket] at he
    split_ifs at he with hj
    · rw [hj]
      exact (hb e he).2
    · exact hinv.index_eq j e he
  have hnodup : ((entries self').map Entry.key).Nodup := by
    refine keys_nodup_of_buckets sip_hash_from_value (fun j e he => ?_) (fun j => ?_)
    · rw [← hhash j e he]
      exact hindex j e he
    · rw [hbucket]
      split_ifs
      · exact hnd
      · exact hinv.bucket_keys_nodup j
  refine ⟨⟨fun j => ?_, hnum ▸ hlevel ▸ hinv.level_le, hnum ▸ hlevel ▸ hinv.lt_level, hhash,
    hindex, hnodup, ?_⟩, hentries⟩
  · rw [hbuckets, AList.mem_insert, hinv.mem_buckets, hnum]
    omega
  · have hlen := hentries.length_eq
    simp only [List.length_append] at hlen
    have := hinv.size_eq
    omega

variable [DecidableEq K]

def view (self : SmartTable K V) (key : K) : Option V :=
  ((entries self).find? fun e => e.key == key).map Entry.value

-- Only the bucket a key hashes to is searched for it.
theorem Inv.view_eq (hinv : Inv sip_hash_from_value self) (key : K) :
    view self key = ((bucket self (bucket_index self.level self.num_buckets
      (sip_hash_from_value key))).find? fun e => e.key == key).map Entry.value := by
  apply find?_key_map_congr Entry.key Entry.value hinv.keys_nodup (hinv.bucket_keys_nodup _)
  intro v
  constructor
  · rintro ⟨e, he, rfl, rfl⟩
    exact ⟨e, hinv.mem_bucket_of_mem he, rfl, rfl⟩
  · rintro ⟨e, he, rfl, rfl⟩
    exact ⟨e, hinv.bucket_subset he, rfl, rfl⟩


theorem view_eq_some_iff (hnd : ((entries self).map Entry.key).Nodup) {key : K} {v : V} :
    view self key = some v ↔ ∃ e ∈ entries self, e.key = key ∧ e.value = v :=
  find?_key_map_eq_some_iff Entry.key Entry.value hnd

theorem view_eq_none_iff {key : K} : view self key = none ↔ ∀ e ∈ entries self, e.key ≠ key := by
  rw [view, Option.map_eq_none_iff, find?_key_eq_none_iff]

theorem view_of_mem (hnd : ((entries self).map Entry.key).Nodup) {e : Entry K V}
    (he : e ∈ entries self) : view self e.key = some e.value :=
  (view_eq_some_iff hnd).mpr ⟨e, he, rfl, rfl⟩

-- The entries the two sides add all have other keys: the key reads alike on both.
theorem view_of_perm {xs ys : List (Entry K V)} (hnd : ((entries self).map Entry.key).Nodup)
    (hnd' : ((entries self').map Entry.key).Nodup)
    (hperm : (entries self' ++ xs).Perm (entries self ++ ys)) {key : K}
    (hxs : ∀ e ∈ xs, e.key ≠ key) (hys : ∀ e ∈ ys, e.key ≠ key) :
    view self' key = view self key := by
  apply find?_key_map_congr Entry.key Entry.value hnd' hnd
  intro v
  constructor
  · rintro ⟨e, he, hk, hv⟩
    rcases List.mem_append.mp (hperm.subset (List.mem_append_left xs he)) with he | he
    · exact ⟨e, he, hk, hv⟩
    · exact absurd hk (hys e he)
  · rintro ⟨e, he, hk, hv⟩
    rcases List.mem_append.mp (hperm.symm.subset (List.mem_append_left ys he)) with he | he
    · exact ⟨e, he, hk, hv⟩
    · exact absurd hk (hxs e he)

variable {size_of_val : Entry K V → ℕ}

-- What a successful add did: the key's bucket was short enough and held no entry for the key,
-- the entry went at its end, and the table may then have split one bucket.
theorem Inv.add_eq_ok (hinv : Inv sip_hash_from_value self) {key : K} {value : V}
    (h : add sip_hash_from_value size_of_val self key value = .ok self') :
    (bucket self (bucket_index self.level self.num_buckets (sip_hash_from_value key))).length ≤
      10000 ∧
    (∀ e ∈ bucket self (bucket_index self.level self.num_buckets (sip_hash_from_value key)),
      e.key ≠ key) ∧
    ∃ self₁ : SmartTable K V, (self' = self₁ ∨ split_one_bucket self₁ = .ok self') ∧
      self₁.buckets = self.buckets.insert
        (bucket_index self.level self.num_buckets (sip_hash_from_value key))
        (bucket self (bucket_index self.level self.num_buckets (sip_hash_from_value key)) ++
          [⟨sip_hash_from_value key, key, value⟩]) ∧
      self₁.num_buckets = self.num_buckets ∧ self₁.level = self.level ∧
      self₁.size = self.size + 1 := by
  unfold add at h
  simp only [hinv.borrow_eq (hinv.index_lt _), Except.ok_bind] at h
  split at h
  case isFalse => simp at h
  rename_i hlen
  split at h
  case isFalse => simp at h
  rename_i hall
  obtain ⟨buckets, hb, h⟩ := Except.bind_eq_ok h
  obtain ⟨size, hs, h⟩ := Except.bind_eq_ok h
  obtain ⟨lf, -, h⟩ := Except.bind_eq_ok h
  rw [table.borrow_mut_eq_ok] at hb
  rw [checked_add_eq_ok] at hs
  refine ⟨hlen, fun e he hk => ?_, ?_⟩
  · have := List.all_eq_true.mp hall e he
    simp [hk] at this
  · by_cases hlf : lf ≥ self.split_load_threshold
    · rw [if_pos hlf] at h
      exact ⟨_, .inr h, hb.2.symm, rfl, rfl, hs.2.symm⟩
    · rw [if_neg hlf] at h
      exact ⟨_, .inl (Except.ok.inj h).symm, hb.2.symm, rfl, rfl, hs.2.symm⟩

-- The table with the new entry at the end of its key's bucket, before any split.
omit [DecidableEq K] in
theorem Inv.append_entry (hinv : Inv sip_hash_from_value self) {key : K} {value : V}
    (hnot : ∀ e ∈ bucket self (bucket_index self.level self.num_buckets (sip_hash_from_value key)),
      e.key ≠ key)
    (hb : self'.buckets = self.buckets.insert
      (bucket_index self.level self.num_buckets (sip_hash_from_value key))
      (bucket self (bucket_index self.level self.num_buckets (sip_hash_from_value key)) ++
        [⟨sip_hash_from_value key, key, value⟩]))
    (hn : self'.num_buckets = self.num_buckets) (hl : self'.level = self.level)
    (hs : self'.size = self.size + 1) :
    Inv sip_hash_from_value self' ∧
      (entries self').Perm (entries self ++ [⟨sip_hash_from_value key, key, value⟩]) := by
  set index := bucket_index self.level self.num_buckets (sip_hash_from_value key)
  set new : Entry K V := ⟨sip_hash_from_value key, key, value⟩
  have hentry : ∀ e ∈ bucket self index ++ [new],
      e.hash = sip_hash_from_value e.key ∧ bucket_index self.level self.num_buckets e.hash = index := by
    intro e he
    rcases List.mem_append.mp he with he | he
    · exact ⟨hinv.hash_eq _ e he, hinv.index_eq _ e he⟩
    · rw [List.mem_singleton.mp he]
      exact ⟨rfl, rfl⟩
  have hnd : ((bucket self index ++ [new]).map Entry.key).Nodup := by
    rw [List.map_append, List.nodup_append]
    refine ⟨hinv.bucket_keys_nodup _, List.nodup_singleton _, ?_⟩
    intro k hk k' hk'
    obtain ⟨e, he, rfl⟩ := List.mem_map.mp hk
    rw [List.map_singleton, List.mem_singleton] at hk'
    rw [hk']
    exact hnot e he
  have hperm : (bucket self index ++ [new] ++ []).Perm (bucket self index ++ [new]) := by
    rw [List.append_nil]
  obtain ⟨hinv₁, hperm₁⟩ := hinv.replace_bucket (hinv.index_lt _) hb hn hl hentry hnd hperm
    (by rw [hs]; rfl)
  rw [List.append_nil] at hperm₁
  exact ⟨hinv₁, hperm₁⟩

theorem inv_add (hinv : Inv sip_hash_from_value self) {key : K} {value : V}
    (h : add sip_hash_from_value size_of_val self key value = .ok self') :
    view self key = none ∧ Inv sip_hash_from_value self' ∧
      (entries self').Perm (entries self ++ [⟨sip_hash_from_value key, key, value⟩]) := by
  obtain ⟨-, hnot, self₁, hself', hb, hn, hl, hs⟩ := hinv.add_eq_ok h
  obtain ⟨hinv₁, hperm₁⟩ := hinv.append_entry hnot hb hn hl hs
  refine ⟨?_, ?_⟩
  · rw [hinv.view_eq, Option.map_eq_none_iff, find?_key_eq_none_iff]
    exact hnot
  · rcases hself' with rfl | hsplit
    · exact ⟨hinv₁, hperm₁⟩
    · obtain ⟨hinv', hperm'⟩ := inv_split_one_bucket hinv₁ hsplit
      exact ⟨hinv', hperm'.trans hperm₁⟩

omit [DecidableEq K] in
theorem Inv.split_aborts_arith (hinv : Inv sip_hash_from_value self) :
    AbortsArith (split_one_bucket self) := by
  obtain ⟨_, _, -, -, -, hsplit⟩ := hinv.split_one_bucket_eq
  rw [hsplit]
  exact abortsArith_ok _

omit [DecidableEq K] in
theorem load_factor_aborts_arith (t : SmartTable K V) : AbortsArith (load_factor t) := by
  unfold load_factor
  exact (abortsArith_checked_mul _ _ _).bind fun _ _ =>
    (abortsArith_checked_div _ _).bind fun _ _ => abortsArith_checked_div _ _

-- Past its two checks, an add can only abort on the arithmetic of size and load factor.
theorem Inv.add_aborts_arith (hinv : Inv sip_hash_from_value self) {key : K} {value : V}
    (hlen : (bucket self (bucket_index self.level self.num_buckets
      (sip_hash_from_value key))).length ≤ 10000)
    (hv : view self key = none) : AbortsArith (add sip_hash_from_value size_of_val self key value) := by
  rw [hinv.view_eq, Option.map_eq_none_iff, find?_key_eq_none_iff] at hv
  have hall : ((bucket self (bucket_index self.level self.num_buckets
      (sip_hash_from_value key))).all fun entry => entry.key != key) = true :=
    List.all_eq_true.mpr fun e he => by simpa using hv e he
  have hmem := (hinv.mem_buckets _).mpr (hinv.index_lt (sip_hash_from_value key))
  unfold add
  simp only [hinv.borrow_eq (hinv.index_lt _), Except.ok_bind, if_pos hlen, if_pos hall,
    table.borrow_mut_eq_ok.mpr ⟨hmem, rfl⟩]
  refine (abortsArith_checked_add _ _ _).bind fun size hs => ?_
  refine (load_factor_aborts_arith _).bind fun lf _ => ?_
  split
  · exact Inv.split_aborts_arith
      (And.left (hinv.append_entry hv rfl rfl rfl (checked_add_eq_ok.mp hs).2.symm))
  · exact abortsArith_ok _

-- When the key's bucket is within its bound, add reports EALREADY_EXIST exactly for a present key.
theorem Inv.add_already_exist_iff (hinv : Inv sip_hash_from_value self) {key : K} {value : V}
    (hlen : (bucket self (bucket_index self.level self.num_buckets
      (sip_hash_from_value key))).length ≤ 10000) :
    add sip_hash_from_value size_of_val self key value =
      .error (invalid_argument EALREADY_EXIST) ↔ (view self key).isSome := by
  constructor
  · intro h
    cases hv : view self key with
    | some _ => rfl
    | none => exact absurd (hinv.add_aborts_arith hlen hv _ h) (by decide)
  · intro hv
    obtain ⟨v, hv⟩ := Option.isSome_iff_exists.mp hv
    rw [hinv.view_eq] at hv
    obtain ⟨e, hfind, -⟩ := Option.map_eq_some_iff.mp hv
    have hk : e.key = key := by simpa using List.find?_some hfind
    have hall : ((bucket self (bucket_index self.level self.num_buckets
        (sip_hash_from_value key))).all fun entry => entry.key != key) = false :=
      List.all_eq_false.mpr ⟨e, List.mem_of_find?_eq_some hfind, by simp [hk]⟩
    unfold add
    simp only [hinv.borrow_eq (hinv.index_lt _), Except.ok_bind, if_pos hlen, hall]
    rfl

theorem Inv.contains_eq (hinv : Inv sip_hash_from_value self) (key : K) :
    contains sip_hash_from_value self key = .ok (view self key).isSome := by
  unfold contains
  simp only [hinv.borrow_eq (hinv.index_lt _), Except.ok_bind, Except.pure_eq_ok]
  rw [hinv.view_eq, Option.isSome_map]
  congr 1
  apply Bool.eq_iff_iff.mpr
  rw [List.any_eq_true, List.find?_isSome]
  constructor
  · rintro ⟨e, he, hp⟩
    simp only [Bool.and_eq_true, beq_iff_eq] at hp
    exact ⟨e, he, by simp [hp.2]⟩
  · rintro ⟨e, he, hp⟩
    have hk : e.key = key := by simpa using hp
    have hh : e.hash = sip_hash_from_value key := by rw [hinv.hash_eq _ e he, hk]
    exact ⟨e, he, by simp [hk, hh]⟩

theorem Inv.borrow_eq_ok_iff (hinv : Inv sip_hash_from_value self) {key : K} {v : V} :
    borrow sip_hash_from_value self key = .ok v ↔ view self key = some v := by
  unfold borrow
  simp only [hinv.borrow_eq (hinv.index_lt _), Except.ok_bind]
  rw [hinv.view_eq]
  split
  · rename_i e he
    simp [he]
  · rename_i he
    simp [he]

theorem Inv.borrow_of_view_eq_none (hinv : Inv sip_hash_from_value self) {key : K}
    (h : view self key = none) :
    borrow sip_hash_from_value self key = .error (invalid_argument ENOT_FOUND) := by
  unfold borrow
  simp only [hinv.borrow_eq (hinv.index_lt _), Except.ok_bind]
  rw [hinv.view_eq, Option.map_eq_none_iff] at h
  rw [h]
  rfl

theorem Inv.remove_of_view_eq_none (hinv : Inv sip_hash_from_value self) {key : K}
    (h : view self key = none) :
    remove sip_hash_from_value self key = .error (invalid_argument ENOT_FOUND) := by
  unfold remove
  simp only [hinv.borrow_eq (hinv.index_lt _), Except.ok_bind]
  rw [hinv.view_eq, Option.map_eq_none_iff, find?_key_eq_none_iff] at h
  have hidx : (bucket self (bucket_index self.level self.num_buckets (sip_hash_from_value key))).findIdx?
      (fun entry => entry.key == key) = none :=
    List.findIdx?_eq_none_iff.mpr fun e he => by simpa using h e he
  rw [hidx]
  rfl

-- A removal takes out the one entry of the key: the rest of the bucket is what is left of it
-- after the swap with its last entry.
theorem Inv.remove_eq (hinv : Inv sip_hash_from_value self) {key : K} {v : V}
    (hv : view self key = some v) :
    ∃ self' e, e.key = key ∧ e.value = v ∧ remove sip_hash_from_value self key = .ok (self', v) ∧
      Inv sip_hash_from_value self' ∧ (entries self' ++ [e]).Perm (entries self) := by
  rw [hinv.view_eq] at hv
  have hlt := hinv.index_lt (sip_hash_from_value key)
  generalize hindex : bucket_index self.level self.num_buckets (sip_hash_from_value key) = index
    at hv hlt
  obtain ⟨e, hfind, rfl⟩ := Option.map_eq_some_iff.mp hv
  have hk : e.key = key := by simpa using List.find?_some hfind
  obtain ⟨i, hi, hidx, rfl⟩ := findIdx?_of_find?_eq_some hfind
  set rest := ((bucket self index).swap i ((bucket self index).length - 1)).dropLast
  have hsr : vector.swap_remove (bucket self index) i = .ok (rest, (bucket self index)[i]) :=
    vector.swap_remove_eq_ok.mpr ⟨hi, rfl⟩
  have hperm₀ := vector.swap_remove_perm hsr
  have hsize : 1 ≤ self.size := by
    rw [hinv.size_eq]
    exact List.length_pos_of_mem (hinv.bucket_subset (List.getElem_mem hi))
  have hmem : index ∈ self.buckets := (hinv.mem_buckets _).mpr hlt
  have hperm : (rest ++ [(bucket self index)[i]]).Perm (bucket self index ++ []) := by
    rw [List.append_nil]
    exact (List.perm_append_singleton _ _).trans hperm₀.symm
  have hrest : ∀ e ∈ rest, e.hash = sip_hash_from_value e.key ∧
      bucket_index self.level self.num_buckets e.hash = index := fun e he =>
    ⟨hinv.hash_eq _ e (hperm₀.symm.subset (List.mem_cons_of_mem _ he)),
      hinv.index_eq _ e (hperm₀.symm.subset (List.mem_cons_of_mem _ he))⟩
  have hnd : (rest.map Entry.key).Nodup :=
    (List.nodup_cons.mp ((hperm₀.map Entry.key).nodup_iff.mp (hinv.bucket_keys_nodup _))).2
  have hbuckets : ({ self with buckets := self.buckets.insert index rest, size := self.size - 1 } :
      SmartTable K V).buckets = self.buckets.insert index rest := rfl
  obtain ⟨hinv', hperm'⟩ := hinv.replace_bucket hlt hbuckets rfl rfl hrest hnd hperm
    (by simp; omega)
  refine ⟨_, _, hk, rfl, ?_, hinv', by simpa using hperm'⟩
  unfold remove
  simp only [hinv.borrow_eq (hinv.index_lt _), Except.ok_bind]
  rw [hindex, hidx]
  simp [hsr, table.borrow_mut_eq_ok.mpr ⟨hmem, rfl⟩, checked_sub, hsize]

-- A write through borrow_mut changes the value of the key's entry in place.
theorem Inv.borrow_mut_eq (hinv : Inv sip_hash_from_value self) {key : K} {v : V}
    (hv : view self key = some v) (value : V) :
    ∃ self' e, e.key = key ∧ borrow_mut sip_hash_from_value self key value = .ok self' ∧
      Inv sip_hash_from_value self' ∧
      (entries self' ++ [e]).Perm (entries self ++ [{ e with value }]) ∧
      { e with value } ∈ entries self' := by
  rw [hinv.view_eq] at hv
  have hlt := hinv.index_lt (sip_hash_from_value key)
  generalize hindex : bucket_index self.level self.num_buckets (sip_hash_from_value key) = index
    at hv hlt
  obtain ⟨e, hfind, -⟩ := Option.map_eq_some_iff.mp hv
  have hk : e.key = key := by simpa using List.find?_some hfind
  obtain ⟨i, hi, hidx, rfl⟩ := findIdx?_of_find?_eq_some hfind
  set f : Entry K V → Entry K V := fun entry => { entry with value }
  set b := (bucket self index).modify i f
  have hperm : (b ++ [(bucket self index)[i]]).Perm
      (bucket self index ++ [f (bucket self index)[i]]) := modify_append_perm hi f
  have hb : ∀ e ∈ b, e.hash = sip_hash_from_value e.key ∧
      bucket_index self.level self.num_buckets e.hash = index := by
    intro e he
    rcases List.mem_append.mp (hperm.subset (List.mem_append_left _ he)) with he | he
    · exact ⟨hinv.hash_eq _ e he, hinv.index_eq _ e he⟩
    · rw [List.mem_singleton.mp he]
      exact ⟨hinv.hash_eq index (bucket self index)[i] (List.getElem_mem hi),
        hinv.index_eq index (bucket self index)[i] (List.getElem_mem hi)⟩
  have hkeys : b.map Entry.key = (bucket self index).map Entry.key := by
    apply List.ext_getElem (by simp [b])
    intro j h₁ h₂
    simp only [List.getElem_map, b, List.getElem_modify]
    split <;> rfl
  have hmem : index ∈ self.buckets := (hinv.mem_buckets _).mpr hlt
  have hbuckets : ({ self with buckets := self.buckets.insert index b } : SmartTable K V).buckets =
      self.buckets.insert index b := rfl
  obtain ⟨hinv', hperm'⟩ := hinv.replace_bucket hlt hbuckets rfl rfl hb
    (hkeys ▸ hinv.bucket_keys_nodup _) hperm (by simp)
  have hnew : f (bucket self index)[i] ∈ b :=
    List.mem_iff_getElem.mpr ⟨i, by simp [b, hi], by simp [b]⟩
  have hbucket : bucket { self with buckets := self.buckets.insert index b } index = b := by
    simp [bucket]
  refine ⟨_, _, hk, ?_, hinv', hperm', hinv'.bucket_subset (hbucket ▸ hnew)⟩
  unfold borrow_mut
  simp only [hinv.borrow_eq (hinv.index_lt _), Except.ok_bind]
  rw [hindex, hidx]
  simp [table.borrow_mut_eq_ok.mpr ⟨hmem, rfl⟩, b, f]

theorem view_add (hinv : Inv sip_hash_from_value self) {key : K} {value : V}
    (h : add sip_hash_from_value size_of_val self key value = .ok self') :
    view self' = Function.update (view self) key (some value) := by
  obtain ⟨-, hinv', hperm⟩ := inv_add hinv h
  refine Function.eq_update_iff.mpr ⟨view_of_mem hinv'.keys_nodup
    (hperm.symm.subset (List.mem_append_right _ (List.mem_singleton_self _))), fun k hk => ?_⟩
  have hperm' : (entries self' ++ []).Perm
      (entries self ++ [Entry.mk (sip_hash_from_value key) key value]) := by simpa using hperm
  refine view_of_perm hinv.keys_nodup hinv'.keys_nodup hperm' (by simp) ?_
  simpa using Ne.symm hk

theorem view_remove (hinv : Inv sip_hash_from_value self) {key : K} {v : V}
    (hv : view self key = some v) :
    ∃ self', remove sip_hash_from_value self key = .ok (self', v) ∧ Inv sip_hash_from_value self' ∧
      view self' = Function.update (view self) key none := by
  obtain ⟨self', e, hk, -, hremove, hinv', hperm⟩ := hinv.remove_eq hv
  have he : e ∈ entries self := hperm.subset (List.mem_append_right _ (List.mem_singleton_self _))
  refine ⟨self', hremove, hinv', Function.eq_update_iff.mpr ⟨?_, fun k hkey => ?_⟩⟩
  · -- The removed entry was the only one of its key, and it is gone.
    rw [view_eq_none_iff]
    intro e' he' hk'
    have he'₀ : e' ∈ entries self := hperm.subset (List.mem_append_left _ he')
    obtain rfl : e' = e := List.inj_on_of_nodup_map hinv.keys_nodup he'₀ he (hk'.trans hk.symm)
    have hnd : (entries self' ++ [e']).Nodup :=
      hperm.nodup_iff.mpr (List.Nodup.of_map Entry.key hinv.keys_nodup)
    exact (List.nodup_append.mp hnd).2.2 e' he' e' (List.mem_singleton_self _) rfl
  · have hperm' : (entries self' ++ [e]).Perm (entries self ++ []) := by simpa using hperm
    exact view_of_perm hinv.keys_nodup hinv'.keys_nodup hperm' (by simp [hk, Ne.symm hkey])
      (by simp)

theorem view_borrow_mut (hinv : Inv sip_hash_from_value self) {key : K} {v : V}
    (hv : view self key = some v) (value : V) :
    ∃ self', borrow_mut sip_hash_from_value self key value = .ok self' ∧
      Inv sip_hash_from_value self' ∧ view self' = Function.update (view self) key (some value) := by
  obtain ⟨self', e, hk, hbm, hinv', hperm, hnew⟩ := hinv.borrow_mut_eq hv value
  refine ⟨self', hbm, hinv', Function.eq_update_iff.mpr ⟨?_, fun k hkey => ?_⟩⟩
  · rw [← hk]
    exact view_of_mem hinv'.keys_nodup hnew
  · exact view_of_perm hinv.keys_nodup hinv'.keys_nodup hperm (by simp [hk, Ne.symm hkey])
      (by simp [hk, Ne.symm hkey])

theorem inv_upsert (hinv : Inv sip_hash_from_value self) {key : K} {value : V}
    (h : upsert sip_hash_from_value size_of_val self key value = .ok self') :
    Inv sip_hash_from_value self' ∧ view self' = Function.update (view self) key (some value) := by
  unfold upsert at h
  rw [hinv.contains_eq, Except.ok_bind] at h
  cases hv : view self key with
  | none =>
    rw [hv] at h
    exact ⟨(inv_add hinv h).2.1, view_add hinv h⟩
  | some v =>
    rw [hv] at h
    obtain ⟨self'', hbm, hinv'', hview⟩ := view_borrow_mut hinv hv value
    simp only [Option.isSome_some, Bool.not_true, Bool.false_eq_true, if_false, hbm,
      Except.ok.injEq] at h
    subst h
    exact ⟨hinv'', hview⟩

theorem upsert_of_view_eq_some (hinv : Inv sip_hash_from_value self) {key : K} {v : V}
    (hv : view self key = some v) (value : V) :
    ∃ self', upsert sip_hash_from_value size_of_val self key value = .ok self' := by
  obtain ⟨self', hbm, -⟩ := view_borrow_mut hinv hv value
  refine ⟨self', ?_⟩
  unfold upsert
  rw [hinv.contains_eq, Except.ok_bind, hv]
  simpa using hbm

end Invariant

end Zapatos.Stdlib.smart_table

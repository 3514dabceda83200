import Zapatos.Move.Integer
import Zapatos.Move.Table

namespace Zapatos.Stdlib.smart_table

open Move

def ENOT_FOUND : ℕ := 1

def EALREADY_EXIST : ℕ := 4

def EINVALID_LOAD_THRESHOLD_PERCENT : ℕ := 5

def EINVALID_TARGET_BUCKET_SIZE : ℕ := 6

def EEXCEED_MAX_BUCKET_SIZE : ℕ := 7

structure Entry (K V : Type) where
  hash : ℕ
  key : K
  value : V
deriving DecidableEq, Repr

-- The buckets are a TableWithLength; its length field is only read by destroy_empty.
structure SmartTable (K V : Type) where
  buckets : AList fun _ : ℕ => List (Entry K V)
  num_buckets : ℕ
  level : ℕ
  size : ℕ
  split_load_threshold : ℕ
  target_bucket_size : ℕ

variable {K V : Type} [DecidableEq K]

-- The shifts 1 << level and 1 << (level + 1) are taken as powers of two: they abort only from
-- level 63 on, which takes 2^63 buckets.
def bucket_index (level num_buckets hash : ℕ) : ℕ :=
  let index := hash % 2 ^ (level + 1)
  if index < num_buckets then index else index % 2 ^ level

def split_one_bucket (self : SmartTable K V) : Except ℕ (SmartTable K V) := do
  let new_bucket_index := self.num_buckets
  let to_split := new_bucket_index ^^^ 2 ^ self.level
  let num_buckets := new_bucket_index + 1
  let level := if to_split + 1 = 2 ^ self.level then self.level + 1 else self.level
  let old_bucket ← table.borrow self.buckets to_split
  let (old_bucket, p) := vector.partition old_bucket fun entry =>
    bucket_index level num_buckets entry.hash != new_bucket_index
  let (old_bucket, new_bucket) ← vector.trim_reverse old_bucket p
  let buckets ← table.borrow_mut self.buckets to_split old_bucket
  let buckets ← table.add buckets new_bucket_index new_bucket
  pure { self with buckets, num_buckets, level }

-- The loop of new_with_config: while num_initial_buckets > 1, decrement it and split a bucket.
def split_initial_buckets : ℕ → SmartTable K V → Except ℕ (SmartTable K V)
  | n + 2, table => do
    let table ← split_one_bucket table
    split_initial_buckets (n + 1) table
  | _, table => pure table

def new_with_config (num_initial_buckets split_load_threshold target_bucket_size : ℕ) :
    Except ℕ (SmartTable K V) := do
  unless split_load_threshold ≤ 100 do throw (invalid_argument EINVALID_LOAD_THRESHOLD_PERCENT)
  let buckets ← table.add ∅ 0 []
  let table : SmartTable K V := ⟨buckets, 1, 0, 0,
    if split_load_threshold = 0 then 75 else split_load_threshold, target_bucket_size⟩
  let num_initial_buckets := if num_initial_buckets = 0 then 2 else num_initial_buckets
  split_initial_buckets num_initial_buckets table

def new : Except ℕ (SmartTable K V) := new_with_config 0 0 0

def clear (self : SmartTable K V) : Except ℕ (SmartTable K V) := do
  let buckets ← table.borrow_mut self.buckets 0 []
  let buckets ← (List.range' 1 (self.num_buckets - 1)).foldlM (fun buckets i => do
    let (buckets, _) ← table.remove buckets i
    pure buckets) buckets
  pure { self with buckets, num_buckets := 1, level := 0, size := 0 }

def length (self : SmartTable K V) : ℕ := self.size

def load_factor (self : SmartTable K V) : Except ℕ ℕ := do
  let a ← checked_mul 64 self.size 100
  let b ← checked_div a self.num_buckets
  checked_div b self.target_bucket_size

section Hash

variable (sip_hash_from_value : K → ℕ) (size_of_val : Entry K V → ℕ)

def add (self : SmartTable K V) (key : K) (value : V) : Except ℕ (SmartTable K V) := do
  let hash := sip_hash_from_value key
  let index := bucket_index self.level self.num_buckets hash
  let bucket ← table.borrow self.buckets index
  unless bucket.length ≤ 10000 do throw (permission_denied EEXCEED_MAX_BUCKET_SIZE)
  unless bucket.all (fun entry => entry.key != key) do throw (invalid_argument EALREADY_EXIST)
  let e : Entry K V := ⟨hash, key, value⟩
  let target_bucket_size := if self.target_bucket_size = 0 then
      max (1024 / max (size_of_val e) 1) 1
    else self.target_bucket_size
  let buckets ← table.borrow_mut self.buckets index (bucket ++ [e])
  let size ← checked_add 64 self.size 1
  let self := { self with buckets, size, target_bucket_size }
  if (← load_factor self) ≥ self.split_load_threshold then split_one_bucket self
  else pure self

-- vector::zip reverses both vectors and pops them pairwise, so the pairs are added in order.
def add_all (self : SmartTable K V) (keys : List K) (values : List V) :
    Except ℕ (SmartTable K V) := do
  unless keys.length = values.length do throw 0x20002
  (keys.zip values).foldlM (fun self (key, value) => add sip_hash_from_value size_of_val self key value)
    self

def borrow (self : SmartTable K V) (key : K) : Except ℕ V := do
  let index := bucket_index self.level self.num_buckets (sip_hash_from_value key)
  let bucket ← table.borrow self.buckets index
  match bucket.find? (fun entry => entry.key == key) with
  | some entry => pure entry.value
  | none => throw (invalid_argument ENOT_FOUND)

-- A write of value through the reference that borrow_mut returns.
def borrow_mut (self : SmartTable K V) (key : K) (value : V) : Except ℕ (SmartTable K V) := do
  let index := bucket_index self.level self.num_buckets (sip_hash_from_value key)
  let bucket ← table.borrow self.buckets index
  match bucket.findIdx? (fun entry => entry.key == key) with
  | some i => do
    let buckets ← table.borrow_mut self.buckets index (bucket.modify i fun entry => { entry with value })
    pure { self with buckets }
  | none => throw (invalid_argument ENOT_FOUND)

def contains (self : SmartTable K V) (key : K) : Except ℕ Bool := do
  let hash := sip_hash_from_value key
  let index := bucket_index self.level self.num_buckets hash
  let bucket ← table.borrow self.buckets index
  pure (bucket.any fun e => e.hash == hash && e.key == key)

def remove (self : SmartTable K V) (key : K) : Except ℕ (SmartTable K V × V) := do
  let index := bucket_index self.level self.num_buckets (sip_hash_from_value key)
  let bucket ← table.borrow self.buckets index
  match bucket.findIdx? (fun entry => entry.key == key) with
  | some i => do
    let (bucket, entry) ← vector.swap_remove bucket i
    let buckets ← table.borrow_mut self.buckets index bucket
    let size ← checked_sub self.size 1
    pure ({ self with buckets, size }, entry.value)
  | none => throw (invalid_argument ENOT_FOUND)

def upsert (self : SmartTable K V) (key : K) (value : V) : Except ℕ (SmartTable K V) := do
  if !(← contains sip_hash_from_value self key) then
    add sip_hash_from_value size_of_val self key value
  else borrow_mut sip_hash_from_value self key value

end Hash

def update_split_load_threshold (self : SmartTable K V) (split_load_threshold : ℕ) :
    Except ℕ (SmartTable K V) := do
  unless split_load_threshold ≤ 100 ∧ split_load_threshold > 0 do
    throw (invalid_argument EINVALID_LOAD_THRESHOLD_PERCENT)
  pure { self with split_load_threshold }

def update_target_bucket_size (self : SmartTable K V) (target_bucket_size : ℕ) :
    Except ℕ (SmartTable K V) := do
  unless target_bucket_size > 0 do throw (invalid_argument EINVALID_TARGET_BUCKET_SIZE)
  pure { self with target_bucket_size }

end Zapatos.Stdlib.smart_table

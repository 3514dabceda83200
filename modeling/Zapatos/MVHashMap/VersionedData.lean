import Mathlib
import Zapatos.Aggregator.DeltaChangeSet

namespace Zapatos.MVHashMap

open Std Aggregator

-- The part of the TransactionWrite trait that the multi-version data uses.
structure TransactionWrite (V M : Type) where
  as_u128 : V → Except String (Option ℕ)
  as_state_value_metadata : V → Option M
  bytes_len : V → Option ℕ

inductive ValueWithLayout (V L : Type) where
  | RawFromStorage (value : V)
  | Exchanged (value : V) (layout : Option L)
deriving DecidableEq, Repr

namespace ValueWithLayout

variable {V L : Type}

-- Panics on an exchanged value that carries a layout.
def extract_value_no_layout : ValueWithLayout V L → Option V
  | .RawFromStorage value => some value
  | .Exchanged value none => some value
  | .Exchanged _ (some _) => none

def bytes_len {M : Type} (tw : TransactionWrite V M) : ValueWithLayout V L → Option ℕ
  | .RawFromStorage value | .Exchanged value _ => tw.bytes_len value

end ValueWithLayout

structure StorageVersion where
deriving DecidableEq, Repr

abbrev Version := Except StorageVersion (ℕ × ℕ)

-- ShiftedTxnIndex: the storage version sits at 0, transaction i at i + 1.
namespace ShiftedTxnIndex

def new (real_idx : ℕ) : ℕ := real_idx + 1

def zero_idx : ℕ := 0

def idx (shifted : ℕ) : Except StorageVersion ℕ :=
  if shifted > 0 then .ok (shifted - 1) else .error ⟨⟩

end ShiftedTxnIndex

inductive MVDataError where
  | Uninitialized
  | Unresolved (delta : DeltaOp)
  | Dependency (txn_idx : ℕ)
  | DeltaApplicationFailure
deriving DecidableEq, Repr

inductive MVDataOutput (V L : Type) where
  | Resolved (value : ℕ)
  | Versioned (version : Version) (value : ValueWithLayout V L)
deriving DecidableEq, Repr

-- The read dependencies registered at a write: the latest incarnation of each reader.
structure RegisteredReadDependencies where
  dependencies : TreeMap ℕ ℕ

namespace RegisteredReadDependencies

def from_dependencies (dependencies : TreeMap ℕ ℕ) : RegisteredReadDependencies := ⟨dependencies⟩

def check_lowest_dependency_idx (dependencies : TreeMap ℕ ℕ) (txn_idx : ℕ) :
    Except PanicError Unit :=
  match dependencies.minKey? with
  | some lowest_dep_idx =>
    if lowest_dep_idx ≤ txn_idx then
      .error (code_invariant_error ("Dependency for txn " ++ toString lowest_dep_idx ++
        " recorded at idx " ++ toString txn_idx))
    else .ok ()
  | none => .ok ()

-- A lower incarnation than the one recorded is an error; the map is updated either way.
def insert (self : RegisteredReadDependencies) (txn_idx incarnation : ℕ) :
    RegisteredReadDependencies × Except PanicError Unit :=
  let result := match self.dependencies[txn_idx]? with
    | some prev_incarnation =>
      if prev_incarnation > incarnation then
        .error (code_invariant_error ("Recording dependency on txn " ++ toString txn_idx ++
          " incarnation " ++ toString incarnation ++ ", found incarnation " ++
          toString prev_incarnation))
      else .ok ()
    | none => .ok ()
  (⟨self.dependencies.insert txn_idx incarnation⟩, result)

def extend_impl (self_dependencies other_dependencies : TreeMap ℕ ℕ) : TreeMap ℕ ℕ :=
  other_dependencies.foldl (fun deps txn_idx incarnation =>
    match deps[txn_idx]? with
    | some prev => if prev < incarnation then deps.insert txn_idx incarnation else deps
    | none => deps.insert txn_idx incarnation) self_dependencies

def extend_with_higher_dependencies (self : RegisteredReadDependencies)
    (other : TreeMap ℕ ℕ) : Except PanicError RegisteredReadDependencies := do
  if let some highest_dep_idx := self.dependencies.maxKey? then
    check_lowest_dependency_idx other highest_dep_idx
  pure ⟨extend_impl self.dependencies other⟩

-- split_off at txn_idx: what stays, and the dependencies at or above txn_idx.
def split_off (self : RegisteredReadDependencies) (txn_idx : ℕ) :
    RegisteredReadDependencies × TreeMap ℕ ℕ :=
  (⟨self.dependencies.filter fun k _ => k < txn_idx⟩,
    self.dependencies.filter fun k _ => txn_idx ≤ k)

end RegisteredReadDependencies

inductive EntryCell (V L : Type) where
  | ResourceWrite (incarnation : ℕ) (value_with_layout : ValueWithLayout V L)
      (dependencies : RegisteredReadDependencies)
  | Delta (delta : DeltaOp) (shortcut : Option ℕ)

def FLAG_DONE : Bool := false

def FLAG_ESTIMATE : Bool := true

structure Entry (V L : Type) where
  value : EntryCell V L
  flag : Bool

namespace Entry

variable {V L : Type}

def new (value : EntryCell V L) : Entry V L := ⟨value, FLAG_DONE⟩

def is_estimate (self : Entry V L) : Bool := self.flag == FLAG_ESTIMATE

def mark_estimate (self : Entry V L) : Entry V L := { self with flag := FLAG_ESTIMATE }

-- Records the materialized value of a delta; a different value recorded before is a panic, and
-- so is an entry that is not a delta.
def record_delta_shortcut (self : Entry V L) (value : ℕ) : Option (Entry V L) :=
  match self.value with
  | .Delta delta_op maybe_shortcut =>
    if maybe_shortcut.any (· ≠ value) then none
    else some { self with value := .Delta delta_op (some value) }
  | .ResourceWrite .. => none

end Entry

def new_write_entry {V L : Type} (incarnation : ℕ) (value : ValueWithLayout V L)
    (dependencies : TreeMap ℕ ℕ) : Entry V L :=
  .new (.ResourceWrite incarnation value (.from_dependencies dependencies))

def new_delta_entry {V L : Type} (data : DeltaOp) : Entry V L := .new (.Delta data none)

-- The versions of one key, by shifted transaction index. The BTreeMap is the finite map it
-- stands for: a lookup at every index.
structure VersionedValue (V L : Type) where
  versioned_map : ℕ → Option (Entry V L)

-- What the read loop does with its accumulated delta on reaching a value: apply it, or fail.
def apply_accumulator {V L : Type} (accumulator : Except Unit DeltaOp) (value : ℕ) :
    Except MVDataError (MVDataOutput V L) :=
  match accumulator with
  | .error _ => .error .DeltaApplicationFailure
  | .ok a =>
    match a.apply_to value with
    | .ok r => .ok (.Resolved r)
    | .error _ => .error .DeltaApplicationFailure

-- The accumulator after a delta further down: merged, or failed for good.
def merge_accumulator (accumulator : Except Unit DeltaOp) (delta : DeltaOp) :
    Except Unit DeltaOp :=
  accumulator.bind fun a =>
    match a.merge_with_previous_delta delta with
    | .ok merged => .ok merged
    | .error _ => .error ()

namespace VersionedValue

variable {V L M : Type} (tw : TransactionWrite V M)

-- The loop of VersionedValue::read over the indices below bound, from the highest down. It
-- returns the read's result and the index of the write at which a reader's dependency is kept;
-- none is a panic.
def read_loop (versioned_map : ℕ → Option (Entry V L)) :
    ℕ → Option (Except Unit DeltaOp) →
      Option (Except MVDataError (MVDataOutput V L) × Option ℕ)
  | 0, accumulator =>
    some ((match accumulator with
      | some (.ok accumulator) => .error (.Unresolved accumulator)
      | some (.error _) => .error .DeltaApplicationFailure
      | none => .error .Uninitialized), none)
  | idx + 1, accumulator =>
    match versioned_map idx with
    | none => read_loop versioned_map idx accumulator
    | some entry =>
      if entry.is_estimate then
        -- "May not depend on storage version"
        match ShiftedTxnIndex.idx idx with
        | .ok i => some (.error (.Dependency i), none)
        | .error _ => none
      else
        match entry.value, accumulator with
        | .ResourceWrite incarnation value_with_layout _, none =>
          some (.ok (.Versioned ((ShiftedTxnIndex.idx idx).map (·, incarnation))
            value_with_layout), some idx)
        | .ResourceWrite incarnation value_with_layout _, some accumulator => do
          let value ← value_with_layout.extract_value_no_layout
          -- "Aggregator value must deserialize to u128"
          match tw.as_u128 value with
          | .error _ => none
          | .ok none =>
            some (.ok (.Versioned ((ShiftedTxnIndex.idx idx).map (·, incarnation))
              value_with_layout), none)
          | .ok (some value) => some (apply_accumulator accumulator value, none)
        | .Delta _ (some shortcut_value), some accumulator =>
          some (apply_accumulator accumulator shortcut_value, none)
        | .Delta delta none, some accumulator =>
          read_loop versioned_map idx (some (merge_accumulator accumulator delta))
        | .Delta _ (some shortcut_value), none => some (.ok (.Resolved shortcut_value), none)
        | .Delta delta none, none => read_loop versioned_map idx (some (.ok delta))

def set_entry (self : VersionedValue V L) (idx : ℕ) (entry : Entry V L) : VersionedValue V L :=
  ⟨Function.update self.versioned_map idx (some entry)⟩

-- A reader with an incarnation registers itself at the write it reads; the registry's error is
-- an assert.
def read (self : VersionedValue V L) (reader_txn_idx : ℕ)
    (maybe_reader_incarnation : Option ℕ) :
    Option (VersionedValue V L × Except MVDataError (MVDataOutput V L)) := do
  let (result, read_at) ←
    read_loop tw self.versioned_map (ShiftedTxnIndex.new reader_txn_idx) none
  match maybe_reader_incarnation, read_at with
  | some reader_incarnation, some idx =>
    let entry ← self.versioned_map idx
    match entry.value with
    | .ResourceWrite incarnation value_with_layout dependencies =>
      match dependencies.insert reader_txn_idx reader_incarnation with
      | (dependencies, .ok ()) =>
        pure (self.set_entry idx
          { entry with value := .ResourceWrite incarnation value_with_layout dependencies },
          result)
      | (_, .error _) => none
    | .Delta .. => none
  | _, _ => pure (self, result)

end VersionedValue

-- The multi-version data of every key.
structure VersionedData (K V L : Type) where
  values : K → Option (VersionedValue V L)

namespace VersionedData

variable {K V L M : Type} [DecidableEq K] (tw : TransactionWrite V M)

def empty : VersionedData K V L := ⟨fun _ => none⟩

-- values.entry(key).or_default()
def entry_or_default (self : VersionedData K V L) (key : K) : VersionedValue V L :=
  (self.values key).getD ⟨fun _ => none⟩

def set_value (self : VersionedData K V L) (key : K) (v : VersionedValue V L) :
    VersionedData K V L :=
  ⟨Function.update self.values key (some v)⟩

def add_delta (self : VersionedData K V L) (key : K) (txn_idx : ℕ) (delta : DeltaOp) :
    VersionedData K V L :=
  self.set_value key ((self.entry_or_default key).set_entry (ShiftedTxnIndex.new txn_idx)
    (new_delta_entry delta))

def remove (self : VersionedData K V L) (key : K) (txn_idx : ℕ) : Option (VersionedData K V L) := do
  let v ← self.values key
  let _ ← v.versioned_map (ShiftedTxnIndex.new txn_idx)
  pure (self.set_value key ⟨Function.update v.versioned_map (ShiftedTxnIndex.new txn_idx) none⟩)

def fetch_data_no_record (self : VersionedData K V L) (key : K) (txn_idx : ℕ) :
    Option (Except MVDataError (MVDataOutput V L)) :=
  match self.values key with
  | some v => (v.read tw txn_idx none).map Prod.snd
  | none => some (.error .Uninitialized)

-- BlockSTMv1's write: the previous entry at the index, if a write, must have a lower incarnation.
def write (self : VersionedData K V L) (key : K) (txn_idx incarnation : ℕ) (data : V)
    (maybe_layout : Option L) : Option (VersionedData K V L) :=
  let v := self.entry_or_default key
  let idx := ShiftedTxnIndex.new txn_idx
  let lower : Bool := match v.versioned_map idx with
    | some { value := .ResourceWrite prev_incarnation .., .. } => prev_incarnation < incarnation
    | _ => true
  if lower then
    some (self.set_value key (v.set_entry idx
      (new_write_entry incarnation (.Exchanged data maybe_layout) ∅)))
  else none

-- Records the materialized value of a committed delta; Err is the delta whose base value is not
-- known yet.
def materialize_delta (self : VersionedData K V L) (key : K) (txn_idx : ℕ) :
    Option (VersionedData K V L × Except DeltaOp ℕ) := do
  let v ← self.values key
  let (_, result) ← v.read tw (txn_idx + 1) none
  match result with
  | .ok (.Resolved value) =>
    let entry ← v.versioned_map (ShiftedTxnIndex.new txn_idx)
    let entry ← entry.record_delta_shortcut value
    pure (self.set_value key (v.set_entry (ShiftedTxnIndex.new txn_idx) entry), .ok value)
  | .error (.Unresolved op) => pure (self, .error op)
  | _ => none

end VersionedData

end Zapatos.MVHashMap

import Zapatos.JellyfishMerkle.RestoreSpec

namespace Zapatos.Storage

open JellyfishMerkle SparseMerkle

inductive StateStorageUsage where
  | Tracked (items bytes : ℕ)
  | Untracked
deriving DecidableEq, Repr

def StateStorageUsage.zero : StateStorageUsage := .Tracked 0 0

def StateStorageUsage.add_item (usage : StateStorageUsage) (bytes_delta : ℕ) : StateStorageUsage :=
  match usage with
  | .Tracked items bytes => .Tracked (items + 1) (bytes + bytes_delta)
  | .Untracked => .Untracked

structure StateSnapshotProgress where
  key_hash : BitVec HashValue.LENGTH_IN_BITS
  usage : StateStorageUsage
deriving DecidableEq, Repr

-- The StateValueWriter trait, on a value store D.
structure StateValueWriter (K V D : Type) where
  write_kv_batch : D → ℕ → List ((K × ℕ) × Option V) → StateSnapshotProgress → Except String D
  get_progress : D → ℕ → Except String (Option StateSnapshotProgress)

-- The hashing and sizes of keys and values, which Key, Value and CryptoHash provide.
structure KeyValue (K V H : Type) where
  hash_key : K → BitVec HashValue.LENGTH_IN_BITS
  hash_value : V → H
  key_size : K → ℕ
  value_size : V → ℕ

structure StateValueRestore (D : Type) where
  version : ℕ
  db : D
deriving DecidableEq, Repr

namespace StateValueRestore

variable {K V H D : Type}

def add_chunk (kv : KeyValue K V H) (writer : StateValueWriter K V D) (self : StateValueRestore D)
    (chunk : List (K × V)) : StateValueRestore D × Except String Unit :=
  match writer.get_progress self.db self.version with
  | .error e => (self, .error e)
  | .ok progress_opt =>
    let chunk : List (K × V) := match progress_opt with
      | some progress =>
        chunk.drop ((chunk.findIdx? fun (k, _) => progress.key_hash < kv.hash_key k).getD
          chunk.length)
      | none => chunk
    match chunk.getLast? with
    | none => (self, .ok ())
    | some (last_key, _) =>
      let usage := chunk.foldl (fun usage (k, v) => usage.add_item (kv.key_size k + kv.value_size v))
        ((progress_opt.map (·.usage)).getD StateStorageUsage.zero)
      let kv_batch := chunk.map fun (k, v) => ((k, self.version), some v)
      match writer.write_kv_batch self.db self.version kv_batch ⟨kv.hash_key last_key, usage⟩ with
      | .ok db => ({ self with db }, .ok ())
      | .error e => (self, .error e)

end StateValueRestore

inductive StateSnapshotRestoreMode where
  | Default
  | KvOnly
  | TreeOnly
deriving DecidableEq, Repr

structure StateSnapshotRestore (K H S D : Type) where
  tree_restore : JellyfishMerkleRestore K H S
  kv_restore : StateValueRestore D
  restore_mode : StateSnapshotRestoreMode

inductive RestoreError (H : Type) where
  | Kv (message : String)
  | Tree (error : AptosDbError H)

namespace StateSnapshotRestore

variable {K V H S D : Type} [DecidableEq H] (c : Hasher HashValue.LENGTH_IN_BITS H)

-- In Default mode the value and tree parts run side by side, each to its end; the value part's
-- error is reported first. None is a panic of the tree part.
def add_chunk (kv : KeyValue K V H) (tree_writer : TreeWriter K H S)
    (kv_writer : StateValueWriter K V D) (self : StateSnapshotRestore K H S D)
    (chunk : List (K × V)) (proof : SparseMerkleRangeProof H) :
    Option (StateSnapshotRestore K H S D × Except (RestoreError H) Unit) :=
  let kv_fn := fun (_ : Unit) => self.kv_restore.add_chunk kv kv_writer chunk
  let tree_fn := fun (_ : Unit) => self.tree_restore.add_chunk_impl c kv.hash_key tree_writer
    (chunk.map fun (k, v) => (k, kv.hash_value v)) proof
  match self.restore_mode with
  | .KvOnly =>
    let (kv_restore, r) := kv_fn ()
    some ({ self with kv_restore }, r.mapError .Kv)
  | .TreeOnly => do
    let (tree_restore, r) ← tree_fn ()
    pure ({ self with tree_restore }, r.mapError .Tree)
  | .Default => do
    let (kv_restore, r1) := kv_fn ()
    let (tree_restore, r2) ← tree_fn ()
    pure ({ self with kv_restore, tree_restore }, do
      r1.mapError .Kv
      r2.mapError .Tree)

variable {c} {kv : KeyValue K V H} {tree_writer : TreeWriter K H S}
  {kv_writer : StateValueWriter K V D} {self self' : StateSnapshotRestore K H S D}
  {chunk : List (K × V)} {proof : SparseMerkleRangeProof H}

-- In Default mode a chunk the tree part rejects has gone through the value part to its end, with
-- its values and progress written, and has advanced the tree restorer.
theorem add_chunk_default_tree_error {e : AptosDbError H} (hmode : self.restore_mode = .Default)
    (h : self.add_chunk c kv tree_writer kv_writer chunk proof = some (self', .error (.Tree e))) :
    self.kv_restore.add_chunk kv kv_writer chunk = (self'.kv_restore, .ok ()) ∧
      JellyfishMerkleRestore.Advances self.tree_restore self'.tree_restore := by
  unfold add_chunk at h
  rw [hmode] at h
  rcases hkv : self.kv_restore.add_chunk kv kv_writer chunk with ⟨kv_restore, r1⟩
  simp only [hkv, Option.bind_eq_bind, Option.bind_eq_some_iff, Option.pure_def,
    Option.some.injEq, Prod.mk.injEq] at h ⊢
  obtain ⟨⟨tree_restore, r2⟩, htree, rfl, hr⟩ := h
  -- the value part's error would be reported first
  cases r1 with
  | error e' => simp [Except.mapError] at hr
  | ok u =>
    cases r2 with
    | error e'' =>
      exact ⟨⟨rfl, rfl⟩, JellyfishMerkleRestore.add_chunk_impl_error_advances htree⟩
    | ok u' => simp [Except.mapError] at hr

end StateSnapshotRestore

theorem add_chunk_rejected_chunk_kept :
    let restorer : JellyfishMerkleRestore (BitVec 256) (Digest 256) Unit :=
      .new_overwrite () 0 (.leaf 0 (.value 1))
    let c := Digest.hasher HashValue.LENGTH_IN_BITS
    let kv : KeyValue (BitVec 256) ℕ (Digest 256) := ⟨id, .value, fun _ => 1, fun _ => 1⟩
    let tree_writer : TreeWriter (BitVec 256) (Digest 256) Unit := ⟨fun s _ => .ok s⟩
    let kv_writer : StateValueWriter (BitVec 256) ℕ
        (List ((BitVec 256 × ℕ) × Option ℕ) × Option StateSnapshotProgress) :=
      ⟨fun db _ batch progress => .ok (db.1 ++ batch, some progress), fun db _ => .ok db.2⟩
    let tampered : List (BitVec 256 × ℕ) := [(0, 2)]
    let correct : List (BitVec 256 × ℕ) := [(0, 1)]
    let tree_chunk := fun (chunk : List (BitVec 256 × ℕ)) =>
      chunk.map fun (k, v) => (k, kv.hash_value v)
    let proof : SparseMerkleRangeProof (Digest 256) := ⟨[]⟩
    (JellyfishMerkleRestore.add_chunk_impl c kv.hash_key tree_writer restorer (tree_chunk tampered)
        proof).map (fun p => (p.1.previous_leaf, p.1.num_keys_received, p.2.toBool)) =
      some (some ⟨0, .value 2, (0, 0)⟩, 1, false) ∧
    ((JellyfishMerkleRestore.add_chunk_impl c kv.hash_key tree_writer restorer (tree_chunk tampered)
        proof).bind fun p =>
      JellyfishMerkleRestore.add_chunk_impl c kv.hash_key tree_writer p.1 (tree_chunk correct) proof).map
        (fun p => (p.1.previous_leaf, p.2.toBool)) =
      some (some ⟨0, .value 2, (0, 0)⟩, true) ∧
    (JellyfishMerkleRestore.add_chunk_impl c kv.hash_key tree_writer restorer (tree_chunk correct)
        proof).map (fun p => (p.1.previous_leaf, p.2.toBool)) =
      some (some ⟨0, .value 1, (0, 0)⟩, true) ∧
    (StateSnapshotRestore.add_chunk c kv tree_writer kv_writer
        ⟨restorer, ⟨0, ([], none)⟩, .Default⟩ tampered proof).map
        (fun p => (p.1.kv_restore.db.1, p.1.kv_restore.db.2, p.2.toBool)) =
      some ([((0, 0), some 2)], some ⟨0, .Tracked 1 2⟩, false) := by
  dsimp only
  refine ⟨?_, ?_, ?_, ?_⟩ <;> decide +kernel

end Zapatos.Storage

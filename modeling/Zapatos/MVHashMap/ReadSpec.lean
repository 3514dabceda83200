import Zapatos.MVHashMap.VersionedData

namespace Zapatos.MVHashMap

open Aggregator DeltaOp

section Accumulator

variable {M : ℕ}

-- The accumulated delta as a function of the value under it: none where applying it fails.
def accumulatorApply (accumulator : Except Unit DeltaOp) (value : ℕ) : Option ℕ :=
  match accumulator with
  | .ok a => (a.apply_to value).toOption
  | .error _ => none

def AccumulatorWF (M : ℕ) (accumulator : Except Unit DeltaOp) : Prop :=
  ∀ a, accumulator = .ok a → a.WellFormed ∧ a.max_value = M

theorem apply_accumulator_eq {V L : Type} (accumulator : Except Unit DeltaOp) (value : ℕ) :
    (apply_accumulator accumulator value : Except MVDataError (MVDataOutput V L)) =
      (accumulatorApply accumulator value).elim (.error .DeltaApplicationFailure)
        fun r => .ok (.Resolved r) := by
  cases accumulator with
  | error e => rfl
  | ok a => cases h : a.apply_to value <;> simp [apply_accumulator, accumulatorApply, h, Except.toOption]

theorem accumulatorWF_ok {δ : DeltaOp} (hδ : δ.WellFormed ∧ δ.max_value = M) :
    AccumulatorWF M (.ok δ) := by
  rintro a ⟨⟩
  exact hδ

theorem accumulatorWF_merge {accumulator : Except Unit DeltaOp} {δ : DeltaOp}
    (hacc : AccumulatorWF M accumulator) (hδ : δ.WellFormed ∧ δ.max_value = M) :
    AccumulatorWF M (merge_accumulator accumulator δ) := by
  intro m hm
  cases accumulator with
  | error e => cases hm
  | ok a =>
    obtain ⟨ha, haM⟩ := hacc a rfl
    simp only [merge_accumulator, Except.bind, merge_with_previous_delta] at hm
    split at hm
    · rename_i merged hmerged
      cases hm
      exact ⟨wellFormed_of_create_merged_delta hδ.1 ha hmerged,
        (create_merged_delta_inv hmerged).2.2.2.trans haM⟩
    · cases hm

-- Merging a delta under the accumulator applies that delta first: the merge fails exactly where
-- the two deltas in turn fail.
theorem accumulatorApply_merge {accumulator : Except Unit DeltaOp} {δ : DeltaOp}
    (hacc : AccumulatorWF M accumulator) (hδ : δ.WellFormed ∧ δ.max_value = M) (x : ℕ) :
    accumulatorApply (merge_accumulator accumulator δ) x =
      (δ.apply_to x).toOption.bind (accumulatorApply accumulator) := by
  cases accumulator with
  | error e =>
    cases δ.apply_to x <;> rfl
  | ok a =>
    obtain ⟨ha, haM⟩ := hacc a rfl
    have hseq : (δ.apply_to x).toOption.bind (accumulatorApply (.ok a)) =
        (δ.apply_to x >>= a.apply_to).toOption := (Except.toOption_bind _ _).symm
    rw [hseq]
    simp only [merge_accumulator, Except.bind, merge_with_previous_delta]
    cases hm : create_merged_delta δ a with
    | error e =>
      -- no value passes the two deltas in turn
      cases hx : δ.apply_to x with
      | error e' => rfl
      | ok v1 =>
        have hne := create_merged_delta_error_complete hδ.2 haM hδ.1 ha hm hx
        cases hv : a.apply_to v1 with
        | error e'' => simp [hv, Except.toOption, accumulatorApply]
        | ok v => exact absurd hv (hne v)
    | ok m =>
      exact Except.toOption_eq_of_ok_iff fun v =>
        (apply_to_create_merged_delta ha.bounded hm x v).trans Except.bind_eq_ok_iff.symm

end Accumulator

section Baseline

variable {V L T : Type} (tw : TransactionWrite V T)

-- The sequential baseline read: the entries below bound from the highest down, deltas merged into
-- an accumulator with merge_with_previous_delta, the first write ending the scan. It reads no
-- materialized shortcut and no estimate flag.
def baseline_loop (versioned_map : ℕ → Option (Entry V L)) :
    ℕ → Option (Except Unit DeltaOp) → Option (Except MVDataError (MVDataOutput V L))
  | 0, accumulator =>
    some (match accumulator with
      | some (.ok accumulator) => .error (.Unresolved accumulator)
      | some (.error _) => .error .DeltaApplicationFailure
      | none => .error .Uninitialized)
  | idx + 1, accumulator =>
    match versioned_map idx with
    | none => baseline_loop versioned_map idx accumulator
    | some entry =>
      match entry.value, accumulator with
      | .ResourceWrite incarnation value_with_layout _, none =>
        some (.ok (.Versioned ((ShiftedTxnIndex.idx idx).map (·, incarnation)) value_with_layout))
      | .ResourceWrite incarnation value_with_layout _, some accumulator => do
        let value ← value_with_layout.extract_value_no_layout
        match tw.as_u128 value with
        | .error _ => none
        | .ok none =>
          some (.ok (.Versioned ((ShiftedTxnIndex.idx idx).map (·, incarnation)) value_with_layout))
        | .ok (some value) => some (apply_accumulator accumulator value)
      | .Delta delta _, none => baseline_loop versioned_map idx (some (.ok delta))
      | .Delta delta _, some accumulator =>
        baseline_loop versioned_map idx (some (merge_accumulator accumulator delta))

def VersionedValue.baseline (v : VersionedValue V L) (reader_txn_idx : ℕ) :
    Option (Except MVDataError (MVDataOutput V L)) :=
  baseline_loop tw v.versioned_map (ShiftedTxnIndex.new reader_txn_idx) none

def VersionedData.baseline {K : Type} (d : VersionedData K V L) (key : K) (reader_txn_idx : ℕ) :
    Option (Except MVDataError (MVDataOutput V L)) :=
  match d.values key with
  | some v => v.baseline tw reader_txn_idx
  | none => some (.error .Uninitialized)

end Baseline

section Invariant

variable {V L T : Type} (tw : TransactionWrite V T)

-- What reads need of the versions of a key: no estimates, well-formed deltas with one limit, and
-- at every materialized delta the value the baseline gives under it.
structure ReadInvariant (M : ℕ) (versioned_map : ℕ → Option (Entry V L)) : Prop where
  no_estimates : ∀ idx e, versioned_map idx = some e → e.is_estimate = false
  deltas_well_formed : ∀ idx e δ s, versioned_map idx = some e → e.value = .Delta δ s →
    δ.WellFormed ∧ δ.max_value = M
  shortcuts_sound : ∀ idx e δ s, versioned_map idx = some e → e.value = .Delta δ (some s) →
    baseline_loop tw versioned_map idx (some (.ok δ)) = some (.ok (.Resolved s))

variable {tw} {m : ℕ → Option (Entry V L)} {M : ℕ}

-- A baseline scan from accumulator A that resolves to s, run again from an accumulator B that is A
-- followed by g, resolves to g s.
theorem baseline_loop_compose
    (hwf : ∀ idx e δ s, m idx = some e → e.value = .Delta δ s → δ.WellFormed ∧ δ.max_value = M)
    {s : ℕ} {g : ℕ → Option ℕ} {b : ℕ} {A B : Except Unit DeltaOp} (hA : AccumulatorWF M A)
    (hB : AccumulatorWF M B) (hsem : ∀ x, accumulatorApply B x = (accumulatorApply A x).bind g)
    (h : baseline_loop tw m b (some A) = some (.ok (.Resolved s))) :
    baseline_loop tw m b (some B) =
      some ((g s).elim (.error .DeltaApplicationFailure) fun r => .ok (.Resolved r)) := by
  induction b generalizing A B with
  | zero => cases A <;> simp [baseline_loop] at h
  | succ b ih =>
    cases hm : m b with
    | none =>
      simp only [baseline_loop, hm] at h ⊢
      exact ih hA hB hsem h
    | some e =>
      cases he : e.value with
      | ResourceWrite incarnation value_with_layout deps =>
        simp only [baseline_loop, hm, he] at h ⊢
        -- the scan from A ended here, at a write holding a u128
        cases hx : value_with_layout.extract_value_no_layout with
        | none => simp [hx] at h
        | some value =>
          cases hu : tw.as_u128 value with
          | error err => simp [hx, hu] at h
          | ok u =>
            cases u with
            | none => simp [hx, hu] at h
            | some x =>
              simp only [hx, hu, Option.bind_eq_bind, Option.bind_some] at h ⊢
              rw [apply_accumulator_eq] at h ⊢
              rw [hsem]
              cases hAx : accumulatorApply A x with
              | none => simp [hAx] at h
              | some r =>
                simp only [hAx, Option.elim, Option.some.injEq, Except.ok.injEq,
                  MVDataOutput.Resolved.injEq] at h
                simp [h]
      | Delta δ sh =>
        simp only [baseline_loop, hm, he] at h ⊢
        have hδ := hwf b e δ sh hm he
        refine ih (accumulatorWF_merge hA hδ) (accumulatorWF_merge hB hδ) (fun x => ?_) h
        rw [accumulatorApply_merge hB hδ, accumulatorApply_merge hA hδ, Option.bind_assoc]
        simp only [hsem]

-- The accumulator after a delta: the delta itself at the first one, else merged under.
def nextAccumulator (accumulator : Option (Except Unit DeltaOp)) (δ : DeltaOp) :
    Except Unit DeltaOp :=
  match accumulator with
  | none => .ok δ
  | some accumulator => merge_accumulator accumulator δ

theorem accumulatorWF_next {acc : Option (Except Unit DeltaOp)} {δ : DeltaOp}
    (hacc : ∀ A, acc = some A → AccumulatorWF M A) (hδ : δ.WellFormed ∧ δ.max_value = M) :
    ∀ A, some (nextAccumulator acc δ) = some A → AccumulatorWF M A := by
  rintro A ⟨⟩
  cases acc with
  | none => exact accumulatorWF_ok hδ
  | some A => exact accumulatorWF_merge (hacc A rfl) hδ

section Steps

variable {b : ℕ} {acc : Option (Except Unit DeltaOp)}

@[simp]
theorem baseline_loop_absent (hm : m b = none) :
    baseline_loop tw m (b + 1) acc = baseline_loop tw m b acc := by
  simp [baseline_loop, hm]

@[simp]
theorem read_loop_absent (hm : m b = none) :
    VersionedValue.read_loop tw m (b + 1) acc = VersionedValue.read_loop tw m b acc := by
  simp [VersionedValue.read_loop, hm]

theorem baseline_loop_delta {e : Entry V L} {δ : DeltaOp} {sh : Option ℕ} (hm : m b = some e)
    (he : e.value = .Delta δ sh) :
    baseline_loop tw m (b + 1) acc = baseline_loop tw m b (some (nextAccumulator acc δ)) := by
  cases acc <;> simp [baseline_loop, hm, he, nextAccumulator]

theorem read_loop_delta {e : Entry V L} {δ : DeltaOp} (hm : m b = some e)
    (hest : e.is_estimate = false) (he : e.value = .Delta δ none) :
    VersionedValue.read_loop tw m (b + 1) acc =
      VersionedValue.read_loop tw m b (some (nextAccumulator acc δ)) := by
  cases acc <;> simp [VersionedValue.read_loop, hm, hest, he, nextAccumulator]

-- At a write the read loop and the baseline stop alike.
theorem read_loop_fst_write {e : Entry V L} {incarnation : ℕ}
    {value_with_layout : ValueWithLayout V L} {deps : RegisteredReadDependencies}
    (hm : m b = some e) (hest : e.is_estimate = false)
    (he : e.value = .ResourceWrite incarnation value_with_layout deps) :
    (VersionedValue.read_loop tw m (b + 1) acc).map Prod.fst = baseline_loop tw m (b + 1) acc := by
  simp only [VersionedValue.read_loop, baseline_loop, hm, hest, he, Bool.false_eq_true, if_false]
  cases acc with
  | none => rfl
  | some A =>
    simp only [Option.bind_eq_bind]
    cases value_with_layout.extract_value_no_layout with
    | none => rfl
    | some value =>
      simp only [Option.bind_some]
      cases tw.as_u128 value with
      | error err => rfl
      | ok u => cases u <;> rfl

end Steps

-- Under the invariant the read loop, shortcuts and all, returns what the baseline returns.
theorem read_loop_fst (hinv : ReadInvariant tw M m) {b : ℕ} {acc : Option (Except Unit DeltaOp)}
    (hacc : ∀ A, acc = some A → AccumulatorWF M A) :
    (VersionedValue.read_loop tw m b acc).map Prod.fst = baseline_loop tw m b acc := by
  induction b generalizing acc with
  | zero => cases acc with
    | none => rfl
    | some A => cases A <;> rfl
  | succ b ih =>
    cases hm : m b with
    | none => simpa [hm] using ih hacc
    | some e =>
      have hest := hinv.no_estimates b e hm
      cases he : e.value with
      | ResourceWrite incarnation value_with_layout deps => exact read_loop_fst_write hm hest he
      | Delta δ sh =>
        have hδ := hinv.deltas_well_formed b e δ sh hm he
        cases sh with
        | none =>
          rw [read_loop_delta hm hest he, baseline_loop_delta hm he]
          exact ih (accumulatorWF_next hacc hδ)
        | some s =>
          have hs := hinv.shortcuts_sound b e δ s hm he
          rw [baseline_loop_delta hm he]
          simp only [VersionedValue.read_loop, hm, hest, he, Bool.false_eq_true, if_false]
          cases acc with
          | none => exact hs.symm
          | some A =>
            -- the shortcut is the baseline under this delta; the accumulator then applies to it
            have hcomp := baseline_loop_compose (g := accumulatorApply A) hinv.deltas_well_formed
              (accumulatorWF_ok hδ) (accumulatorWF_merge (hacc A rfl) hδ)
              (fun x => accumulatorApply_merge (hacc A rfl) hδ x) hs
            rw [nextAccumulator, hcomp, Option.map_some, apply_accumulator_eq]

section Update

variable {k : ℕ}

-- A change at or above the bound is not seen by a scan below it.
theorem baseline_loop_update_of_le {b : ℕ} (hb : b ≤ k) (x : Option (Entry V L))
    {acc : Option (Except Unit DeltaOp)} :
    baseline_loop tw (Function.update m k x) b acc = baseline_loop tw m b acc := by
  induction b generalizing acc with
  | zero => rfl
  | succ b ih =>
    have hne : b ≠ k := by omega
    simp only [baseline_loop, Function.update_of_ne hne, ih (by omega)]

-- The baseline does not read the shortcut of a delta.
theorem baseline_loop_update_shortcut {e : Entry V L} {δ : DeltaOp} {sh sh' : Option ℕ}
    (hm : m k = some e) (he : e.value = .Delta δ sh) {b : ℕ} {acc : Option (Except Unit DeltaOp)} :
    baseline_loop tw (Function.update m k (some { e with value := .Delta δ sh' })) b acc =
      baseline_loop tw m b acc := by
  induction b generalizing acc with
  | zero => rfl
  | succ b ih =>
    by_cases hbk : b = k
    · subst hbk
      rw [baseline_loop_delta (Function.update_self _ _ _) rfl, baseline_loop_delta hm he, ih]
    · simp only [baseline_loop, Function.update_of_ne hbk, ih]

end Update

theorem record_delta_shortcut_eq {e e' : Entry V L} {value : ℕ}
    (h : e.record_delta_shortcut value = some e') :
    ∃ δ sh, e.value = .Delta δ sh ∧ e' = { e with value := .Delta δ (some value) } := by
  unfold Entry.record_delta_shortcut at h
  split at h
  · rename_i δ sh he
    split_ifs at h
    cases h
    exact ⟨δ, sh, he, rfl⟩
  · cases h

-- Recording the value a read resolves to at the delta it starts from keeps the invariant.
theorem ReadInvariant.record_shortcut (hinv : ReadInvariant tw M m) {k value : ℕ}
    {e e' : Entry V L} (hm : m k = some e)
    (hread : (VersionedValue.read_loop tw m (k + 1) none).map Prod.fst =
      some (.ok (.Resolved value)))
    (hrec : e.record_delta_shortcut value = some e') :
    ReadInvariant tw M (Function.update m k (some e')) := by
  obtain ⟨δ, sh, he, rfl⟩ := record_delta_shortcut_eq hrec
  have hδ := hinv.deltas_well_formed k e δ sh hm he
  have hbase : baseline_loop tw m k (some (.ok δ)) = some (.ok (.Resolved value)) := by
    rw [← hread, read_loop_fst hinv (by simp), baseline_loop_delta hm he]
    rfl
  refine ⟨fun idx e'' h => ?_, fun idx e'' δ' s h h' => ?_, fun idx e'' δ' s h h' => ?_⟩
  · by_cases hidx : idx = k
    · subst hidx
      simp only [Function.update_self, Option.some.injEq] at h
      subst h
      exact hinv.no_estimates idx e hm
    · rw [Function.update_of_ne hidx] at h
      exact hinv.no_estimates idx e'' h
  · by_cases hidx : idx = k
    · subst hidx
      simp only [Function.update_self, Option.some.injEq] at h
      subst h
      cases h'
      exact hδ
    · rw [Function.update_of_ne hidx] at h
      exact hinv.deltas_well_formed idx e'' δ' s h h'
  · rw [baseline_loop_update_shortcut hm he]
    by_cases hidx : idx = k
    · subst hidx
      simp only [Function.update_self, Option.some.injEq] at h
      subst h
      cases h'
      exact hbase
    · rw [Function.update_of_ne hidx] at h
      exact hinv.shortcuts_sound idx e'' δ' s h h'

-- No materialized delta sits above bound.
def ShortcutsAtMost (m : ℕ → Option (Entry V L)) (bound : ℕ) : Prop :=
  ∀ idx e δ s, m idx = some e → e.value = .Delta δ (some s) → idx ≤ bound

-- An entry as a transaction's output writes it: no estimate, and a delta of the limit with no
-- shortcut yet.
def FreshEntry (M : ℕ) (e : Entry V L) : Prop :=
  e.is_estimate = false ∧ ∀ δ s, e.value = .Delta δ s → s = none ∧ δ.WellFormed ∧ δ.max_value = M

-- A fresh entry, or none, set where no materialized delta lies above keeps the invariant.
theorem ReadInvariant.update_of_shortcutsAtMost (hinv : ReadInvariant tw M m) {k : ℕ}
    (hk : ShortcutsAtMost m k) {x : Option (Entry V L)} (hx : ∀ e, x = some e → FreshEntry M e) :
    ReadInvariant tw M (Function.update m k x) := by
  refine ⟨fun idx e h => ?_, fun idx e δ s h h' => ?_, fun idx e δ s h h' => ?_⟩
  · by_cases hidx : idx = k
    · subst hidx
      rw [Function.update_self] at h
      exact (hx e h).1
    · rw [Function.update_of_ne hidx] at h
      exact hinv.no_estimates idx e h
  · by_cases hidx : idx = k
    · subst hidx
      rw [Function.update_self] at h
      exact ((hx e h).2 δ s h').2
    · rw [Function.update_of_ne hidx] at h
      exact hinv.deltas_well_formed idx e δ s h h'
  · by_cases hidx : idx = k
    · subst hidx
      rw [Function.update_self] at h
      cases ((hx e h).2 δ (some s) h').1
    · rw [Function.update_of_ne hidx] at h
      have hle := hk idx e δ s h h'
      rw [baseline_loop_update_of_le hle]
      exact hinv.shortcuts_sound idx e δ s h h'

end Invariant

section Data

variable {K V L T : Type} [DecidableEq K] {tw : TransactionWrite V T} {M : ℕ}

theorem VersionedValue.read_none (v : VersionedValue V L) (i : ℕ) :
    v.read tw i none =
      (VersionedValue.read_loop tw v.versioned_map (i + 1) none).map fun p => (v, p.1) := by
  unfold VersionedValue.read ShiftedTxnIndex.new
  cases VersionedValue.read_loop tw v.versioned_map (i + 1) none with
  | none => rfl
  | some p => rfl

omit [DecidableEq K] in
theorem fetch_data_no_record_of_read_loop {d : VersionedData K V L}
    (h : ∀ key v b, d.values key = some v →
      (VersionedValue.read_loop tw v.versioned_map b none).map Prod.fst =
        baseline_loop tw v.versioned_map b none)
    (key : K) (i : ℕ) : d.fetch_data_no_record tw key i = d.baseline tw key i := by
  unfold VersionedData.fetch_data_no_record VersionedData.baseline
  cases hv : d.values key with
  | none => rfl
  | some v =>
    dsimp only
    rw [VersionedValue.read_none, Option.map_map]
    exact h key v _ hv

variable (tw) in
-- The read invariant at every key.
def DataInvariant (M : ℕ) (d : VersionedData K V L) : Prop :=
  ∀ key v, d.values key = some v → ReadInvariant tw M v.versioned_map

omit [DecidableEq K] in
theorem DataInvariant.fetch_data_no_record {d : VersionedData K V L} (hd : DataInvariant tw M d)
    (key : K) (i : ℕ) : d.fetch_data_no_record tw key i = d.baseline tw key i :=
  fetch_data_no_record_of_read_loop
    (fun key v _ hv => read_loop_fst (hd key v hv) (by simp)) key i

theorem DataInvariant.set_value {d : VersionedData K V L} (hd : DataInvariant tw M d) {key : K}
    {v : VersionedValue V L} (hv : ReadInvariant tw M v.versioned_map) :
    DataInvariant tw M (d.set_value key v) := by
  intro key' v' h
  by_cases hk : key' = key
  · subst hk
    simp only [VersionedData.set_value, Function.update_self, Option.some.injEq] at h
    exact h ▸ hv
  · simp only [VersionedData.set_value, Function.update_of_ne hk] at h
    exact hd key' v' h

omit [DecidableEq K] in
theorem DataInvariant.entry_or_default {d : VersionedData K V L} (hd : DataInvariant tw M d)
    (key : K) : ReadInvariant tw M (d.entry_or_default key).versioned_map := by
  unfold VersionedData.entry_or_default
  cases hv : d.values key with
  | none => exact ⟨nofun, nofun, nofun⟩
  | some v => exact hd key v hv

-- A fresh entry, or a removal, where no materialized delta lies above it.
theorem DataInvariant.update {d : VersionedData K V L} (hd : DataInvariant tw M d) {key : K}
    {k : ℕ} (hk : ShortcutsAtMost (d.entry_or_default key).versioned_map k)
    {x : Option (Entry V L)} (hx : ∀ e, x = some e → FreshEntry M e) :
    DataInvariant tw M
      (d.set_value key ⟨Function.update (d.entry_or_default key).versioned_map k x⟩) :=
  hd.set_value ((hd.entry_or_default key).update_of_shortcutsAtMost hk hx)

theorem DataInvariant.materialize_delta {d d' : VersionedData K V L} (hd : DataInvariant tw M d)
    {key : K} {txn_idx : ℕ} {r : Except DeltaOp ℕ}
    (h : d.materialize_delta tw key txn_idx = some (d', r)) : DataInvariant tw M d' := by
  simp only [VersionedData.materialize_delta, Option.bind_eq_bind, Option.bind_eq_some_iff] at h
  obtain ⟨v, hv, ⟨v₁, result⟩, hread, h⟩ := h
  rw [VersionedValue.read_none, Option.map_eq_some_iff] at hread
  obtain ⟨⟨result', read_at⟩, hloop, hres⟩ := hread
  simp only [Prod.mk.injEq] at hres
  obtain ⟨rfl, rfl⟩ := hres
  split at h
  · rename_i value hvalue
    simp only [Option.bind_eq_some_iff, Option.pure_def, Option.some.injEq, Prod.mk.injEq] at h
    obtain ⟨e, he, e', hrec, rfl, -⟩ := h
    have hloop' : (VersionedValue.read_loop tw v.versioned_map (ShiftedTxnIndex.new txn_idx + 1)
        none).map Prod.fst = some (.ok (.Resolved value)) := by
      simp only [ShiftedTxnIndex.new]
      rw [hloop]
      exact congrArg some hvalue
    exact hd.set_value ((hd key v hv).record_shortcut he hloop' hrec)
  · simp only [Option.pure_def, Option.some.injEq, Prod.mk.injEq] at h
    exact h.1 ▸ hd
  · cases h

variable (tw) in
-- The states reached from versions with no estimate and no materialized delta, by deltas of one
-- limit, writes and removals with no materialized delta above them, and materializations.
inductive Reachable (M : ℕ) : VersionedData K V L → Prop where
  | init {d : VersionedData K V L}
      (hinit : ∀ key v, d.values key = some v → ∀ idx e, v.versioned_map idx = some e →
        FreshEntry M e) : Reachable M d
  | add_delta {d : VersionedData K V L} {key : K} {txn_idx : ℕ} {δ : DeltaOp} :
      Reachable M d → δ.WellFormed → δ.max_value = M →
      ShortcutsAtMost (d.entry_or_default key).versioned_map (ShiftedTxnIndex.new txn_idx) →
      Reachable M (d.add_delta key txn_idx δ)
  | write {d d' : VersionedData K V L} {key : K} {txn_idx incarnation : ℕ} {data : V}
      {maybe_layout : Option L} : Reachable M d →
      ShortcutsAtMost (d.entry_or_default key).versioned_map (ShiftedTxnIndex.new txn_idx) →
      d.write key txn_idx incarnation data maybe_layout = some d' → Reachable M d'
  | remove {d d' : VersionedData K V L} {key : K} {txn_idx : ℕ} : Reachable M d →
      ShortcutsAtMost (d.entry_or_default key).versioned_map (ShiftedTxnIndex.new txn_idx) →
      d.remove key txn_idx = some d' → Reachable M d'
  | materialize_delta {d d' : VersionedData K V L} {key : K} {txn_idx : ℕ} {r : Except DeltaOp ℕ} :
      Reachable M d → d.materialize_delta tw key txn_idx = some (d', r) → Reachable M d'

end Data

section Claim

variable {K V L T : Type} [DecidableEq K] {tw : TransactionWrite V T}

end Claim

end Zapatos.MVHashMap

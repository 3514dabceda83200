import Zapatos.Aggregator.DeltaMath

namespace Zapatos.Aggregator

open DeltaHistory BoundedMath SignedU128

structure DeltaOp where
  history : DeltaHistory
  max_value : ℕ
  update : SignedU128
deriving DecidableEq, Repr

structure DeltaWithMax where
  update : SignedU128
  max_value : ℕ
deriving DecidableEq, Repr

namespace DeltaWithMax

def new (update : SignedU128) (max_value : ℕ) : DeltaWithMax := ⟨update, max_value⟩

def get_update (d : DeltaWithMax) : SignedU128 := d.update

def apply_to (d : DeltaWithMax) (base : ℕ) : Except DelayedFieldsSpeculativeError ℕ :=
  let math := BoundedMath.new d.max_value
  match d.update with
  | .Positive value => (math.unsigned_add base value).mapError fun _ =>
    .DeltaApplication base d.max_value d.update .Overflow
  | .Negative value => (math.unsigned_subtract base value).mapError fun _ =>
    .DeltaApplication base d.max_value d.update .Underflow

def create_merged_delta (prev_delta next_delta : DeltaWithMax) :
    Except (PanicOr DelayedFieldsSpeculativeError) DeltaWithMax := do
  if prev_delta.max_value ≠ next_delta.max_value then
    throw (code_invariant_error "Cannot merge deltas with different limits").into
  let new_delta ← ((BoundedMath.new prev_delta.max_value).signed_add prev_delta.update
    next_delta.update).mapError fun _ =>
      .Or (.DeltaMerge prev_delta.update next_delta.update prev_delta.max_value)
  pure (new new_delta prev_delta.max_value)

def into_op_no_additional_history (d : DeltaWithMax) : DeltaOp :=
  ⟨DeltaHistory.new.record_success d.update, d.max_value, d.update⟩

end DeltaWithMax

namespace DeltaOp

def new (update : SignedU128) (max_value : ℕ) (history : DeltaHistory) : DeltaOp :=
  ⟨history, max_value, update⟩

def get_update (d : DeltaOp) : SignedU128 := d.update

def apply_to (d : DeltaOp) (base : ℕ) : Except (PanicOr DelayedFieldsSpeculativeError) ℕ :=
  merge_data_and_delta base d.update d.history d.max_value

def create_merged_delta (prev_delta next_delta : DeltaOp) :
    Except (PanicOr DelayedFieldsSpeculativeError) DeltaOp := do
  if prev_delta.max_value ≠ next_delta.max_value then
    throw (code_invariant_error "Cannot merge deltas with different limits").into
  let (new_update, new_history) ← merge_two_deltas prev_delta.update prev_delta.history
    next_delta.update next_delta.history next_delta.max_value
  pure (new new_update next_delta.max_value new_history)

-- The in-place merges of the source return the new value of self; on an error self is kept.
def merge_with_previous_delta (self previous_delta : DeltaOp) :
    Except (PanicOr DelayedFieldsSpeculativeError) DeltaOp :=
  create_merged_delta previous_delta self

def merge_with_next_delta (self next_delta : DeltaOp) :
    Except (PanicOr DelayedFieldsSpeculativeError) DeltaOp :=
  create_merged_delta self next_delta

-- A delta op whose history covers its own update and records bounds within max_value that do
-- not contradict each other.
structure WellFormed (d : DeltaOp) : Prop where
  covers_positive : ∀ v, d.update = .Positive v → v ≤ d.history.max_achieved_positive_delta
  covers_negative : ∀ v, d.update = .Negative v → v ≤ d.history.min_achieved_negative_delta
  bounded : d.history.Bounded d.max_value
  overflow_gt : ∀ o ∈ d.history.min_overflow_positive_delta,
    d.history.max_achieved_positive_delta < o
  underflow_gt : ∀ u ∈ d.history.max_underflow_negative_delta,
    d.history.min_achieved_negative_delta < u

variable {d p n m : DeltaOp} {b v : ℕ}

theorem WellFormed.covers (hd : d.WellFormed) :
    -(d.history.min_achieved_negative_delta : ℤ) ≤ d.update.toInt ∧
      d.update.toInt ≤ d.history.max_achieved_positive_delta := by
  cases hu : d.update with
  | Positive w =>
    have := hd.covers_positive w hu
    simp only [toInt_positive]
    omega
  | Negative w =>
    have := hd.covers_negative w hu
    simp only [toInt_negative]
    omega

theorem WellFormed.of_covers {d : DeltaOp}
    (hc : -(d.history.min_achieved_negative_delta : ℤ) ≤ d.update.toInt ∧
      d.update.toInt ≤ d.history.max_achieved_positive_delta)
    (hb : d.history.Bounded d.max_value)
    (ho : ∀ o ∈ d.history.min_overflow_positive_delta, d.history.max_achieved_positive_delta < o)
    (hu : ∀ u ∈ d.history.max_underflow_negative_delta,
      d.history.min_achieved_negative_delta < u) : d.WellFormed := by
  refine ⟨fun w hw => ?_, fun w hw => ?_, hb, ho, hu⟩
  · rw [hw, toInt_positive] at hc
    omega
  · rw [hw, toInt_negative] at hc
    omega

theorem apply_to_eq_ok :
    d.apply_to b = .ok v ↔
      d.history.Admits d.max_value b ∧ 0 ≤ (b : ℤ) + d.update.toInt ∧
        (b : ℤ) + d.update.toInt ≤ d.max_value ∧ (v : ℤ) = b + d.update.toInt :=
  merge_data_and_delta_eq_ok

theorem create_merged_delta_inv (h : create_merged_delta p n = .ok m) :
    p.max_value = n.max_value ∧
      n.history.offset_and_merge_history p.update p.history n.max_value = .ok m.history ∧
      (BoundedMath.new n.max_value).signed_add p.update n.update = .ok m.update ∧
      m.max_value = n.max_value := by
  unfold create_merged_delta at h
  by_cases hmax : p.max_value = n.max_value
  · simp only [hmax, ne_eq, not_true_eq_false, if_false] at h
    have ⟨r, hr, h⟩ := Except.bind_eq_ok h
    cases h
    have ⟨hh, hs⟩ := merge_two_deltas_inv hr
    exact ⟨hmax, hh, hs, rfl⟩
  · simp [hmax] at h

-- The merged delta never overflows its sum: the merged history already bounds it.
theorem signed_add_ok_of_merge (hp : p.WellFormed) (hn : n.WellFormed)
    (hM : p.max_value = n.max_value)
    (h : n.history.offset_and_merge_history p.update p.history n.max_value = .ok hm) :
    ∃ s, (BoundedMath.new n.max_value).signed_add p.update n.update = .ok s := by
  obtain ⟨-, -, ma, mn, -, -, hma, hmn, -⟩ := offset_and_merge_history_inv h
  have hA := (offset_and_merge_max_achieved_eq_ok hn.bounded.max_achieved_le).mp hma
  have hN := (offset_and_merge_max_achieved_eq_ok hn.bounded.min_achieved_le).mp hmn
  have hpc := hp.covers
  have hnc := hn.covers
  have hpb := hp.bounded
  rw [hM] at hpb
  have := hpb.max_achieved_le
  have := hpb.min_achieved_le
  simp only [new_max_value, toInt_minus] at hA hN
  apply signed_add_ok <;> simp only [new_max_value] <;> omega

theorem create_merged_delta_ne_panic (hp : p.WellFormed) (hn : n.WellFormed)
    (hM : p.max_value = n.max_value) (message : String) :
    create_merged_delta p n ≠ .error (.CodeInvariantError message) := by
  unfold create_merged_delta merge_two_deltas
  simp only [hM, ne_eq, not_true_eq_false, if_false]
  cases hh : n.history.offset_and_merge_history p.update p.history n.max_value with
  | error e => simp
  | ok hm =>
    have ⟨s, hs⟩ := signed_add_ok_of_merge hp hn hM hh
    simp [hs, expect_ok]

theorem wellFormed_of_create_merged_delta (hp : p.WellFormed) (hn : n.WellFormed)
    (h : create_merged_delta p n = .ok m) : m.WellFormed := by
  obtain ⟨hM, hh, hs, hmM⟩ := create_merged_delta_inv h
  obtain ⟨mo, mu, ma, mn, -, -, hma, hmn, hov, hun, hm⟩ := offset_and_merge_history_inv hh
  have hA := (offset_and_merge_max_achieved_eq_ok hn.bounded.max_achieved_le).mp hma
  have hN := (offset_and_merge_max_achieved_eq_ok hn.bounded.min_achieved_le).mp hmn
  have hsum := signed_add_toInt hs
  have hnc := hn.covers
  have hpb := hp.bounded
  rw [hM] at hpb
  simp only [new_max_value, toInt_minus] at hA hN
  apply WellFormed.of_covers
  · rw [hm, hsum]
    dsimp only
    omega
  · rw [hmM]
    exact bounded_offset_and_merge_history hn.bounded hpb hh
  · rw [hm]
    exact hov
  · rw [hm]
    exact hun

-- Applying the merged delta is applying the previous delta and then the next one.
theorem apply_to_create_merged_delta (hn : n.history.Bounded n.max_value)
    (h : create_merged_delta p n = .ok m) (b v : ℕ) :
    m.apply_to b = .ok v ↔ ∃ v1, p.apply_to b = .ok v1 ∧ n.apply_to v1 = .ok v := by
  obtain ⟨hM, hh, hs, hmM⟩ := create_merged_delta_inv h
  have hsum := signed_add_toInt hs
  have hadm := admits_offset_and_merge_history (b := b) hn hh
  simp only [apply_to_eq_ok, hmM, hsum, hadm, hM]
  constructor
  · rintro ⟨⟨hpa, v1, hv1, hv1M, hna⟩, h0, hMv, hv⟩
    exact ⟨v1, ⟨hpa, by omega, by omega, hv1⟩, hna, by omega, by omega, by omega⟩
  · rintro ⟨v1, ⟨hpa, h0, hM1, hv1⟩, hna, h0', hM', hv⟩
    exact ⟨⟨hpa, v1, hv1, by omega, hna⟩, by omega, by omega, by omega⟩

theorem apply_to_create_merged_delta_error (hn : n.history.Bounded n.max_value)
    (h : create_merged_delta p n = .ok m) (b : ℕ) :
    (∃ e, m.apply_to b = .error e) ↔ ∃ e, (p.apply_to b >>= n.apply_to) = .error e := by
  rw [Except.exists_error_iff, Except.exists_error_iff]
  apply forall_congr'
  intro v
  rw [ne_eq, ne_eq, apply_to_create_merged_delta hn h, Except.bind_eq_ok_iff]

-- Merging two well-formed delta ops with one limit never panics, and what it returns is a
-- well-formed delta op that succeeds on a base exactly when the two applied in turn do.
theorem create_merged_delta_sound_complete {M : ℕ} (hpM : p.max_value = M)
    (hnM : n.max_value = M) (hp : p.WellFormed) (hn : n.WellFormed) :
    (∀ message, create_merged_delta p n ≠ .error (.CodeInvariantError message)) ∧
      ∀ m, create_merged_delta p n = .ok m →
        m.WellFormed ∧ m.max_value = M ∧
        (∀ b v, m.apply_to b = .ok v ↔ ∃ v1, p.apply_to b = .ok v1 ∧ n.apply_to v1 = .ok v) ∧
        ∀ b, (∃ e, m.apply_to b = .error e) ↔ ∃ e, (p.apply_to b >>= n.apply_to) = .error e := by
  have hM : p.max_value = n.max_value := hpM.trans hnM.symm
  refine ⟨create_merged_delta_ne_panic hp hn hM, fun m h => ?_⟩
  have hmM := (create_merged_delta_inv h).2.2.2
  exact ⟨wellFormed_of_create_merged_delta hp hn h, hmM.trans hnM,
    apply_to_create_merged_delta hn.bounded h, apply_to_create_merged_delta_error hn.bounded h⟩

-- A merge of two well-formed delta ops with one limit fails only where no base value takes the
-- previous delta and then the next one.
theorem create_merged_delta_error_complete {M : ℕ} (hpM : p.max_value = M) (hnM : n.max_value = M)
    (hp : p.WellFormed) (hn : n.WellFormed) {e : PanicOr DelayedFieldsSpeculativeError}
    (h : create_merged_delta p n = .error e) {v1 : ℕ} (hv1 : p.apply_to b = .ok v1) :
    ∀ v, n.apply_to v1 ≠ .ok v := by
  intro v hv
  have hM : p.max_value = n.max_value := hpM.trans hnM.symm
  obtain ⟨hpa, -, -, hb1⟩ := apply_to_eq_ok.mp hv1
  obtain ⟨hna, -, -, -⟩ := apply_to_eq_ok.mp hv
  rw [hM] at hpa
  obtain ⟨hm, hhm⟩ := offset_and_merge_history_ok_of_admits hn.bounded hpa hb1 hna
  obtain ⟨s, hs⟩ := signed_add_ok_of_merge hp hn hM hhm
  simp [create_merged_delta, merge_two_deltas, hM, hhm, hs, expect_ok] at h

theorem create_merged_delta_sound_complete_plus_minus :
    (∀ message, create_merged_delta ⟨⟨3, 0, none, none⟩, 10, .Positive 3⟩
        ⟨⟨0, 2, some 9, none⟩, 10, .Negative 2⟩ ≠ .error (.CodeInvariantError message)) ∧
      ∀ m, create_merged_delta ⟨⟨3, 0, none, none⟩, 10, .Positive 3⟩
          ⟨⟨0, 2, some 9, none⟩, 10, .Negative 2⟩ = .ok m →
        m.WellFormed ∧ m.max_value = 10 ∧
        (∀ b v, m.apply_to b = .ok v ↔ ∃ v1,
          DeltaOp.apply_to ⟨⟨3, 0, none, none⟩, 10, .Positive 3⟩ b = .ok v1 ∧
          DeltaOp.apply_to ⟨⟨0, 2, some 9, none⟩, 10, .Negative 2⟩ v1 = .ok v) ∧
        ∀ b, (∃ e, m.apply_to b = .error e) ↔
          ∃ e, (DeltaOp.apply_to ⟨⟨3, 0, none, none⟩, 10, .Positive 3⟩ b >>=
            DeltaOp.apply_to ⟨⟨0, 2, some 9, none⟩, 10, .Negative 2⟩) = .error e :=
  create_merged_delta_sound_complete rfl rfl
    ⟨fun _ h => (by cases h; decide), fun _ h => (by cases h),
      ⟨(by decide), (by decide), (by simp), (by simp)⟩, (by simp), (by simp)⟩
    ⟨fun _ h => (by cases h), fun _ h => (by cases h; decide),
      ⟨(by decide), (by decide), (by simp), (by simp)⟩, (by simp), (by simp)⟩

end DeltaOp

namespace DeltaWithMax

theorem create_merged_delta_new {u δ : SignedU128} {M : ℕ} (hlo : -(M : ℤ) ≤ u.toInt + δ.toInt)
    (hhi : u.toInt + δ.toInt ≤ M) :
    ∃ s, create_merged_delta ⟨u, M⟩ (new δ M) = .ok ⟨s, M⟩ ∧ s.toInt = u.toInt + δ.toInt := by
  obtain ⟨s, hs⟩ : ∃ s, (BoundedMath.new M).signed_add u δ = .ok s := signed_add_ok hlo hhi
  exact ⟨s, by simp [create_merged_delta, new, hs], signed_add_toInt hs⟩

end DeltaWithMax

end Zapatos.Aggregator

import Zapatos.Aggregator.BoundedMath

namespace Zapatos.Aggregator

inductive DeltaApplicationFailureReason where
  | Overflow
  | Underflow
  | ExpectedOverflow
  | ExpectedUnderflow
deriving DecidableEq, Repr

inductive DeltaHistoryMergeOffsetFailureReason where
  | AchievedExceedsBounds
  | FailureNotExceedingBoundsAnyMore
deriving DecidableEq, Repr

inductive DelayedFieldsSpeculativeError where
  | DeltaApplication (base_value max_value : ℕ) (delta : SignedU128)
      (reason : DeltaApplicationFailureReason)
  | DeltaMerge (base_delta delta : SignedU128) (max_value : ℕ)
  | DeltaHistoryMergeOffset (target : ℕ) (delta : SignedU128) (max_value : ℕ)
      (reason : DeltaHistoryMergeOffsetFailureReason)
  | DeltaHistoryMergeAchievedAndFailureOverlap (achieved overflow : SignedU128)
  | InconsistentRead
deriving DecidableEq, Repr

structure DeltaHistory where
  max_achieved_positive_delta : ℕ
  min_achieved_negative_delta : ℕ
  min_overflow_positive_delta : Option ℕ
  max_underflow_negative_delta : Option ℕ
deriving DecidableEq, Repr

namespace DeltaHistory

open SignedU128 BoundedMath

def new : DeltaHistory := ⟨0, 0, none, none⟩

def record_success (h : DeltaHistory) : SignedU128 → DeltaHistory
  | .Positive value =>
    { h with max_achieved_positive_delta := max h.max_achieved_positive_delta value }
  | .Negative value =>
    { h with min_achieved_negative_delta := max h.min_achieved_negative_delta value }

def record_failure (field : Option ℕ) (delta : ℕ) : Option ℕ :=
  field.elim (some delta) fun m => some (min m delta)

def record_overflow (h : DeltaHistory) (delta : ℕ) : DeltaHistory :=
  { h with min_overflow_positive_delta := record_failure h.min_overflow_positive_delta delta }

def record_underflow (h : DeltaHistory) (delta : ℕ) : DeltaHistory :=
  { h with max_underflow_negative_delta := record_failure h.max_underflow_negative_delta delta }

def validate_against_base_value (h : DeltaHistory) (base_value max_value : ℕ) :
    Except DelayedFieldsSpeculativeError Unit := do
  let math := BoundedMath.new max_value
  let _ ← (math.unsigned_add base_value h.max_achieved_positive_delta).mapError fun _ =>
    .DeltaApplication base_value max_value (.Positive h.max_achieved_positive_delta) .Overflow
  let _ ← (math.unsigned_subtract base_value h.min_achieved_negative_delta).mapError fun _ =>
    .DeltaApplication base_value max_value (.Negative h.min_achieved_negative_delta) .Underflow
  if let some min_overflow_positive_delta := h.min_overflow_positive_delta then
    if base_value ≤ max_value - min_overflow_positive_delta then
      throw (.DeltaApplication base_value max_value (.Positive min_overflow_positive_delta)
        .ExpectedOverflow)
  if let some max_underflow_negative_delta := h.max_underflow_negative_delta then
    if base_value ≥ max_underflow_negative_delta then
      throw (.DeltaApplication base_value max_value (.Negative max_underflow_negative_delta)
        .ExpectedUnderflow)
  pure ()

-- The match closing offset_and_merge_min_overflow: the smaller of two optional failure bounds.
def merge_failure : Option ℕ → Option ℕ → Option ℕ
  | some a, some b => some (min a b)
  | a, b => a.or b

def offset_and_merge_min_overflow (min_overflow : Option ℕ) (prev_delta : SignedU128)
    (prev_min_overflow : Option ℕ) (math : BoundedMath) :
    Except DelayedFieldsSpeculativeError (Option ℕ) := do
  let adjusted_min_overflow ← min_overflow.elim (.ok none) fun min_overflow =>
    (ok_overflow (math.unsigned_add_delta min_overflow prev_delta)).mapError fun _ =>
      .DeltaHistoryMergeOffset min_overflow prev_delta math.get_max_value
        .FailureNotExceedingBoundsAnyMore
  pure (merge_failure adjusted_min_overflow prev_min_overflow)

def offset_and_merge_max_achieved (max_achieved : ℕ) (prev_delta : SignedU128)
    (prev_max_achieved : ℕ) (math : BoundedMath) : Except DelayedFieldsSpeculativeError ℕ := do
  let adjusted ← (ok_underflow (math.unsigned_add_delta max_achieved prev_delta)).mapError fun _ =>
    .DeltaHistoryMergeOffset max_achieved prev_delta math.get_max_value .AchievedExceedsBounds
  pure (adjusted.elim prev_max_achieved fun value => max prev_max_achieved value)

def offset_and_merge_history (self : DeltaHistory) (prev_delta : SignedU128)
    (prev_history : DeltaHistory) (max_value : ℕ) :
    Except DelayedFieldsSpeculativeError DeltaHistory := do
  let math := BoundedMath.new max_value
  let new_min_overflow ← offset_and_merge_min_overflow self.min_overflow_positive_delta prev_delta
    prev_history.min_overflow_positive_delta math
  -- max_underflow is offset like min_overflow, in the opposite direction.
  let new_max_underflow ← offset_and_merge_min_overflow self.max_underflow_negative_delta
    prev_delta.minus prev_history.max_underflow_negative_delta math
  let new_max_achieved ← offset_and_merge_max_achieved self.max_achieved_positive_delta prev_delta
    prev_history.max_achieved_positive_delta math
  let new_min_achieved ← offset_and_merge_max_achieved self.min_achieved_negative_delta
    prev_delta.minus prev_history.min_achieved_negative_delta math
  if let some v := new_min_overflow then
    if v ≤ new_max_achieved then
      throw (.DeltaHistoryMergeAchievedAndFailureOverlap (.Positive new_max_achieved) (.Positive v))
  if let some v := new_max_underflow then
    if v ≤ new_min_achieved then
      throw (.DeltaHistoryMergeAchievedAndFailureOverlap (.Negative new_min_achieved) (.Negative v))
  pure ⟨new_max_achieved, new_min_achieved, new_min_overflow, new_max_underflow⟩

def stricter_than (self other : DeltaHistory) : Bool :=
  self.max_achieved_positive_delta ≥ other.max_achieved_positive_delta &&
    self.min_achieved_negative_delta ≥ other.min_achieved_negative_delta &&
    other.min_overflow_positive_delta.all (fun other_v =>
      self.min_overflow_positive_delta.any (· ≤ other_v)) &&
    other.max_underflow_negative_delta.all (fun other_v =>
      self.max_underflow_negative_delta.any (· ≤ other_v))

-- What validate_against_base_value accepts: the four bounds the history records.
structure Admits (max_value : ℕ) (h : DeltaHistory) (b : ℕ) : Prop where
  achieved_positive : b + h.max_achieved_positive_delta ≤ max_value
  achieved_negative : h.min_achieved_negative_delta ≤ b
  overflow : ∀ o ∈ h.min_overflow_positive_delta, max_value - o < b
  underflow : ∀ u ∈ h.max_underflow_negative_delta, b < u

structure Bounded (max_value : ℕ) (h : DeltaHistory) : Prop where
  max_achieved_le : h.max_achieved_positive_delta ≤ max_value
  min_achieved_le : h.min_achieved_negative_delta ≤ max_value
  overflow_le : ∀ o ∈ h.min_overflow_positive_delta, o ≤ max_value
  underflow_le : ∀ u ∈ h.max_underflow_negative_delta, u ≤ max_value

theorem admits_iff {M b : ℕ} {h : DeltaHistory} : Admits M h b ↔
    b + h.max_achieved_positive_delta ≤ M ∧ h.min_achieved_negative_delta ≤ b ∧
      (∀ o ∈ h.min_overflow_positive_delta, M - o < b) ∧
      (∀ u ∈ h.max_underflow_negative_delta, b < u) :=
  ⟨fun ⟨a, n, o, u⟩ => ⟨a, n, o, u⟩, fun ⟨a, n, o, u⟩ => ⟨a, n, o, u⟩⟩

theorem validate_against_base_value_eq_ok {h : DeltaHistory} {b M : ℕ} :
    h.validate_against_base_value b M = .ok () ↔ Admits M h b := by
  rw [admits_iff]
  unfold validate_against_base_value
  by_cases hA : b + h.max_achieved_positive_delta ≤ M
  · have hA' : ¬(M < b ∨ M - b < h.max_achieved_positive_delta) := by omega
    by_cases hN : h.min_achieved_negative_delta ≤ b
    · have hN' : ¬b < h.min_achieved_negative_delta := by omega
      rcases h.min_overflow_positive_delta with _ | o <;>
        rcases h.max_underflow_negative_delta with _ | u <;>
        simp only [BoundedMath.unsigned_add, BoundedMath.unsigned_subtract, BoundedMath.new, hA',
          hN', if_false, Except.mapError_ok, Except.ok_bind] <;>
        (try split_ifs) <;> simp <;> omega
    · have hN' : b < h.min_achieved_negative_delta := by omega
      simp [BoundedMath.unsigned_add, BoundedMath.unsigned_subtract, BoundedMath.new, hA', hN, hN']
  · have hA' : M < b ∨ M - b < h.max_achieved_positive_delta := by omega
    simp [BoundedMath.unsigned_add, BoundedMath.new, hA, hA']

theorem le_of_admits {M b : ℕ} {h : DeltaHistory} (ha : Admits M h b) : b ≤ M := by
  have := ha.achieved_positive
  omega

section Offset

variable {math : BoundedMath} {d : SignedU128}

theorem offset_and_merge_max_achieved_eq_ok {x y a : ℕ} (hx : x ≤ math.max_value) :
    offset_and_merge_max_achieved x d y math = .ok a ↔
      (x : ℤ) + d.toInt ≤ math.max_value ∧ (a : ℤ) = max (y : ℤ) (x + d.toInt) := by
  unfold offset_and_merge_max_achieved
  rw [ok_underflow_unsigned_add_delta hx]
  split_ifs with h1 h2 <;> simp <;> omega

theorem offset_and_merge_min_overflow_eq_ok {x y r : Option ℕ}
    (hx : ∀ o ∈ x, o ≤ math.max_value) :
    offset_and_merge_min_overflow x d y math = .ok r ↔
      (∀ o ∈ x, 0 ≤ (o : ℤ) + d.toInt) ∧
        r = merge_failure (x.bind fun o => if (math.max_value : ℤ) < o + d.toInt then none
          else some ((o : ℤ) + d.toInt).toNat) y := by
  unfold offset_and_merge_min_overflow
  cases x with
  | none => simp [eq_comm]
  | some o =>
    simp only [Option.elim, Option.mem_def, Option.some.injEq, forall_eq', Option.bind_some]
    rw [ok_overflow_unsigned_add_delta (hx o rfl)]
    by_cases hneg : (o : ℤ) + d.toInt < 0
    · simp only [hneg, if_true, Except.mapError_error, Except.error_bind, reduceCtorEq,
        false_iff, not_and]
      omega
    · by_cases hover : (math.max_value : ℤ) < o + d.toInt
      · simp only [hneg, hover, if_true, if_false, Except.mapError_ok, Except.ok_bind,
          Except.pure_eq_ok, Except.ok.injEq, eq_comm, iff_and_self]
        omega
      · simp only [hneg, hover, if_false, Except.mapError_ok, Except.ok_bind,
          Except.pure_eq_ok, Except.ok.injEq, eq_comm, iff_and_self]
        omega

end Offset

theorem forall_mem_merge_failure {P : ℕ → Prop} (hP : ∀ a b, a ≤ b → P a → P b)
    (a b : Option ℕ) :
    (∀ z ∈ merge_failure a b, P z) ↔ (∀ z ∈ a, P z) ∧ (∀ z ∈ b, P z) := by
  cases a with
  | none => cases b <;> simp [merge_failure]
  | some a =>
    cases b with
    | none => simp [merge_failure]
    | some b =>
      simp only [merge_failure, Option.mem_def, Option.some.injEq, forall_eq']
      constructor
      · intro h
        exact ⟨hP _ _ (min_le_left a b) h, hP _ _ (min_le_right a b) h⟩
      · rintro ⟨ha, hb⟩
        rcases min_choice a b with h | h <;> rw [h] <;> assumption

theorem offset_and_merge_history_inv {n p m : DeltaHistory} {dp : SignedU128} {M : ℕ}
    (h : n.offset_and_merge_history dp p M = .ok m) :
    ∃ mo mu ma mn,
      offset_and_merge_min_overflow n.min_overflow_positive_delta dp
        p.min_overflow_positive_delta (BoundedMath.new M) = .ok mo ∧
      offset_and_merge_min_overflow n.max_underflow_negative_delta dp.minus
        p.max_underflow_negative_delta (BoundedMath.new M) = .ok mu ∧
      offset_and_merge_max_achieved n.max_achieved_positive_delta dp
        p.max_achieved_positive_delta (BoundedMath.new M) = .ok ma ∧
      offset_and_merge_max_achieved n.min_achieved_negative_delta dp.minus
        p.min_achieved_negative_delta (BoundedMath.new M) = .ok mn ∧
      (∀ v ∈ mo, ma < v) ∧ (∀ v ∈ mu, mn < v) ∧ m = ⟨ma, mn, mo, mu⟩ := by
  unfold offset_and_merge_history at h
  obtain ⟨mo, hmo, h⟩ := Except.bind_eq_ok h
  obtain ⟨mu, hmu, h⟩ := Except.bind_eq_ok h
  obtain ⟨ma, hma, h⟩ := Except.bind_eq_ok h
  obtain ⟨mn, hmn, h⟩ := Except.bind_eq_ok h
  refine ⟨mo, mu, ma, mn, hmo, hmu, hma, hmn, ?_⟩
  cases mo with
  | none =>
    cases mu with
    | none => simpa [eq_comm] using h
    | some u =>
      by_cases hu : u ≤ mn
      · simp [hu] at h
      · simp only [hu, if_false] at h
        simp only [Option.mem_def, Option.some.injEq, forall_eq']
        refine ⟨by simp, by omega, ?_⟩
        simpa [eq_comm] using h
  | some o =>
    by_cases ho : o ≤ ma
    · simp [ho] at h
    · cases mu with
      | none =>
        simp only [ho, if_false] at h
        refine ⟨by simp; omega, by simp, ?_⟩
        simpa [eq_comm] using h
      | some u =>
        by_cases hu : u ≤ mn
        · simp [ho, hu] at h
        · simp only [ho, hu, if_false] at h
          refine ⟨by simp; omega, by simp; omega, ?_⟩
          simpa [eq_comm] using h

section Merge

variable {M b : ℕ} {dp : SignedU128}

theorem merged_achieved_iff {x y a : ℕ} (hx : x ≤ M)
    (h : offset_and_merge_max_achieved x dp y (BoundedMath.new M) = .ok a) :
    b + a ≤ M ↔ b + y ≤ M ∧ (b : ℤ) + dp.toInt + x ≤ M := by
  have := (offset_and_merge_max_achieved_eq_ok hx).mp h
  dsimp only at this
  omega

theorem merged_min_achieved_iff {x y a : ℕ} (hx : x ≤ M)
    (h : offset_and_merge_max_achieved x dp.minus y (BoundedMath.new M) = .ok a) :
    a ≤ b ↔ y ≤ b ∧ (x : ℤ) ≤ b + dp.toInt := by
  have := (offset_and_merge_max_achieved_eq_ok hx).mp h
  simp only [toInt_minus] at this
  omega

theorem merged_overflow_iff {x y r : Option ℕ} (hx : ∀ o ∈ x, o ≤ M)
    (h : offset_and_merge_min_overflow x dp y (BoundedMath.new M) = .ok r) :
    (∀ z ∈ r, M - z < b) ↔
      (∀ z ∈ y, M - z < b) ∧ ∀ o ∈ x, (M : ℤ) < b + dp.toInt + o := by
  obtain ⟨hnonneg, rfl⟩ := (offset_and_merge_min_overflow_eq_ok hx).mp h
  rw [forall_mem_merge_failure (fun a c hac hlt => by omega), and_comm]
  apply and_congr_right
  intro _
  cases x with
  | none => simp
  | some o =>
    have hoM := hx o rfl
    have ho := hnonneg o rfl
    dsimp only
    simp only [Option.bind_some, Option.mem_def, Option.some.injEq, forall_eq']
    split_ifs with hover
    · simp only [false_implies, implies_true, true_iff]
      omega
    · simp only [Option.some.injEq, forall_eq']
      omega

theorem merged_underflow_iff {x y r : Option ℕ} (hx : ∀ u ∈ x, u ≤ M) (hb : b ≤ M)
    (h : offset_and_merge_min_overflow x dp.minus y (BoundedMath.new M) = .ok r) :
    (∀ z ∈ r, b < z) ↔ (∀ z ∈ y, b < z) ∧ ∀ u ∈ x, (b : ℤ) + dp.toInt < u := by
  obtain ⟨hnonneg, rfl⟩ := (offset_and_merge_min_overflow_eq_ok hx).mp h
  rw [forall_mem_merge_failure (fun a c hac hlt => by omega), and_comm]
  apply and_congr_right
  intro _
  cases x with
  | none => simp
  | some u =>
    have hu := hnonneg u rfl
    dsimp only
    simp only [toInt_minus, Option.bind_some, Option.mem_def, Option.some.injEq, forall_eq']
    simp only [toInt_minus] at hu
    split_ifs with hover
    · simp only [false_implies, implies_true, true_iff]
      omega
    · simp only [Option.some.injEq, forall_eq']
      omega

theorem mem_merge_failure {a c : Option ℕ} {z : ℕ} (h : z ∈ merge_failure a c) :
    z ∈ a ∨ z ∈ c := by
  cases a with
  | none => cases c <;> simp_all [merge_failure]
  | some a =>
    cases c with
    | none => simp_all [merge_failure]
    | some c =>
      simp only [merge_failure, Option.mem_def, Option.some.injEq] at h
      rcases min_choice a c with hm | hm
      · exact .inl (by rw [← h, hm]; rfl)
      · exact .inr (by rw [← h, hm]; rfl)

theorem merged_failure_le {x y r : Option ℕ} {d : SignedU128} (hx : ∀ o ∈ x, o ≤ M)
    (hy : ∀ o ∈ y, o ≤ M) (h : offset_and_merge_min_overflow x d y (BoundedMath.new M) = .ok r) :
    ∀ z ∈ r, z ≤ M := by
  obtain ⟨-, rfl⟩ := (offset_and_merge_min_overflow_eq_ok hx).mp h
  intro z hz
  rcases mem_merge_failure hz with hz | hz
  · cases x with
    | none => cases hz
    | some o =>
      dsimp only at hz
      simp only [Option.bind_some] at hz
      split_ifs at hz with hover
      · cases hz
      · simp only [Option.mem_def, Option.some.injEq] at hz
        omega
  · exact hy z hz

variable {n p m : DeltaHistory}

theorem admits_offset_and_merge_history (hn : n.Bounded M)
    (h : n.offset_and_merge_history dp p M = .ok m) :
    Admits M m b ↔ Admits M p b ∧ ∃ v1 : ℕ, (v1 : ℤ) = b + dp.toInt ∧ v1 ≤ M ∧ Admits M n v1 := by
  obtain ⟨mo, mu, ma, mn, hmo, hmu, hma, hmn, -, -, rfl⟩ := offset_and_merge_history_inv h
  have hA := merged_achieved_iff (b := b) hn.max_achieved_le hma
  have hN := merged_min_achieved_iff (b := b) hn.min_achieved_le hmn
  have hO := merged_overflow_iff (b := b) hn.overflow_le hmo
  constructor
  · intro ⟨ach, neg, ovr, under⟩
    have hbM : b ≤ M := by omega
    have hU := merged_underflow_iff hn.underflow_le hbM hmu
    have ⟨ha1, ha2⟩ := hA.mp ach
    have ⟨hn1, hn2⟩ := hN.mp neg
    have ⟨ho1, ho2⟩ := hO.mp ovr
    have ⟨hu1, hu2⟩ := hU.mp under
    refine ⟨⟨ha1, hn1, ho1, hu1⟩, (b + dp.toInt).toNat, by omega, by omega,
      ⟨by omega, by omega, ?_, ?_⟩⟩
    · intro o ho
      have := ho2 o ho
      have := hn.overflow_le o ho
      omega
    · intro u hu
      have := hu2 u hu
      omega
  · rintro ⟨⟨ach, neg, ovr, under⟩, v1, hv1, hv1M, ⟨ach', neg', ovr', under'⟩⟩
    have hbM : b ≤ M := by omega
    have hU := merged_underflow_iff hn.underflow_le hbM hmu
    refine ⟨hA.mpr ⟨ach, by omega⟩, hN.mpr ⟨neg, by omega⟩, hO.mpr ⟨ovr, ?_⟩, hU.mpr ⟨under, ?_⟩⟩
    · intro o ho
      have := ovr' o ho
      have := hn.overflow_le o ho
      omega
    · intro u hu
      have := under' u hu
      omega

theorem bounded_offset_and_merge_history (hn : n.Bounded M) (hp : p.Bounded M)
    (h : n.offset_and_merge_history dp p M = .ok m) : m.Bounded M := by
  obtain ⟨mo, mu, ma, mn, hmo, hmu, hma, hmn, -, -, rfl⟩ := offset_and_merge_history_inv h
  have hA := (offset_and_merge_max_achieved_eq_ok hn.max_achieved_le).mp hma
  have hN := (offset_and_merge_max_achieved_eq_ok hn.min_achieved_le).mp hmn
  have := hp.max_achieved_le
  have := hp.min_achieved_le
  dsimp only at hA hN
  refine ⟨?_, ?_, merged_failure_le hn.overflow_le hp.overflow_le hmo,
    merged_failure_le hn.underflow_le hp.underflow_le hmu⟩
  · show ma ≤ M
    omega
  · show mn ≤ M
    simp only [toInt_minus] at hN
    omega

-- A base the previous history admits, moved by the previous delta to a value the next history
-- admits, leaves the merge nothing to reject.
theorem offset_and_merge_history_ok_of_admits {v1 : ℕ} (hn : n.Bounded M) (hp : Admits M p b)
    (hv1 : (v1 : ℤ) = b + dp.toInt) (hnv : Admits M n v1) :
    ∃ m, n.offset_and_merge_history dp p M = .ok m := by
  have hbM := le_of_admits hp
  have hv1M := le_of_admits hnv
  obtain ⟨ach, neg, ovr, under⟩ := hp
  obtain ⟨ach', neg', ovr', under'⟩ := hnv
  obtain ⟨mo, hmo⟩ : ∃ mo, offset_and_merge_min_overflow n.min_overflow_positive_delta dp
      p.min_overflow_positive_delta (BoundedMath.new M) = .ok mo := by
    refine ⟨_, (offset_and_merge_min_overflow_eq_ok hn.overflow_le).mpr ⟨fun o ho => ?_, rfl⟩⟩
    have := ovr' o ho
    have := hn.overflow_le o ho
    omega
  obtain ⟨mu, hmu⟩ : ∃ mu, offset_and_merge_min_overflow n.max_underflow_negative_delta dp.minus
      p.max_underflow_negative_delta (BoundedMath.new M) = .ok mu := by
    refine ⟨_, (offset_and_merge_min_overflow_eq_ok hn.underflow_le).mpr ⟨fun u hu => ?_, rfl⟩⟩
    have := under' u hu
    simp only [toInt_minus]
    omega
  obtain ⟨ma, hma⟩ : ∃ ma, offset_and_merge_max_achieved n.max_achieved_positive_delta dp
      p.max_achieved_positive_delta (BoundedMath.new M) = .ok ma :=
    ⟨(max (p.max_achieved_positive_delta : ℤ) (n.max_achieved_positive_delta + dp.toInt)).toNat,
      (offset_and_merge_max_achieved_eq_ok hn.max_achieved_le).mpr ⟨by simp only; omega, by omega⟩⟩
  obtain ⟨mn, hmn⟩ : ∃ mn, offset_and_merge_max_achieved n.min_achieved_negative_delta dp.minus
      p.min_achieved_negative_delta (BoundedMath.new M) = .ok mn :=
    ⟨(max (p.min_achieved_negative_delta : ℤ) (n.min_achieved_negative_delta - dp.toInt)).toNat,
      (offset_and_merge_max_achieved_eq_ok hn.min_achieved_le).mpr
        ⟨by simp only [toInt_minus]; omega, by simp only [toInt_minus]; omega⟩⟩
  -- the merged bounds are those of the two histories, so an achieved value never meets a failure
  have hA := (merged_achieved_iff (b := b) hn.max_achieved_le hma).mpr ⟨ach, by omega⟩
  have hN := (merged_min_achieved_iff (b := b) hn.min_achieved_le hmn).mpr ⟨neg, by omega⟩
  have hO := (merged_overflow_iff (b := b) hn.overflow_le hmo).mpr ⟨ovr, fun o ho => by
    have := ovr' o ho
    have := hn.overflow_le o ho
    omega⟩
  have hU := (merged_underflow_iff hn.underflow_le hbM hmu).mpr ⟨under, fun u hu => by
    have := under' u hu
    omega⟩
  have hmo' : ∀ v ∈ mo, ¬v ≤ ma := fun v hv => by
    have := hO v hv
    omega
  have hmu' : ∀ u ∈ mu, ¬u ≤ mn := fun u hu => by
    have := hU u hu
    omega
  simp only [offset_and_merge_history, hmo, hmu, hma, hmn, Except.ok_bind]
  cases mo with
  | none =>
    cases mu with
    | none => exact ⟨_, rfl⟩
    | some u => exact ⟨_, if_neg (hmu' u rfl)⟩
  | some v =>
    simp only [if_neg (hmo' v rfl)]
    cases mu with
    | none => exact ⟨_, rfl⟩
    | some u => exact ⟨_, if_neg (hmu' u rfl)⟩

end Merge

section Record

variable {M v : ℕ} {h : DeltaHistory}

theorem admits_new : new.Admits M v ↔ v ≤ M := by
  constructor
  · exact le_of_admits
  · intro hv
    exact ⟨by simp [new]; omega, by simp [new], by simp [new], by simp [new]⟩

theorem record_failure_eq (f : Option ℕ) (d : ℕ) :
    record_failure f d = merge_failure f (some d) := by
  cases f <;> rfl

theorem admits_record_success (d : SignedU128) :
    (h.record_success d).Admits M v ↔
      h.Admits M v ∧ 0 ≤ (v : ℤ) + d.toInt ∧ (v : ℤ) + d.toInt ≤ M := by
  cases d with
  | Positive w =>
    constructor
    · intro ⟨hA, hN, hO, hU⟩
      simp only [record_success] at hA
      exact ⟨⟨by omega, hN, hO, hU⟩, by simp only [toInt_positive]; omega, by simp; omega⟩
    · intro ⟨⟨hA, hN, hO, hU⟩, _, hw⟩
      simp only [toInt_positive] at hw
      exact ⟨by simp only [record_success]; omega, hN, hO, hU⟩
  | Negative w =>
    constructor
    · intro ⟨hA, hN, hO, hU⟩
      simp only [record_success] at hN
      exact ⟨⟨hA, by omega, hO, hU⟩, by simp; omega, by simp; omega⟩
    · intro ⟨⟨hA, hN, hO, hU⟩, hw, _⟩
      simp only [toInt_negative] at hw
      exact ⟨hA, by simp only [record_success]; omega, hO, hU⟩

theorem admits_record_overflow (o : ℕ) :
    (h.record_overflow o).Admits M v ↔ h.Admits M v ∧ M - o < v := by
  have hmono : ∀ a c, a ≤ c → M - a < v → M - c < v := fun a c hac hlt => by omega
  constructor
  · intro ⟨hA, hN, hO, hU⟩
    simp only [record_overflow, record_failure_eq, forall_mem_merge_failure hmono] at hO
    exact ⟨⟨hA, hN, hO.1, hU⟩, hO.2 o rfl⟩
  · intro ⟨⟨hA, hN, hO, hU⟩, ho⟩
    refine ⟨hA, hN, ?_, hU⟩
    simp only [record_overflow, record_failure_eq, forall_mem_merge_failure hmono]
    exact ⟨hO, fun z hz => by cases hz; exact ho⟩

theorem admits_record_underflow (u : ℕ) :
    (h.record_underflow u).Admits M v ↔ h.Admits M v ∧ v < u := by
  have hmono : ∀ a c, a ≤ c → v < a → v < c := fun a c hac hlt => by omega
  constructor
  · intro ⟨hA, hN, hO, hU⟩
    simp only [record_underflow, record_failure_eq, forall_mem_merge_failure hmono] at hU
    exact ⟨⟨hA, hN, hO, hU.1⟩, hU.2 u rfl⟩
  · intro ⟨⟨hA, hN, hO, hU⟩, hu⟩
    refine ⟨hA, hN, hO, ?_⟩
    simp only [record_underflow, record_failure_eq, forall_mem_merge_failure hmono]
    exact ⟨hU, fun z hz => by cases hz; exact hu⟩

theorem admits_of_stricter_than {h' : DeltaHistory} (hs : h'.stricter_than h = true)
    (ha : h'.Admits M v) : h.Admits M v := by
  simp only [stricter_than, Bool.and_eq_true, decide_eq_true_eq, Option.all_eq_true,
    Option.any_eq_true] at hs
  obtain ⟨⟨⟨hA, hN⟩, hO⟩, hU⟩ := hs
  refine ⟨by have := ha.achieved_positive; omega, by have := ha.achieved_negative; omega, ?_, ?_⟩
  · intro o ho
    obtain ⟨o', ho', hle⟩ := hO o ho
    have := ha.overflow o' ho'
    omega
  · intro u hu
    obtain ⟨u', hu', hle⟩ := hU u hu
    have := ha.underflow u' hu'
    omega

theorem stricter_than_self : h.stricter_than h = true := by
  cases ho : h.min_overflow_positive_delta <;> cases hu : h.max_underflow_negative_delta <;>
    simp [stricter_than, ho, hu]

theorem stricter_than_record_success (d : SignedU128) :
    (h.record_success d).stricter_than h = true := by
  cases d <;>
  cases ho : h.min_overflow_positive_delta <;> cases hu : h.max_underflow_negative_delta <;>
    simp [stricter_than, record_success, ho, hu]

theorem stricter_than_record_overflow (o : ℕ) : (h.record_overflow o).stricter_than h = true := by
  cases ho : h.min_overflow_positive_delta <;> cases hu : h.max_underflow_negative_delta <;>
    simp [stricter_than, record_overflow, record_failure, ho, hu]

theorem stricter_than_record_underflow (u : ℕ) : (h.record_underflow u).stricter_than h = true := by
  cases ho : h.min_overflow_positive_delta <;> cases hu : h.max_underflow_negative_delta <;>
    simp [stricter_than, record_underflow, record_failure, ho, hu]

end Record

end DeltaHistory

def merge_data_and_delta (prev_value : ℕ) (delta : SignedU128) (history : DeltaHistory)
    (max_value : ℕ) : Except (PanicOr DelayedFieldsSpeculativeError) ℕ := do
  -- First validate the history against the base, then apply the delta.
  (history.validate_against_base_value prev_value max_value).mapError .Or
  (expect_ok ((BoundedMath.new max_value).unsigned_add_delta prev_value delta)).mapError
    PanicError.into

def merge_two_deltas (prev_delta : SignedU128) (prev_history : DeltaHistory)
    (next_delta : SignedU128) (next_history : DeltaHistory) (max_value : ℕ) :
    Except (PanicOr DelayedFieldsSpeculativeError) (SignedU128 × DeltaHistory) := do
  let new_history ← (next_history.offset_and_merge_history prev_delta prev_history
    max_value).mapError .Or
  let new_delta ← (expect_ok ((BoundedMath.new max_value).signed_add prev_delta
    next_delta)).mapError PanicError.into
  pure (new_delta, new_history)

open DeltaHistory BoundedMath

-- Applying a delta with its history to a base: the history's bounds admit the base and the
-- delta keeps it in [0, max_value].
theorem merge_data_and_delta_eq_ok {b v M : ℕ} {d : SignedU128} {h : DeltaHistory} :
    merge_data_and_delta b d h M = .ok v ↔
      h.Admits M b ∧ 0 ≤ (b : ℤ) + d.toInt ∧ (b : ℤ) + d.toInt ≤ M ∧ (v : ℤ) = b + d.toInt := by
  unfold merge_data_and_delta
  cases hv : h.validate_against_base_value b M with
  | error e =>
    have hna : ¬h.Admits M b := fun ha => by
      rw [validate_against_base_value_eq_ok.mpr ha] at hv
      cases hv
    simp [hna]
  | ok u =>
    have ha := validate_against_base_value_eq_ok.mp hv
    have hb : b ≤ (BoundedMath.new M).max_value := le_of_admits ha
    simp only [Except.mapError_ok, Except.ok_bind, ha, true_and]
    cases hr : (BoundedMath.new M).unsigned_add_delta b d with
    | error e =>
      simp only [expect_ok, Except.mapError, reduceCtorEq, false_iff]
      rintro ⟨h0, hM, -⟩
      have hw := (unsigned_add_delta_eq_ok hb).mpr ⟨h0, hM, Int.toNat_of_nonneg h0⟩
      rw [hr] at hw
      cases hw
    | ok w =>
      have := (unsigned_add_delta_eq_ok hb).mp hr
      simp only [new_max_value] at this
      simp only [expect_ok, Except.mapError, Except.ok.injEq]
      omega

theorem merge_two_deltas_inv {dp dn : SignedU128} {hp hn : DeltaHistory} {M : ℕ}
    {r : SignedU128 × DeltaHistory} (h : merge_two_deltas dp hp dn hn M = .ok r) :
    hn.offset_and_merge_history dp hp M = .ok r.2 ∧
      (BoundedMath.new M).signed_add dp dn = .ok r.1 := by
  unfold merge_two_deltas at h
  have ⟨m, hm, h⟩ := Except.bind_eq_ok h
  have ⟨s, hs, h⟩ := Except.bind_eq_ok h
  cases h
  cases hm' : hn.offset_and_merge_history dp hp M with
  | error e => rw [hm'] at hm; cases hm
  | ok m' =>
    rw [hm'] at hm
    cases hs' : (BoundedMath.new M).signed_add dp dn with
    | error e => simp [hs', expect_ok] at hs
    | ok s' =>
      simp only [hs', expect_ok, Except.mapError, Except.ok.injEq] at hs
      cases hm
      exact ⟨rfl, by rw [hs]⟩

end Zapatos.Aggregator

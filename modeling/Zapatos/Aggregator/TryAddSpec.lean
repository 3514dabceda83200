import Zapatos.Aggregator.TryAdd

namespace Zapatos.Aggregator

open DeltaHistory SignedU128 BoundedMath

section Outcome

variable {M v0 : ℕ} {base δ : SignedU128} {h : DeltaHistory}

-- The decision a try_add makes at a value, as a proposition on the integer it would reach.
def Fits (M : ℕ) (z : ℤ) : Prop := 0 ≤ z ∧ z ≤ M

theorem unsigned_add_delta_ok_iff_fits {w : ℕ} (hw : w ≤ M) :
    (∃ r, (BoundedMath.new M).unsigned_add_delta w δ = .ok r) ↔ Fits M (w + δ.toInt) := by
  have hw' : w ≤ (BoundedMath.new M).max_value := hw
  constructor
  · rintro ⟨r, hr⟩
    have := (unsigned_add_delta_eq_ok hw').mp hr
    exact ⟨this.1, this.2.1⟩
  · rintro ⟨h0, hM⟩
    exact ⟨_, (unsigned_add_delta_eq_ok hw').mpr ⟨h0, hM, Int.toNat_of_nonneg h0⟩⟩

-- What one speculative try_add of δ at base leaves behind: its result r, and a history h' that
-- admits exactly the bases admitted by h at which the same try_add also gives r.
structure OutcomeSpec (M v0 : ℕ) (base δ : ℤ) (h h' : DeltaHistory) (r : Bool) : Prop where
  result : r = true ↔ Fits M (v0 + base + δ)
  admits : ∀ v, h'.Admits M v ↔ h.Admits M v ∧ (Fits M (v + base + δ) ↔ r = true)

theorem OutcomeSpec.reject {base δ : ℤ} {h' : DeltaHistory}
    (hn : ¬Fits M (v0 + base + δ))
    (ha : ∀ v, h'.Admits M v ↔ h.Admits M v ∧ ¬Fits M (v + base + δ)) :
    OutcomeSpec M v0 base δ h h' false :=
  ⟨by simpa using hn, fun v => by simpa using ha v⟩

section Reject

variable {v : ℕ} {b x : ℤ}

theorem not_fits_of_lt (h : (M : ℤ) < x + b) : ¬Fits M (v + b + x) := fun hf => by
  have := hf.2
  omega

theorem not_fits_of_lt_neg (hv : v ≤ M) (h : (M : ℤ) < x + -b) : ¬Fits M (v + b + -x) :=
  fun hf => by
    have := hf.1
    omega

theorem not_fits_iff_overflow (h0 : 0 ≤ x + b) (hM : x + b ≤ M) :
    ¬Fits M (v + b + x) ↔ M - (x + b).toNat < v := by
  simp only [Fits, not_and, not_le]
  omega

theorem not_fits_iff_underflow (hv : v ≤ M) (h0 : 0 ≤ x + -b) :
    ¬Fits M (v + b + -x) ↔ v < (x + -b).toNat := by
  simp only [Fits, not_and, not_le]
  omega

end Reject

theorem from_history_spec (hv0 : v0 ≤ M) (hB : Fits M (v0 + base.toInt)) (hδ : δ.abs ≤ M) :
    ∃ r h', compute_delayed_field_try_add_delta_outcome_from_history base δ M h v0 =
        .ok (r, .HistoryBounded h' M v0) ∧ h'.stricter_than h = true ∧
      OutcomeSpec M v0 base.toInt δ.toInt h h' r := by
  have hv0' : v0 ≤ (BoundedMath.new M).max_value := hv0
  have hbefore : (BoundedMath.new M).unsigned_add_delta v0 base = .ok (v0 + base.toInt).toNat :=
    (unsigned_add_delta_eq_ok hv0').mpr ⟨hB.1, hB.2, Int.toNat_of_nonneg hB.1⟩
  have hBM : (v0 + base.toInt).toNat ≤ M := by have := hB.2; omega
  unfold compute_delayed_field_try_add_delta_outcome_from_history
  dsimp only
  rw [hbefore]
  simp only [expect_ok, Except.mapError_ok, Except.ok_bind]
  cases hdec : (BoundedMath.new M).unsigned_add_delta (v0 + base.toInt).toNat δ with
  | ok w =>
    have hfit : Fits M (v0 + base.toInt + δ.toInt) := by
      have := (unsigned_add_delta_ok_iff_fits hBM).mp ⟨w, hdec⟩
      rwa [Int.toNat_of_nonneg hB.1] at this
    obtain ⟨s, hs⟩ : ∃ s, (BoundedMath.new M).signed_add base δ = .ok s :=
      signed_add_ok (by simp only [new_max_value]; have := hfit.1; omega)
        (by simp only [new_max_value]; have := hfit.2; omega)
    have hsum := signed_add_toInt hs
    refine ⟨true, h.record_success s, by simp [hs], stricter_than_record_success s,
      ⟨by simp [hfit], fun v => ?_⟩⟩
    rw [admits_record_success, hsum]
    simp only [Fits, iff_true, ← add_assoc]
  | error e =>
    have hnfit : ¬Fits M (v0 + base.toInt + δ.toInt) := fun hfit => by
      obtain ⟨w, hw⟩ := (unsigned_add_delta_ok_iff_fits (δ := δ) hBM).mpr
        (by rwa [Int.toNat_of_nonneg hB.1])
      rw [hdec] at hw
      cases hw
    cases δ with
    | Positive x =>
      have hx : x ≤ (BoundedMath.new M).max_value := hδ
      simp only [toInt_positive] at hnfit ⊢
      have hpos : ¬(x : ℤ) + base.toInt < 0 := by
        have := hB.1
        simp only [Fits, not_and, not_le] at hnfit
        omega
      rw [ok_overflow_unsigned_add_delta hx]
      simp only [new_max_value, hpos, if_false]
      by_cases hover : (M : ℤ) < x + base.toInt
      · refine ⟨false, h, by simp [hover], stricter_than_self, OutcomeSpec.reject hnfit fun v => ?_⟩
        exact (and_iff_left (not_fits_of_lt hover)).symm
      · refine ⟨false, h.record_overflow (x + base.toInt).toNat, by simp [hover],
          stricter_than_record_overflow _, OutcomeSpec.reject hnfit fun v => ?_⟩
        rw [admits_record_overflow, not_fits_iff_overflow (by omega) (by omega)]
    | Negative x =>
      have hx : x ≤ (BoundedMath.new M).max_value := hδ
      simp only [toInt_negative] at hnfit ⊢
      have hpos : ¬(x : ℤ) + -base.toInt < 0 := by
        have := hB.2
        simp only [Fits, not_and, not_le] at hnfit
        omega
      rw [ok_overflow_unsigned_add_delta hx]
      simp only [new_max_value, toInt_minus, hpos, if_false]
      by_cases hover : (M : ℤ) < x + -base.toInt
      · refine ⟨false, h, by simp [hover], stricter_than_self, OutcomeSpec.reject hnfit fun v => ?_⟩
        exact (and_iff_left_of_imp fun ha => not_fits_of_lt_neg (le_of_admits ha) hover).symm
      · refine ⟨false, h.record_underflow (x + -base.toInt).toNat, by simp [hover],
          stricter_than_record_underflow _, OutcomeSpec.reject hnfit fun v => ?_⟩
        rw [admits_record_underflow]
        exact and_congr_right fun ha => (not_fits_iff_underflow (le_of_admits ha) (by omega)).symm

theorem first_time_spec (hv0 : v0 ≤ M) (hδ : δ.abs ≤ M) :
    ∃ r h', compute_delayed_field_try_add_delta_outcome_first_time δ M v0 =
        .ok (r, .HistoryBounded h' M v0) ∧ OutcomeSpec M v0 0 δ.toInt DeltaHistory.new h' r := by
  unfold compute_delayed_field_try_add_delta_outcome_first_time
  dsimp only
  cases hdec : (BoundedMath.new M).unsigned_add_delta v0 δ with
  | ok w =>
    have hfit : Fits M (v0 + δ.toInt) := (unsigned_add_delta_ok_iff_fits hv0).mp ⟨w, hdec⟩
    refine ⟨true, _, rfl, ⟨by simpa using hfit, fun v => ?_⟩⟩
    rw [admits_record_success, admits_new]
    simp only [Fits, add_zero, iff_true]
  | error e =>
    have hnfit : ¬Fits M (v0 + δ.toInt) := fun hfit => by
      obtain ⟨w, hw⟩ := (unsigned_add_delta_ok_iff_fits hv0).mpr hfit
      rw [hdec] at hw
      cases hw
    cases δ with
    | Positive x =>
      have hx : x ≤ M := hδ
      refine ⟨false, _, rfl, ⟨by simpa [Fits] using hnfit, fun v => ?_⟩⟩
      rw [admits_record_overflow, admits_new]
      simp only [Fits, toInt_positive, add_zero, Bool.false_eq_true, iff_false, not_and, not_le]
      omega
    | Negative x =>
      refine ⟨false, _, rfl, ⟨by simpa [Fits] using hnfit, fun v => ?_⟩⟩
      rw [admits_record_underflow, admits_new]
      simp only [Fits, toInt_negative, add_zero, Bool.false_eq_true, iff_false, not_and, not_le]
      omega

theorem capture_delayed_field_read_of_stricter_than {h' : DeltaHistory}
    (hs : h'.stricter_than h = true) :
    capture_delayed_field_read (some (.HistoryBounded h M v0)) true (.HistoryBounded h' M v0) =
      .ok (.HistoryBounded h' M v0) := by
  simp +decide [capture_delayed_field_read, DelayedFieldRead.get_kind, DelayedFieldRead.contains, hs]

theorem outcome_history_bounded (hv0 : v0 ≤ M) (hB : Fits M (v0 + base.toInt)) (hδ : δ.abs ≤ M)
    (predicted_value : ℕ) :
    ∃ r h', delayed_field_try_add_delta_outcome (some (.HistoryBounded h M v0)) predicted_value
        base δ M = .ok (r, some (.HistoryBounded h' M v0)) ∧
      OutcomeSpec M v0 base.toInt δ.toInt h h' r := by
  obtain ⟨r, h', hrun, hs, hspec⟩ := from_history_spec (h := h) hv0 hB hδ
  have hle : ¬δ.abs > M := by omega
  refine ⟨r, h', ?_, hspec⟩
  simp [delayed_field_try_add_delta_outcome, hle, hrun, capture_delayed_field_read_of_stricter_than hs]

theorem outcome_first_time (hv0 : v0 ≤ M) (hδ : δ.abs ≤ M) :
    ∃ r h', delayed_field_try_add_delta_outcome none v0 (.Positive 0) δ M =
        .ok (r, some (.HistoryBounded h' M v0)) ∧ OutcomeSpec M v0 0 δ.toInt DeltaHistory.new h' r := by
  obtain ⟨r, h', hrun, hspec⟩ := first_time_spec hv0 hδ
  have hle : ¬δ.abs > M := by omega
  refine ⟨r, h', ?_, hspec⟩
  simp [delayed_field_try_add_delta_outcome, hle, is_zero, hrun, capture_delayed_field_read]

end Outcome

section Replay

variable {M v0 v : ℕ} {δ : SignedU128}

theorem sequential_try_add_append {xs ys : List SignedU128} {r1 r2 : List Bool} {w w' : ℕ}
    (h1 : sequential_try_add M v xs = (r1, w)) (h2 : sequential_try_add M w ys = (r2, w')) :
    sequential_try_add M v (xs ++ ys) = (r1 ++ r2, w') := by
  induction xs generalizing v r1 with
  | nil =>
    simp only [sequential_try_add, Prod.mk.injEq] at h1
    obtain ⟨rfl, rfl⟩ := h1
    exact h2
  | cons δ xs ih =>
    simp only [List.cons_append, sequential_try_add] at h1 ⊢
    split at h1 <;>
    · simp only [Prod.mk.injEq] at h1
      obtain ⟨rfl, hw⟩ := h1
      rw [ih (Prod.ext rfl hw)]
      rfl

theorem sequential_try_add_singleton {r : Bool} (hv : v ≤ M)
    (hr : r = true ↔ Fits M (v + δ.toInt)) :
    sequential_try_add M v [δ] = ([r], (v + if r then δ.toInt else 0).toNat) := by
  simp only [sequential_try_add]
  cases hdec : (BoundedMath.new M).unsigned_add_delta v δ with
  | ok w =>
    have hv' : v ≤ (BoundedMath.new M).max_value := hv
    have hw := ((unsigned_add_delta_eq_ok hv').mp hdec).2.2
    have hrt : r = true := hr.mpr ((unsigned_add_delta_ok_iff_fits hv).mp ⟨w, hdec⟩)
    simp [hrt, ← hw]
  | error e =>
    have hrf : r = false := by
      rw [Bool.eq_false_iff]
      intro hrt
      obtain ⟨w, hw⟩ := (unsigned_add_delta_ok_iff_fits hv).mpr (hr.mp hrt)
      rw [hdec] at hw
      cases hw
    simp [hrf]

-- The state a transaction keeps for one aggregator after trying the deltas pre: its pending
-- change adds base to the aggregator, its history admits the predicted value v0, and every base
-- value the history admits replays pre to the same results, ending base above where it started.
structure Replays (M v0 : ℕ) (pre : List SignedU128) (results : List Bool) (base : ℤ)
    (entry : Option DelayedChange) (h : DeltaHistory) : Prop where
  entry_eq : entry = none ∧ base = 0 ∨
    ∃ d, entry = some (.Apply d) ∧ d.max_value = M ∧ d.update.toInt = base
  admits_base : h.Admits M v0
  fits_admitted : ∀ v, h.Admits M v → Fits M (v + base)
  replays : ∀ v, h.Admits M v → sequential_try_add M v pre = (results, (v + base).toNat)

variable {pre : List SignedU128} {results : List Bool} {base : ℤ} {r : Bool}
  {entry entry' : Option DelayedChange} {h h' : DeltaHistory}

theorem Replays.nil (hv0 : v0 ≤ M) : Replays M v0 [] [] 0 none DeltaHistory.new := by
  refine ⟨Or.inl ⟨rfl, rfl⟩, admits_new.mpr hv0, fun v ha => ?_,
    fun v _ => by simp [sequential_try_add]⟩
  have := le_of_admits ha
  exact ⟨by omega, by omega⟩

theorem Replays.step (hinv : Replays M v0 pre results base entry h)
    (hspec : OutcomeSpec M v0 base δ.toInt h h' r)
    (hentry : entry' = none ∧ base + (if r then δ.toInt else 0) = 0 ∨
      ∃ d, entry' = some (.Apply d) ∧ d.max_value = M ∧
        d.update.toInt = base + if r then δ.toInt else 0) :
    Replays M v0 (pre ++ [δ]) (results ++ [r]) (base + if r then δ.toInt else 0) entry' h' := by
  refine ⟨hentry, (hspec.admits v0).mpr ⟨hinv.admits_base, hspec.result.symm⟩, fun v ha' => ?_,
    fun v ha' => ?_⟩
  · obtain ⟨ha, hiff⟩ := (hspec.admits v).mp ha'
    cases r with
    | false => simpa using hinv.fits_admitted v ha
    | true => simpa [add_assoc] using hiff.mpr rfl
  · obtain ⟨ha, hiff⟩ := (hspec.admits v).mp ha'
    have hfit := hinv.fits_admitted v ha
    have hw : ((v + base).toNat : ℤ) = v + base := Int.toNat_of_nonneg hfit.1
    have hone := sequential_try_add_singleton (M := M) (δ := δ) (r := r) (v := (v + base).toNat)
      (by have := hfit.2; omega) (by rw [hw]; exact hiff.symm)
    rw [sequential_try_add_append (hinv.replays v ha) hone, hw, add_assoc]

theorem try_add_delta_step (hv0 : v0 ≤ M) (hinv : Replays M v0 pre results base entry h)
    (hδ : δ.abs ≤ M) :
    ∃ r entry' h', try_add_delta entry (some (.HistoryBounded h M v0)) v0 M δ =
        .ok (r, entry', some (.HistoryBounded h' M v0)) ∧
      Replays M v0 (pre ++ [δ]) (results ++ [r]) (base + if r then δ.toInt else 0) entry' h' := by
  have hle : ¬δ.abs > M := by omega
  have hB : Fits M (v0 + base) := hinv.fits_admitted v0 hinv.admits_base
  rcases hinv.entry_eq with ⟨rfl, rfl⟩ | ⟨⟨u, m⟩, rfl, hm, hu⟩
  · -- nothing is pending: the outcome is computed at base_delta zero
    obtain ⟨r, h', hrun, hspec⟩ := outcome_history_bounded (h := h) hv0
      (show Fits M (v0 + (SignedU128.Positive 0).toInt) by simpa using hB) hδ v0
    refine ⟨r, if r then some (.Apply (DeltaWithMax.new δ M)) else none, h', ?_,
      hinv.step (by simpa using hspec) ?_⟩
    · simp [try_add_delta, try_add_or_check_delta, hle, hrun]
    · cases r <;> simp [DeltaWithMax.new]
  · -- the pending delta u is the base_delta, and an accepted delta is merged into it
    dsimp only at hm hu
    subst hm hu
    obtain ⟨r, h', hrun, hspec⟩ := outcome_history_bounded (h := h) hv0 hB hδ v0
    cases r with
    | false =>
      refine ⟨false, some (.Apply ⟨u, m⟩), h', ?_, hinv.step hspec (by simp)⟩
      simp [try_add_delta, try_add_or_check_delta, hle, hrun]
    | true =>
      have hfit := hspec.result.mp rfl
      obtain ⟨s, hs, hst⟩ := DeltaWithMax.create_merged_delta_new (M := m) (u := u) (δ := δ)
        (by have := hfit.1; omega) (by have := hfit.2; have := hB.1; omega)
      refine ⟨true, some (.Apply ⟨s, m⟩), h', ?_, hinv.step hspec (by simp [hst])⟩
      simp [try_add_delta, try_add_or_check_delta, hle, hrun, hs, expect_ok]

theorem try_add_run_replays {deltas : List SignedU128} (hv0 : v0 ≤ M)
    (hinv : Replays M v0 pre results base entry h) (hδ : ∀ δ ∈ deltas, δ.abs ≤ M) :
    ∃ rs entry' h' base', try_add_run v0 M (entry, some (.HistoryBounded h M v0)) deltas =
        .ok (rs, entry', some (.HistoryBounded h' M v0)) ∧
      Replays M v0 (pre ++ deltas) (results ++ rs) base' entry' h' := by
  induction deltas generalizing pre results base entry h with
  | nil => exact ⟨[], entry, h, base, rfl, by simpa using hinv⟩
  | cons δ deltas ih =>
    obtain ⟨r, e1, h1, hstep, hinv1⟩ := try_add_delta_step hv0 hinv (hδ δ (by simp))
    obtain ⟨rs, e2, h2, b2, hrun, hinv2⟩ := ih hinv1 (fun x hx => hδ x (by simp [hx]))
    refine ⟨r :: rs, e2, h2, b2, ?_, by simpa using hinv2⟩
    simp [try_add_run, hstep, hrun]

end Replay

theorem try_add_history_replays {M v0 : ℕ} {deltas : List SignedU128} (hv0 : v0 ≤ M)
    (hne : deltas ≠ []) (hδ : ∀ δ ∈ deltas, δ.abs ≤ M) :
    ∃ results entry h base, try_add_run v0 M (none, none) deltas =
        .ok (results, entry, some (.HistoryBounded h M v0)) ∧
      (entry = none ∧ base = 0 ∨
        ∃ d, entry = some (.Apply d) ∧ d.max_value = M ∧ d.update.toInt = base) ∧
      h.validate_against_base_value v0 M = .ok () ∧
      ∀ v, h.validate_against_base_value v M = .ok () →
        (sequential_try_add M v deltas).1 = results ∧
          ((sequential_try_add M v deltas).2 : ℤ) = v + base := by
  obtain ⟨δ, rest, rfl⟩ := List.exists_cons_of_ne_nil hne
  have hle : ¬δ.abs > M := by have := hδ δ (by simp); omega
  -- the first try_add finds nothing captured and reads the predicted value
  obtain ⟨r, h1, hrun1, hspec⟩ := outcome_first_time hv0 (hδ δ (by simp))
  have hinv1 : Replays M v0 ([] ++ [δ]) ([] ++ [r]) (0 + if r then δ.toInt else 0)
      (if r then some (.Apply (DeltaWithMax.new δ M)) else none) h1 :=
    (Replays.nil hv0).step hspec (by cases r <;> simp [DeltaWithMax.new])
  obtain ⟨rs, entry, h, base, hrun, hinv⟩ :=
    try_add_run_replays hv0 hinv1 (fun x (hx : x ∈ rest) => hδ x (by simp [hx]))
  simp only [List.nil_append, List.singleton_append] at hinv
  refine ⟨r :: rs, entry, h, base, ?_, hinv.entry_eq,
    validate_against_base_value_eq_ok.mpr hinv.admits_base, fun v hv => ?_⟩
  · simp [try_add_run, try_add_delta, try_add_or_check_delta, hle, hrun1, hrun]
  · have ha := validate_against_base_value_eq_ok.mp hv
    have hfit := hinv.fits_admitted v ha
    rw [hinv.replays v ha]
    exact ⟨rfl, Int.toNat_of_nonneg hfit.1⟩

theorem try_add_history_replays_three_deltas :
    5 ≤ 10 ∧ [Positive 3, Positive 4, Negative 6] ≠ [] ∧
      (∀ δ ∈ [Positive 3, Positive 4, Negative 6], δ.abs ≤ 10) ∧
      ∃ results entry h base,
        try_add_run 5 10 (none, none) [Positive 3, Positive 4, Negative 6] =
          .ok (results, entry, some (.HistoryBounded h 10 5)) ∧
        (entry = none ∧ base = 0 ∨
          ∃ d, entry = some (.Apply d) ∧ d.max_value = 10 ∧ d.update.toInt = base) ∧
        h.validate_against_base_value 5 10 = .ok () ∧
        ∀ v, h.validate_against_base_value v 10 = .ok () →
          (sequential_try_add 10 v [Positive 3, Positive 4, Negative 6]).1 = results ∧
            ((sequential_try_add 10 v [Positive 3, Positive 4, Negative 6]).2 : ℤ) = v + base :=
  ⟨by decide, by simp, by decide, try_add_history_replays (by decide) (by simp) (by decide)⟩

end Zapatos.Aggregator

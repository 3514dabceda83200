import Zapatos.Aggregator.AggregatorV1

namespace Zapatos.aggregator_v1_extension

open Zapatos.Aggregator BoundedMath SignedU128

inductive AggregatorOp where
  | add (value : ℕ)
  | sub (value : ℕ)
deriving DecidableEq, Repr

def AggregatorOp.toInt : AggregatorOp → ℤ
  | .add value => value
  | .sub value => -value

namespace Aggregator

def apply (self : Aggregator) : AggregatorOp → Option (Except PartialVMError Aggregator)
  | .add value => self.add value
  | .sub value => self.sub value

def run (self : Aggregator) : List AggregatorOp → Option (Except PartialVMError Aggregator)
  | [] => some (.ok self)
  | op :: ops =>
    match self.apply op with
    | some (.ok next) => next.run ops
    | other => other

def delta (self : Aggregator) : SignedU128 :=
  if self.state = .NegativeDelta then .Negative self.value else .Positive self.value

variable {a a' : Aggregator} {h : DeltaHistory} {op : AggregatorOp}

theorem record_of_delta (hs : a.state ≠ .Data) (hh : a.history = some h) :
    a.record = some { a with history := some (h.record_success a.delta) } := by
  unfold record delta
  rw [hh]
  cases hst : a.state <;> simp_all

theorem record_map_eq (hr : a.record.map (Except.ok (ε := PartialVMError)) = some (.ok a'))
    (hs : a.state ≠ .Data) (hh : a.history = some h) :
    a' = { a with history := some (h.record_success a.delta) } := by
  rw [record_of_delta hs hh] at hr
  simp only [Option.map_some, Option.some.injEq, Except.ok.injEq] at hr
  exact hr.symm

theorem add_delta {x : ℕ} (hs : a.state ≠ .Data) (hh : a.history = some h)
    (hr : a.add x = some (.ok a')) :
    a'.state ≠ .Data ∧ a'.max_value = a.max_value ∧
      a'.history = some (h.record_success a'.delta) ∧ a'.delta.toInt = a.delta.toInt + x := by
  unfold add at hr
  cases hst : a.state with
  | Data => exact absurd hst hs
  | PositiveDelta =>
    simp only [hst] at hr
    split at hr
    · rename_i v hv
      obtain ⟨-, rfl⟩ := unsigned_add_eq_ok.mp hv
      obtain rfl := record_map_eq hr (by simp) hh
      simp [delta, hst]
    · simp at hr
  | NegativeDelta =>
    simp only [hst] at hr
    split_ifs at hr with hle
    · split at hr
      · rename_i v hv
        obtain ⟨-, rfl⟩ := unsigned_subtract_eq_ok.mp (expect_ok_eq_ok.mp hv)
        obtain rfl := record_map_eq hr (by simp) hh
        simp [delta, hst]
        omega
      · simp at hr
    · split at hr
      · rename_i v hv
        obtain ⟨-, rfl⟩ := unsigned_subtract_eq_ok.mp (expect_ok_eq_ok.mp hv)
        obtain rfl := record_map_eq hr (by simp) hh
        simp [delta, hst]
        omega
      · simp at hr

theorem sub_delta {x : ℕ} (hs : a.state ≠ .Data) (hh : a.history = some h)
    (hr : a.sub x = some (.ok a')) :
    a'.state ≠ .Data ∧ a'.max_value = a.max_value ∧
      a'.history = some (h.record_success a'.delta) ∧ a'.delta.toInt = a.delta.toInt - x := by
  unfold sub at hr
  cases hst : a.state with
  | Data => exact absurd hst hs
  | PositiveDelta =>
    simp only [hst] at hr
    split_ifs at hr with hle
    · split at hr
      · rename_i v hv
        obtain ⟨-, rfl⟩ := unsigned_subtract_eq_ok.mp hv
        obtain rfl := record_map_eq hr (by simp) hh
        simp [delta, hst]
        omega
      · simp at hr
    · split at hr
      · simp at hr
      · split at hr
        · rename_i v hv
          obtain ⟨-, rfl⟩ := unsigned_subtract_eq_ok.mp hv
          obtain rfl := record_map_eq hr (by simp) hh
          simp [delta, hst]
          omega
        · simp at hr
  | NegativeDelta =>
    simp only [hst] at hr
    split at hr
    · rename_i v hv
      obtain ⟨-, rfl⟩ := unsigned_add_eq_ok.mp hv
      obtain rfl := record_map_eq hr (by simp) hh
      simp [delta, hst]
      omega
    · simp at hr

theorem apply_delta (hs : a.state ≠ .Data) (hh : a.history = some h)
    (hr : a.apply op = some (.ok a')) :
    a'.state ≠ .Data ∧ a'.max_value = a.max_value ∧
      a'.history = some (h.record_success a'.delta) ∧ a'.delta.toInt = a.delta.toInt + op.toInt := by
  cases op with
  | add x => exact add_delta hs hh hr
  | sub x =>
    obtain ⟨h₁, h₂, h₃, h₄⟩ := sub_delta hs hh hr
    exact ⟨h₁, h₂, h₃, by rw [h₄]; simp [AggregatorOp.toInt]; omega⟩

theorem run_cons_eq_ok {ops : List AggregatorOp} :
    a.run (op :: ops) = some (.ok a') ↔ ∃ a₁, a.apply op = some (.ok a₁) ∧ a₁.run ops = some (.ok a') := by
  rw [run]
  split
  · rename_i a₁ h₁
    simp [h₁]
  · rename_i r hr
    constructor
    · intro h
      exact absurd h (hr a')
    · rintro ⟨a₁, h₁, -⟩
      exact absurd h₁ (hr a₁)

theorem apply_data {v M : ℕ} {d : Aggregator} (hv : v ≤ M) :
    (⟨v, .Data, M, none⟩ : Aggregator).apply op = some (.ok d) ↔
      0 ≤ (v : ℤ) + op.toInt ∧ (v : ℤ) + op.toInt ≤ M ∧
        d = ⟨(v + op.toInt).toNat, .Data, M, none⟩ := by
  cases op with
  | add x =>
    simp only [apply, add, AggregatorOp.toInt]
    split
    · rename_i w hw
      obtain ⟨hle, rfl⟩ := unsigned_add_eq_ok.mp hw
      simp only [new_max_value] at hle
      simp only [Option.some.injEq, Except.ok.injEq]
      constructor
      · rintro rfl
        refine ⟨by omega, by omega, ?_⟩
        simp only [Aggregator.mk.injEq, and_true]
        omega
      · rintro ⟨-, -, rfl⟩
        simp only [Aggregator.mk.injEq, and_true]
        omega
    · rename_i e he
      obtain ⟨hlt, -⟩ := unsigned_add_eq_error.mp he
      simp only [new_max_value] at hlt
      simp only [reduceCtorEq, Option.some.injEq, false_iff]
      omega
  | sub x =>
    simp only [apply, sub, AggregatorOp.toInt]
    split
    · rename_i w hw
      obtain ⟨hle, rfl⟩ := unsigned_subtract_eq_ok.mp hw
      simp only [Option.some.injEq, Except.ok.injEq]
      constructor
      · rintro rfl
        refine ⟨by omega, by omega, ?_⟩
        simp only [Aggregator.mk.injEq, and_true]
        omega
      · rintro ⟨-, -, rfl⟩
        simp only [Aggregator.mk.injEq, and_true]
        omega
    · rename_i e he
      obtain ⟨hlt, -⟩ := unsigned_subtract_eq_error.mp he
      simp only [reduceCtorEq, Option.some.injEq, false_iff]
      omega

theorem run_data_cons {ops : List AggregatorOp} {v M : ℕ} {d : Aggregator} (hv : v ≤ M) :
    run ⟨v, .Data, M, none⟩ (op :: ops) = some (.ok d) ↔
      0 ≤ (v : ℤ) + op.toInt ∧ (v : ℤ) + op.toInt ≤ M ∧
        run ⟨(v + op.toInt).toNat, .Data, M, none⟩ ops = some (.ok d) := by
  rw [run_cons_eq_ok]
  constructor
  · rintro ⟨d₁, h₁, hrun⟩
    obtain ⟨h0, hM, rfl⟩ := (apply_data hv).mp h₁
    exact ⟨h0, hM, hrun⟩
  · rintro ⟨h0, hM, hrun⟩
    exact ⟨_, (apply_data hv).mpr ⟨h0, hM, rfl⟩, hrun⟩

end Aggregator

-- Every base that the history admits keeps the delta d in [0, max_value].
def Covers (M : ℕ) (h : DeltaHistory) (d : SignedU128) : Prop :=
  ∀ b, h.Admits M b → 0 ≤ (b : ℤ) + d.toInt ∧ (b : ℤ) + d.toInt ≤ M

theorem covers_record_success {M : ℕ} {h : DeltaHistory} {d : SignedU128} :
    Covers M (h.record_success d) d := fun _ hb => ((DeltaHistory.admits_record_success d).mp hb).2

namespace Aggregator

theorem run_delta {ops : List AggregatorOp} : ∀ {a a' : Aggregator} {h : DeltaHistory},
    a.state ≠ .Data → a.history = some h → Covers a.max_value h a.delta →
    a.run ops = some (.ok a') →
    ∃ h', a'.history = some h' ∧ a'.state ≠ .Data ∧ a'.max_value = a.max_value ∧
      Covers a.max_value h' a'.delta ∧
      (∀ b, h'.Admits a.max_value b → h.Admits a.max_value b) ∧
      ∀ b v : ℕ, (v : ℤ) = b + a.delta.toInt → v ≤ a.max_value →
        (h'.Admits a.max_value b ↔
          h.Admits a.max_value b ∧ ∃ d, run ⟨v, .Data, a.max_value, none⟩ ops = some (.ok d)) ∧
        ∀ d, run ⟨v, .Data, a.max_value, none⟩ ops = some (.ok d) →
          d = ⟨(b + a'.delta.toInt).toNat, .Data, a.max_value, none⟩ := by
  induction ops with
  | nil =>
    intro a a' h hs hh hc hr
    obtain rfl : a = a' := by simpa [run] using hr
    refine ⟨h, hh, hs, rfl, hc, fun _ hb => hb, fun b v hv _ => ⟨?_, fun d hd => ?_⟩⟩
    · simp [run]
    · simp only [run, Option.some.injEq, Except.ok.injEq] at hd
      subst hd
      simp only [Aggregator.mk.injEq, and_true]
      omega
  | cons op ops ih =>
    intro a a' h hs hh hc hr
    obtain ⟨a₁, h₁, hrun⟩ := run_cons_eq_ok.mp hr
    obtain ⟨hs₁, hm₁, hh₁, hd₁⟩ := apply_delta hs hh h₁
    obtain ⟨h', hh', hs', hm', hc', hmono, hstep⟩ := ih hs₁ hh₁ covers_record_success hrun
    rw [hm₁] at hm' hc' hmono hstep
    have hmono₁ : ∀ b, h'.Admits a.max_value b → h.Admits a.max_value b :=
      fun b hb => ((DeltaHistory.admits_record_success _).mp (hmono b hb)).1
    refine ⟨h', hh', hs', hm', hc', hmono₁, fun b v hv hvM => ?_⟩
    have hrange : h'.Admits a.max_value b →
        0 ≤ (v : ℤ) + op.toInt ∧ (v : ℤ) + op.toInt ≤ a.max_value := fun hb => by
      have := ((DeltaHistory.admits_record_success _).mp (hmono b hb)).2
      rw [hd₁] at this
      omega
    by_cases hin : 0 ≤ (v : ℤ) + op.toInt ∧ (v : ℤ) + op.toInt ≤ a.max_value
    · obtain ⟨hiff, hfin⟩ := hstep b (v + op.toInt).toNat (by omega) (by omega)
      simp only [run_data_cons hvM, hin, true_and]
      refine ⟨?_, hfin⟩
      rw [hiff, DeltaHistory.admits_record_success, hd₁]
      constructor
      · rintro ⟨⟨hb, -⟩, hd⟩
        exact ⟨hb, hd⟩
      · rintro ⟨hb, hd⟩
        exact ⟨⟨hb, by omega, by omega⟩, hd⟩
    · refine ⟨⟨fun hb => absurd (hrange hb) hin, ?_⟩, fun d hd => ?_⟩
      · rintro ⟨-, d, hd⟩
        exact absurd ⟨((run_data_cons hvM).mp hd).1, ((run_data_cons hvM).mp hd).2.1⟩ hin
      · exact absurd ⟨((run_data_cons hvM).mp hd).1, ((run_data_cons hvM).mp hd).2.1⟩ hin

variable {a : Aggregator} {h : DeltaHistory} {resolver : AggregatorID → Except String (Option ℕ)}
  {id : AggregatorID} {b : ℕ}

theorem validate_history_of_admits (hh : a.history = some h) (hb : h.Admits a.max_value b) :
    a.validate_history b = some (.ok ()) := by
  simp only [validate_history, hh, (DeltaHistory.validate_against_base_value_eq_ok).mpr hb]

theorem validate_history_of_not_admits (hh : a.history = some h) (hb : ¬h.Admits a.max_value b) :
    ∃ e, a.validate_history b = some (.error e) := by
  have hv : h.validate_against_base_value b a.max_value ≠ .ok () :=
    fun hv => hb (DeltaHistory.validate_against_base_value_eq_ok.mp hv)
  simp only [validate_history, hh]
  split
  · contradiction
  all_goals exact ⟨_, rfl⟩

theorem read_and_materialize_of_admits (hs : a.state ≠ .Data) (hh : a.history = some h)
    (hc : Covers a.max_value h a.delta) (hres : resolver id = .ok (some b))
    (hb : h.Admits a.max_value b) :
    a.read_and_materialize resolver id = some (.ok
      ({ a with value := (b + a.delta.toInt).toNat, state := .Data, history := none },
        (b + a.delta.toInt).toNat)) := by
  have hrange := hc b hb
  unfold read_and_materialize
  rw [if_neg hs, hres]
  simp only [validate_history_of_admits hh hb]
  cases hst : a.state with
  | Data => exact absurd hst hs
  | PositiveDelta =>
    simp only [delta, hst, reduceCtorEq, if_false, toInt_positive] at hrange ⊢
    rw [(unsigned_add_eq_ok (r := b + a.value)).mpr ⟨by simp; omega, rfl⟩]
    simp only [Option.some.injEq, Except.ok.injEq, Prod.mk.injEq, Aggregator.mk.injEq, and_true,
      and_self]
    omega
  | NegativeDelta =>
    simp only [delta, hst, if_true, toInt_negative] at hrange ⊢
    rw [(unsigned_subtract_eq_ok (r := b - a.value)).mpr ⟨by omega, rfl⟩]
    simp only [Option.some.injEq, Except.ok.injEq, Prod.mk.injEq, Aggregator.mk.injEq, and_true,
      and_self]
    omega

theorem read_and_materialize_ne_none (hh : a.history = some h) (hc : Covers a.max_value h a.delta) :
    a.read_and_materialize resolver id ≠ none := by
  by_cases hs : a.state = .Data
  · simp [read_and_materialize, hs]
  cases hres : resolver id with
  | error e => simp [read_and_materialize, hs, hres]
  | ok r =>
    cases r with
    | none => simp [read_and_materialize, hs, hres]
    | some b =>
      by_cases hb : h.Admits a.max_value b
      · rw [read_and_materialize_of_admits hs hh hc hres hb]
        exact Option.some_ne_none _
      · obtain ⟨e, he⟩ := validate_history_of_not_admits hh hb
        simp [read_and_materialize, hs, hres, he]

theorem read_and_materialize_of_not_admits (hs : a.state ≠ .Data) (hh : a.history = some h)
    (hres : resolver id = .ok (some b)) (hb : ¬h.Admits a.max_value b) :
    ∃ e, a.read_and_materialize resolver id = some (.error e) := by
  obtain ⟨e, he⟩ := validate_history_of_not_admits hh hb
  exact ⟨e, by simp [read_and_materialize, hs, hres, he]⟩

end Aggregator

namespace AggregatorData

theorem get_aggregator_fresh {data : AggregatorData} {id : AggregatorID} {M : ℕ}
    (hfresh : id ∉ data.aggregators) :
    (data.get_aggregator id M).2 = ⟨0, .PositiveDelta, M, some DeltaHistory.new⟩ := by
  simp [get_aggregator, AList.lookup_eq_none.mpr hfresh]

end AggregatorData

theorem read_and_materialize_replays {data : AggregatorData} {id : AggregatorID} {M b : ℕ}
    {ops : List AggregatorOp} {a : Aggregator} {resolver : AggregatorID → Except String (Option ℕ)}
    (hfresh : id ∉ data.aggregators) (hrun : (data.get_aggregator id M).2.run ops = some (.ok a)) :
    a.read_and_materialize resolver id ≠ none ∧
      (resolver id = .ok (some b) → b ≤ M →
        ∀ v, (∃ a', a.read_and_materialize resolver id = some (.ok (a', v))) ↔
          ∃ d, Aggregator.run ⟨b, .Data, M, none⟩ ops = some (.ok d) ∧ d.value = v) := by
  rw [AggregatorData.get_aggregator_fresh hfresh] at hrun
  have hc : Covers M DeltaHistory.new (Aggregator.delta ⟨0, .PositiveDelta, M, some .new⟩) :=
    fun b hb => by
      have := DeltaHistory.le_of_admits hb
      simp [Aggregator.delta]
      omega
  obtain ⟨h', hh', hs', hm', hc', -, hstep⟩ := Aggregator.run_delta (by simp) rfl hc hrun
  simp only at hm' hc' hstep
  subst hm'
  refine ⟨Aggregator.read_and_materialize_ne_none hh' hc', fun hres hb v => ?_⟩
  obtain ⟨hiff, hfin⟩ := hstep b b (by simp [Aggregator.delta]) hb
  have hnew : DeltaHistory.new.Admits a.max_value b := DeltaHistory.admits_new.mpr hb
  constructor
  · rintro ⟨a'', ha''⟩
    by_cases hadm : h'.Admits a.max_value b
    · rw [Aggregator.read_and_materialize_of_admits hs' hh' hc' hres hadm] at ha''
      obtain ⟨-, d, hd⟩ := hiff.mp hadm
      refine ⟨d, hd, ?_⟩
      rw [hfin d hd]
      simp only [Option.some.injEq, Except.ok.injEq, Prod.mk.injEq] at ha''
      exact ha''.2
    · obtain ⟨e, he⟩ := Aggregator.read_and_materialize_of_not_admits hs' hh' hres hadm
      rw [he] at ha''
      cases ha''
  · rintro ⟨d, hd, rfl⟩
    have hadm : h'.Admits a.max_value b := hiff.mpr ⟨hnew, d, hd⟩
    rw [Aggregator.read_and_materialize_of_admits hs' hh' hc' hres hadm, hfin d hd]
    exact ⟨_, rfl⟩

theorem read_and_materialize_replays_add_sub :
    ∃ a, (AggregatorData.get_aggregator ⟨∅⟩ ⟨0⟩ 10).2.run [.add 4, .sub 6] = some (.ok a) ∧
      ((∃ a', a.read_and_materialize (fun _ => .ok (some 5)) ⟨0⟩ = some (.ok (a', 3))) ↔
        ∃ d, Aggregator.run ⟨5, .Data, 10, none⟩ [.add 4, .sub 6] = some (.ok d) ∧ d.value = 3) := by
  have hrun : (AggregatorData.get_aggregator ⟨∅⟩ ⟨0⟩ 10).2.run [.add 4, .sub 6] =
      some (.ok ⟨2, .NegativeDelta, 10, some ⟨4, 2, none, none⟩⟩) := by
    decide
  exact ⟨_, hrun, (read_and_materialize_replays (b := 5) (AList.notMem_empty _) hrun).2 rfl
    (by decide) 3⟩

theorem read_and_materialize_storage_above_max :
    Aggregator.run ⟨11, .Data, 10, none⟩ [] = some (.ok ⟨11, .Data, 10, none⟩) ∧
      (AggregatorData.get_aggregator ⟨∅⟩ ⟨0⟩ 10).2.read_and_materialize (fun _ => .ok (some 11))
        ⟨0⟩ = some (.error (abort_error "overflow" EADD_OVERFLOW)) := by
  decide

end Zapatos.aggregator_v1_extension

import Zapatos.Aggregator.DeltaChangeSet

namespace Zapatos.Aggregator

open DeltaHistory BoundedMath SignedU128

inductive DelayedFieldReadKind where
  | HistoryBounded
  | Value
deriving DecidableEq, Repr, Ord

-- What a transaction has read of an aggregator: its value, or only the base it was read at and
-- the history of its try_add outcomes.
inductive DelayedFieldRead where
  | Value (value : ℕ)
  | HistoryBounded (restriction : DeltaHistory) (max_value inner_aggregator_value : ℕ)
deriving DecidableEq, Repr

inductive DataReadComparison where
  | Contains
  | Inconsistent
  | Insufficient
deriving DecidableEq, Repr

namespace DelayedFieldRead

def get_kind : DelayedFieldRead → DelayedFieldReadKind
  | .Value _ => .Value
  | .HistoryBounded .. => .HistoryBounded

def contains : DelayedFieldRead → DelayedFieldRead → DataReadComparison
  | .Value v1, .Value v2 => if v1 = v2 then .Contains else .Inconsistent
  | .HistoryBounded h1 m1 v1, .HistoryBounded h2 m2 v2 =>
    if v1 = v2 ∧ m1 = m2 ∧ h1.stricter_than h2 then .Contains else .Inconsistent
  | .HistoryBounded .., .Value _ => .Insufficient
  | .Value v1, .HistoryBounded h2 m2 _ =>
    if (h2.validate_against_base_value v1 m2).toBool then .Contains else .Inconsistent

end DelayedFieldRead

-- CapturedReads::capture_delayed_field_read on the entry of one delayed field: the read now kept.
def capture_delayed_field_read (existing : Option DelayedFieldRead) (update : Bool)
    (read : DelayedFieldRead) : Except (PanicOr DelayedFieldsSpeculativeError) DelayedFieldRead :=
  match existing with
  | none => .ok read
  | some existing_read =>
    if compare read.get_kind existing_read.get_kind = .lt ∨
        (!update ∧ read.get_kind = existing_read.get_kind) then
      .error (code_invariant_error ("Incorrect use capture_delayed_field_read, read " ++
        reprStr read ++ ", existing " ++ reprStr existing_read)).into
    else
      match read.contains existing_read with
      | .Contains => .ok read
      | .Inconsistent => .error (.Or .InconsistentRead)
      | .Insufficient => .error (code_invariant_error ("Incorrect use capture_delayed_field_read, " ++
          reprStr read ++ " insufficient for " ++ reprStr existing_read)).into

def compute_delayed_field_try_add_delta_outcome_from_history (base_delta delta : SignedU128)
    (max_value : ℕ) (history : DeltaHistory) (base_aggregator_value : ℕ) :
    Except (PanicOr DelayedFieldsSpeculativeError) (Bool × DelayedFieldRead) := do
  let math := BoundedMath.new max_value
  let before_value ← (expect_ok (math.unsigned_add_delta base_aggregator_value base_delta)).mapError
    PanicError.into
  let (result, history) ← match math.unsigned_add_delta before_value delta with
    | .error _ =>
      match delta with
      | .Positive delta_value => do
        let overflow_delta ← (expect_ok (ok_overflow (math.unsigned_add_delta delta_value
          base_delta))).mapError PanicError.into
        -- An overflow past max_value is not recorded.
        pure (false, overflow_delta.elim history history.record_overflow)
      | .Negative delta_value => do
        let underflow_delta ← (expect_ok (ok_overflow (math.unsigned_add_delta delta_value
          base_delta.minus))).mapError PanicError.into
        pure (false, underflow_delta.elim history history.record_underflow)
    | .ok _ => do
      let new_delta ← (expect_ok (math.signed_add base_delta delta)).mapError PanicError.into
      pure (true, history.record_success new_delta)
  pure (result, .HistoryBounded history max_value base_aggregator_value)

def compute_delayed_field_try_add_delta_outcome_first_time (delta : SignedU128)
    (max_value base_aggregator_value : ℕ) :
    Except (PanicOr DelayedFieldsSpeculativeError) (Bool × DelayedFieldRead) :=
  let math := BoundedMath.new max_value
  let history := DeltaHistory.new
  let (result, history) := match math.unsigned_add_delta base_aggregator_value delta with
    | .error _ =>
      match delta with
      | .Positive delta_value => (false, history.record_overflow delta_value)
      | .Negative delta_value => (false, history.record_underflow delta_value)
    | .ok _ => (true, history.record_success delta)
  .ok (result, .HistoryBounded history max_value base_aggregator_value)

-- delayed_field_try_add_delta_outcome_impl for one aggregator: the read captured so far and the
-- value predicted for it, which is read only when nothing is captured yet.
def delayed_field_try_add_delta_outcome (captured : Option DelayedFieldRead)
    (predicted_value : ℕ) (base_delta delta : SignedU128) (max_value : ℕ) :
    Except (PanicOr DelayedFieldsSpeculativeError) (Bool × Option DelayedFieldRead) :=
  if delta.abs > max_value then .ok (false, captured)
  else
    match captured with
    | some (.Value value) => do
      let math := BoundedMath.new max_value
      let before ← (expect_ok (math.unsigned_add_delta value base_delta)).mapError PanicError.into
      pure ((math.unsigned_add_delta before delta).toBool, captured)
    | some (.HistoryBounded history before_max_value inner_aggregator_value) =>
      if before_max_value ≠ max_value then
        .error (code_invariant_error "Cannot merge deltas with different limits").into
      else do
        let (result, read) ← compute_delayed_field_try_add_delta_outcome_from_history base_delta
          delta max_value history inner_aggregator_value
        let read ← capture_delayed_field_read captured true read
        pure (result, some read)
    | none =>
      if !base_delta.is_zero then
        .error (code_invariant_error
          "Passed-in delta is not zero, but CapturedReads has no record").into
      else do
        let (result, read) ← compute_delayed_field_try_add_delta_outcome_first_time delta max_value
          predicted_value
        let read ← capture_delayed_field_read captured false read
        pure (result, some read)

-- The change a transaction made to one delayed field; Other stands for the snapshot changes.
inductive DelayedChange where
  | Create (value : ℕ)
  | Apply (delta : DeltaWithMax)
  | Other
deriving DecidableEq, Repr

-- DelayedFieldData::try_add_or_check_delta on one aggregator: its change in this transaction,
-- the read captured for it, and the value predicted for it.
def try_add_or_check_delta (entry : Option DelayedChange) (captured : Option DelayedFieldRead)
    (predicted_value max_value : ℕ) (input : SignedU128) (apply_delta : Bool) :
    Except (PanicOr DelayedFieldsSpeculativeError)
      (Bool × Option DelayedChange × Option DelayedFieldRead) :=
  if input.abs > max_value then .ok (false, entry, captured)
  else
    match entry with
    | none => do
      let (result, captured) ← delayed_field_try_add_delta_outcome captured predicted_value
        (.Positive 0) input max_value
      let entry := if result ∧ apply_delta then some (.Apply (DeltaWithMax.new input max_value))
        else none
      pure (result, entry, captured)
    | some (.Create value) =>
      match (BoundedMath.new max_value).unsigned_add_delta value input with
      | .ok new_value =>
        .ok (true, some (.Create (if apply_delta then new_value else value)), captured)
      | .error _ => .ok (false, entry, captured)
    | some (.Apply previous_delta) => do
      let (result, captured) ← delayed_field_try_add_delta_outcome captured predicted_value
        previous_delta.update input previous_delta.max_value
      if result ∧ apply_delta then
        let merged ← (expect_ok (DeltaWithMax.create_merged_delta previous_delta
          (DeltaWithMax.new input max_value))).mapError PanicError.into
        pure (result, some (.Apply merged), captured)
      else pure (result, entry, captured)
    | some .Other =>
      .error (code_invariant_error "Tried to add delta to a non-aggregator delayed field").into

def try_add_delta (entry : Option DelayedChange) (captured : Option DelayedFieldRead)
    (predicted_value max_value : ℕ) (input : SignedU128) :
    Except (PanicOr DelayedFieldsSpeculativeError)
      (Bool × Option DelayedChange × Option DelayedFieldRead) :=
  try_add_or_check_delta entry captured predicted_value max_value input true

-- A transaction calling try_add on one aggregator with each delta in turn.
def try_add_run (predicted_value max_value : ℕ) :
    Option DelayedChange × Option DelayedFieldRead → List SignedU128 →
      Except (PanicOr DelayedFieldsSpeculativeError)
        (List Bool × Option DelayedChange × Option DelayedFieldRead)
  | state, [] => .ok ([], state)
  | (entry, captured), delta :: deltas => do
    let (result, entry, captured) ← try_add_delta entry captured predicted_value max_value delta
    let (results, state) ← try_add_run predicted_value max_value (entry, captured) deltas
    pure (result :: results, state)

-- The same deltas applied one after another to a known value: a delta is accepted exactly when
-- the running value stays in [0, max_value].
def sequential_try_add (max_value : ℕ) : ℕ → List SignedU128 → List Bool × ℕ
  | value, [] => ([], value)
  | value, delta :: deltas =>
    match (BoundedMath.new max_value).unsigned_add_delta value delta with
    | .ok new_value =>
      let (results, final) := sequential_try_add max_value new_value deltas
      (true :: results, final)
    | .error _ =>
      let (results, final) := sequential_try_add max_value value deltas
      (false :: results, final)

end Zapatos.Aggregator

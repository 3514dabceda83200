import Mathlib.Data.List.AList
import Zapatos.Aggregator.DeltaMath

namespace Zapatos.aggregator_v1_extension

open Aggregator BoundedMath SignedU128

def EADD_OVERFLOW : ℕ := 0x020001

def ESUB_UNDERFLOW : ℕ := 0x020002

structure AggregatorID where
  state_key : ℕ
deriving DecidableEq, Repr

inductive AggregatorState where
  | Data
  | PositiveDelta
  | NegativeDelta
deriving DecidableEq, Repr

structure Aggregator where
  value : ℕ
  state : AggregatorState
  max_value : ℕ
  history : Option DeltaHistory
deriving DecidableEq, Repr

def abort_error (message : String) (code : ℕ) : PartialVMError :=
  ((PartialVMError.new .ABORTED).with_message message).with_sub_status code

def extension_error (message : String) : PartialVMError :=
  (PartialVMError.new .VM_EXTENSION_ERROR).with_message message

def addition_v1_error {T : Type} (_err : T) : PartialVMError := abort_error "overflow" EADD_OVERFLOW

def subtraction_v1_error {T : Type} (_err : T) : PartialVMError :=
  abort_error "underflow" ESUB_UNDERFLOW

namespace Aggregator

-- A result of none is a panic of the Rust code (unreachable!, or an expect on an Err or a None).
def record (self : Aggregator) : Option Aggregator :=
  match self.history with
  | none => some self
  | some history =>
    match self.state with
    | .PositiveDelta => some { self with history := history.record_success (.Positive self.value) }
    | .NegativeDelta => some { self with history := history.record_success (.Negative self.value) }
    | .Data => none

def validate_history (self : Aggregator) (base_value : ℕ) : Option (Except PartialVMError Unit) :=
  match self.history with
  | none => none
  | some history =>
    match history.validate_against_base_value base_value self.max_value with
    | .ok () => some (.ok ())
    | .error (.DeltaApplication _ _ _ .Overflow) => some (.error (abort_error "overflow" EADD_OVERFLOW))
    | .error (.DeltaApplication _ _ _ .Underflow) =>
      some (.error (abort_error "underflow" ESUB_UNDERFLOW))
    | .error e => some (.error (PartialVMError.from_panic_or (PanicOr.Or e)))

def add (self : Aggregator) (value : ℕ) : Option (Except PartialVMError Aggregator) :=
  let math := BoundedMath.new self.max_value
  match self.state with
  | .Data =>
    match math.unsigned_add self.value value with
    | .ok v => some (.ok { self with value := v })
    | .error e => some (.error (addition_v1_error e))
  | .PositiveDelta =>
    match math.unsigned_add self.value value with
    | .ok v => (record { self with value := v }).map .ok
    | .error e => some (.error (addition_v1_error e))
  | .NegativeDelta =>
    -- -X + Y changes sign when X <= Y; no bound is checked on this side.
    if self.value ≤ value then
      match expect_ok (math.unsigned_subtract value self.value) with
      | .ok v => (record { self with value := v, state := .PositiveDelta }).map .ok
      | .error e => some (.error (PartialVMError.from_panic_error e))
    else
      match expect_ok (math.unsigned_subtract self.value value) with
      | .ok v => (record { self with value := v }).map .ok
      | .error e => some (.error (PartialVMError.from_panic_error e))

def sub (self : Aggregator) (value : ℕ) : Option (Except PartialVMError Aggregator) :=
  let math := BoundedMath.new self.max_value
  match self.state with
  | .Data =>
    match math.unsigned_subtract self.value value with
    | .ok v => some (.ok { self with value := v })
    | .error e => some (.error (subtraction_v1_error e))
  | .PositiveDelta =>
    if self.value ≥ value then
      match math.unsigned_subtract self.value value with
      | .ok v => (record { self with value := v }).map .ok
      | .error e => some (.error (subtraction_v1_error e))
    else
      -- +X - Y with X < Y: Y may not exceed max_value.
      match math.unsigned_subtract self.max_value value with
      | .error e => some (.error (subtraction_v1_error e))
      | .ok _ =>
        match math.unsigned_subtract value self.value with
        | .ok v => (record { self with value := v, state := .NegativeDelta }).map .ok
        | .error e => some (.error (subtraction_v1_error e))
  | .NegativeDelta =>
    match math.unsigned_add self.value value with
    | .ok v => (record { self with value := v }).map .ok
    | .error e => some (.error (subtraction_v1_error e))

-- The resolver's error is given by its Display text.
def read_and_materialize (self : Aggregator) (resolver : AggregatorID → Except String (Option ℕ))
    (id : AggregatorID) : Option (Except PartialVMError (Aggregator × ℕ)) :=
  if self.state = .Data then some (.ok (self, self.value))
  else
    match resolver id with
    | .error e => some (.error (extension_error ("Could not find the value of the aggregator: " ++ e)))
    | .ok none =>
      some (.error (extension_error ("Could not read from deleted aggregator at " ++ reprStr id)))
    | .ok (some value_from_storage) =>
      match self.validate_history value_from_storage with
      | none => none
      | some (.error e) => some (.error e)
      | some (.ok ()) =>
        let math := BoundedMath.new self.max_value
        match self.state with
        | .PositiveDelta =>
          match math.unsigned_add value_from_storage self.value with
          | .ok v => some (.ok ({ self with value := v, state := .Data, history := none }, v))
          | .error _ => none
        | .NegativeDelta =>
          match math.unsigned_subtract value_from_storage self.value with
          | .ok v => some (.ok ({ self with value := v, state := .Data, history := none }, v))
          | .error _ => none
        | .Data => none

end Aggregator

-- new_aggregators and destroyed_aggregators are only used by create_new_aggregator and
-- remove_aggregator.
structure AggregatorData where
  aggregators : AList fun _ : AggregatorID => Aggregator

namespace AggregatorData

def get_aggregator (self : AggregatorData) (id : AggregatorID) (max_value : ℕ) :
    AggregatorData × Aggregator :=
  match self.aggregators.lookup id with
  | some aggregator => (self, aggregator)
  | none =>
    let aggregator : Aggregator := ⟨0, .PositiveDelta, max_value, some DeltaHistory.new⟩
    (⟨self.aggregators.insert id aggregator⟩, aggregator)

end AggregatorData

end Zapatos.aggregator_v1_extension

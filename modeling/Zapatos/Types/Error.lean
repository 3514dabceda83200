import Zapatos.Lib.Basic

namespace Zapatos

inductive PanicError where
  | CodeInvariantError (message : String)
deriving DecidableEq, Repr

inductive PanicOr (T : Type) where
  | CodeInvariantError (message : String)
  | Or (error : T)
deriving DecidableEq, Repr

-- The message is formatted with its Debug form, which quotes a string.
def code_invariant_error (message : String) : PanicError :=
  .CodeInvariantError ("Code invariant broken (there is a bug in the code), " ++ message.quote)

-- The conversion the question mark operator applies to a PanicError in a function returning
-- PanicOr.
def PanicError.into {T : Type} : PanicError → PanicOr T
  | .CodeInvariantError message => .CodeInvariantError message

-- The Debug form of the error is rendered by its Repr instance.
def expect_ok {V E : Type} [Repr E] (value : Except E V) : Except PanicError V :=
  value.mapError fun e => code_invariant_error ("Expected Ok, got Err(" ++ reprStr e ++ ")")

section ExpectOk

variable {V E : Type} [Repr E] {value : Except E V} {v : V}

@[simp]
theorem expect_ok_eq_ok : expect_ok value = .ok v ↔ value = .ok v := by
  cases value <;> simp [expect_ok, Except.mapError]

theorem expect_ok_ne_ok_of_error {e : E} (h : value = .error e) : ∀ v, expect_ok value ≠ .ok v := by
  intro v hv
  rw [expect_ok_eq_ok, h] at hv
  cases hv

end ExpectOk

inductive StatusCode where
  | ABORTED
  | SPECULATIVE_EXECUTION_ABORT_ERROR
  | VM_EXTENSION_ERROR
  | DELAYED_FIELD_OR_BLOCKSTM_CODE_INVARIANT_ERROR
deriving DecidableEq, Repr

structure PartialVMError where
  major_status : StatusCode
  sub_status : Option ℕ
  message : Option String
deriving DecidableEq, Repr

namespace PartialVMError

def new (major_status : StatusCode) : PartialVMError := ⟨major_status, none, none⟩

def with_message (self : PartialVMError) (message : String) : PartialVMError :=
  { self with message := some message }

def with_sub_status (self : PartialVMError) (sub_status : ℕ) : PartialVMError :=
  { self with sub_status := some sub_status }

def from_panic_error : PanicError → PartialVMError
  | .CodeInvariantError msg => (new .DELAYED_FIELD_OR_BLOCKSTM_CODE_INVARIANT_ERROR).with_message msg

def from_panic_or {T : Type} [Repr T] : PanicOr T → PartialVMError
  | .CodeInvariantError msg => (new .DELAYED_FIELD_OR_BLOCKSTM_CODE_INVARIANT_ERROR).with_message msg
  | .Or err => (new .SPECULATIVE_EXECUTION_ABORT_ERROR).with_message (reprStr err)

end PartialVMError

end Zapatos

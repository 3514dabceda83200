import Mathlib.Data.List.AList
import Zapatos.Lib.Basic

namespace Zapatos.Move

namespace table

variable {K V : Type} [DecidableEq K]

-- The native table extension aborts with (reason << 8) + ECATEGORY_INVALID_ARGUMENT.
def ALREADY_EXISTS : ℕ := 100 * 2 ^ 8 + 7

def NOT_FOUND : ℕ := 101 * 2 ^ 8 + 7

def contains (self : AList fun _ : K => V) (key : K) : Bool := decide (key ∈ self)

def add (self : AList fun _ : K => V) (key : K) (val : V) : Except ℕ (AList fun _ : K => V) :=
  if key ∈ self then .error ALREADY_EXISTS else .ok (self.insert key val)

def borrow (self : AList fun _ : K => V) (key : K) : Except ℕ V :=
  match self.lookup key with
  | some v => .ok v
  | none => .error NOT_FOUND

-- A write of val through the reference that borrow_mut returns.
def borrow_mut (self : AList fun _ : K => V) (key : K) (val : V) :
    Except ℕ (AList fun _ : K => V) :=
  if key ∈ self then .ok (self.insert key val) else .error NOT_FOUND

def remove (self : AList fun _ : K => V) (key : K) : Except ℕ ((AList fun _ : K => V) × V) :=
  match self.lookup key with
  | some v => .ok (self.erase key, v)
  | none => .error NOT_FOUND

def upsert (self : AList fun _ : K => V) (key : K) (value : V) : AList fun _ : K => V :=
  self.insert key value

variable {self : AList fun _ : K => V} {key : K}

@[simp] theorem contains_iff : contains self key = true ↔ key ∈ self := by
  simp [contains]

@[simp] theorem add_eq_ok {val : V} {r : AList fun _ : K => V} :
    add self key val = .ok r ↔ key ∉ self ∧ self.insert key val = r := by
  unfold add
  split <;> simp_all

@[simp] theorem borrow_eq_ok {v : V} : borrow self key = .ok v ↔ self.lookup key = some v := by
  unfold borrow
  split <;> simp_all

@[simp] theorem borrow_mut_eq_ok {val : V} {r : AList fun _ : K => V} :
    borrow_mut self key val = .ok r ↔ key ∈ self ∧ self.insert key val = r := by
  unfold borrow_mut
  split <;> simp_all

@[simp] theorem remove_eq_ok {r : (AList fun _ : K => V) × V} :
    remove self key = .ok r ↔ ∃ v, self.lookup key = some v ∧ (self.erase key, v) = r := by
  unfold remove
  split <;> simp_all

end table

end Zapatos.Move

import Mathlib
import Zapatos.Move.Integer
import Zapatos.Move.Table
import Zapatos.Types.Ledger

namespace Zapatos.Stdlib.pool_u64_unbound

open Move

def ESHAREHOLDER_NOT_FOUND : ℕ := 1

def EINSUFFICIENT_SHARES : ℕ := 4

def ESHAREHOLDER_SHARES_OVERFLOW : ℕ := 5

def EPOOL_TOTAL_COINS_OVERFLOW : ℕ := 6

def EPOOL_TOTAL_SHARES_OVERFLOW : ℕ := 7

def MAX_U64 : ℕ := 18446744073709551615

def MAX_U128 : ℕ := 340282366920938463463374607431768211455

-- The shares table is a TableWithLength; its length field is only read by shareholders_count.
structure Pool where
  total_coins : ℕ
  total_shares : ℕ
  shares : AList fun _ : AccountAddress => ℕ
  scaling_factor : ℕ

def create_with_scaling_factor (scaling_factor : ℕ) : Pool :=
  ⟨0, 0, ∅, scaling_factor⟩

def new : Pool := create_with_scaling_factor 1

def contains (self : Pool) (shareholder : AccountAddress) : Bool :=
  table.contains self.shares shareholder

def shares (self : Pool) (shareholder : AccountAddress) : ℕ :=
  match self.shares.lookup shareholder with
  | some v => v
  | none => 0

def update_total_coins (self : Pool) (new_total_coins : ℕ) : Pool :=
  { self with total_coins := new_total_coins }

def multiply_then_divide (x y z : ℕ) : Except ℕ ℕ := math128.mul_div x y z

def amount_to_shares_with_total_coins (self : Pool) (coins_amount total_coins : ℕ) :
    Except ℕ ℕ :=
  if self.total_coins = 0 ∨ self.total_shares = 0 then
    checked_mul 128 coins_amount self.scaling_factor
  else multiply_then_divide coins_amount self.total_shares total_coins

def amount_to_shares (self : Pool) (coins_amount : ℕ) : Except ℕ ℕ :=
  amount_to_shares_with_total_coins self coins_amount self.total_coins

def shares_to_amount_with_total_coins (self : Pool) (shares total_coins : ℕ) : Except ℕ ℕ :=
  if self.total_coins = 0 ∨ self.total_shares = 0 then .ok 0
  else do
    let amount ← multiply_then_divide shares total_coins self.total_shares
    cast 64 amount

def shares_to_amount (self : Pool) (shares : ℕ) : Except ℕ ℕ :=
  shares_to_amount_with_total_coins self shares self.total_coins

def balance (self : Pool) (shareholder : AccountAddress) : Except ℕ ℕ :=
  shares_to_amount self (shares self shareholder)

-- MAX_U128 - current_shares cannot underflow on a u128, so it is taken as a natural number.
def add_shares (self : Pool) (shareholder : AccountAddress) (new_shares : ℕ) :
    Except ℕ (Pool × ℕ) :=
  if contains self shareholder then do
    let current_shares ← table.borrow self.shares shareholder
    unless MAX_U128 - current_shares ≥ new_shares do
      throw (invalid_argument ESHAREHOLDER_SHARES_OVERFLOW)
    let existing_shares ← checked_add 128 current_shares new_shares
    let shares ← table.borrow_mut self.shares shareholder existing_shares
    pure ({ self with shares }, existing_shares)
  else if new_shares > 0 then do
    let shares ← table.add self.shares shareholder new_shares
    pure ({ self with shares }, new_shares)
  else pure (self, new_shares)

def deduct_shares (self : Pool) (shareholder : AccountAddress) (num_shares : ℕ) :
    Except ℕ (Pool × ℕ) := do
  unless contains self shareholder do throw (invalid_argument ESHAREHOLDER_NOT_FOUND)
  unless shares self shareholder ≥ num_shares do throw (invalid_argument EINSUFFICIENT_SHARES)
  let existing_shares ← table.borrow self.shares shareholder
  let remaining_shares ← checked_sub existing_shares num_shares
  let shares ← table.borrow_mut self.shares shareholder remaining_shares
  if remaining_shares = 0 then do
    let (shares, _) ← table.remove shares shareholder
    pure ({ self with shares }, remaining_shares)
  else pure ({ self with shares }, remaining_shares)

def buy_in (self : Pool) (shareholder : AccountAddress) (coins_amount : ℕ) :
    Except ℕ (Pool × ℕ) :=
  if coins_amount = 0 then pure (self, 0)
  else do
    let new_shares ← amount_to_shares self coins_amount
    unless MAX_U64 - self.total_coins ≥ coins_amount do
      throw (invalid_argument EPOOL_TOTAL_COINS_OVERFLOW)
    unless MAX_U128 - self.total_shares ≥ new_shares do
      throw (invalid_argument EPOOL_TOTAL_SHARES_OVERFLOW)
    let total_coins ← checked_add 64 self.total_coins coins_amount
    let total_shares ← checked_add 128 self.total_shares new_shares
    let (self, _) ← add_shares { self with total_coins, total_shares } shareholder new_shares
    pure (self, new_shares)

def redeem_shares (self : Pool) (shareholder : AccountAddress) (shares_to_redeem : ℕ) :
    Except ℕ (Pool × ℕ) := do
  unless contains self shareholder do throw (invalid_argument ESHAREHOLDER_NOT_FOUND)
  unless shares self shareholder ≥ shares_to_redeem do
    throw (invalid_argument EINSUFFICIENT_SHARES)
  if shares_to_redeem = 0 then pure (self, 0)
  else do
    let redeemed_coins ← shares_to_amount self shares_to_redeem
    let total_coins ← checked_sub self.total_coins redeemed_coins
    let total_shares ← checked_sub self.total_shares shares_to_redeem
    let (self, _) ←
      deduct_shares { self with total_coins, total_shares } shareholder shares_to_redeem
    pure (self, redeemed_coins)

def transfer_shares (self : Pool) (shareholder_1 shareholder_2 : AccountAddress)
    (shares_to_transfer : ℕ) : Except ℕ Pool := do
  unless contains self shareholder_1 do throw (invalid_argument ESHAREHOLDER_NOT_FOUND)
  unless shares self shareholder_1 ≥ shares_to_transfer do
    throw (invalid_argument EINSUFFICIENT_SHARES)
  if shares_to_transfer = 0 then pure self
  else do
    let (self, _) ← deduct_shares self shareholder_1 shares_to_transfer
    let (self, _) ← add_shares self shareholder_2 shares_to_transfer
    pure self

end Zapatos.Stdlib.pool_u64_unbound

import Mathlib.Data.List.Basic
import Zapatos.Types.Ledger

namespace Zapatos.Stake

def MAX_U64 : ℕ := 2 ^ 64 - 1

structure ValidatorConfig where
  consensus_pubkey : ℕ
  validator_index : ℕ
deriving DecidableEq, Repr

structure ValidatorInfo where
  addr : AccountAddress
  voting_power : ℕ
  config : ValidatorConfig
deriving DecidableEq, Repr

structure ValidatorSet where
  consensus_scheme : ℕ
  active_validators : List ValidatorInfo
  pending_inactive : List ValidatorInfo
  pending_active : List ValidatorInfo
  total_voting_power : ℕ
  total_joining_power : ℕ
deriving DecidableEq, Repr

-- Coins are kept by their value.
structure StakePool where
  active : ℕ
  inactive : ℕ
  pending_active : ℕ
  pending_inactive : ℕ
  locked_until_secs : ℕ
deriving DecidableEq, Repr

structure IndividualValidatorPerformance where
  successful_proposals : ℕ
  failed_proposals : ℕ
deriving DecidableEq, Repr

structure StakingConfig where
  minimum_stake : ℕ
  maximum_stake : ℕ
  recurring_lockup_duration_secs : ℕ
  rewards_rate : ℕ
  rewards_rate_denominator : ℕ
deriving DecidableEq, Repr

-- The global storage the two functions read: the resources at @aptos_framework, the stake pool
-- and validator config of every address, the feature flags and the clock. The pending fee map
-- and the fee config are `none` when the resource does not exist; `epoch_rewards_rate` is the
-- rate `staking_config` derives from `StakingRewardsConfig`.
structure State where
  validator_set : ValidatorSet
  validator_perf : List IndividualValidatorPerformance
  stake_pools : AccountAddress → StakePool
  validator_configs : AccountAddress → ValidatorConfig
  pending_transaction_fee : Option (List (ℕ × ℕ))
  transaction_fee_config : Option ℕ
  staking_config : StakingConfig
  epoch_rewards_rate : ℕ × ℕ
  periodical_reward_rate_decrease_enabled : Bool
  distribute_transaction_fee_enabled : Bool
  reconfiguration_start_time_secs : Option ℕ
  now_seconds : ℕ
  chain_is_operating : Bool

def get_reward_rate (s : State) : ℕ × ℕ :=
  if s.periodical_reward_rate_decrease_enabled then s.epoch_rewards_rate
  else (s.staking_config.rewards_rate, s.staking_config.rewards_rate_denominator)

def get_reconfig_start_time_secs (s : State) : ℕ :=
  match s.reconfiguration_start_time_secs with
  | some start_time_secs => start_time_secs
  | none => s.now_seconds

def calculate_rewards_amount (stake_amount num_successful_proposals num_total_proposals
    rewards_rate rewards_rate_denominator : ℕ) : ℕ :=
  let rewards_numerator := stake_amount * rewards_rate * num_successful_proposals
  let rewards_denominator := rewards_rate_denominator * num_total_proposals
  if rewards_denominator > 0 then rewards_numerator / rewards_denominator else 0

-- The coin after the rewards are minted into it, and the rewards amount.
def distribute_rewards (stake num_successful_proposals num_total_proposals rewards_rate
    rewards_rate_denominator : ℕ) : ℕ × ℕ :=
  let rewards_amount := if stake > 0 then
      calculate_rewards_amount stake num_successful_proposals num_total_proposals rewards_rate
        rewards_rate_denominator
    else 0
  (if rewards_amount > 0 then stake + rewards_amount else stake, rewards_amount)

-- The fee share of one pool: the fee split between pending_inactive and active stake, and the
-- fee map with the validator's entry removed. Dividing by a zero stake aborts.
def split_pending_fee (stake_pool : StakePool) (validator_index fee_limit : ℕ) :
    Option (List (ℕ × ℕ)) → Option (ℕ × ℕ × Option (List (ℕ × ℕ)))
  | none => some (0, 0, none)
  | some pending_fee_by_validator =>
    match pending_fee_by_validator.lookup validator_index with
    | none => some (0, 0, some pending_fee_by_validator)
    | some fee_octa =>
      let fee_octa := if fee_octa > fee_limit then fee_limit else fee_octa
      let stake_active := stake_pool.active
      let stake_pending_inactive := stake_pool.pending_inactive
      if stake_active + stake_pending_inactive = 0 then none
      else
        let fee_pending_inactive :=
          fee_octa * stake_pending_inactive / (stake_active + stake_pending_inactive)
        some (fee_pending_inactive, fee_octa - fee_pending_inactive,
          some (pending_fee_by_validator.eraseP (·.1 == validator_index)))

def update_stake_pool (validator_perf : List IndividualValidatorPerformance)
    (pool_address : AccountAddress) (s : State) : Option State := do
  let stake_pool := s.stake_pools pool_address
  let validator_config := s.validator_configs pool_address
  let validator_index := validator_config.validator_index
  let cur_validator_perf ← validator_perf[validator_index]?
  let num_successful_proposals := cur_validator_perf.successful_proposals
  let fee_limit := s.transaction_fee_config.getD MAX_U64
  let (fee_pending_inactive, fee_active, pending_transaction_fee) ←
    split_pending_fee stake_pool validator_index fee_limit s.pending_transaction_fee
  let num_total_proposals :=
    cur_validator_perf.successful_proposals + cur_validator_perf.failed_proposals
  let (rewards_rate, rewards_rate_denominator) := get_reward_rate s
  let (active, _) := distribute_rewards stake_pool.active num_successful_proposals
    num_total_proposals rewards_rate rewards_rate_denominator
  let (pending_inactive, _) := distribute_rewards stake_pool.pending_inactive
    num_successful_proposals num_total_proposals rewards_rate rewards_rate_denominator
  let (active, pending_inactive) := if s.distribute_transaction_fee_enabled then
      (active + fee_active, pending_inactive + fee_pending_inactive)
    else (active, pending_inactive)
  let active := active + stake_pool.pending_active
  let (inactive, pending_inactive) :=
    if get_reconfig_start_time_secs s ≥ stake_pool.locked_until_secs then
      (stake_pool.inactive + pending_inactive, 0)
    else (stake_pool.inactive, pending_inactive)
  pure { s with
    stake_pools := Function.update s.stake_pools pool_address
      ⟨active, inactive, 0, pending_inactive, stake_pool.locked_until_secs⟩
    pending_transaction_fee }

def update_stake_pools (validator_perf : List IndividualValidatorPerformance) :
    List ValidatorInfo → State → Option State
  | [], s => some s
  | validator :: rest, s => do
    let s ← update_stake_pool validator_perf validator.addr s
    update_stake_pools validator_perf rest s

def append {T : Type} (v1 v2 : List T) : List T × List T :=
  if h : v2 = [] then (v1, v2)
  else append (v1 ++ [v2.getLast h]) v2.dropLast
termination_by v2.length
decreasing_by
  simp only [List.length_dropLast]
  have := List.length_pos_of_ne_nil h
  omega

def get_next_epoch_voting_power (stake_pool : StakePool) : ℕ :=
  stake_pool.pending_active + stake_pool.active + stake_pool.pending_inactive

def generate_validator_info (addr : AccountAddress) (stake_pool : StakePool)
    (config : ValidatorConfig) : ValidatorInfo :=
  ⟨addr, get_next_epoch_voting_power stake_pool, config⟩

-- The loop of on_new_epoch that refreshes the active validators and drops those under the
-- minimum stake.
def next_epoch_validators (s : State) (minimum_stake : ℕ) :
    List ValidatorInfo → List ValidatorInfo → ℕ → List ValidatorInfo × ℕ
  | [], next_epoch_validators, total_voting_power => (next_epoch_validators, total_voting_power)
  | old_validator_info :: rest, next_epoch_validators, total_voting_power =>
    let pool_address := old_validator_info.addr
    let new_validator_info := generate_validator_info pool_address (s.stake_pools pool_address)
      (s.validator_configs pool_address)
    if new_validator_info.voting_power ≥ minimum_stake then
      Stake.next_epoch_validators s minimum_stake rest
        (next_epoch_validators ++ [new_validator_info])
        (total_voting_power + new_validator_info.voting_power)
    else Stake.next_epoch_validators s minimum_stake rest next_epoch_validators total_voting_power

-- The loop of on_new_epoch that sets the validator indices, resets the performance counters and
-- renews the lockups.
def renew_validators (recurring_lockup_duration_secs : ℕ) :
    ℕ → List ValidatorInfo → State → List ValidatorInfo × State
  | _, [], s => ([], s)
  | validator_index, validator_info :: rest, s =>
    let validator_info := { validator_info with
      config := { validator_info.config with validator_index } }
    let validator_config := { s.validator_configs validator_info.addr with validator_index }
    let stake_pool := s.stake_pools validator_info.addr
    let now_secs := s.now_seconds
    let reconfig_start_secs :=
      if s.chain_is_operating then get_reconfig_start_time_secs s else now_secs
    let stake_pool := if stake_pool.locked_until_secs ≤ reconfig_start_secs then
        { stake_pool with locked_until_secs := now_secs + recurring_lockup_duration_secs }
      else stake_pool
    let s := { s with
      validator_configs := Function.update s.validator_configs validator_info.addr validator_config
      validator_perf := s.validator_perf ++ [⟨0, 0⟩]
      stake_pools := Function.update s.stake_pools validator_info.addr stake_pool }
    let (rest, s) := renew_validators recurring_lockup_duration_secs (validator_index + 1) rest s
    (validator_info :: rest, s)

-- `BigOrderedMap::add` aborts on a key that is already present.
def add_pending_fees (pending_fee_by_validator : List (ℕ × ℕ)) :
    List ValidatorInfo → Option (List (ℕ × ℕ))
  | [] => some pending_fee_by_validator
  | v :: rest =>
    if (pending_fee_by_validator.lookup v.config.validator_index).isSome then none
    else add_pending_fees (pending_fee_by_validator ++ [(v.config.validator_index, 0)]) rest

-- The update of the rewards rate at the end, which only touches `StakingRewardsConfig`, is not
-- part of the model.
def on_new_epoch (s : State) : Option State := do
  let validator_perf := s.validator_perf
  let s ← update_stake_pools validator_perf s.validator_set.active_validators s
  let s ← update_stake_pools validator_perf s.validator_set.pending_inactive s
  let (active_validators, pending_active) :=
    append s.validator_set.active_validators s.validator_set.pending_active
  let minimum_stake := s.staking_config.minimum_stake
  let (next_epoch_validators, total_voting_power) :=
    Stake.next_epoch_validators s minimum_stake active_validators [] 0
  let s := { s with validator_perf := [] }
  let (active_validators, s) := renew_validators s.staking_config.recurring_lockup_duration_secs 0
    next_epoch_validators s
  let s := { s with validator_set := { s.validator_set with
    active_validators, pending_active, pending_inactive := [], total_voting_power,
    total_joining_power := 0 } }
  match s.pending_transaction_fee with
  | none => pure s
  | some pending_fee_by_validator =>
    if pending_fee_by_validator ≠ [] then none
    else do
      let pending_fee_by_validator ← add_pending_fees [] active_validators
      pure { s with pending_transaction_fee := some pending_fee_by_validator }

end Zapatos.Stake

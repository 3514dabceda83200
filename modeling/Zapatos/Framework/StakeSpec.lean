import Zapatos.Framework.Stake

namespace Zapatos.Stake

theorem append_eq {T : Type} (v1 v2 : List T) : append v1 v2 = (v1 ++ v2.reverse, []) := by
  induction v1, v2 using append.induct with
  | case1 v1 => simp [append]
  | case2 v1 v2 h ih =>
    rw [append, dif_neg h, ih]
    have hsplit : v2.reverse = v2.getLast h :: v2.dropLast.reverse := by
      conv_lhs => rw [← List.dropLast_append_getLast h]
      simp
    simp [hsplit]

theorem distribute_rewards_fst (stake num_successful_proposals num_total_proposals rewards_rate
    rewards_rate_denominator : ℕ) :
    (distribute_rewards stake num_successful_proposals num_total_proposals rewards_rate
      rewards_rate_denominator).1 = stake + (distribute_rewards stake num_successful_proposals
        num_total_proposals rewards_rate rewards_rate_denominator).2 := by
  unfold distribute_rewards
  dsimp only
  split_ifs <;> omega

-- The rewards update_stake_pool mints on a stake, given the validator's performance.
def rewards_on (s : State) (cur_perf : IndividualValidatorPerformance) (stake : ℕ) : ℕ :=
  (distribute_rewards stake cur_perf.successful_proposals
    (cur_perf.successful_proposals + cur_perf.failed_proposals) (get_reward_rate s).1
    (get_reward_rate s).2).2

theorem update_stake_pool_ok {validator_perf : List IndividualValidatorPerformance}
    {pool_address : AccountAddress} {s s' : State}
    (h : update_stake_pool validator_perf pool_address s = some s') :
    ∃ cur_perf fee_pending_inactive fee_active fees stake_pool,
      validator_perf[(s.validator_configs pool_address).validator_index]? = some cur_perf ∧
      split_pending_fee (s.stake_pools pool_address)
        (s.validator_configs pool_address).validator_index (s.transaction_fee_config.getD MAX_U64)
        s.pending_transaction_fee = some (fee_pending_inactive, fee_active, fees) ∧
      s' = { s with
        stake_pools := Function.update s.stake_pools pool_address stake_pool
        pending_transaction_fee := fees } ∧
      get_next_epoch_voting_power stake_pool =
        (s.stake_pools pool_address).active +
          rewards_on s cur_perf (s.stake_pools pool_address).active +
          (if s.distribute_transaction_fee_enabled then fee_active else 0) +
          (s.stake_pools pool_address).pending_active +
          (if (s.stake_pools pool_address).locked_until_secs ≤ get_reconfig_start_time_secs s then 0
          else (s.stake_pools pool_address).pending_inactive +
            rewards_on s cur_perf (s.stake_pools pool_address).pending_inactive +
            (if s.distribute_transaction_fee_enabled then fee_pending_inactive else 0)) := by
  unfold update_stake_pool at h
  simp only [Option.bind_eq_bind, Option.bind_eq_some_iff] at h
  obtain ⟨cur_perf, hperf, ⟨fee_pending_inactive, fee_active, fees⟩, hsplit, h⟩ := h
  refine ⟨cur_perf, fee_pending_inactive, fee_active, fees, _, hperf, hsplit, (Option.some.inj h).symm, ?_⟩
  simp only [get_next_epoch_voting_power, rewards_on, distribute_rewards_fst]
  split <;> split <;> simp_all

-- A pending fee of a validator with neither active nor pending_inactive stake is divided by
-- zero, whatever the fee: update_stake_pool aborts.
theorem update_stake_pool_zero_stake {validator_perf : List IndividualValidatorPerformance}
    {pool_address : AccountAddress} {s : State} {fees : List (ℕ × ℕ)} {fee : ℕ}
    (hfees : s.pending_transaction_fee = some fees)
    (hfee : fees.lookup (s.validator_configs pool_address).validator_index = some fee)
    (hstake : (s.stake_pools pool_address).active +
      (s.stake_pools pool_address).pending_inactive = 0) :
    update_stake_pool validator_perf pool_address s = none := by
  cases h : update_stake_pool validator_perf pool_address s with
  | none => rfl
  | some s' =>
    obtain ⟨_, _, _, _, _, -, hsplit, -⟩ := update_stake_pool_ok h
    simp [split_pending_fee, hfees, hfee, hstake] at hsplit

-- minimum_stake = 0 lets a validator join with no stake. The first epoch transition makes it
-- active and opens its pending fee entry; the second divides that fee by its zero stake.
theorem on_new_epoch_zero_stake_aborts :
    let v : ValidatorInfo := ⟨1, 0, ⟨1, 0⟩⟩
    let s : State := ⟨⟨0, [], [], [v], 0, 0⟩, [], fun _ => ⟨0, 0, 0, 0, 0⟩, fun a => ⟨a, 0⟩,
      some [], none, ⟨0, 100, 10, 0, 1⟩, (0, 1), false, true, none, 0, false⟩
    ∃ s', on_new_epoch s = some s' ∧ s'.validator_set.active_validators = [v] ∧
      s'.stake_pools v.addr = ⟨0, 0, 0, 0, 10⟩ ∧ s'.pending_transaction_fee = some [(0, 0)] ∧
      on_new_epoch s' = none := by
  intro v s
  obtain ⟨s', hepoch⟩ : ∃ s', on_new_epoch s = some s' := by
    apply Option.isSome_iff_exists.mp
    simp only [on_new_epoch, append_eq]
    decide
  have hfacts : (on_new_epoch s).map (fun s' => (s'.validator_set.active_validators,
      s'.stake_pools v.addr, s'.validator_configs v.addr)) =
      some ([v], ⟨0, 0, 0, 0, 10⟩, ⟨1, 0⟩) := by
    simp only [on_new_epoch, append_eq]
    decide
  have hfee : (on_new_epoch s).map (·.pending_transaction_fee) = some (some [(0, 0)]) := by
    simp only [on_new_epoch, append_eq]
    decide
  rw [hepoch, Option.map_some, Option.some.injEq, Prod.mk.injEq, Prod.mk.injEq] at hfacts
  rw [hepoch, Option.map_some, Option.some.injEq] at hfee
  obtain ⟨hactive, hpool, hconfig⟩ := hfacts
  refine ⟨s', hepoch, hactive, hpool, hfee, ?_⟩
  have hlookup : [(0, 0)].lookup (s'.validator_configs v.addr).validator_index = some 0 := by
    simp [hconfig]
  have habort : update_stake_pool s'.validator_perf v.addr s' = none :=
    update_stake_pool_zero_stake hfee hlookup (by simp [hpool])
  simp [on_new_epoch, hactive, update_stake_pools, habort]

section Prediction

variable (s : State) (minimum_stake rewards_rate rewards_rate_denominator num_cur_actives : ℕ)

end Prediction

end Zapatos.Stake

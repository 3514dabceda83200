import Mathlib.Algebra.BigOperators.Group.List.Basic
import Zapatos.Types.Ledger
import Zapatos.Lib.Quorum

namespace Zapatos.ValidatorVerifier

def power (v : ValidatorVerifier) (a : AccountAddress) : ℕ := (v.get_voting_power a).getD 0

variable {infos : List ValidatorConsensusInfo}

theorem get_info_mem {v : ValidatorVerifier} {a : AccountAddress} {i : ValidatorConsensusInfo}
    (h : v.get_info a = some i) : i ∈ v.validator_infos ∧ i.address = a := by
  unfold get_info at h
  exact ⟨List.mem_reverse.mp (List.mem_of_find?_eq_some h), by simpa using List.find?_some h⟩

theorem address_to_validator_index_mem {v : ValidatorVerifier} {a : AccountAddress} {i : ℕ}
    (h : v.address_to_validator_index a = some i) :
    ∃ info, v.validator_infos[i]? = some info ∧ info.address = a := by
  unfold address_to_validator_index at h
  obtain ⟨p, hp, rfl⟩ := Option.map_eq_some_iff.mp h
  have hmem := List.mem_reverse.mp (List.mem_of_find?_eq_some hp)
  exact ⟨p.1, List.mem_zipIdx_iff_getElem?.mp hmem, by simpa using List.find?_some hp⟩

theorem address_to_validator_index_inj {v : ValidatorVerifier} {a b : AccountAddress} {i : ℕ}
    (ha : v.address_to_validator_index a = some i) (hb : v.address_to_validator_index b = some i) :
    a = b := by
  obtain ⟨x, hx, rfl⟩ := address_to_validator_index_mem ha
  obtain ⟨y, hy, rfl⟩ := address_to_validator_index_mem hb
  rw [hx, Option.some_inj] at hy
  rw [hy]

theorem address_to_validator_index_isSome {v : ValidatorVerifier} {a : AccountAddress}
    (h : a ∈ v.get_ordered_account_addresses) : (v.address_to_validator_index a).isSome := by
  obtain ⟨info, hinfo, rfl⟩ := List.mem_map.mp h
  obtain ⟨i, hi⟩ := List.mem_iff_getElem?.mp hinfo
  have hz : (info, i) ∈ v.validator_infos.zipIdx := List.mem_zipIdx_iff_getElem?.mpr hi
  unfold address_to_validator_index
  rw [Option.isSome_map, List.find?_isSome]
  exact ⟨(info, i), List.mem_reverse.mpr hz, by simp⟩

theorem get_info_new (hnd : (infos.map (·.address)).Nodup) {i : ValidatorConsensusInfo}
    (hi : i ∈ infos) : (new infos).get_info i.address = some i := by
  have hsome : (infos.reverse.find? (·.address == i.address)).isSome :=
    List.find?_isSome.mpr ⟨i, List.mem_reverse.mpr hi, by simp⟩
  obtain ⟨j, hj⟩ := Option.isSome_iff_exists.mp hsome
  have hj' : (new infos).get_info i.address = some j := hj
  obtain ⟨hjm, hja⟩ := get_info_mem hj'
  rw [hj', List.inj_on_of_nodup_map hnd hjm hi hja]

theorem mem_addresses_of_power_ne_zero {v : ValidatorVerifier} {a : AccountAddress}
    (h : v.power a ≠ 0) : a ∈ v.validator_infos.map (·.address) := by
  unfold power get_voting_power at h
  cases hi : v.get_info a with
  | none => simp [hi] at h
  | some i =>
    obtain ⟨him, hia⟩ := get_info_mem hi
    exact List.mem_map.mpr ⟨i, him, hia⟩

theorem sum_power_le_total (hnd : (infos.map (·.address)).Nodup) (S : Finset AccountAddress) :
    ∑ a ∈ S, (new infos).power a ≤ (new infos).total_voting_power := by
  have hsub : ∑ a ∈ S, (new infos).power a ≤
      ∑ a ∈ (infos.map (·.address)).toFinset, (new infos).power a :=
    Finset.sum_le_sum_of_ne_zero fun a _ hne =>
      List.mem_toFinset.mpr (mem_addresses_of_power_ne_zero hne)
  have hpow : (infos.map (·.address)).map (new infos).power = infos.map (·.voting_power) := by
    rw [List.map_map]
    exact List.map_congr_left fun i hi => by
      simp [power, get_voting_power, get_info_new hnd hi]
  calc ∑ a ∈ S, (new infos).power a
      ≤ ∑ a ∈ (infos.map (·.address)).toFinset, (new infos).power a := hsub
    _ = ((infos.map (·.address)).map (new infos).power).sum := List.sum_toFinset _ hnd
    _ = (new infos).total_voting_power := by rw [hpow]; rfl

-- Quorum intersection for the verifier of a validator set with distinct addresses.
theorem exists_honest_of_quorums (hnd : (infos.map (·.address)).Nodup)
    {A B F : Finset AccountAddress}
    (hF : 3 * ∑ a ∈ F, (new infos).power a < (new infos).total_voting_power)
    (hA : (new infos).quorum_voting_power ≤ ∑ a ∈ A, (new infos).power a)
    (hB : (new infos).quorum_voting_power ≤ ∑ a ∈ B, (new infos).power a) :
    ∃ a ∈ A, a ∈ B ∧ a ∉ F := by
  have hne : infos.isEmpty = false := by
    cases infos with
    | nil => simp [new] at hF
    | cons i t => rfl
  have hq : (new infos).quorum_voting_power = (new infos).total_voting_power * 2 / 3 + 1 := by
    simp [new, hne]
  rw [hq] at hA hB
  exact Quorum.exists_mem_inter_not_mem _ (sum_power_le_total hnd _) hF hA hB

end Zapatos.ValidatorVerifier

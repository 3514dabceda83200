import Zapatos.Consensus.SafetyRules
import Zapatos.Lib.Basic

namespace Zapatos.Consensus

variable {H : Type}

theorem ensure_ok {c : Bool} {e : Error H} {u : Unit} (h : ensure c e = .ok u) : c = true := by
  cases c
  · cases h
  · rfl

theorem next_round_ok {r n : ℕ} (h : next_round (H := H) r = .ok n) : n = r + 1 := by
  unfold next_round at h
  split at h
  · cases h; rfl
  · cases h

theorem verify_epoch_ok {e : ℕ} {sd : SafetyData H} {u : Unit} (h : verify_epoch e sd = .ok u) :
    e = sd.epoch := by
  unfold verify_epoch at h
  split at h
  · cases h
  · rename_i hc
    simpa using hc

theorem verify_and_update_last_vote_round_ok {r : ℕ} {sd sd' : SafetyData H}
    (h : verify_and_update_last_vote_round r sd = .ok sd') :
    sd.last_voted_round < r ∧ sd' = { sd with last_voted_round := r } := by
  unfold verify_and_update_last_vote_round at h
  split at h
  · cases h
  · rename_i hc
    cases h
    exact ⟨by omega, rfl⟩

@[simp] theorem observe_qc_epoch (qc : QuorumCert H) (sd : SafetyData H) :
    (observe_qc qc sd).2.epoch = sd.epoch := by
  unfold observe_qc
  dsimp only
  split_ifs <;> rfl

@[simp] theorem observe_qc_last_voted_round (qc : QuorumCert H) (sd : SafetyData H) :
    (observe_qc qc sd).2.last_voted_round = sd.last_voted_round := by
  unfold observe_qc
  dsimp only
  split_ifs <;> rfl

@[simp] theorem observe_qc_last_vote (qc : QuorumCert H) (sd : SafetyData H) :
    (observe_qc qc sd).2.last_vote = sd.last_vote := by
  unfold observe_qc
  dsimp only
  split_ifs <;> rfl

@[simp] theorem observe_qc_highest_timeout_round (qc : QuorumCert H) (sd : SafetyData H) :
    (observe_qc qc sd).2.highest_timeout_round = sd.highest_timeout_round := by
  unfold observe_qc
  dsimp only
  split_ifs <;> rfl

@[simp] theorem observe_qc_one_chain_round (qc : QuorumCert H) (sd : SafetyData H) :
    (observe_qc qc sd).2.one_chain_round = max sd.one_chain_round qc.certified_block.round := by
  unfold observe_qc
  dsimp only
  split_ifs <;> simp_all <;> omega

@[simp] theorem observe_qc_preferred_round (qc : QuorumCert H) (sd : SafetyData H) :
    (observe_qc qc sd).2.preferred_round = max sd.preferred_round qc.parent_block.round := by
  unfold observe_qc
  dsimp only
  split_ifs <;> simp_all <;> omega

@[simp] theorem update_highest_timeout_round_eq (t : TwoChainTimeout H) (sd : SafetyData H) :
    update_highest_timeout_round t sd =
      { sd with highest_timeout_round := max sd.highest_timeout_round t.round } := by
  unfold update_highest_timeout_round
  split
  · rw [Nat.max_eq_right (by omega)]
  · rw [Nat.max_eq_left (by omega)]

theorem safe_to_timeout_ok {t : TwoChainTimeout H} {tc : Option (TwoChainTimeoutCertificate H)}
    {sd : SafetyData H} {u : Unit} (h : safe_to_timeout t tc sd = .ok u) :
    (t.round = t.hqc_round + 1 ∨ t.round = (tc.map (·.round)).getD 0 + 1) ∧
      sd.one_chain_round ≤ t.hqc_round := by
  unfold safe_to_timeout at h
  obtain ⟨n1, h1, h⟩ := Except.bind_eq_ok h
  obtain ⟨n2, h2, h⟩ := Except.bind_eq_ok h
  rw [next_round_ok h1, next_round_ok h2] at h
  split at h
  · rename_i hc
    simp only [Bool.and_eq_true, Bool.or_eq_true, beq_iff_eq, decide_eq_true_eq] at hc
    exact hc
  · cases h

theorem safe_to_vote_ok {b : Block H} {tc : Option (TwoChainTimeoutCertificate H)} {u : Unit}
    (h : safe_to_vote b tc = .ok u) :
    b.round = b.quorum_cert.certified_block.round + 1 ∨
      (b.round = (tc.map (·.round)).getD 0 + 1 ∧
        (tc.map (·.highest_hqc_round)).getD 0 ≤ b.quorum_cert.certified_block.round) := by
  unfold safe_to_vote at h
  obtain ⟨n1, h1, h⟩ := Except.bind_eq_ok h
  obtain ⟨n2, h2, h⟩ := Except.bind_eq_ok h
  rw [next_round_ok h1, next_round_ok h2] at h
  split at h
  · rename_i hc
    simp only [Bool.and_eq_true, Bool.or_eq_true, beq_iff_eq, decide_eq_true_eq] at hc
    exact hc
  · cases h

theorem safe_for_order_vote_ok {b : Block H} {sd : SafetyData H} {u : Unit}
    (h : safe_for_order_vote b sd = .ok u) : sd.highest_timeout_round < b.round := by
  unfold safe_for_order_vote at h
  split at h
  · assumption
  · cases h

theorem construct_ledger_info_2chain_ok [Zero H] {cc : ConsensusCrypto H} {b : Block H} {d : H}
    {li : LedgerInfo H} (h : construct_ledger_info_2chain cc b d = .ok li) :
    li.consensus_data_hash = d ∧
      li.commit_info = if b.round = b.quorum_cert.certified_block.round + 1
        then b.quorum_cert.certified_block else BlockInfo.empty := by
  unfold construct_ledger_info_2chain at h
  obtain ⟨n, hn, h⟩ := Except.bind_eq_ok h
  rw [next_round_ok hn] at h
  cases h
  refine ⟨rfl, ?_⟩
  by_cases hr : b.round = b.quorum_cert.certified_block.round + 1
  · simp [hr]
  · have : (b.quorum_cert.certified_block.round + 1 == b.round) = false := by
      simp only [beq_eq_false_iff_ne]; omega
    simp [this, hr]

theorem gen_vote_data_some {cc : ConsensusCrypto H}
    {ve : AccumulatorExtensionProof H → H → Option (H × ℕ)} {vp : VoteProposal H}
    {vd : VoteData H} (h : vp.gen_vote_data cc ve = some vd) :
    vd.proposed.epoch = vp.block.epoch ∧ vd.proposed.round = vp.block.round ∧
      vd.proposed.id = vp.block.id cc ∧ vd.parent = vp.block.quorum_cert.certified_block := by
  unfold VoteProposal.gen_vote_data at h
  split at h
  · cases h; exact ⟨rfl, rfl, rfl, rfl⟩
  · split at h
    · cases h
    · cases h; exact ⟨rfl, rfl, rfl, rfl⟩

namespace SafetyRules

variable [DecidableEq H] [Zero H] {cc : ConsensusCrypto H} {k : Checks H} {io : StorageIO}
  {sr sr' : SafetyRules H}

def setSafetyData (sr : SafetyRules H) (sd : SafetyData H) : SafetyRules H :=
  { sr with persistent_storage := { sr.persistent_storage with safety_data := sd } }

omit [DecidableEq H] [Zero H] in
@[simp] theorem setSafetyData_safety_data (sr : SafetyRules H) (sd : SafetyData H) :
    (sr.setSafetyData sd).persistent_storage.safety_data = sd := rfl

omit [DecidableEq H] [Zero H] in
theorem set_safety_data_ok {sd : SafetyData H} (h : sr.set_safety_data io sd = .ok sr') :
    sr' = sr.setSafetyData sd := by
  unfold set_safety_data PersistentSafetyStorage.set_safety_data at h
  split at h
  · cases h; rfl
  · cases h

omit [DecidableEq H] [Zero H] in
theorem signer_ok {s : ValidatorSigner} (h : sr.signer = .ok s) : sr.validator_signer = some s := by
  unfold signer at h
  split at h
  · cases h; assumption
  · cases h

omit [Zero H] in
theorem verify_proposal_ok {vp : VoteProposal H} {vd : VoteData H}
    (h : sr.verify_proposal cc k vp = .ok vd) :
    vp.block.epoch = sr.persistent_storage.safety_data.epoch ∧
      sr.verify_qc cc vp.block.quorum_cert = .ok () ∧
      vp.block.verify_well_formed k.now_usecs = true ∧
      vp.gen_vote_data cc k.verify_extension = some vd := by
  unfold verify_proposal at h
  obtain ⟨u1, h1, h⟩ := Except.bind_eq_ok h
  obtain ⟨u2, h2, h⟩ := Except.bind_eq_ok h
  obtain ⟨u3, h3, h⟩ := Except.bind_eq_ok h
  obtain ⟨u4, h4, h⟩ := Except.bind_eq_ok h
  refine ⟨verify_epoch_ok h1, h2, ensure_ok h4, ?_⟩
  split at h
  · cases h; assumption
  · cases h

omit [Zero H] in
theorem verify_order_vote_proposal_ok {ovp : OrderVoteProposal H} {u : Unit}
    (h : sr.verify_order_vote_proposal cc ovp = .ok u) :
    ovp.block.epoch = sr.persistent_storage.safety_data.epoch ∧
      ovp.quorum_cert.certified_block = ovp.block_info ∧
      ovp.quorum_cert.certified_block.id = ovp.block.id cc ∧
      sr.verify_qc cc ovp.quorum_cert = .ok () := by
  unfold verify_order_vote_proposal at h
  obtain ⟨u1, h1, h⟩ := Except.bind_eq_ok h
  obtain ⟨u2, h2, h⟩ := Except.bind_eq_ok h
  obtain ⟨u3, h3, h⟩ := Except.bind_eq_ok h
  exact ⟨verify_epoch_ok h1, by simpa using ensure_ok h2, by simpa using ensure_ok h3, h⟩

omit [DecidableEq H] [Zero H] in
theorem PersistentSafetyStorage.set_waypoint_safety_data {ps ps' : PersistentSafetyStorage H}
    {w : Waypoint H} (h : ps.set_waypoint io w = .ok ps') : ps'.safety_data = ps.safety_data := by
  unfold PersistentSafetyStorage.set_waypoint at h
  split at h
  · cases h; rfl
  · cases h

omit [Zero H] in
theorem verify_tc_opt_none : sr.verify_tc_opt cc none = .ok () := rfl

omit [Zero H] in
theorem guarded_sign_timeout_with_qc_ok {t : TwoChainTimeout H}
    {tc : Option (TwoChainTimeoutCertificate H)} {sig : Signature TimeoutSigningRepr}
    (h : sr.guarded_sign_timeout_with_qc cc io t tc = .ok (sig, sr')) :
    let sd := sr.persistent_storage.safety_data
    t.epoch = sd.epoch ∧ sd.last_voted_round ≤ t.round ∧ sr.verify_tc_opt cc tc = .ok () ∧
      (t.round = t.hqc_round + 1 ∨ t.round = (tc.map (·.round)).getD 0 + 1) ∧
      sd.one_chain_round ≤ t.hqc_round ∧
      ∃ s, sr.validator_signer = some s ∧ sig = s.sign t.signing_format ∧
        sr' = sr.setSafetyData
          { sd with
            last_voted_round := t.round
            highest_timeout_round := max sd.highest_timeout_round t.round } := by
  unfold guarded_sign_timeout_with_qc at h
  obtain ⟨s, hs, h⟩ := Except.bind_eq_ok h
  obtain ⟨_, hepoch, h⟩ := Except.bind_eq_ok h
  obtain ⟨_, -, h⟩ := Except.bind_eq_ok h
  obtain ⟨_, htc, h⟩ := Except.bind_eq_ok h
  obtain ⟨_, hsafe, h⟩ := Except.bind_eq_ok h
  obtain ⟨_, hle, h⟩ := Except.bind_eq_ok h
  obtain ⟨sd1, hsd1, h⟩ := Except.bind_eq_ok h
  obtain ⟨sr1, hsr1, h⟩ := Except.bind_eq_ok h
  cases h
  have hle : sr.persistent_storage.safety_data.last_voted_round ≤ t.round := by
    simpa using ensure_ok hle
  have hsd1 : sd1 = { sr.persistent_storage.safety_data with last_voted_round := t.round } := by
    split at hsd1
    · exact (verify_and_update_last_vote_round_ok hsd1).2
    · cases hsd1
      rw [show t.round = sr.persistent_storage.safety_data.last_voted_round by omega]
  obtain ⟨hround, hone⟩ := safe_to_timeout_ok hsafe
  refine ⟨verify_epoch_ok hepoch, hle, htc, hround, hone, s, signer_ok hs, rfl, ?_⟩
  rw [set_safety_data_ok hsr1, hsd1, update_highest_timeout_round_eq]

theorem guarded_construct_and_sign_vote_two_chain_ok {vp : VoteProposal H}
    {tc : Option (TwoChainTimeoutCertificate H)} {v : Vote H}
    (h : sr.guarded_construct_and_sign_vote_two_chain cc k io vp tc = .ok (v, sr')) :
    let sd := sr.persistent_storage.safety_data
    ∃ vd, sr.verify_proposal cc k vp = .ok vd ∧ sr.verify_tc_opt cc tc = .ok () ∧
      ((cached_vote sd vp.block = some v ∧ sr' = sr) ∨
        (cached_vote sd vp.block = none ∧ sd.last_voted_round < vp.block.round ∧
          safe_to_vote vp.block tc = .ok () ∧
          ∃ s, sr.validator_signer = some s ∧
            construct_ledger_info_2chain cc vp.block (cc.vote_data_hash vd) = .ok v.ledger_info ∧
            v = ⟨vd, s.author, v.ledger_info⟩ ∧
            sr' = sr.setSafetyData { (observe_qc vp.block.quorum_cert
              { sd with last_voted_round := vp.block.round }).2 with last_vote := some v })) := by
  unfold guarded_construct_and_sign_vote_two_chain at h
  obtain ⟨_, -, h⟩ := Except.bind_eq_ok h
  obtain ⟨vd, hvd, h⟩ := Except.bind_eq_ok h
  obtain ⟨_, htc, h⟩ := Except.bind_eq_ok h
  refine ⟨vd, hvd, htc, ?_⟩
  dsimp only at h
  split at h
  · rename_i vote hcached
    cases h
    exact .inl ⟨hcached, rfl⟩
  · rename_i hcached
    obtain ⟨sd1, hsd1, h⟩ := Except.bind_eq_ok h
    obtain ⟨_, hsafe, h⟩ := Except.bind_eq_ok h
    obtain ⟨s, hs, h⟩ := Except.bind_eq_ok h
    obtain ⟨li, hli, h⟩ := Except.bind_eq_ok h
    obtain ⟨sr1, hsr1, h⟩ := Except.bind_eq_ok h
    cases h
    obtain ⟨hlt, rfl⟩ := verify_and_update_last_vote_round_ok hsd1
    exact .inr ⟨hcached, hlt, hsafe, s, signer_ok hs, hli, rfl, set_safety_data_ok hsr1⟩

theorem guarded_construct_and_sign_order_vote_ok {ovp : OrderVoteProposal H} {o : OrderVote H}
    (h : sr.guarded_construct_and_sign_order_vote cc io ovp = .ok (o, sr')) :
    let sd := sr.persistent_storage.safety_data
    sr.verify_order_vote_proposal cc ovp = .ok () ∧
      sd.highest_timeout_round < ovp.block.round ∧
      ∃ s, sr.validator_signer = some s ∧ o = ⟨s.author, ⟨ovp.block_info, 0⟩⟩ ∧
        sr' = sr.setSafetyData (observe_qc ovp.quorum_cert sd).2 := by
  unfold guarded_construct_and_sign_order_vote at h
  obtain ⟨_, -, h⟩ := Except.bind_eq_ok h
  obtain ⟨_, hovp, h⟩ := Except.bind_eq_ok h
  obtain ⟨_, hsafe, h⟩ := Except.bind_eq_ok h
  obtain ⟨s, hs, h⟩ := Except.bind_eq_ok h
  obtain ⟨sr1, hsr1, h⟩ := Except.bind_eq_ok h
  cases h
  have hhtr := safe_for_order_vote_ok hsafe
  rw [observe_qc_highest_timeout_round] at hhtr
  exact ⟨hovp, hhtr, s, signer_ok hs, rfl, set_safety_data_ok hsr1⟩

omit [DecidableEq H] [Zero H] in
@[simp] theorem reconcile_key_persistent_storage (es : EpochState) :
    (sr.reconcile_key es).1.persistent_storage = sr.persistent_storage := by
  unfold reconcile_key
  dsimp only
  split <;> rfl

-- Initialising either keeps the persisted safety data or starts a later epoch from scratch.
omit [Zero H] in
theorem guarded_initialize_safety_data {proof : EpochChangeProof H}
    (h : sr' = (sr.guarded_initialize cc io proof).1) :
    let sd := sr.persistent_storage.safety_data
    let sd' := sr'.persistent_storage.safety_data
    sd' = sd ∨ (sd.epoch < sd'.epoch ∧ sd' = ⟨sd'.epoch, 0, 0, 0, none, 0⟩) := by
  subst h
  unfold guarded_initialize
  dsimp only
  split
  · exact .inl rfl
  split
  · exact .inl rfl
  split
  · exact .inl rfl
  split
  · exact .inl rfl
  · rename_i ps hps
    have hsd : ps.safety_data = sr.persistent_storage.safety_data := by
      split at hps
      · exact PersistentSafetyStorage.set_waypoint_safety_data hps
      · cases hps; rfl
    split
    · exact .inl (by simpa using hsd)
    split
    · exact .inl (by simpa using hsd)
    · rename_i sr1 hsr1
      rw [reconcile_key_persistent_storage]
      dsimp only
      split at hsr1
      · rename_i hlt
        rw [set_safety_data_ok hsr1]
        exact .inr ⟨by simpa [hsd] using hlt, rfl⟩
      · cases hsr1
        exact .inl (by simpa using hsd)

end SafetyRules

end Zapatos.Consensus

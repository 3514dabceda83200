import Zapatos.Consensus.Types
import Zapatos.Types.EpochChange

namespace Zapatos.Consensus

inductive Error (H : Type) where
  | IncorrectEpoch (provided expected : ℕ)
  | IncorrectRound (round : ℕ)
  | IncorrectLastVotedRound (round last_voted_round : ℕ)
  | IncorrectPreferredRound (round preferred_round : ℕ)
  | InvalidAccumulatorExtension
  | InvalidEpochChangeProof (msg : String)
  | InternalError
  | InvalidLedgerInfo
  | InvalidProposal (msg : String)
  | InvalidQuorumCertificate
  | NotInitialized (what : String)
  | NotSafeForOrderVote (round highest_timeout_round : ℕ)
  | SecureStorageMissingDataError
  | SecureStorageUnexpectedError
  | ValidatorKeyNotFound
  | ValidatorNotInSet (author : AccountAddress)
  | NotSafeToVote (round qc_round tc_round hqc_round : ℕ)
  | NotSafeToTimeout (round qc_round tc_round one_chain_round : ℕ)
  | InvalidTimeoutCertificate
  | InconsistentExecutionResult
  | InvalidOrderedLedgerInfo
  | WaypointOutOfDate (previous_version updated_version current_epoch provided_epoch : ℕ)
  | InvalidTimeout
  | InvalidOneChainQuorumCertificate (qc_block_id block_id : H)
deriving DecidableEq, Repr

variable {H : Type}

def next_round (round : ℕ) : Except (Error H) ℕ :=
  if round + 1 < 2 ^ 64 then .ok (round + 1) else .error (.IncorrectRound round)

-- A signature is its signer and the message signed.
structure Signature (M : Type) where
  author : AccountAddress
  message : M
deriving DecidableEq, Repr

structure ValidatorSigner where
  author : AccountAddress
  public_key : ℕ
deriving DecidableEq, Repr

def ValidatorSigner.sign {M : Type} (s : ValidatorSigner) (message : M) : Signature M :=
  ⟨s.author, message⟩

-- Secure storage: the persisted safety data and waypoint, the owner account, and the public
-- keys of the consensus keys stored under an explicit name and under the default name.
structure PersistentSafetyStorage (H : Type) where
  safety_data : SafetyData H
  waypoint : Waypoint H
  author : AccountAddress
  explicit_keys : List (ℕ × ℕ)
  default_key : Option ℕ

-- Which writes to secure storage succeed during one call.
structure StorageIO where
  set_waypoint_ok : Bool
  set_safety_data_ok : Bool

namespace PersistentSafetyStorage

-- A new store: the keys and the owner account are written and the safety data starts at epoch 1.
def initialize_ (author : AccountAddress) (consensus_private_key : ℕ) (waypoint : Waypoint H) :
    PersistentSafetyStorage H :=
  ⟨⟨1, 0, 0, 0, none, 0⟩, waypoint, author, [], some consensus_private_key⟩

def set_safety_data (io : StorageIO) (s : PersistentSafetyStorage H) (data : SafetyData H) :
    Except (Error H) (PersistentSafetyStorage H) :=
  if io.set_safety_data_ok then .ok { s with safety_data := data }
  else .error .SecureStorageUnexpectedError

def set_waypoint (io : StorageIO) (s : PersistentSafetyStorage H) (w : Waypoint H) :
    Except (Error H) (PersistentSafetyStorage H) :=
  if io.set_waypoint_ok then .ok { s with waypoint := w } else .error .SecureStorageUnexpectedError

def consensus_sk_by_pk (s : PersistentSafetyStorage H) (pk : ℕ) : Except (Error H) ℕ :=
  match s.explicit_keys.lookup pk, s.default_key with
  | some k, _ | none, some k => if k != pk then .error .SecureStorageMissingDataError else .ok k
  | none, none => .error .ValidatorKeyNotFound

end PersistentSafetyStorage

structure SafetyRules (H : Type) where
  persistent_storage : PersistentSafetyStorage H
  validator_signer : Option ValidatorSigner
  epoch_state : Option EpochState
  skip_sig_verify : Bool

def SafetyRules.new (persistent_storage : PersistentSafetyStorage H) (skip_sig_verify : Bool) :
    SafetyRules H :=
  ⟨persistent_storage, none, none, skip_sig_verify⟩

-- What SafetyRules reads from outside the consensus types: the proposer signature check of a
-- block, the extension of the transaction accumulator, and the local clock.
structure Checks (H : Type) where
  validate_signature : ValidatorVerifier → Block H → Bool
  verify_extension : AccumulatorExtensionProof H → H → Option (H × ℕ)
  now_usecs : ℕ

def observe_qc (qc : QuorumCert H) (safety_data : SafetyData H) : Bool × SafetyData H :=
  let one_chain := qc.certified_block.round
  let two_chain := qc.parent_block.round
  let s1 := if one_chain > safety_data.one_chain_round
    then { safety_data with one_chain_round := one_chain } else safety_data
  let s2 := if two_chain > s1.preferred_round then { s1 with preferred_round := two_chain } else s1
  (decide (one_chain > safety_data.one_chain_round) || decide (two_chain > s1.preferred_round), s2)

def update_highest_timeout_round (timeout : TwoChainTimeout H) (safety_data : SafetyData H) :
    SafetyData H :=
  if timeout.round > safety_data.highest_timeout_round
  then { safety_data with highest_timeout_round := timeout.round } else safety_data

def verify_and_update_preferred_round (quorum_cert : QuorumCert H) (safety_data : SafetyData H) :
    Except (Error H) (Bool × SafetyData H) :=
  let preferred_round := safety_data.preferred_round
  let one_chain_round := quorum_cert.certified_block.round
  if one_chain_round < preferred_round then
    .error (.IncorrectPreferredRound one_chain_round preferred_round)
  else .ok (observe_qc quorum_cert safety_data)

def verify_epoch (epoch : ℕ) (safety_data : SafetyData H) : Except (Error H) Unit :=
  if epoch != safety_data.epoch then .error (.IncorrectEpoch epoch safety_data.epoch) else .ok ()

def verify_and_update_last_vote_round (round : ℕ) (safety_data : SafetyData H) :
    Except (Error H) (SafetyData H) :=
  if round ≤ safety_data.last_voted_round then
    .error (.IncorrectLastVotedRound round safety_data.last_voted_round)
  else .ok { safety_data with last_voted_round := round }

def safe_to_timeout (timeout : TwoChainTimeout H)
    (maybe_tc : Option (TwoChainTimeoutCertificate H)) (safety_data : SafetyData H) :
    Except (Error H) Unit := do
  let round := timeout.round
  let qc_round := timeout.hqc_round
  let tc_round := (maybe_tc.map (·.round)).getD 0
  let next_qc ← next_round qc_round
  let next_tc ← next_round tc_round
  if (round == next_qc || round == next_tc) && decide (qc_round ≥ safety_data.one_chain_round) then
    .ok ()
  else .error (.NotSafeToTimeout round qc_round tc_round safety_data.one_chain_round)

def safe_to_vote (block : Block H) (maybe_tc : Option (TwoChainTimeoutCertificate H)) :
    Except (Error H) Unit := do
  let round := block.round
  let qc_round := block.quorum_cert.certified_block.round
  let tc_round := (maybe_tc.map (·.round)).getD 0
  let hqc_round := (maybe_tc.map (·.highest_hqc_round)).getD 0
  let next_qc ← next_round qc_round
  let next_tc ← next_round tc_round
  if round == next_qc || (round == next_tc && decide (qc_round ≥ hqc_round)) then .ok ()
  else .error (.NotSafeToVote round qc_round tc_round hqc_round)

def safe_for_order_vote (block : Block H) (safety_data : SafetyData H) : Except (Error H) Unit :=
  if block.round > safety_data.highest_timeout_round then .ok ()
  else .error (.NotSafeForOrderVote block.round safety_data.highest_timeout_round)

def construct_ledger_info_2chain [Zero H] (cc : ConsensusCrypto H) (proposed_block : Block H)
    (consensus_data_hash : H) : Except (Error H) (LedgerInfo H) := do
  let block1 := proposed_block.round
  let block0 := proposed_block.quorum_cert.certified_block.round
  let next0 ← next_round block0
  let commit_info := if next0 == block1
    then proposed_block.quorum_cert.certified_block else BlockInfo.empty
  let _ := cc
  .ok ⟨commit_info, consensus_data_hash⟩

def ensure (condition : Bool) (e : Error H) : Except (Error H) Unit :=
  if condition then .ok () else .error e

namespace SafetyRules

variable [DecidableEq H] [Zero H] (cc : ConsensusCrypto H) (k : Checks H)

def signer (sr : SafetyRules H) : Except (Error H) ValidatorSigner :=
  match sr.validator_signer with
  | some s => .ok s
  | none => .error (.NotInitialized "validator_signer")

def epoch_state_ (sr : SafetyRules H) : Except (Error H) EpochState :=
  match sr.epoch_state with
  | some e => .ok e
  | none => .error (.NotInitialized "epoch_state")

-- A check through the epoch verifier, skipped when signatures are not verified.
def verify_with (sr : SafetyRules H) (check : ValidatorVerifier → Bool) (e : Error H) :
    Except (Error H) Unit := do
  let es ← sr.epoch_state_
  ensure (sr.skip_sig_verify || check es.verifier) e

def verify_qc (sr : SafetyRules H) (qc : QuorumCert H) : Except (Error H) Unit :=
  sr.verify_with (qc.verify cc) .InvalidQuorumCertificate

def verify_tc (sr : SafetyRules H) (tc : TwoChainTimeoutCertificate H) : Except (Error H) Unit :=
  sr.verify_with (tc.verify cc) .InvalidTimeoutCertificate

def verify_tc_opt (sr : SafetyRules H) : Option (TwoChainTimeoutCertificate H) →
    Except (Error H) Unit
  | some tc => sr.verify_tc cc tc
  | none => .ok ()

-- Like `verify_with`, but the epoch state is read only when signatures are verified.
def verify_if_checked (sr : SafetyRules H) (check : ValidatorVerifier → Bool) (e : Error H) :
    Except (Error H) Unit :=
  if sr.skip_sig_verify then .ok () else sr.verify_with check e

def verify_author (sr : SafetyRules H) (author : Option AccountAddress) : Except (Error H) Unit := do
  let s ← sr.signer
  match author with
  | none => .error (.InvalidProposal "No author found in the proposal")
  | some a => ensure (s.author == a) (.InvalidProposal "Proposal author is not validator signer!")

def verify_proposal (sr : SafetyRules H) (vote_proposal : VoteProposal H) :
    Except (Error H) (VoteData H) := do
  let proposed_block := vote_proposal.block
  let safety_data := sr.persistent_storage.safety_data
  verify_epoch proposed_block.epoch safety_data
  sr.verify_qc cc proposed_block.quorum_cert
  sr.verify_if_checked (k.validate_signature · proposed_block)
    (.InvalidProposal "invalid proposal signature")
  ensure (proposed_block.verify_well_formed k.now_usecs)
    (.InvalidProposal "proposal is not well formed")
  match vote_proposal.gen_vote_data cc k.verify_extension with
  | some vote_data => .ok vote_data
  | none => .error .InvalidAccumulatorExtension

def verify_order_vote_proposal (sr : SafetyRules H) (order_vote_proposal : OrderVoteProposal H) :
    Except (Error H) Unit := do
  let proposed_block := order_vote_proposal.block
  let safety_data := sr.persistent_storage.safety_data
  verify_epoch proposed_block.epoch safety_data
  let qc := order_vote_proposal.quorum_cert
  ensure (qc.certified_block == order_vote_proposal.block_info)
    (.InvalidOneChainQuorumCertificate qc.certified_block.id order_vote_proposal.block_info.id)
  ensure (qc.certified_block.id == proposed_block.id cc)
    (.InvalidOneChainQuorumCertificate qc.certified_block.id (proposed_block.id cc))
  sr.verify_qc cc qc

def set_safety_data (io : StorageIO) (sr : SafetyRules H) (data : SafetyData H) :
    Except (Error H) (SafetyRules H) := do
  let ps ← sr.persistent_storage.set_safety_data io data
  .ok { sr with persistent_storage := ps }

def guarded_sign_timeout_with_qc (io : StorageIO) (sr : SafetyRules H)
    (timeout : TwoChainTimeout H) (timeout_cert : Option (TwoChainTimeoutCertificate H)) :
    Except (Error H) (Signature TimeoutSigningRepr × SafetyRules H) := do
  let signer ← sr.signer
  let safety_data := sr.persistent_storage.safety_data
  verify_epoch timeout.epoch safety_data
  sr.verify_if_checked (timeout.verify cc) .InvalidTimeout
  sr.verify_tc_opt cc timeout_cert
  safe_to_timeout timeout timeout_cert safety_data
  ensure (decide (safety_data.last_voted_round ≤ timeout.round))
    (.IncorrectLastVotedRound timeout.round safety_data.last_voted_round)
  let safety_data ← (if timeout.round > safety_data.last_voted_round
    then verify_and_update_last_vote_round timeout.round safety_data else pure safety_data)
  let safety_data := update_highest_timeout_round timeout safety_data
  let sr' ← sr.set_safety_data io safety_data
  .ok (signer.sign timeout.signing_format, sr')

-- The vote already cast in the proposal's round, which is sent back instead of a new one.
def cached_vote (safety_data : SafetyData H) (proposed_block : Block H) : Option (Vote H) :=
  safety_data.last_vote.filter (·.vote_data.proposed.round == proposed_block.round)

def guarded_construct_and_sign_vote_two_chain (io : StorageIO) (sr : SafetyRules H)
    (vote_proposal : VoteProposal H) (timeout_cert : Option (TwoChainTimeoutCertificate H)) :
    Except (Error H) (Vote H × SafetyRules H) := do
  let _ ← sr.signer
  let vote_data ← sr.verify_proposal cc k vote_proposal
  sr.verify_tc_opt cc timeout_cert
  let proposed_block := vote_proposal.block
  let safety_data := sr.persistent_storage.safety_data
  match cached_vote safety_data proposed_block with
  | some vote => .ok (vote, sr)
  | none => do
    let safety_data ← verify_and_update_last_vote_round proposed_block.block_data.round safety_data
    safe_to_vote proposed_block timeout_cert
    let safety_data := (observe_qc proposed_block.quorum_cert safety_data).2
    let signer ← sr.signer
    let ledger_info ← construct_ledger_info_2chain cc proposed_block (cc.vote_data_hash vote_data)
    let vote : Vote H := ⟨vote_data, signer.author, ledger_info⟩
    let sr' ← sr.set_safety_data io { safety_data with last_vote := some vote }
    .ok (vote, sr')

def guarded_construct_and_sign_order_vote (io : StorageIO) (sr : SafetyRules H)
    (order_vote_proposal : OrderVoteProposal H) :
    Except (Error H) (OrderVote H × SafetyRules H) := do
  let _ ← sr.signer
  sr.verify_order_vote_proposal cc order_vote_proposal
  let proposed_block := order_vote_proposal.block
  let safety_data := sr.persistent_storage.safety_data
  let safety_data := (observe_qc order_vote_proposal.quorum_cert safety_data).2
  safe_for_order_vote proposed_block safety_data
  let signer ← sr.signer
  let ledger_info : LedgerInfo H := ⟨order_vote_proposal.block_info, 0⟩
  let order_vote : OrderVote H := ⟨signer.author, ledger_info⟩
  let sr' ← sr.set_safety_data io safety_data
  .ok (order_vote, sr')

-- The preferred round it updates is not persisted, so signing a proposal leaves the state.
def guarded_sign_proposal (sr : SafetyRules H) (block_data : BlockData H) :
    Except (Error H) (Signature (BlockData H)) := do
  let signer ← sr.signer
  sr.verify_author block_data.author
  let safety_data := sr.persistent_storage.safety_data
  verify_epoch block_data.epoch safety_data
  let r := block_data.round
  let l := safety_data.last_voted_round
  ensure (decide (l < r)) (.InvalidProposal s!"Proposed round {r} is not higher than last voted round {l}")
  sr.verify_qc cc block_data.quorum_cert
  let _ ← verify_and_update_preferred_round block_data.quorum_cert safety_data
  .ok (signer.sign block_data)

def guarded_sign_commit_vote (sr : SafetyRules H) (ledger_info : LedgerInfoWithSignatures H)
    (new_ledger_info : LedgerInfo H) : Except (Error H) (Signature (LedgerInfo H)) := do
  let signer ← sr.signer
  let old_ledger_info := ledger_info.ledger_info
  ensure (old_ledger_info.commit_info.is_ordered_only cc.accumulator_placeholder ||
      old_ledger_info.commit_info == new_ledger_info.commit_info) .InvalidOrderedLedgerInfo
  ensure (old_ledger_info.commit_info.match_ordered_only new_ledger_info.commit_info)
    .InconsistentExecutionResult
  sr.verify_if_checked (ledger_info.verify_signatures cc.toCrypto · |>.toBool)
    .InvalidQuorumCertificate
  .ok (signer.sign new_ledger_info)

-- Key reconciliation at the end of `guarded_initialize`; on an error the signer is dropped.
def reconcile_key (sr : SafetyRules H) (epoch_state : EpochState) :
    SafetyRules H × Except (Error H) Unit :=
  let author := sr.persistent_storage.author
  let result : Except (Error H) (Option ValidatorSigner) :=
    match epoch_state.verifier.get_public_key author with
    | none => .error (.ValidatorNotInSet author)
    | some expected_key =>
      if (sr.validator_signer.map (·.public_key)) == some expected_key then .ok none
      else (sr.persistent_storage.consensus_sk_by_pk expected_key).map
        (fun key => some ⟨author, key⟩)
  match result with
  | .ok none => (sr, .ok ())
  | .ok (some s) => ({ sr with validator_signer := some s }, .ok ())
  | .error e => ({ sr with validator_signer := none }, .error e)

def guarded_initialize (io : StorageIO) (sr : SafetyRules H) (proof : EpochChangeProof H) :
    SafetyRules H × Except (Error H) Unit :=
  let waypoint := sr.persistent_storage.waypoint
  match proof.verify cc.toCrypto (.waypoint waypoint) with
  | .error e => (sr, .error (.InvalidEpochChangeProof e))
  | .ok last_li =>
    let ledger_info := last_li.ledger_info
    match ledger_info.next_epoch_state with
    | none => (sr, .error .InvalidLedgerInfo)
    | some epoch_state =>
      if !ledger_info.ends_epoch then (sr, .error .InternalError) else
      let new_waypoint := Waypoint.new_any cc.toCrypto ledger_info
      let stored : Except (Error H) (PersistentSafetyStorage H) :=
        if new_waypoint.version > waypoint.version
        then sr.persistent_storage.set_waypoint io new_waypoint else .ok sr.persistent_storage
      match stored with
      | .error e => (sr, .error e)
      | .ok ps =>
        let sr := { sr with persistent_storage := ps }
        let current_epoch := ps.safety_data.epoch
        if current_epoch > epoch_state.epoch then
          (sr, .error (.WaypointOutOfDate waypoint.version new_waypoint.version current_epoch
            epoch_state.epoch))
        else
          let reset : Except (Error H) (SafetyRules H) :=
            if current_epoch < epoch_state.epoch
            then sr.set_safety_data io ⟨epoch_state.epoch, 0, 0, 0, none, 0⟩ else .ok sr
          match reset with
          | .error e => (sr, .error e)
          | .ok sr => reconcile_key { sr with epoch_state := some epoch_state } epoch_state

end SafetyRules

end Zapatos.Consensus

namespace Zapatos.Consensus

variable {H : Type}

-- The entry points of `TSafetyRules` that change or sign something.
inductive Call (H : Type) where
  | initialize_ (proof : EpochChangeProof H)
  | sign_proposal (block_data : BlockData H)
  | sign_timeout_with_qc (timeout : TwoChainTimeout H)
      (timeout_cert : Option (TwoChainTimeoutCertificate H))
  | construct_and_sign_vote_two_chain (vote_proposal : VoteProposal H)
      (timeout_cert : Option (TwoChainTimeoutCertificate H))
  | construct_and_sign_order_vote (order_vote_proposal : OrderVoteProposal H)
  | sign_commit_vote (ledger_info : LedgerInfoWithSignatures H) (new_ledger_info : LedgerInfo H)

inductive Response (H : Type) where
  | initialized
  | proposal (signature : Signature (BlockData H))
  | timeout (signature : Signature TimeoutSigningRepr)
  | vote (vote : Vote H)
  | order_vote (order_vote : OrderVote H)
  | commit_vote (signature : Signature (LedgerInfo H))

namespace SafetyRules

variable [DecidableEq H] [Zero H] (cc : ConsensusCrypto H)

def handle (k : Checks H) (io : StorageIO) (sr : SafetyRules H) :
    Call H → SafetyRules H × Except (Error H) (Response H)
  | .initialize_ proof =>
    let (sr', r) := sr.guarded_initialize cc io proof
    (sr', r.map fun _ => .initialized)
  | .sign_proposal block_data => (sr, (sr.guarded_sign_proposal cc block_data).map .proposal)
  | .sign_timeout_with_qc timeout tc =>
    match sr.guarded_sign_timeout_with_qc cc io timeout tc with
    | .ok (s, sr') => (sr', .ok (.timeout s))
    | .error e => (sr, .error e)
  | .construct_and_sign_vote_two_chain vp tc =>
    match sr.guarded_construct_and_sign_vote_two_chain cc k io vp tc with
    | .ok (v, sr') => (sr', .ok (.vote v))
    | .error e => (sr, .error e)
  | .construct_and_sign_order_vote ovp =>
    match sr.guarded_construct_and_sign_order_vote cc io ovp with
    | .ok (o, sr') => (sr', .ok (.order_vote o))
    | .error e => (sr, .error e)
  | .sign_commit_vote li new_li =>
    (sr, (sr.guarded_sign_commit_vote cc li new_li).map .commit_vote)

structure Event (H : Type) where
  pre : SafetyRules H
  call : Call H
  response : Except (Error H) (Response H)
  post : SafetyRules H

-- Every call of a run is made with its own outcome of the outside checks and storage writes.
def trace : SafetyRules H → List (Checks H × StorageIO × Call H) → List (Event H)
  | _, [] => []
  | sr, (k, io, c) :: rest =>
    let (sr', r) := sr.handle cc k io c
    ⟨sr, c, r, sr'⟩ :: trace sr' rest

end SafetyRules

end Zapatos.Consensus

import Zapatos.Types.Ledger

namespace Zapatos.Consensus

structure VoteData (H : Type) where
  proposed : BlockInfo H
  parent : BlockInfo H
deriving DecidableEq, Repr

structure QuorumCert (H : Type) where
  vote_data : VoteData H
  signed_ledger_info : LedgerInfoWithSignatures H
deriving DecidableEq, Repr

namespace QuorumCert

variable {H : Type}

def certified_block (qc : QuorumCert H) : BlockInfo H := qc.vote_data.proposed

def parent_block (qc : QuorumCert H) : BlockInfo H := qc.vote_data.parent

def ledger_info (qc : QuorumCert H) : LedgerInfoWithSignatures H := qc.signed_ledger_info

def commit_info (qc : QuorumCert H) : BlockInfo H := qc.signed_ledger_info.ledger_info.commit_info

def ends_epoch (qc : QuorumCert H) : Bool := qc.signed_ledger_info.ledger_info.ends_epoch

end QuorumCert

-- A payload is read only for emptiness and for the epochs of the proofs and batches it carries.
structure Payload where
  is_empty : Bool
  epochs : List ℕ
deriving DecidableEq, Repr

def Payload.verify_epoch (p : Payload) (epoch : ℕ) : Bool := p.epochs.all (· == epoch)

inductive BlockType where
  | proposal (payload : Payload) (author : AccountAddress)
      (failed_authors : List (ℕ × AccountAddress))
  | nil_block (failed_authors : List (ℕ × AccountAddress))
  | genesis
  | proposal_ext (payload : Option Payload) (author : AccountAddress)
      (failed_authors : List (ℕ × AccountAddress))
  | optimistic_proposal (payload : Payload) (author : AccountAddress)
  | dag_block (author : AccountAddress) (failed_authors : List (ℕ × AccountAddress))
      (payload : Payload)
deriving DecidableEq, Repr

structure BlockData (H : Type) where
  epoch : ℕ
  round : ℕ
  timestamp_usecs : ℕ
  quorum_cert : QuorumCert H
  block_type : BlockType
deriving DecidableEq, Repr

namespace BlockData

variable {H : Type}

def author (b : BlockData H) : Option AccountAddress :=
  match b.block_type with
  | .proposal _ a _ | .dag_block a _ _ | .proposal_ext _ a _ | .optimistic_proposal _ a => some a
  | _ => none

def payload (b : BlockData H) : Option Payload :=
  match b.block_type with
  | .proposal p _ _ | .dag_block _ _ p | .optimistic_proposal p _ => some p
  | .proposal_ext p _ _ => p
  | _ => none

def failed_authors (b : BlockData H) : Option (List (ℕ × AccountAddress)) :=
  match b.block_type with
  | .proposal _ _ f | .nil_block f | .dag_block _ f _ | .proposal_ext _ _ f => some f
  | _ => none

def is_genesis_block (b : BlockData H) : Bool := b.block_type matches .genesis

def is_nil_block (b : BlockData H) : Bool := b.block_type matches .nil_block _

end BlockData

structure TimeoutSigningRepr where
  epoch : ℕ
  round : ℕ
  hqc_round : ℕ
deriving DecidableEq, Repr

-- The hashes consensus takes of its own types, and BLS verification of an aggregated signature
-- on timeouts, next to the primitives the ledger types use.
structure ConsensusCrypto (H : Type) extends Crypto H where
  block_data_hash : BlockData H → H
  vote_data_hash : VoteData H → H
  accumulator_placeholder : H
  verify_bls_timeouts : List ℕ → List TimeoutSigningRepr → Bool

-- The id of a block is not stored: deserialisation recomputes it as the hash of the block data.
structure Block (H : Type) where
  block_data : BlockData H
deriving DecidableEq, Repr

namespace Block

variable {H : Type}

def id (cc : ConsensusCrypto H) (b : Block H) : H := cc.block_data_hash b.block_data

def epoch (b : Block H) : ℕ := b.block_data.epoch

def round (b : Block H) : ℕ := b.block_data.round

def timestamp_usecs (b : Block H) : ℕ := b.block_data.timestamp_usecs

def quorum_cert (b : Block H) : QuorumCert H := b.block_data.quorum_cert

def gen_block_info (cc : ConsensusCrypto H) (b : Block H) (executed_state_id : H)
    (version : ℕ) (next_epoch_state : Option EpochState) : BlockInfo H :=
  ⟨b.epoch, b.round, b.id cc, executed_state_id, version, b.timestamp_usecs, next_epoch_state⟩

def checkFailedAuthors (parent_round succ_round : ℕ) :
    ℕ → List (ℕ × AccountAddress) → Bool
  | _, [] => true
  | bound, (r, _) :: rest => decide (bound < r ∧ r < succ_round) && checkFailedAuthors parent_round succ_round r rest

-- Block::verify_well_formed; `now_usecs` is the local clock the source reads.
def verify_well_formed (now_usecs : ℕ) (b : Block H) : Bool :=
  let parent := b.quorum_cert.certified_block
  !b.block_data.is_genesis_block &&
  decide (parent.round < b.round) &&
  parent.epoch == b.epoch &&
  (!parent.has_reconfiguration || (b.block_data.payload.all (·.is_empty))) &&
  (b.block_data.payload.all (·.verify_epoch b.epoch)) &&
  (match b.block_data.failed_authors with
    | none => true
    | some fa =>
      let succ_round := b.round + (if b.block_data.is_nil_block then 1 else 0)
      decide (parent.round + 1 ≤ succ_round) &&
      decide (fa.length ≤ succ_round - (parent.round + 1)) &&
      checkFailedAuthors parent.round succ_round parent.round fa) &&
  (if b.block_data.is_nil_block || parent.has_reconfiguration then
      b.timestamp_usecs == parent.timestamp_usecs
    else
      decide (b.timestamp_usecs > parent.timestamp_usecs) &&
      decide (b.timestamp_usecs ≤ now_usecs + 300000000)) &&
  !b.quorum_cert.ends_epoch

theorem verify_well_formed_round {now : ℕ} {b : Block H} (h : b.verify_well_formed now = true) :
    b.quorum_cert.certified_block.round < b.round := by
  simp only [verify_well_formed, Bool.and_eq_true, decide_eq_true_eq] at h
  exact h.1.1.1.1.1.1.2

end Block


structure TwoChainTimeout (H : Type) where
  epoch : ℕ
  round : ℕ
  quorum_cert : QuorumCert H
deriving DecidableEq, Repr

namespace TwoChainTimeout

variable {H : Type}

def hqc_round (t : TwoChainTimeout H) : ℕ := t.quorum_cert.certified_block.round

def signing_format (t : TwoChainTimeout H) : TimeoutSigningRepr := ⟨t.epoch, t.round, t.hqc_round⟩

end TwoChainTimeout

structure AggregateSignatureWithRounds where
  sig : AggregateSignature
  rounds : List ℕ
deriving DecidableEq, Repr

structure TwoChainTimeoutCertificate (H : Type) where
  timeout : TwoChainTimeout H
  signatures_with_rounds : AggregateSignatureWithRounds
deriving DecidableEq, Repr

namespace TwoChainTimeoutCertificate

variable {H : Type}

def epoch (tc : TwoChainTimeoutCertificate H) : ℕ := tc.timeout.epoch

def round (tc : TwoChainTimeoutCertificate H) : ℕ := tc.timeout.round

def highest_hqc_round (tc : TwoChainTimeoutCertificate H) : ℕ := tc.timeout.hqc_round

end TwoChainTimeoutCertificate

-- The signature of a vote or an order vote is its author's signature on its ledger info.
structure Vote (H : Type) where
  vote_data : VoteData H
  author : AccountAddress
  ledger_info : LedgerInfo H
deriving DecidableEq, Repr

def Vote.epoch {H : Type} (v : Vote H) : ℕ := v.vote_data.proposed.epoch

structure OrderVote (H : Type) where
  author : AccountAddress
  ledger_info : LedgerInfo H
deriving DecidableEq, Repr

structure AccumulatorExtensionProof (H : Type) where
  frozen_subtree_roots : List H
  num_leaves : ℕ
  leaves : List H
deriving DecidableEq, Repr

structure VoteProposal (H : Type) where
  accumulator_extension_proof : AccumulatorExtensionProof H
  block : Block H
  next_epoch_state : Option EpochState
  decoupled_execution : Bool
deriving DecidableEq, Repr

structure OrderVoteProposal (H : Type) where
  block : Block H
  block_info : BlockInfo H
  quorum_cert : QuorumCert H
deriving DecidableEq, Repr

structure SafetyData (H : Type) where
  epoch : ℕ
  last_voted_round : ℕ
  preferred_round : ℕ
  one_chain_round : ℕ
  last_vote : Option (Vote H)
  highest_timeout_round : ℕ
deriving DecidableEq, Repr

def VoteData.verify {H : Type} (vd : VoteData H) : Bool :=
  vd.parent.epoch == vd.proposed.epoch && decide (vd.parent.round < vd.proposed.round) &&
    decide (vd.parent.timestamp_usecs ≤ vd.proposed.timestamp_usecs) &&
    (vd.proposed.version == 0 || decide (vd.parent.version ≤ vd.proposed.version))

namespace QuorumCert

variable {H : Type} [DecidableEq H]

def verify (cc : ConsensusCrypto H) (qc : QuorumCert H) (v : ValidatorVerifier) : Bool :=
  qc.signed_ledger_info.ledger_info.consensus_data_hash == cc.vote_data_hash qc.vote_data &&
  if qc.certified_block.round = 0 then
    qc.parent_block == qc.certified_block &&
    qc.certified_block == qc.signed_ledger_info.ledger_info.commit_info &&
    qc.signed_ledger_info.signatures.get_num_voters == 0
  else
    (qc.signed_ledger_info.verify_signatures cc.toCrypto v).toBool && qc.vote_data.verify

end QuorumCert

def TwoChainTimeout.verify {H : Type} [DecidableEq H] (cc : ConsensusCrypto H)
    (t : TwoChainTimeout H) (v : ValidatorVerifier) : Bool :=
  decide (t.hqc_round < t.round) && t.quorum_cert.verify cc v

def TwoChainTimeoutCertificate.verify {H : Type} [DecidableEq H] (cc : ConsensusCrypto H)
    (tc : TwoChainTimeoutCertificate H) (v : ValidatorVerifier) : Bool :=
  let voters := tc.signatures_with_rounds.sig.get_signers_addresses v.get_ordered_account_addresses
  let messages := (voters.zip tc.signatures_with_rounds.rounds).map
    (fun p => (⟨tc.timeout.epoch, tc.timeout.round, p.2⟩ : TimeoutSigningRepr))
  tc.timeout.verify cc v &&
  (v.verify_aggregate_signatures cc.verify_bls_timeouts messages tc.signatures_with_rounds.sig).toBool &&
  match tc.signatures_with_rounds.rounds.max? with
  | none => false
  | some signed_hqc => tc.highest_hqc_round == signed_hqc

-- `AccumulatorExtensionProof::verify` rebuilds the extended transaction accumulator; the model
-- receives its result, the new root hash and version, from `verify_extension`.
def VoteProposal.gen_vote_data {H : Type} (cc : ConsensusCrypto H)
    (verify_extension : AccumulatorExtensionProof H → H → Option (H × ℕ))
    (vp : VoteProposal H) : Option (VoteData H) :=
  if vp.decoupled_execution then
    some ⟨vp.block.gen_block_info cc cc.accumulator_placeholder 0 vp.next_epoch_state,
      vp.block.quorum_cert.certified_block⟩
  else
    match verify_extension vp.accumulator_extension_proof
        vp.block.quorum_cert.certified_block.executed_state_id with
    | none => none
    | some (root_hash, version) =>
      some ⟨vp.block.gen_block_info cc root_hash version vp.next_epoch_state,
        vp.block.quorum_cert.certified_block⟩

end Zapatos.Consensus

import Mathlib

namespace Zapatos

abbrev AccountAddress := ℕ

structure ValidatorConsensusInfo where
  address : AccountAddress
  public_key : ℕ
  voting_power : ℕ
deriving DecidableEq, Repr

structure ValidatorVerifier where
  validator_infos : List ValidatorConsensusInfo
  quorum_voting_power : ℕ
  total_voting_power : ℕ
deriving DecidableEq, Repr

structure EpochState where
  epoch : ℕ
  verifier : ValidatorVerifier
deriving DecidableEq, Repr

structure BlockInfo (H : Type) where
  epoch : ℕ
  round : ℕ
  id : H
  executed_state_id : H
  version : ℕ
  timestamp_usecs : ℕ
  next_epoch_state : Option EpochState
deriving DecidableEq, Repr

namespace BlockInfo

variable {H : Type}

def empty [Zero H] : BlockInfo H := ⟨0, 0, 0, 0, 0, 0, none⟩

def has_reconfiguration (b : BlockInfo H) : Bool := b.next_epoch_state.isSome

def next_block_epoch (b : BlockInfo H) : ℕ := (b.next_epoch_state.map (·.epoch)).getD b.epoch

def is_ordered_only [Zero H] [DecidableEq H] (placeholder : H) (b : BlockInfo H) : Bool :=
  b != empty && b.next_epoch_state.isNone && b.executed_state_id == placeholder && b.version == 0

def match_ordered_only [DecidableEq H] (b executed : BlockInfo H) : Bool :=
  b.epoch == executed.epoch && b.round == executed.round && b.id == executed.id &&
    (b.timestamp_usecs == executed.timestamp_usecs ||
      (decide (b.timestamp_usecs > executed.timestamp_usecs) && executed.has_reconfiguration))

end BlockInfo

structure LedgerInfo (H : Type) where
  commit_info : BlockInfo H
  consensus_data_hash : H
deriving DecidableEq, Repr

namespace LedgerInfo

variable {H : Type}

def epoch (li : LedgerInfo H) : ℕ := li.commit_info.epoch

def round (li : LedgerInfo H) : ℕ := li.commit_info.round

def version (li : LedgerInfo H) : ℕ := li.commit_info.version

def next_epoch_state (li : LedgerInfo H) : Option EpochState := li.commit_info.next_epoch_state

def ends_epoch (li : LedgerInfo H) : Bool := li.next_epoch_state.isSome

def next_block_epoch (li : LedgerInfo H) : ℕ := li.commit_info.next_block_epoch

def transaction_accumulator_hash (li : LedgerInfo H) : H := li.commit_info.executed_state_id

def timestamp_usecs (li : LedgerInfo H) : ℕ := li.commit_info.timestamp_usecs

end LedgerInfo

-- The fields of a ledger info that a waypoint commits to.
structure Ledger2WaypointConverter (H : Type) where
  epoch : ℕ
  root_hash : H
  version : ℕ
  timestamp_usecs : ℕ
  next_epoch_state : Option EpochState
deriving DecidableEq, Repr

def Ledger2WaypointConverter.new {H : Type} (ledger_info : LedgerInfo H) :
    Ledger2WaypointConverter H :=
  ⟨ledger_info.epoch, ledger_info.transaction_accumulator_hash, ledger_info.version,
    ledger_info.timestamp_usecs, ledger_info.next_epoch_state⟩

-- The bitmask is kept bit by bit; `sig` says whether the aggregated BLS signature is present.
structure AggregateSignature where
  validator_bitmask : List Bool
  sig : Bool
deriving DecidableEq, Repr

namespace AggregateSignature

def is_set (a : AggregateSignature) (pos : ℕ) : Bool := a.validator_bitmask.getD pos false

def num_buckets (a : AggregateSignature) : ℕ := (a.validator_bitmask.length + 7) / 8

def required_buckets (num_bits : ℕ) : ℕ := if num_bits = 0 then 0 else (num_bits - 1) / 8 + 1

def get_num_voters (a : AggregateSignature) : ℕ := a.validator_bitmask.count true

def get_signers_addresses (a : AggregateSignature) (addresses : List AccountAddress) :
    List AccountAddress :=
  ((addresses.zipIdx).filter (fun p => a.is_set p.2)).map (·.1)

end AggregateSignature

structure LedgerInfoWithSignatures (H : Type) where
  ledger_info : LedgerInfo H
  signatures : AggregateSignature
deriving DecidableEq, Repr

inductive VerifyError where
  | UnknownAuthor
  | TooLittleVotingPower (voting_power expected_voting_power : ℕ)
  | InvalidBitVec
  | EmptySignature
  | InvalidMultiSignature
  | FailedToAggregateSignature
deriving DecidableEq, Repr

-- The two cryptographic primitives the verifiers rest on: the hash a waypoint keeps of the
-- converted ledger info, and BLS verification of an aggregated signature under a list of public
-- keys.
structure Crypto (H : Type) where
  waypoint_hash : Ledger2WaypointConverter H → H
  verify_bls : List ℕ → LedgerInfo H → Bool

namespace ValidatorVerifier

def new (validator_infos : List ValidatorConsensusInfo) : ValidatorVerifier :=
  let total_voting_power := (validator_infos.map (·.voting_power)).sum
  let quorum_voting_power :=
    if validator_infos.isEmpty then 0 else total_voting_power * 2 / 3 + 1
  ⟨validator_infos, quorum_voting_power, total_voting_power⟩

def get_ordered_account_addresses (v : ValidatorVerifier) : List AccountAddress :=
  v.validator_infos.map (·.address)

-- `address_to_validator_index` is collected from the enumerated infos, so a repeated
-- address maps to its last index.
def address_to_validator_index (v : ValidatorVerifier) (author : AccountAddress) : Option ℕ :=
  (v.validator_infos.zipIdx.reverse.find? (·.1.address == author)).map (·.2)

def get_info (v : ValidatorVerifier) (author : AccountAddress) : Option ValidatorConsensusInfo :=
  v.validator_infos.reverse.find? (·.address == author)

def get_voting_power (v : ValidatorVerifier) (author : AccountAddress) : Option ℕ :=
  (v.get_info author).map (·.voting_power)

def get_public_key (v : ValidatorVerifier) (author : AccountAddress) : Option ℕ :=
  (v.get_info author).map (·.public_key)

def sum_voting_power (v : ValidatorVerifier) : List AccountAddress → Except VerifyError ℕ
  | [] => .ok 0
  | a :: rest =>
    match v.get_voting_power a with
    | none => .error .UnknownAuthor
    | some p => (v.sum_voting_power rest).map (p + ·)

def check_voting_power (v : ValidatorVerifier) (authors : List AccountAddress) :
    Except VerifyError ℕ := do
  let power ← v.sum_voting_power authors
  if power < v.quorum_voting_power then
    .error (.TooLittleVotingPower power v.quorum_voting_power)
  else .ok power

def check_num_of_voters (num_validators : ℕ) (a : AggregateSignature) : Bool :=
  a.num_buckets == AggregateSignature.required_buckets num_validators &&
    (List.range a.validator_bitmask.length).all (fun i => !a.is_set i || decide (i < num_validators))

variable {H : Type}

def verify_multi_signatures (c : Crypto H) (v : ValidatorVerifier) (message : LedgerInfo H)
    (a : AggregateSignature) : Except VerifyError Unit := do
  if !check_num_of_voters v.validator_infos.length a then .error .InvalidBitVec
  let signers := (v.validator_infos.zipIdx.filter (fun p => a.is_set p.2)).map (·.1)
  let _ ← v.check_voting_power (signers.map (·.address))
  if !a.sig then .error .EmptySignature
  if !c.verify_bls (signers.map (·.public_key)) message then .error .InvalidMultiSignature
  .ok ()

def verify_aggregate_signatures {M : Type} (verify_bls : List ℕ → List M → Bool)
    (v : ValidatorVerifier) (messages : List M) (a : AggregateSignature) :
    Except VerifyError Unit := do
  if !check_num_of_voters v.validator_infos.length a then .error .InvalidBitVec
  let signers := (v.validator_infos.zipIdx.filter (fun p => a.is_set p.2)).map (·.1)
  let _ ← v.check_voting_power (signers.map (·.address))
  if !a.sig then .error .EmptySignature
  if !verify_bls (signers.map (·.public_key)) messages then .error .InvalidMultiSignature
  .ok ()

-- BLS aggregation of the partial signatures is a parameter that says whether it succeeds.
def aggregate_signatures {S : Type} (aggregate : List S → Bool) (v : ValidatorVerifier)
    (signatures : List (AccountAddress × S)) : Except VerifyError AggregateSignature := do
  let (sigs, masks) ← signatures.foldlM (fun (sigs, masks) (addr, sig) =>
      match v.address_to_validator_index addr with
      | none => .error .UnknownAuthor
      | some index => .ok (sigs ++ [sig], masks.set index true))
    ([], List.replicate (8 * AggregateSignature.required_buckets v.validator_infos.length) false)
  if !aggregate sigs then .error .FailedToAggregateSignature
  .ok ⟨masks, true⟩

end ValidatorVerifier

def LedgerInfoWithSignatures.verify_signatures {H : Type} (c : Crypto H)
    (li : LedgerInfoWithSignatures H) (v : ValidatorVerifier) : Except VerifyError Unit :=
  v.verify_multi_signatures c li.ledger_info li.signatures

structure Waypoint (H : Type) where
  version : ℕ
  value : H
deriving DecidableEq, Repr

def Waypoint.new_any {H : Type} (c : Crypto H) (li : LedgerInfo H) : Waypoint H :=
  ⟨li.version, c.waypoint_hash (Ledger2WaypointConverter.new li)⟩

end Zapatos

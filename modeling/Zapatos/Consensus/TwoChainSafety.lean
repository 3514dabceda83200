import Mathlib.Logic.Relation
import Zapatos.Types.Quorum
import Zapatos.Types.Encoding
import Zapatos.Consensus.Locks

namespace Zapatos.Consensus

variable {H : Type}

-- One epoch of the network: its validator set, the validators that do not follow the protocol,
-- the epoch's genesis block and, for every validator, the calls made into its SafetyRules, in
-- the order that validator received them. How messages travel is left open.
structure Execution (H : Type) where
  epoch : ℕ
  validator_infos : List ValidatorConsensusInfo
  addresses_nodup : (validator_infos.map (·.address)).Nodup
  genesis : BlockInfo H
  byzantine : Finset AccountAddress
  init : AccountAddress → SafetyRules H
  inputs : AccountAddress → List (Checks H × StorageIO × Call H)

-- The block tree: the parent of a block is the block its quorum certificate certifies.
def ParentOf (cc : ConsensusCrypto H) (p c : H) : Prop :=
  ∃ bd : BlockData H, cc.block_data_hash bd = c ∧ bd.quorum_cert.certified_block.id = p

def IsAncestor (cc : ConsensusCrypto H) : H → H → Prop := Relation.ReflTransGen (ParentOf cc)

namespace Execution

section

variable (x : Execution H)

def verifier : ValidatorVerifier := ValidatorVerifier.new x.validator_infos

-- Signatures of at least quorum voting power: some quorum whose honest members all signed.
def QuorumSigned (signed : AccountAddress → Prop) : Prop :=
  ∃ S : Finset AccountAddress, x.verifier.quorum_voting_power ≤ ∑ a ∈ S, x.verifier.power a ∧
    ∀ a ∈ S, a ∉ x.byzantine → signed a

variable {x}

theorem QuorumSigned.mono {P Q : AccountAddress → Prop} (hP : x.QuorumSigned P)
    (hPQ : ∀ a ∉ x.byzantine, P a → Q a) : x.QuorumSigned Q := by
  obtain ⟨S, hS, hSP⟩ := hP
  exact ⟨S, hS, fun a haS ha => hPQ a ha (hSP a haS ha)⟩

end

variable [DecidableEq H] [Zero H] (cc : ConsensusCrypto H) (x : Execution H)

def run (a : AccountAddress) : List (SafetyRules.Event H) := (x.init a).trace cc (x.inputs a)

-- What a validator signed while its safety data was in the execution's epoch.
def Voted (a : AccountAddress) (L : LedgerInfo H) : Prop :=
  ∃ ev ∈ x.run cc a, ev.pre.persistent_storage.safety_data.epoch = x.epoch ∧
    ∃ v : Vote H, ev.response = .ok (.vote v) ∧ v.ledger_info = L

def TimedOut (a : AccountAddress) (m : TimeoutSigningRepr) : Prop :=
  ∃ ev ∈ x.run cc a, ev.pre.persistent_storage.safety_data.epoch = x.epoch ∧
    ∃ s : Signature TimeoutSigningRepr, ev.response = .ok (.timeout s) ∧ s.message = m

def OrderVoted (a : AccountAddress) (L : LedgerInfo H) : Prop :=
  ∃ ev ∈ x.run cc a, ev.pre.persistent_storage.safety_data.epoch = x.epoch ∧
    ∃ o : OrderVote H, ev.response = .ok (.order_vote o) ∧ o.ledger_info = L

-- A quorum certificate is the epoch's genesis certificate or carries a quorum of votes on a
-- ledger info that commits to its vote data.
def ValidQC (qc : QuorumCert H) : Prop :=
  qc.signed_ledger_info.ledger_info.consensus_data_hash = cc.vote_data_hash qc.vote_data ∧
    (qc.certified_block = x.genesis ∨
      x.QuorumSigned fun a => x.Voted cc a qc.signed_ledger_info.ledger_info)

-- A timeout certificate carries a quorum of timeouts of its round, none with a higher QC than
-- the one it reports.
def ValidTC (tc : TwoChainTimeoutCertificate H) : Prop :=
  x.QuorumSigned fun a => ∃ r ≤ tc.highest_hqc_round, x.TimedOut cc a ⟨tc.epoch, tc.round, r⟩

def ValidInputs : Call H → Prop
  | .construct_and_sign_vote_two_chain vp tc =>
    x.ValidQC cc vp.block.quorum_cert ∧ ∀ t ∈ tc, x.ValidTC cc t
  | .construct_and_sign_order_vote ovp => x.ValidQC cc ovp.quorum_cert
  | _ => True

structure Assumptions : Prop where
  byzantine_power : 3 * ∑ a ∈ x.byzantine, x.verifier.power a < x.verifier.total_voting_power
  genesis_round : x.genesis.round = 0
  honest_init : ∀ a ∉ x.byzantine, (x.init a).persistent_storage.safety_data.WellFormed ∧
    ((x.init a).persistent_storage.safety_data.epoch < x.epoch ∨
      (x.init a).persistent_storage.safety_data = ⟨x.epoch, 0, 0, 0, none, 0⟩)
  honest_inputs : ∀ a ∉ x.byzantine, ∀ ev ∈ x.run cc a,
    ev.pre.persistent_storage.safety_data.epoch = x.epoch → (∃ r, ev.response = .ok r) →
      x.ValidInputs cc ev.call

def CommittedByQC (B : BlockInfo H) : Prop :=
  B ≠ BlockInfo.empty ∧ ∃ L : LedgerInfo H, L.commit_info = B ∧ x.QuorumSigned fun a => x.Voted cc a L

def CommittedByOrderVotes (B : BlockInfo H) : Prop :=
  ∃ L : LedgerInfo H, L.commit_info = B ∧ x.QuorumSigned fun a => x.OrderVoted cc a L

def Committed (B : BlockInfo H) : Prop := x.CommittedByQC cc B ∨ x.CommittedByOrderVotes cc B

-- A block is certified when it is the genesis block or a quorum voted for it.
def Certified (C : BlockInfo H) : Prop :=
  C = x.genesis ∨ ∃ L : LedgerInfo H, ∃ vd : VoteData H, vd.proposed = C ∧
    L.consensus_data_hash = cc.vote_data_hash vd ∧ x.QuorumSigned fun a => x.Voted cc a L

-- The timeouts of a quorum at rounds from ρ on all carry a QC of round at least that of B.
def LockedFrom (B : BlockInfo H) (ρ : ℕ) : Prop :=
  x.QuorumSigned fun a => ∀ m, x.TimedOut cc a m → ρ ≤ m.round → B.round ≤ m.hqc_round

-- What an honest fresh vote guarantees about the block it votes for.
structure FreshVote (v : Vote H) (vp : VoteProposal H)
    (tc : Option (TwoChainTimeoutCertificate H)) : Prop where
  parent_round_lt : vp.block.quorum_cert.certified_block.round < vp.block.round
  proposed_round : v.vote_data.proposed.round = vp.block.round
  proposed_id : v.vote_data.proposed.id = vp.block.id cc
  parent : v.vote_data.parent = vp.block.quorum_cert.certified_block
  safe : safe_to_vote vp.block tc = .ok ()
  data_hash : v.ledger_info.consensus_data_hash = cc.vote_data_hash v.vote_data
  commit_info : v.ledger_info.commit_info =
    if vp.block.round = vp.block.quorum_cert.certified_block.round + 1
      then vp.block.quorum_cert.certified_block else BlockInfo.empty
  qc_valid : x.ValidQC cc vp.block.quorum_cert
  tc_valid : ∀ t ∈ tc, x.ValidTC cc t

variable {cc x}

theorem LockedFrom.mono {B : BlockInfo H} {ρ ρ' : ℕ} (h : x.LockedFrom cc B ρ) (hρ : ρ ≤ ρ') :
    x.LockedFrom cc B ρ' :=
  QuorumSigned.mono h fun _ _ hl m hm hr => hl m hm (hρ.trans hr)

theorem certified_of_validQC {qc : QuorumCert H} (h : x.ValidQC cc qc) :
    x.Certified cc qc.certified_block := by
  rcases h.2 with hg | hq
  · exact .inl hg
  · exact .inr ⟨_, qc.vote_data, rfl, h.1, hq⟩

theorem QuorumSigned.inter (hx : x.Assumptions cc) {P Q : AccountAddress → Prop}
    (hP : x.QuorumSigned P) (hQ : x.QuorumSigned Q) : ∃ a ∉ x.byzantine, P a ∧ Q a := by
  obtain ⟨S, hS, hSP⟩ := hP
  obtain ⟨T, hT, hTQ⟩ := hQ
  obtain ⟨a, haS, haT, ha⟩ :=
    ValidatorVerifier.exists_honest_of_quorums x.addresses_nodup hx.byzantine_power hS hT
  exact ⟨a, ha, hSP a haS ha, hTQ a haT ha⟩

theorem QuorumSigned.exists_honest (hx : x.Assumptions cc) {P : AccountAddress → Prop}
    (hP : x.QuorumSigned P) : ∃ a ∉ x.byzantine, P a := by
  obtain ⟨a, ha, hPa, -⟩ := QuorumSigned.inter hx hP hP
  exact ⟨a, ha, hPa⟩

theorem wellFormed_of_honest (hx : x.Assumptions cc) {a : AccountAddress} (ha : a ∉ x.byzantine)
    {ev : SafetyRules.Event H} (hev : ev ∈ x.run cc a) :
    ev.pre.persistent_storage.safety_data.WellFormed :=
  SafetyRules.wellFormed_pre (hx.honest_init a ha).1 hev

theorem no_vote_of_honest (hx : x.Assumptions cc) {a : AccountAddress} (ha : a ∉ x.byzantine) :
    ∀ v, (x.init a).persistent_storage.safety_data.last_vote = some v → v.epoch ≠ x.epoch := by
  intro v hv
  obtain ⟨hwf, hlt | hfresh⟩ := hx.honest_init a ha
  · rw [(hwf.2 v hv).1]
    exact hlt.ne
  · rw [hfresh] at hv
    cases hv

theorem voted_fresh (hx : x.Assumptions cc) {a : AccountAddress} (ha : a ∉ x.byzantine)
    {L : LedgerInfo H} (h : x.Voted cc a L) :
    ∃ ev ∈ x.run cc a, ev.pre.persistent_storage.safety_data.epoch = x.epoch ∧
      ∃ v : Vote H, ev.response = .ok (.vote v) ∧ v.ledger_info = L ∧ v.epoch = x.epoch ∧
        ev.pre.persistent_storage.safety_data.last_voted_round < v.vote_data.proposed.round := by
  obtain ⟨ev, hev, hep, v, hv, hvL⟩ := h
  obtain ⟨k, io, hh⟩ := SafetyRules.mem_trace_handle hev
  rw [hv] at hh
  have hve : v.epoch = x.epoch :=
    (SafetyRules.handle_vote_epoch hh (x.wellFormed_of_honest hx ha hev)).trans hep
  obtain ⟨ev', hev', hv', hlt, hep'⟩ :=
    SafetyRules.vote_origin (hx.honest_init a ha).1 (x.no_vote_of_honest hx ha) hev hv hve
  exact ⟨ev', hev', hep', v, hv', hvL, hve, hlt⟩

theorem fresh_vote_facts (hx : x.Assumptions cc) {a : AccountAddress} (ha : a ∉ x.byzantine)
    {ev : SafetyRules.Event H} (hev : ev ∈ x.run cc a)
    (hep : ev.pre.persistent_storage.safety_data.epoch = x.epoch) {v : Vote H}
    (hv : ev.response = .ok (.vote v))
    (hlt : ev.pre.persistent_storage.safety_data.last_voted_round < v.vote_data.proposed.round) :
    ∃ vp tc, x.FreshVote cc v vp tc ∧
      ev.post.persistent_storage.safety_data.epoch = x.epoch ∧
      v.vote_data.parent.round ≤ ev.post.persistent_storage.safety_data.one_chain_round := by
  obtain ⟨k, io, hh⟩ := SafetyRules.mem_trace_handle hev
  rw [hv] at hh
  obtain ⟨vp, tc, hc, -, hlt', hpr, hpid, hpar, hsafe, hhash, hcommit, hpe, hone⟩ :=
    SafetyRules.handle_fresh_vote hh (x.wellFormed_of_honest hx ha hev) hlt
  have hin := hx.honest_inputs a ha ev hev hep ⟨_, hv⟩
  rw [hc] at hin
  exact ⟨vp, tc, ⟨hlt', hpr, hpid, hpar, hsafe, hhash, hcommit, hin.1, hin.2⟩, hpe.trans hep, hone⟩

-- An honest validator that voted on a ledger info committing to vd voted freshly on vd.
theorem voted_data (hx : x.Assumptions cc) (hvd : Function.Injective cc.vote_data_hash)
    {a : AccountAddress} (ha : a ∉ x.byzantine) {L : LedgerInfo H} (h : x.Voted cc a L)
    {vd : VoteData H} (hL : L.consensus_data_hash = cc.vote_data_hash vd) :
    ∃ ev ∈ x.run cc a, ∃ v : Vote H, ev.response = .ok (.vote v) ∧ v.vote_data = vd ∧
      v.epoch = x.epoch ∧ 0 < vd.proposed.round ∧ ∃ vp tc, x.FreshVote cc v vp tc := by
  obtain ⟨ev, hev, hep, v, hv, hvL, hve, hlt⟩ := x.voted_fresh hx ha h
  obtain ⟨vp, tc, hf, -⟩ := x.fresh_vote_facts hx ha hev hep hv hlt
  have hvv : v.vote_data = vd := hvd (by rw [← hf.data_hash, hvL, hL])
  exact ⟨ev, hev, v, hv, hvv, hve, hvv ▸ Nat.lt_of_le_of_lt (Nat.zero_le _) hlt, vp, tc, hf⟩

-- A certified block other than genesis was voted for: its block data names a certified parent
-- and one of the two voting rules holds.
theorem certified_step (hx : x.Assumptions cc) (hvd : Function.Injective cc.vote_data_hash)
    {C : BlockInfo H} (hC : x.Certified cc C) (hpos : 0 < C.round) :
    ∃ bd : BlockData H, cc.block_data_hash bd = C.id ∧ bd.round = C.round ∧
      x.Certified cc bd.quorum_cert.certified_block ∧
      bd.quorum_cert.certified_block.round < bd.round ∧
      (bd.round = bd.quorum_cert.certified_block.round + 1 ∨
        ∃ t, x.ValidTC cc t ∧ bd.round = t.round + 1 ∧
          t.highest_hqc_round ≤ bd.quorum_cert.certified_block.round) := by
  rcases hC with rfl | ⟨L, vd, rfl, hL, hq⟩
  · rw [hx.genesis_round] at hpos
    exact absurd hpos (Nat.lt_irrefl 0)
  obtain ⟨a, ha, hva⟩ := hq.exists_honest hx
  obtain ⟨ev, -, v, -, rfl, -, -, vp, tc, hf⟩ := x.voted_data hx hvd ha hva hL
  refine ⟨vp.block.block_data, hf.proposed_id.symm, hf.proposed_round.symm,
    certified_of_validQC hf.qc_valid, hf.parent_round_lt, ?_⟩
  rcases safe_to_vote_ok hf.safe with h1 | ⟨h2, h3⟩
  · exact .inl h1
  · cases tc with
    | none =>
      have hlt := hf.parent_round_lt
      simp only [Option.map_none, Option.getD_none] at h2
      exact .inl (by simp only [Block.round, Block.quorum_cert] at h2 hlt ⊢; omega)
    | some t => exact .inr ⟨t, hf.tc_valid t rfl, h2, h3⟩

theorem certified_unique (hx : x.Assumptions cc) (hvd : Function.Injective cc.vote_data_hash)
    {C₁ C₂ : BlockInfo H} (h₁ : x.Certified cc C₁) (h₂ : x.Certified cc C₂)
    (hr : C₁.round = C₂.round) : C₁ = C₂ := by
  rcases h₁ with rfl | ⟨L₁, vd₁, rfl, hL₁, hq₁⟩ <;> rcases h₂ with rfl | ⟨L₂, vd₂, rfl, hL₂, hq₂⟩
  · rfl
  · obtain ⟨a, ha, hva⟩ := hq₂.exists_honest hx
    obtain ⟨-, -, -, -, -, -, hpos, -⟩ := x.voted_data hx hvd ha hva hL₂
    rw [hx.genesis_round] at hr
    omega
  · obtain ⟨a, ha, hva⟩ := hq₁.exists_honest hx
    obtain ⟨-, -, -, -, -, -, hpos, -⟩ := x.voted_data hx hvd ha hva hL₁
    rw [hx.genesis_round] at hr
    omega
  · obtain ⟨a, ha, hva₁, hva₂⟩ := QuorumSigned.inter hx hq₁ hq₂
    obtain ⟨ev₁, hev₁, v₁, hv₁, rfl, he₁, -⟩ := x.voted_data hx hvd ha hva₁ hL₁
    obtain ⟨ev₂, hev₂, v₂, hv₂, rfl, he₂, -⟩ := x.voted_data hx hvd ha hva₂ hL₂
    rw [SafetyRules.vote_unique (hx.honest_init a ha).1 hev₁ hev₂ hv₁ hv₂ (he₁.trans he₂.symm) hr]

theorem lock_bound (hx : x.Assumptions cc) {B : BlockInfo H} {ρ : ℕ} (hlock : x.LockedFrom cc B ρ)
    {t : TwoChainTimeoutCertificate H} (ht : x.ValidTC cc t) (hρ : ρ ≤ t.round) :
    B.round ≤ t.highest_hqc_round := by
  obtain ⟨a, -, hla, r, hr, hto⟩ := QuorumSigned.inter hx hlock ht
  exact (hla _ hto hρ).trans hr

-- Under a lock from round ρ, a certified block above ρ has a certified parent not below B.
theorem parent_of_locked (hx : x.Assumptions cc) (hvd : Function.Injective cc.vote_data_hash)
    {B : BlockInfo H} {ρ : ℕ} (hlock : x.LockedFrom cc B ρ) (hBρ : B.round ≤ ρ)
    {C : BlockInfo H} (hC : x.Certified cc C) (hρC : ρ + 1 ≤ C.round) :
    ∃ P : BlockInfo H, x.Certified cc P ∧ ParentOf cc P.id C.id ∧ P.round < C.round ∧
      B.round ≤ P.round := by
  obtain ⟨bd, hbd, hround, hP, hlt, hrule⟩ := x.certified_step hx hvd hC (by omega)
  refine ⟨bd.quorum_cert.certified_block, hP, ⟨bd, hbd, rfl⟩, hround ▸ hlt, ?_⟩
  rcases hrule with h1 | ⟨t, ht, h2, h3⟩
  · omega
  · have hB := lock_bound hx hlock ht (by omega)
    omega

-- The core of the argument: under a lock from the round after B, every certified block from B's
-- round on descends from B, by strong induction on its round.
theorem ancestor_of_locked (hx : x.Assumptions cc) (hvd : Function.Injective cc.vote_data_hash)
    {B : BlockInfo H} (hB : x.Certified cc B) (hlock : x.LockedFrom cc B (B.round + 1))
    (hnext : ∀ C, x.Certified cc C → C.round = B.round + 1 → IsAncestor cc B.id C.id) :
    ∀ n, ∀ C, x.Certified cc C → C.round = n → B.round ≤ n → IsAncestor cc B.id C.id := by
  intro n
  induction n using Nat.strong_induction_on with
  | _ n ih =>
    intro C hC hCn hBn
    rcases Nat.lt_or_ge n (B.round + 2) with hlt | hge
    · rcases Nat.lt_or_ge n (B.round + 1) with hlt' | hge'
      · rw [x.certified_unique hx hvd hB hC (by omega)]
        exact .refl
      · exact hnext C hC (by omega)
    · obtain ⟨P, hP, hPC, hPlt, hBP⟩ := x.parent_of_locked hx hvd hlock (by omega) hC (by omega)
      exact (ih P.round (by omega) P hP rfl hBP).tail hPC

-- An honest vote that commits B, that is whose block is certified B's child at the next round,
-- locks the validator's later timeouts.
theorem voted_commit (hx : x.Assumptions cc) {a : AccountAddress} (ha : a ∉ x.byzantine)
    {L : LedgerInfo H} (h : x.Voted cc a L) (hB : L.commit_info ≠ BlockInfo.empty) :
    ∃ v vp tc, x.FreshVote cc v vp tc ∧ v.ledger_info = L ∧
      vp.block.round = L.commit_info.round + 1 ∧
      L.commit_info = vp.block.quorum_cert.certified_block ∧
      ∀ m, x.TimedOut cc a m → L.commit_info.round + 1 ≤ m.round →
        L.commit_info.round ≤ m.hqc_round := by
  obtain ⟨ev₁, hev₁, hep₁, v, hv, hvL, -, hlt⟩ := x.voted_fresh hx ha h
  obtain ⟨vp, tc, hf, hpe, hone⟩ := x.fresh_vote_facts hx ha hev₁ hep₁ hv hlt
  have hci := hf.commit_info
  rw [hvL] at hci
  split at hci
  · rename_i hnext
    refine ⟨v, vp, tc, hf, hvL, by rw [hci]; exact hnext, hci, ?_⟩
    rintro m ⟨ev₂, hev₂, hep₂, s, hs, rfl⟩ hr
    obtain ⟨k₂, io₂, hh₂⟩ := SafetyRules.mem_trace_handle hev₂
    rw [hs] at hh₂
    have hse := (SafetyRules.handle_timeout hh₂).1
    refine SafetyRules.timeout_hqc_of_lock (hx.honest_init a ha).1 hev₁ hev₂
      (ρ := v.vote_data.proposed.round) (by rw [hv, hs]; simp) ?_ ?_ hs (hse.trans hep₂) ?_
    · rw [hci, ← hf.parent]
      exact .inr ⟨hpe.symm, hone⟩
    · rintro (hlt' | ⟨-, hl, -⟩) <;> omega
    · rw [hf.proposed_round, hnext, ← hci]
      exact hr
  · exact absurd hci hB

theorem order_voted_commit (hx : x.Assumptions cc) (hvd : Function.Injective cc.vote_data_hash)
    (hbd : Function.Injective cc.block_data_hash) {a : AccountAddress} (ha : a ∉ x.byzantine)
    {L : LedgerInfo H} (h : x.OrderVoted cc a L) :
    x.Certified cc L.commit_info ∧
      ∀ m, x.TimedOut cc a m → L.commit_info.round ≤ m.round → L.commit_info.round ≤ m.hqc_round := by
  obtain ⟨ev₁, hev₁, hep₁, o, ho, rfl⟩ := h
  obtain ⟨k₁, io₁, hh₁⟩ := SafetyRules.mem_trace_handle hev₁
  rw [ho] at hh₁
  obtain ⟨ovp, hc, -⟩ := SafetyRules.handle_ok hh₁
  have hin := hx.honest_inputs a ha ev₁ hev₁ hep₁ ⟨_, ho⟩
  rw [hc] at hh₁ hin
  obtain ⟨-, hhtr, hinfo, hid, hoL, hpe, hone⟩ := SafetyRules.handle_order_vote hh₁
  have hB : o.ledger_info.commit_info = ovp.quorum_cert.certified_block := by rw [hoL, hinfo]
  have hcert : x.Certified cc o.ledger_info.commit_info := hB ▸ certified_of_validQC hin
  refine ⟨hcert, ?_⟩
  rintro m ⟨ev₂, hev₂, hep₂, s, hs, rfl⟩ hr
  rcases Nat.eq_zero_or_pos o.ledger_info.commit_info.round with h0 | hpos
  · rw [h0]
    exact Nat.zero_le _
  -- The order vote's block has the certified block's round, as the two have one hash.
  obtain ⟨bd, hbdC, hbdr, -⟩ := x.certified_step hx hvd hcert hpos
  have hround : ovp.block.round = o.ledger_info.commit_info.round := by
    have hdata : ovp.block.block_data = bd := hbd (by rw [hbdC, hB, hid]; rfl)
    rw [← hbdr, ← hdata]
    rfl
  obtain ⟨k₂, io₂, hh₂⟩ := SafetyRules.mem_trace_handle hev₂
  rw [hs] at hh₂
  have hse := (SafetyRules.handle_timeout hh₂).1
  refine SafetyRules.timeout_hqc_of_lock (hx.honest_init a ha).1 hev₁ hev₂
    (ρ := ovp.block.round) (by rw [ho, hs]; simp) ?_ ?_ hs (hse.trans hep₂) (hround ▸ hr)
  · rw [hB]
    exact .inr ⟨(hpe.trans hep₁).symm, hone⟩
  · rintro (hlt' | ⟨-, -, hh⟩) <;> omega

theorem committed_facts (hx : x.Assumptions cc) (hvd : Function.Injective cc.vote_data_hash)
    (hbd : Function.Injective cc.block_data_hash) {B : BlockInfo H} (h : x.Committed cc B) :
    x.Certified cc B ∧ x.LockedFrom cc B (B.round + 1) ∧
      ∀ C, x.Certified cc C → C.round = B.round + 1 → IsAncestor cc B.id C.id := by
  rcases h with ⟨hne, L, rfl, hq⟩ | ⟨L, rfl, hq⟩
  · obtain ⟨a, ha, hva⟩ := hq.exists_honest hx
    obtain ⟨v, vp, tc, hf, hvL, hround, hci, -⟩ := x.voted_commit hx ha hva hne
    -- The committing votes certify B's child, the only certified block of the next round.
    have hchild : x.Certified cc v.vote_data.proposed :=
      .inr ⟨L, v.vote_data, rfl, hvL ▸ hf.data_hash, hq⟩
    refine ⟨hci ▸ certified_of_validQC hf.qc_valid,
      hq.mono fun b hb hvb => ?_, fun C hC hCr => ?_⟩
    · obtain ⟨-, -, -, -, -, -, -, hlock⟩ := x.voted_commit hx hb hvb hne
      exact hlock
    · rw [x.certified_unique hx hvd hC hchild (by rw [hCr, hf.proposed_round, hround])]
      exact .single ⟨vp.block.block_data, hf.proposed_id.symm, by rw [hci]; rfl⟩
  · obtain ⟨a, ha, hova⟩ := hq.exists_honest hx
    have hcert := (x.order_voted_commit hx hvd hbd ha hova).1
    have hlock : x.LockedFrom cc L.commit_info L.commit_info.round :=
      hq.mono fun b hb hob => (x.order_voted_commit hx hvd hbd hb hob).2
    refine ⟨hcert, hlock.mono (Nat.le_succ _), fun C hC hCr => ?_⟩
    obtain ⟨P, hP, hPC, hPlt, hBP⟩ := x.parent_of_locked hx hvd hlock le_rfl hC (by omega)
    rw [x.certified_unique hx hvd hcert hP (by omega)]
    exact .single hPC

end Execution

variable [DecidableEq H] [Zero H]

theorem two_chain_safety (cc : ConsensusCrypto H) (x : Execution H)
    (hvd : Function.Injective cc.vote_data_hash) (hbd : Function.Injective cc.block_data_hash)
    (hx : x.Assumptions cc) {B₁ B₂ : BlockInfo H} (h₁ : x.Committed cc B₁)
    (h₂ : x.Committed cc B₂) : IsAncestor cc B₁.id B₂.id ∨ IsAncestor cc B₂.id B₁.id := by
  obtain ⟨hc₁, hl₁, hn₁⟩ := x.committed_facts hx hvd hbd h₁
  obtain ⟨hc₂, hl₂, hn₂⟩ := x.committed_facts hx hvd hbd h₂
  rcases le_total B₁.round B₂.round with h | h
  · exact .inl (x.ancestor_of_locked hx hvd hc₁ hl₁ hn₁ _ B₂ hc₂ rfl h)
  · exact .inr (x.ancestor_of_locked hx hvd hc₂ hl₂ hn₂ _ B₁ hc₁ rfl h)

deriving instance Encodable for VoteData
deriving instance Encodable for QuorumCert
deriving instance Encodable for Payload
deriving instance Encodable for BlockType
deriving instance Encodable for BlockData

theorem two_chain_safety_genesis :
    let cc : ConsensusCrypto ℕ :=
      ⟨⟨fun _ => 0, fun _ _ => true⟩, Encodable.encode, Encodable.encode, 0, fun _ _ => true⟩
    let G : BlockInfo ℕ := ⟨1, 0, 0, 0, 0, 0, none⟩
    let gqc : QuorumCert ℕ := ⟨⟨G, G⟩, ⟨⟨G, cc.vote_data_hash ⟨G, G⟩⟩, ⟨[], false⟩⟩⟩
    let vp : VoteProposal ℕ := ⟨⟨[], 0, []⟩, ⟨⟨1, 1, 1, gqc, .proposal ⟨true, []⟩ 0 []⟩⟩, none, true⟩
    let infos : List ValidatorConsensusInfo := [⟨0, 0, 1⟩]
    let sr : SafetyRules ℕ :=
      ⟨.initialize_ 0 0 ⟨0, 0⟩, some ⟨0, 0⟩, some ⟨1, .new infos⟩, true⟩
    let k : Checks ℕ := ⟨fun _ _ => true, fun _ _ => none, 0⟩
    let c : Call ℕ := .construct_and_sign_vote_two_chain vp none
    let x : Execution ℕ :=
      ⟨1, infos, by decide, G, ∅, fun _ => sr, fun a => if a = 0 then [(k, ⟨true, true⟩, c)] else []⟩
    Function.Injective cc.vote_data_hash ∧ Function.Injective cc.block_data_hash ∧
      x.Assumptions cc ∧ x.Committed cc G ∧ (IsAncestor cc G.id G.id ∨ IsAncestor cc G.id G.id) := by
  intro cc G gqc vp infos sr k c x
  let vd : VoteData ℕ := ⟨⟨1, 1, cc.block_data_hash vp.block.block_data, 0, 0, 1, none⟩, G⟩
  have hvd : Function.Injective cc.vote_data_hash := Encodable.encode_injective
  have hbd : Function.Injective cc.block_data_hash := Encodable.encode_injective
  have hrun : x.run cc 0 =
      [⟨sr, c, (sr.handle cc k ⟨true, true⟩ c).2, (sr.handle cc k ⟨true, true⟩ c).1⟩] := rfl
  have hresp : (sr.handle cc k ⟨true, true⟩ c).2 =
      .ok (.vote ⟨vd, 0, ⟨G, cc.vote_data_hash vd⟩⟩) := rfl
  have hempty : ∀ a, a ≠ 0 → x.run cc a = [] := fun a ha => by
    simp [Execution.run, x, ha, SafetyRules.trace]
  have hx : x.Assumptions cc := by
    refine ⟨by decide, rfl, fun _ _ => ⟨SafetyData.wellFormed_new 1, .inr rfl⟩, ?_⟩
    intro a _ ev hev _ _
    by_cases ha : a = 0
    · subst ha
      rw [hrun, List.mem_singleton] at hev
      subst hev
      exact ⟨⟨rfl, .inl rfl⟩, fun t ht => by cases ht⟩
    · rw [hempty a ha] at hev
      cases hev
  have hc : x.Committed cc G := by
    refine .inl ⟨by decide, ⟨G, cc.vote_data_hash vd⟩, rfl, {0}, by decide, fun a ha _ => ?_⟩
    rw [Finset.mem_singleton] at ha
    subst ha
    exact ⟨_, hrun ▸ List.mem_singleton_self _, rfl, _, hresp, rfl⟩
  exact ⟨hvd, hbd, hx, hc, two_chain_safety cc x hvd hbd hx hc hc⟩

end Zapatos.Consensus

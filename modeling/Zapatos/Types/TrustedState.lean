import Mathlib.Logic.Relation
import Zapatos.Types.EpochChange
import Zapatos.Types.Encoding

namespace Zapatos

variable {H : Type}

inductive TrustedState (H : Type) where
  | epoch_waypoint (waypoint : Waypoint H)
  | epoch_state (waypoint : Waypoint H) (epoch_state : EpochState)
deriving DecidableEq, Repr

-- The ledger info a change carries is the epoch-change one the proof returned.
inductive TrustedStateChange (H : Type) where
  | version (new_state : TrustedState H)
  | epoch (new_state : TrustedState H) (latest_epoch_change_li : LedgerInfoWithSignatures H)
  | no_change
deriving DecidableEq, Repr

def TrustedStateChange.new_state : TrustedStateChange H → Option (TrustedState H)
  | .version new_state | .epoch new_state _ => some new_state
  | .no_change => none

namespace TrustedState

def waypoint : TrustedState H → Waypoint H
  | .epoch_waypoint waypoint => waypoint
  | .epoch_state waypoint _ => waypoint

def version (ts : TrustedState H) : ℕ := ts.waypoint.version

-- The trait impl delegates every method to the waypoint or the epoch state.
def verifier : TrustedState H → Verifier H
  | .epoch_waypoint waypoint => .waypoint waypoint
  | .epoch_state _ es => .epoch_state es

variable [DecidableEq H] (c : Crypto H)

-- The three ways of choosing the ledger info the new waypoint is taken from.
def verified_ledger_info (new_epoch_state : EpochState)
    (epoch_change_li latest_li : LedgerInfoWithSignatures H) (more : Bool) :
    Except String (LedgerInfoWithSignatures H) :=
  let new_epoch := new_epoch_state.epoch
  if epoch_change_li = latest_li then .ok latest_li
  else if latest_li.ledger_info.epoch = new_epoch then do
    new_epoch_state.verify c latest_li
    .ok latest_li
  else if latest_li.ledger_info.epoch > new_epoch ∧ more then .ok epoch_change_li
  else .error "Inconsistent epoch change proof and latest ledger info"

def verify_and_ratchet_inner (ts : TrustedState H) (latest_li : LedgerInfoWithSignatures H)
    (epoch_change_proof : EpochChangeProof H) : Except String (TrustedStateChange H) :=
  let curr_version := ts.version
  let target_version := latest_li.ledger_info.version
  if target_version < curr_version then
    .error s!"The target latest ledger info version is stale ({target_version}) and behind our current trusted version ({curr_version})"
  else if ts.verifier.epoch_change_verification_required
      latest_li.ledger_info.next_block_epoch then do
    let epoch_change_li ← epoch_change_proof.verify c ts.verifier
    match epoch_change_li.ledger_info.next_epoch_state with
    | none => .error "A valid EpochChangeProof will never return a non-epoch change ledger info"
    | some new_epoch_state => do
      let verified_ledger_info ← verified_ledger_info c new_epoch_state epoch_change_li
        latest_li epoch_change_proof.more
      let new_waypoint := Waypoint.new_any c verified_ledger_info.ledger_info
      .ok (.epoch (.epoch_state new_waypoint new_epoch_state) epoch_change_li)
  else
    match ts with
    | .epoch_waypoint _ => .error "EpochWaypoint can only verify an epoch change ledger info"
    | .epoch_state curr_waypoint curr_epoch_state =>
      let new_waypoint := Waypoint.new_any c latest_li.ledger_info
      if new_waypoint.version = curr_waypoint.version then
        if new_waypoint = curr_waypoint then .ok .no_change
        else .error "LedgerInfo doesn't match verified state"
      else do
        curr_epoch_state.verify c latest_li
        .ok (.version (.epoch_state new_waypoint curr_epoch_state))

variable {c}

theorem verified_ledger_info_ok {es : EpochState} {eli latest_li vli : LedgerInfoWithSignatures H}
    {more : Bool} (h : verified_ledger_info c es eli latest_li more = .ok vli) :
    vli = latest_li ∧ (eli = latest_li ∨ (Verifier.epoch_state es).Accepts c latest_li) ∨
      vli = eli ∧ es.epoch < latest_li.ledger_info.epoch ∧ more = true := by
  unfold verified_ledger_info at h
  dsimp only at h
  split at h
  · cases h
    exact .inl ⟨rfl, .inl ‹_›⟩
  split at h
  · obtain ⟨_, hv, h⟩ := Except.bind_eq_ok h
    cases h
    exact .inl ⟨rfl, .inr (Verifier.verify_ok_iff.mp hv)⟩
  split at h
  · rename_i hmore
    cases h
    exact .inr ⟨rfl, hmore⟩
  · cases h

-- Everything a successful call can have done: an epoch change through the proof, or, inside the
-- trusted epoch, no change or a newer ledger info signed by the trusted validators.
theorem verify_and_ratchet_inner_ok {ts : TrustedState H} {latest_li : LedgerInfoWithSignatures H}
    {p : EpochChangeProof H} {r : TrustedStateChange H}
    (h : ts.verify_and_ratchet_inner c latest_li p = .ok r) :
    ts.version ≤ latest_li.ledger_info.version ∧
    ((∃ eli es vli, p.verify c ts.verifier = .ok eli ∧ eli.ledger_info.next_epoch_state = some es ∧
        verified_ledger_info c es eli latest_li p.more = .ok vli ∧
        r = .epoch (.epoch_state (Waypoint.new_any c vli.ledger_info) es) eli) ∨
      (∃ w es, ts = .epoch_state w es ∧ latest_li.ledger_info.next_block_epoch ≤ es.epoch ∧
        (Waypoint.new_any c latest_li.ledger_info = w ∧ r = .no_change ∨
          latest_li.ledger_info.version ≠ w.version ∧ es.verify c latest_li = .ok () ∧
          r = .version (.epoch_state (Waypoint.new_any c latest_li.ledger_info) es)))) := by
  unfold verify_and_ratchet_inner at h
  dsimp only at h
  split at h
  · cases h
  rename_i hstale
  refine ⟨Nat.le_of_not_lt hstale, ?_⟩
  split at h
  · obtain ⟨eli, hp, h⟩ := Except.bind_eq_ok h
    split at h
    · cases h
    rename_i es hes
    obtain ⟨vli, hv, h⟩ := Except.bind_eq_ok h
    cases h
    exact .inl ⟨eli, es, vli, hp, hes, hv, rfl⟩
  rename_i hreq
  cases ts with
  | epoch_waypoint w => cases h
  | epoch_state w es =>
    have hle : latest_li.ledger_info.next_block_epoch ≤ es.epoch := by
      simpa [verifier, Verifier.epoch_change_verification_required] using hreq
    refine .inr ⟨w, es, rfl, hle, ?_⟩
    simp only at h
    split at h
    · split at h
      · cases h
        exact .inl ⟨‹_›, rfl⟩
      · cases h
    · rename_i hver
      obtain ⟨_, hv, h⟩ := Except.bind_eq_ok h
      cases h
      exact .inr ⟨hver, hv, rfl⟩

section Results

variable {ts : TrustedState H} {latest_li : LedgerInfoWithSignatures H} {p : EpochChangeProof H}

-- An epoch change is backed by a chain of quorum-signed epoch changes from the trusted verifier,
-- found after the stale prefix of the proof.
theorem epoch_sound {new_state : TrustedState H} {eli : LedgerInfoWithSignatures H}
    (h : ts.verify_and_ratchet_inner c latest_li p = .ok (.epoch new_state eli)) :
    ∃ pre chain es vli, p.ledger_info_with_sigs = pre ++ chain ∧
      (∀ li ∈ pre, ts.verifier.is_ledger_info_stale li.ledger_info = true) ∧
      (∀ li ∈ chain.head?, ts.verifier.is_ledger_info_stale li.ledger_info = false) ∧
      IsChain c ts.verifier chain ∧ chain.getLast? = some eli ∧
      eli.ledger_info.next_epoch_state = some es ∧
      new_state = .epoch_state (Waypoint.new_any c vli.ledger_info) es ∧
      (vli = eli ∨ (Verifier.epoch_state es).Accepts c vli) ∧
      (ts.version ≤ vli.ledger_info.version ∨ vli = eli ∧ p.more = true) := by
  obtain ⟨hver, ⟨eli', es, vli, hp, hes, hv, hr⟩ | ⟨w, es, -, -, ⟨-, hr⟩ | ⟨-, -, hr⟩⟩⟩ :=
    verify_and_ratchet_inner_ok h
  · cases hr
    obtain ⟨pre, chain, hsplit, hpre, hhead, hchain, hlast⟩ := EpochChangeProof.verify_ok hp
    refine ⟨pre, chain, es, vli, hsplit, hpre, hhead, hchain, hlast, hes, rfl, ?_⟩
    rcases verified_ledger_info_ok hv with ⟨rfl, heq | hacc⟩ | ⟨rfl, -, hmore⟩
    · exact ⟨.inl heq.symm, .inl hver⟩
    · exact ⟨.inr hacc, .inl hver⟩
    · exact ⟨.inl rfl, .inr ⟨rfl, hmore⟩⟩
  · cases hr
  · cases hr

-- Inside the trusted epoch the new ledger info is signed by the trusted validators, and the
-- version moves strictly forward.
theorem version_sound {new_state : TrustedState H}
    (h : ts.verify_and_ratchet_inner c latest_li p = .ok (.version new_state)) :
    ∃ w es, ts = .epoch_state w es ∧ (Verifier.epoch_state es).Accepts c latest_li ∧
      new_state = .epoch_state (Waypoint.new_any c latest_li.ledger_info) es ∧
      ts.version < new_state.version := by
  obtain ⟨hver, ⟨_, _, _, -, -, -, hr⟩ | ⟨w, es, rfl, -, ⟨-, hr⟩ | ⟨hne, hv, hr⟩⟩⟩ :=
    verify_and_ratchet_inner_ok h
  · cases hr
  · cases hr
  · cases hr
    refine ⟨w, es, rfl, Verifier.verify_ok_iff.mp hv, rfl, ?_⟩
    have : w.version ≤ latest_li.ledger_info.version := hver
    exact lt_of_le_of_ne this (Ne.symm hne)

end Results

variable (c)

-- How the callers use a response: move to the new state if there is one, else keep the state.
def ratchet (ts : TrustedState H) (latest_li : LedgerInfoWithSignatures H)
    (p : EpochChangeProof H) : TrustedState H :=
  match ts.verify_and_ratchet_inner c latest_li p with
  | .ok change => change.new_state.getD ts
  | .error _ => ts

def ratchet_all :
    TrustedState H → List (LedgerInfoWithSignatures H × EpochChangeProof H) → TrustedState H
  | ts, [] => ts
  | ts, (latest_li, p) :: rest => (ts.ratchet c latest_li p).ratchet_all rest

variable {c}

theorem ratchet_reaches (ts : TrustedState H) (latest_li : LedgerInfoWithSignatures H)
    (p : EpochChangeProof H) :
    Relation.ReflTransGen (Verifier.Hop c) ts.verifier (ts.ratchet c latest_li p).verifier := by
  unfold ratchet
  split
  · rename_i change h
    cases change with
    | version new_state =>
      obtain ⟨w, es, rfl, -, rfl, -⟩ := version_sound h
      exact .refl
    | epoch new_state eli =>
      obtain ⟨_, _, es, _, -, -, -, hchain, hlast, hes, rfl, -⟩ := epoch_sound h
      exact (hchain.reaches hlast hes).to_reflTransGen
    | no_change => exact .refl
  · exact .refl

-- Over any run the trusted validator set is reached from the first one by epoch changes, each
-- signed by the validators before it.
theorem ratchet_all_reaches (ts : TrustedState H)
    (responses : List (LedgerInfoWithSignatures H × EpochChangeProof H)) :
    Relation.ReflTransGen (Verifier.Hop c) ts.verifier (ts.ratchet_all c responses).verifier := by
  induction responses generalizing ts with
  | nil => exact .refl
  | cons response rest ih =>
    obtain ⟨latest_li, p⟩ := response
    exact (ratchet_reaches ts latest_li p).trans (ih _)

theorem ratchet_all_epoch_le (hends : EndsInNextEpoch c) {w : Waypoint H} {es : EpochState}
    (responses : List (LedgerInfoWithSignatures H × EpochChangeProof H)) :
    ∃ es', ((epoch_state w es).ratchet_all c responses).verifier = .epoch_state es' ∧
      es.epoch ≤ es'.epoch :=
  Verifier.epoch_le_of_reflTransGen hends (ratchet_all_reaches (epoch_state w es) responses)

end TrustedState

end Zapatos

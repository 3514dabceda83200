import Mathlib.Data.List.TakeWhile
import Mathlib.Logic.Relation
import Zapatos.Lib.Basic
import Zapatos.Types.Ledger

namespace Zapatos

variable {H : Type}

-- The implementors of the `Verifier` trait that `EpochChangeProof::verify` receives.
inductive Verifier (H : Type) where
  | waypoint (w : Waypoint H)
  | epoch_state (es : EpochState)
deriving DecidableEq, Repr

-- The value mismatch message prints both hashes in hex; the model keeps its first words.
def Waypoint.verify [DecidableEq H] (c : Crypto H) (w : Waypoint H) (li : LedgerInfo H) :
    Except String Unit := do
  if li.version != w.version then
    let wv := w.version
    let gv := li.version
    .error s!"Waypoint version mismatch: waypoint version = {wv}, given version = {gv}"
  if c.waypoint_hash (Ledger2WaypointConverter.new li) != w.value then
    .error "Waypoint value mismatch"
  .ok ()

def EpochState.verify (c : Crypto H) (es : EpochState) (li : LedgerInfoWithSignatures H) :
    Except String Unit := do
  if es.epoch != li.ledger_info.epoch then
    let e := li.ledger_info.epoch
    let x := es.epoch
    .error s!"LedgerInfo has unexpected epoch {e}, expected {x}"
  match li.verify_signatures c es.verifier with
  | .ok () => .ok ()
  | .error _ => .error "signature verification failed"

namespace Verifier

def verify [DecidableEq H] (c : Crypto H) : Verifier H → LedgerInfoWithSignatures H →
    Except String Unit
  | .waypoint w, li => w.verify c li.ledger_info
  | .epoch_state es, li => es.verify c li

def epoch_change_verification_required : Verifier H → ℕ → Bool
  | .waypoint _, _ => true
  | .epoch_state es, epoch => decide (es.epoch < epoch)

def is_ledger_info_stale : Verifier H → LedgerInfo H → Bool
  | .waypoint w, li => decide (li.version < w.version)
  | .epoch_state es, li => decide (li.epoch < es.epoch)

end Verifier

structure EpochChangeProof (H : Type) where
  ledger_info_with_sigs : List (LedgerInfoWithSignatures H)
  more : Bool
deriving DecidableEq, Repr

namespace EpochChangeProof

-- The loop of `EpochChangeProof::verify` after the stale prefix: the first ledger info is
-- checked by the given verifier, every later one by the epoch state of the one before.
def verifyChain [DecidableEq H] (c : Crypto H) :
    Verifier H → List (LedgerInfoWithSignatures H) → Except String Unit
  | _, [] => .ok ()
  | v, li :: rest => do
    v.verify c li
    match li.ledger_info.next_epoch_state with
    | none => .error "LedgerInfo doesn't carry a ValidatorSet"
    | some es => verifyChain c (.epoch_state es) rest

def verify [DecidableEq H] (c : Crypto H) (p : EpochChangeProof H) (v : Verifier H) :
    Except String (LedgerInfoWithSignatures H) :=
  match p.ledger_info_with_sigs.getLast? with
  | none => .error "The EpochChangeProof is empty"
  | some last =>
    if v.is_ledger_info_stale last.ledger_info then
      .error "The EpochChangeProof is stale as our verifier is already ahead of the entire EpochChangeProof"
    else do
      verifyChain c v (p.ledger_info_with_sigs.dropWhile (fun li => v.is_ledger_info_stale li.ledger_info))
      .ok last

end EpochChangeProof

namespace Verifier

-- What a verifier accepts, in the words of the trait: a ledger info matching the waypoint, or
-- one of the epoch signed by a quorum of the epoch's validators.
def Accepts (c : Crypto H) : Verifier H → LedgerInfoWithSignatures H → Prop
  | .waypoint w, li => li.ledger_info.version = w.version ∧
      c.waypoint_hash (Ledger2WaypointConverter.new li.ledger_info) = w.value
  | .epoch_state es, li => li.ledger_info.epoch = es.epoch ∧
      li.verify_signatures c es.verifier = .ok ()

variable [DecidableEq H] {c : Crypto H}

theorem verify_ok_iff {v : Verifier H} {li : LedgerInfoWithSignatures H} :
    v.verify c li = .ok () ↔ v.Accepts c li := by
  cases v with
  | waypoint w =>
    simp only [verify, Waypoint.verify, Accepts]
    by_cases hv : li.ledger_info.version = w.version <;>
      by_cases hh : c.waypoint_hash (Ledger2WaypointConverter.new li.ledger_info) = w.value <;>
      simp [hv, hh, bind, Except.bind]
  | epoch_state es =>
    simp only [verify, EpochState.verify, Accepts]
    by_cases he : es.epoch = li.ledger_info.epoch
    · cases li.verify_signatures c es.verifier <;> simp [he]
    · simp [he, Ne.symm he, bind, Except.bind]

end Verifier

-- One epoch change: the verifier accepts a ledger info that names the next epoch state.
def Verifier.Hop (c : Crypto H) (v v' : Verifier H) : Prop :=
  ∃ li es, v.Accepts c li ∧ li.ledger_info.next_epoch_state = some es ∧ v' = .epoch_state es

-- The validators of every epoch only sign an epoch change into the following epoch.
def EndsInNextEpoch (c : Crypto H) : Prop :=
  ∀ es li es', (Verifier.epoch_state es).Accepts c li →
    li.ledger_info.next_epoch_state = some es' → es'.epoch = es.epoch + 1

section EndsInNextEpoch

variable {c : Crypto H} (hends : EndsInNextEpoch c)
include hends

theorem Verifier.Hop.epoch_succ {es : EpochState} {v : Verifier H}
    (h : Verifier.Hop c (.epoch_state es) v) :
    ∃ es', v = .epoch_state es' ∧ es'.epoch = es.epoch + 1 := by
  obtain ⟨li, es', hacc, hnext, rfl⟩ := h
  exact ⟨es', rfl, hends es li es' hacc hnext⟩

theorem Verifier.epoch_lt_of_transGen {es : EpochState} {v : Verifier H}
    (h : Relation.TransGen (Verifier.Hop c) (.epoch_state es) v) :
    ∃ es', v = .epoch_state es' ∧ es.epoch < es'.epoch := by
  induction h with
  | single hop =>
    obtain ⟨es', rfl, he⟩ := hop.epoch_succ hends
    exact ⟨es', rfl, by omega⟩
  | tail _ hop ih =>
    obtain ⟨es₁, rfl, he₁⟩ := ih
    obtain ⟨es', rfl, he⟩ := hop.epoch_succ hends
    exact ⟨es', rfl, by omega⟩

theorem Verifier.epoch_le_of_reflTransGen {es : EpochState} {v : Verifier H}
    (h : Relation.ReflTransGen (Verifier.Hop c) (.epoch_state es) v) :
    ∃ es', v = .epoch_state es' ∧ es.epoch ≤ es'.epoch := by
  rcases Relation.reflTransGen_iff_eq_or_transGen.mp h with rfl | h
  · exact ⟨es, rfl, le_rfl⟩
  · obtain ⟨es', rfl, he⟩ := Verifier.epoch_lt_of_transGen hends h
    exact ⟨es', rfl, he.le⟩

end EndsInNextEpoch

-- A chain of epoch changes from a verifier: every ledger info is accepted by the verifier
-- before it and names the epoch state that verifies the next one.
inductive IsChain (c : Crypto H) : Verifier H → List (LedgerInfoWithSignatures H) → Prop
  | nil (v : Verifier H) : IsChain c v []
  | cons {v : Verifier H} {li : LedgerInfoWithSignatures H} {es : EpochState}
      {rest : List (LedgerInfoWithSignatures H)} :
      v.Accepts c li → li.ledger_info.next_epoch_state = some es →
      IsChain c (.epoch_state es) rest → IsChain c v (li :: rest)

theorem IsChain.reaches {c : Crypto H} {v : Verifier H} {chain : List (LedgerInfoWithSignatures H)}
    {L : LedgerInfoWithSignatures H} {es : EpochState} (h : IsChain c v chain)
    (hL : chain.getLast? = some L) (hes : L.ledger_info.next_epoch_state = some es) :
    Relation.TransGen (Verifier.Hop c) v (.epoch_state es) := by
  induction h with
  | nil => cases hL
  | @cons v li es₀ rest hacc hnext _ ih =>
    rw [List.getLast?_cons] at hL
    cases hr : rest.getLast? with
    | none =>
      rw [hr, Option.getD_none, Option.some_inj] at hL
      subst hL
      exact .single ⟨li, es, hacc, hes, rfl⟩
    | some L' =>
      rw [hr, Option.getD_some, Option.some_inj] at hL
      subst hL
      exact .head ⟨li, es₀, hacc, hnext, rfl⟩ (ih hr)

namespace EpochChangeProof

variable [DecidableEq H] {c : Crypto H}

theorem verifyChain_ok {v : Verifier H} {l : List (LedgerInfoWithSignatures H)}
    (h : verifyChain c v l = .ok ()) : IsChain c v l := by
  induction l generalizing v with
  | nil => exact .nil v
  | cons li rest ih =>
    simp only [verifyChain] at h
    obtain ⟨_, hv, h⟩ := Except.bind_eq_ok h
    split at h
    · cases h
    · rename_i es hes
      exact .cons (Verifier.verify_ok_iff.mp hv) hes (ih h)

-- A verified proof is a stale prefix followed by a chain from the verifier that ends with the
-- returned ledger info.
theorem verify_ok {p : EpochChangeProof H} {v : Verifier H} {L : LedgerInfoWithSignatures H}
    (h : p.verify c v = .ok L) :
    ∃ pre chain, p.ledger_info_with_sigs = pre ++ chain ∧
      (∀ li ∈ pre, v.is_ledger_info_stale li.ledger_info = true) ∧
      (∀ li ∈ chain.head?, v.is_ledger_info_stale li.ledger_info = false) ∧
      IsChain c v chain ∧ chain.getLast? = some L := by
  unfold verify at h
  split at h
  · cases h
  rename_i last hlast
  split at h
  · cases h
  rename_i hfresh
  obtain ⟨_, hchain, h⟩ := Except.bind_eq_ok h
  cases h
  let stale := fun li : LedgerInfoWithSignatures H => v.is_ledger_info_stale li.ledger_info
  refine ⟨p.ledger_info_with_sigs.takeWhile stale, p.ledger_info_with_sigs.dropWhile stale,
    List.takeWhile_append_dropWhile.symm, fun li hli => List.mem_takeWhile_imp (p := stale) hli, ?_,
    verifyChain_ok hchain, ?_⟩
  · intro li hli
    have := List.head?_dropWhile_not stale p.ledger_info_with_sigs
    rw [Option.mem_def] at hli
    rw [hli] at this
    exact this
  · have hsplit := (List.takeWhile_append_dropWhile (p := stale)
      (l := p.ledger_info_with_sigs)).symm
    rw [hsplit, List.getLast?_append] at hlast
    cases hd : (p.ledger_info_with_sigs.dropWhile stale).getLast? with
    | some x =>
      rw [hd, Option.some_or] at hlast
      exact hlast ▸ rfl
    | none =>
      rw [hd, Option.none_or] at hlast
      have hmem := List.mem_takeWhile_imp (p := stale) (List.mem_of_getLast? hlast)
      simp only [Bool.not_eq_true] at hfresh
      exact absurd hmem (by simp [stale, hfresh])

end EpochChangeProof

end Zapatos

import Mathlib
import Zapatos.Lib.Basic
import Zapatos.Consensus.Types
import Zapatos.Types.Quorum

namespace Zapatos.Consensus

open Std

-- The BTreeMaps of the source are Std tree maps, iterated in key order as in Rust.
structure PartialSignatures (S : Type) where
  signatures : TreeMap AccountAddress S

namespace PartialSignatures

variable {S : Type}

def empty : PartialSignatures S := ⟨∅⟩

def add_signature (p : PartialSignatures S) (validator : AccountAddress) (signature : S) :
    PartialSignatures S :=
  ⟨p.signatures.insert validator signature⟩

def signatures_iter (p : PartialSignatures S) : List (AccountAddress × S) := p.signatures.toList

end PartialSignatures

structure PartialSignaturesWithRound (S : Type) where
  signatures : TreeMap AccountAddress (ℕ × S)

namespace PartialSignaturesWithRound

variable {S : Type}

def empty : PartialSignaturesWithRound S := ⟨∅⟩

def add_signature (p : PartialSignaturesWithRound S) (validator : AccountAddress) (round : ℕ)
    (signature : S) : PartialSignaturesWithRound S :=
  ⟨p.signatures.insertIfNew validator (round, signature)⟩

-- The closure get_partial_sig_with_rounds runs on each entry of the map.
def collect_signature (address_to_validator_index : AccountAddress → Option ℕ)
    (acc : PartialSignatures S × TreeMap ℕ ℕ) (address : AccountAddress) (entry : ℕ × S) :
    PartialSignatures S × TreeMap ℕ ℕ :=
  match address_to_validator_index address with
  | some index => (acc.1.add_signature address entry.2, acc.2.insert index entry.1)
  | none => acc

def get_partial_sig_with_rounds (p : PartialSignaturesWithRound S)
    (address_to_validator_index : AccountAddress → Option ℕ) : PartialSignatures S × List ℕ :=
  let (partial_sig, index_to_rounds) := p.signatures.foldl
    (collect_signature address_to_validator_index) (PartialSignatures.empty, ∅)
  (partial_sig, index_to_rounds.toList.map Prod.snd)

section Collect

variable {idx : AccountAddress → Option ℕ} {l : List (AccountAddress × ℕ × S)}
  {acc : PartialSignatures S × TreeMap ℕ ℕ}

theorem collect_getElem?_of_forall_ne {j : ℕ} (h : ∀ x ∈ l, idx x.1 ≠ some j) :
    (l.foldl (fun acc x => collect_signature idx acc x.1 x.2) acc).2[j]? = acc.2[j]? := by
  induction l generalizing acc with
  | nil => rfl
  | cons x l ih =>
    rw [List.foldl_cons, ih fun y hy => h y (List.mem_cons_of_mem x hy)]
    unfold collect_signature
    split
    · rename_i i hi
      have hij : i ≠ j := fun hij => h x List.mem_cons_self (hij ▸ hi)
      simp [TreeMap.getElem?_insert, hij]
    · rfl

theorem collect_getElem?_of_mem {a : AccountAddress} {r i : ℕ} {s : S}
    (hinj : ∀ a b i, idx a = some i → idx b = some i → a = b) (hnodup : (l.map (·.1)).Nodup)
    (hmem : (a, r, s) ∈ l) (hi : idx a = some i) :
    (l.foldl (fun acc x => collect_signature idx acc x.1 x.2) acc).2[i]? = some r := by
  induction l generalizing acc with
  | nil => cases hmem
  | cons x l ih =>
    rw [List.map_cons, List.nodup_cons] at hnodup
    rw [List.foldl_cons]
    rcases List.mem_cons.mp hmem with rfl | hmem'
    · have hne : ∀ y ∈ l, idx y.1 ≠ some i := fun y hy hyi =>
        hnodup.1 (List.mem_map.mpr ⟨y, hy, hinj _ _ _ hyi hi⟩)
      rw [collect_getElem?_of_forall_ne hne]
      simp [collect_signature, hi]
    · exact ih hnodup.2 hmem'

theorem collect_exists_of_getElem? {j r : ℕ}
    (h : (l.foldl (fun acc x => collect_signature idx acc x.1 x.2) acc).2[j]? = some r) :
    acc.2[j]? = some r ∨ ∃ a s, (a, r, s) ∈ l := by
  induction l generalizing acc with
  | nil => exact Or.inl h
  | cons x l ih =>
    rcases ih h with h' | ⟨a, s, hmem⟩
    · cases hi : idx x.1 with
      | none =>
        simp only [collect_signature, hi] at h'
        exact Or.inl h'
      | some i =>
        simp only [collect_signature, hi, TreeMap.getElem?_insert] at h'
        split_ifs at h' with hij
        · cases h'
          exact Or.inr ⟨x.1, x.2.2, List.mem_cons_self⟩
        · exact Or.inl h'
    · exact Or.inr ⟨a, s, List.mem_cons_of_mem x hmem⟩

end Collect

variable {p : PartialSignaturesWithRound S} {idx : AccountAddress → Option ℕ} {r : ℕ}

theorem get_partial_sig_with_rounds_snd :
    (p.get_partial_sig_with_rounds idx).2 =
      ((p.signatures.toList.foldl (fun acc x => collect_signature idx acc x.1 x.2)
        (PartialSignatures.empty, ∅)).2.toList.map Prod.snd) := by
  simp [get_partial_sig_with_rounds, TreeMap.foldl_eq_foldl_toList]

theorem nodup_keys : (p.signatures.toList.map (·.1)).Nodup :=
  List.pairwise_map.mpr (TreeMap.distinct_keys_toList.imp fun h e => h (by rw [e]; simp))

theorem exists_of_mem_rounds (h : r ∈ (p.get_partial_sig_with_rounds idx).2) :
    ∃ (a : AccountAddress) (s : S), p.signatures[a]? = some (r, s) := by
  rw [get_partial_sig_with_rounds_snd] at h
  obtain ⟨⟨j, r'⟩, hj, rfl⟩ := List.mem_map.mp h
  rcases collect_exists_of_getElem? (TreeMap.mem_toList_iff_getElem?_eq_some.mp hj) with
    h0 | ⟨a, s, hmem⟩
  · simp at h0
  · exact ⟨a, s, TreeMap.mem_toList_iff_getElem?_eq_some.mp hmem⟩

theorem mem_rounds {a : AccountAddress} {i : ℕ} {s : S}
    (hinj : ∀ a b i, idx a = some i → idx b = some i → a = b)
    (ha : p.signatures[a]? = some (r, s)) (hi : idx a = some i) :
    r ∈ (p.get_partial_sig_with_rounds idx).2 := by
  rw [get_partial_sig_with_rounds_snd]
  have hr : (p.signatures.toList.foldl (fun acc x => collect_signature idx acc x.1 x.2)
      (PartialSignatures.empty, ∅)).2[i]? = some r :=
    collect_getElem?_of_mem hinj nodup_keys (TreeMap.mem_toList_iff_getElem?_eq_some.mpr ha) hi
  exact List.mem_map.mpr ⟨(i, r), TreeMap.mem_toList_iff_getElem?_eq_some.mpr hr, rfl⟩

end PartialSignaturesWithRound

structure TwoChainTimeoutWithPartialSignatures (H S : Type) where
  timeout : TwoChainTimeout H
  signatures : PartialSignaturesWithRound S

namespace TwoChainTimeoutWithPartialSignatures

variable {H S : Type}

def new (timeout : TwoChainTimeout H) : TwoChainTimeoutWithPartialSignatures H S :=
  ⟨timeout, PartialSignaturesWithRound.empty⟩

def signers (self : TwoChainTimeoutWithPartialSignatures H S) : List AccountAddress :=
  self.signatures.signatures.keys

-- The debug_assert_eq! checks of epoch and round are compiled out of release builds.
def add (self : TwoChainTimeoutWithPartialSignatures H S) (author : AccountAddress)
    (timeout : TwoChainTimeout H) (signature : S) : TwoChainTimeoutWithPartialSignatures H S :=
  let hqc_round := timeout.hqc_round
  let self := if timeout.hqc_round > self.timeout.hqc_round then { self with timeout } else self
  { self with signatures := self.signatures.add_signature author hqc_round signature }

def aggregate_signatures (self : TwoChainTimeoutWithPartialSignatures H S)
    (aggregate : List S → Bool) (verifier : ValidatorVerifier) :
    Except VerifyError (TwoChainTimeoutCertificate H) := do
  let (partial_sig, ordered_rounds) :=
    self.signatures.get_partial_sig_with_rounds verifier.address_to_validator_index
  let aggregated_sig ← verifier.aggregate_signatures aggregate partial_sig.signatures_iter
  .ok ⟨self.timeout, ⟨aggregated_sig, ordered_rounds⟩⟩

-- Timeouts added one after another, as PendingVotes::insert_round_timeout does.
def add_all (self : TwoChainTimeoutWithPartialSignatures H S) :
    List (AccountAddress × TwoChainTimeout H × S) → TwoChainTimeoutWithPartialSignatures H S
  | [] => self
  | (author, timeout, signature) :: rest => (self.add author timeout signature).add_all rest


section Add

variable {tc : TwoChainTimeoutWithPartialSignatures H S} {a b : AccountAddress}
  {t : TwoChainTimeout H} {s : S}

-- Every round kept for a signer is at most the hqc round of the carried timeout.
def RoundsBounded (tc : TwoChainTimeoutWithPartialSignatures H S) : Prop :=
  ∀ (a : AccountAddress) (r : ℕ) (s : S),
    tc.signatures.signatures[a]? = some (r, s) → r ≤ tc.timeout.hqc_round

-- The hqc round of the carried timeout is the round kept for one of the signers.
def HqcSigned (tc : TwoChainTimeoutWithPartialSignatures H S) : Prop :=
  ∃ (a : AccountAddress) (s : S), tc.signatures.signatures[a]? = some (tc.timeout.hqc_round, s)

theorem add_hqc_round :
    (tc.add a t s).timeout.hqc_round = max tc.timeout.hqc_round t.hqc_round := by
  unfold add
  split_ifs with h <;> simp <;> omega

theorem add_signatures :
    (tc.add a t s).signatures = tc.signatures.add_signature a t.hqc_round s := by
  unfold add
  split_ifs <;> rfl

theorem getElem?_add :
    (tc.add a t s).signatures.signatures[b]? =
      if a = b ∧ a ∉ tc.signatures.signatures then some (t.hqc_round, s)
      else tc.signatures.signatures[b]? := by
  rw [add_signatures]
  simp only [PartialSignaturesWithRound.add_signature, TreeMap.getElem?_insertIfNew,
    Std.compare_eq_iff_eq]

theorem mem_add :
    b ∈ (tc.add a t s).signatures.signatures ↔ a = b ∨ b ∈ tc.signatures.signatures := by
  rw [add_signatures]
  simp only [PartialSignaturesWithRound.add_signature, TreeMap.mem_insertIfNew,
    Std.compare_eq_iff_eq]

theorem roundsBounded_new : RoundsBounded (new t : TwoChainTimeoutWithPartialSignatures H S) := by
  intro a r s h
  simp [new, PartialSignaturesWithRound.empty] at h

theorem RoundsBounded.add (h : RoundsBounded tc) : RoundsBounded (tc.add a t s) := by
  intro b r s' hb
  rw [getElem?_add] at hb
  rw [add_hqc_round]
  split_ifs at hb with hab
  · cases hb
    omega
  · have := h b r s' hb
    omega

theorem HqcSigned.add (h : HqcSigned tc) (hfresh : a ∉ tc.signatures.signatures) :
    HqcSigned (tc.add a t s) := by
  obtain ⟨b, s', hb⟩ := h
  have hab : a ≠ b := by
    rintro rfl
    exact hfresh (TreeMap.mem_iff_isSome_getElem?.mpr (by simp [hb]))
  by_cases hlt : tc.timeout.hqc_round < t.hqc_round
  · refine ⟨a, s, ?_⟩
    rw [getElem?_add, if_pos ⟨rfl, hfresh⟩, add_hqc_round, max_eq_right hlt.le]
  · refine ⟨b, s', ?_⟩
    rw [getElem?_add, if_neg (fun h => hab h.1), add_hqc_round, max_eq_left (by omega)]
    exact hb

theorem hqcSigned_new_add : HqcSigned ((new t : TwoChainTimeoutWithPartialSignatures H S).add a t s) := by
  refine ⟨a, s, ?_⟩
  rw [getElem?_add, add_hqc_round]
  simp [new, PartialSignaturesWithRound.empty]

end Add

section Run

variable {tc : TwoChainTimeoutWithPartialSignatures H S}
  {msgs : List (AccountAddress × TwoChainTimeout H × S)}

theorem RoundsBounded.add_all (h : RoundsBounded tc) : RoundsBounded (tc.add_all msgs) := by
  induction msgs generalizing tc with
  | nil => exact h
  | cons m msgs ih =>
    obtain ⟨a, t, s⟩ := m
    exact ih h.add

theorem mem_add_all {b : AccountAddress} :
    b ∈ (tc.add_all msgs).signatures.signatures ↔
      b ∈ tc.signatures.signatures ∨ b ∈ msgs.map (·.1) := by
  induction msgs generalizing tc with
  | nil => simp [add_all]
  | cons m msgs ih =>
    obtain ⟨a, t, s⟩ := m
    rw [add_all, ih, mem_add]
    simp only [List.map_cons, List.mem_cons]
    grind

theorem HqcSigned.add_all (h : HqcSigned tc) (hnodup : (msgs.map (·.1)).Nodup)
    (hfresh : ∀ m ∈ msgs, m.1 ∉ tc.signatures.signatures) : HqcSigned (tc.add_all msgs) := by
  induction msgs generalizing tc with
  | nil => exact h
  | cons m msgs ih =>
    obtain ⟨a, t, s⟩ := m
    rw [List.map_cons, List.nodup_cons] at hnodup
    refine ih (h.add (hfresh _ List.mem_cons_self)) hnodup.2 fun m hm hin => ?_
    rcases mem_add.mp hin with hab | hin'
    · exact hnodup.1 (List.mem_map.mpr ⟨m, hm, hab.symm⟩)
    · exact hfresh m (List.mem_cons_of_mem _ hm) hin'

end Run

section Aggregate

variable {tc : TwoChainTimeoutWithPartialSignatures H S} {aggregate : List S → Bool}
  {v : ValidatorVerifier} {cert : TwoChainTimeoutCertificate H}

theorem aggregate_signatures_eq_ok (h : tc.aggregate_signatures aggregate v = .ok cert) :
    cert.timeout = tc.timeout ∧ cert.signatures_with_rounds.rounds =
      (tc.signatures.get_partial_sig_with_rounds v.address_to_validator_index).2 := by
  unfold aggregate_signatures at h
  cases hagg : v.aggregate_signatures aggregate
      (tc.signatures.get_partial_sig_with_rounds v.address_to_validator_index).1.signatures_iter with
  | error e => simp [hagg, Except.error_bind] at h
  | ok sig =>
    simp only [hagg, Except.ok_bind, Except.ok.injEq] at h
    exact ⟨by rw [← h], by rw [← h]⟩

theorem rounds_le_of_aggregate (hb : RoundsBounded tc)
    (h : tc.aggregate_signatures aggregate v = .ok cert) :
    ∀ r ∈ cert.signatures_with_rounds.rounds, r ≤ cert.timeout.hqc_round := by
  obtain ⟨ht, hr⟩ := aggregate_signatures_eq_ok h
  intro r hmem
  rw [hr] at hmem
  rw [ht]
  obtain ⟨a, s, ha⟩ := PartialSignaturesWithRound.exists_of_mem_rounds hmem
  exact hb a r s ha

theorem hqc_round_mem_of_aggregate (hs : HqcSigned tc)
    (hin : ∀ a ∈ tc.signatures.signatures, a ∈ v.get_ordered_account_addresses)
    (h : tc.aggregate_signatures aggregate v = .ok cert) :
    cert.timeout.hqc_round ∈ cert.signatures_with_rounds.rounds := by
  obtain ⟨ht, hr⟩ := aggregate_signatures_eq_ok h
  obtain ⟨a, s, ha⟩ := hs
  have hmem : a ∈ tc.signatures.signatures := TreeMap.mem_iff_isSome_getElem?.mpr (by simp [ha])
  obtain ⟨i, hi⟩ :=
    Option.isSome_iff_exists.mp (ValidatorVerifier.address_to_validator_index_isSome (hin a hmem))
  rw [ht, hr]
  exact PartialSignaturesWithRound.mem_rounds
    (fun _ _ _ => ValidatorVerifier.address_to_validator_index_inj) ha hi

-- Any sequence of timeouts keeps every signed round at or below the carried hqc round.
theorem rounds_le_hqc_round {t0 : TwoChainTimeout H}
    {msgs : List (AccountAddress × TwoChainTimeout H × S)}
    (h : ((new t0).add_all msgs).aggregate_signatures aggregate v = .ok cert) :
    ∀ r ∈ cert.signatures_with_rounds.rounds, r ≤ cert.timeout.hqc_round :=
  rounds_le_of_aggregate roundsBounded_new.add_all h

-- With distinct authors in the validator set, the carried hqc round is the highest signed one.
theorem aggregate_signatures_hqc_round_eq_max {t0 : TwoChainTimeout H} {a0 : AccountAddress}
    {s0 : S} {msgs : List (AccountAddress × TwoChainTimeout H × S)}
    (hnodup : (a0 :: msgs.map (·.1)).Nodup)
    (hin : ∀ a ∈ a0 :: msgs.map (·.1), a ∈ v.get_ordered_account_addresses)
    (h : (((new t0).add a0 t0 s0).add_all msgs).aggregate_signatures aggregate v = .ok cert) :
    cert.signatures_with_rounds.rounds.max? = some cert.timeout.hqc_round := by
  rw [List.nodup_cons] at hnodup
  have hfresh : ∀ m ∈ msgs, m.1 ∉ ((new t0 : TwoChainTimeoutWithPartialSignatures H S).add
      a0 t0 s0).signatures.signatures := fun m hm hin' => by
    rcases mem_add.mp hin' with hab | hempty
    · exact hnodup.1 (List.mem_map.mpr ⟨m, hm, hab.symm⟩)
    · simp [new, PartialSignaturesWithRound.empty] at hempty
  have hs := hqcSigned_new_add.add_all hnodup.2 hfresh
  have hsigners : ∀ a ∈ (((new t0).add a0 t0 s0).add_all msgs).signatures.signatures,
      a ∈ v.get_ordered_account_addresses := fun a ha => by
    rcases mem_add_all.mp ha with ha0 | hmsg
    · rcases mem_add.mp ha0 with rfl | hempty
      · exact hin _ List.mem_cons_self
      · simp [new, PartialSignaturesWithRound.empty] at hempty
    · exact hin a (List.mem_cons_of_mem _ hmsg)
  exact List.max?_eq_some_iff.mpr ⟨hqc_round_mem_of_aggregate hs hsigners h,
    rounds_le_of_aggregate roundsBounded_new.add.add_all h⟩

end Aggregate

end TwoChainTimeoutWithPartialSignatures

theorem TwoChainTimeoutCertificate.verify_eq_false_of_max_ne {H : Type} [DecidableEq H]
    {cc : ConsensusCrypto H} {tc : TwoChainTimeoutCertificate H} {v : ValidatorVerifier}
    (h : tc.signatures_with_rounds.rounds.max? ≠ some tc.highest_hqc_round) :
    tc.verify cc v = false := by
  unfold TwoChainTimeoutCertificate.verify
  cases hm : tc.signatures_with_rounds.rounds.max? with
  | none => simp
  | some r =>
    have hne : tc.highest_hqc_round ≠ r := fun e => h (by rw [hm, e])
    simp [hne]

open TwoChainTimeoutWithPartialSignatures in
theorem aggregate_signatures_repeated_author :
    ∃ cert, (((new ⟨1, 3, ⟨⟨⟨1, 1, 0, 0, 0, 0, none⟩, ⟨1, 0, 0, 0, 0, 0, none⟩⟩,
          ⟨⟨⟨1, 0, 0, 0, 0, 0, none⟩, 0⟩, ⟨[], false⟩⟩⟩⟩ :
            TwoChainTimeoutWithPartialSignatures ℕ ℕ).add 1
        ⟨1, 3, ⟨⟨⟨1, 1, 0, 0, 0, 0, none⟩, ⟨1, 0, 0, 0, 0, 0, none⟩⟩,
          ⟨⟨⟨1, 0, 0, 0, 0, 0, none⟩, 0⟩, ⟨[], false⟩⟩⟩⟩ 0).add 1
        ⟨1, 3, ⟨⟨⟨1, 2, 0, 0, 0, 0, none⟩, ⟨1, 1, 0, 0, 0, 0, none⟩⟩,
          ⟨⟨⟨1, 0, 0, 0, 0, 0, none⟩, 0⟩, ⟨[], false⟩⟩⟩⟩ 1).aggregate_signatures (fun _ => true)
        (ValidatorVerifier.new [⟨1, 0, 1⟩]) = .ok cert ∧
      cert.timeout.hqc_round = 2 ∧ cert.signatures_with_rounds.rounds = [1] ∧
      ∀ cc, cert.verify cc (ValidatorVerifier.new [⟨1, 0, 1⟩]) = false :=
  ⟨_, rfl, rfl, rfl, fun _ => TwoChainTimeoutCertificate.verify_eq_false_of_max_ne (by decide)⟩

end Zapatos.Consensus

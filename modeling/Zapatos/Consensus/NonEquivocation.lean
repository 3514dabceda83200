import Mathlib.Data.List.Pairwise
import Mathlib.Order.MinMax
import Zapatos.Consensus.SafetyRulesSpec

namespace Zapatos.Consensus

variable {H : Type}

namespace SafetyData

def WellFormed (sd : SafetyData H) : Prop :=
  sd.highest_timeout_round ≤ sd.last_voted_round ∧
    ∀ v, sd.last_vote = some v →
      v.epoch = sd.epoch ∧ v.vote_data.proposed.round ≤ sd.last_voted_round

def Advances (a b : SafetyData H) : Prop :=
  a.epoch ≤ b.epoch ∧
    (a.epoch = b.epoch → a.last_voted_round ≤ b.last_voted_round ∧
      a.preferred_round ≤ b.preferred_round ∧ a.one_chain_round ≤ b.one_chain_round ∧
      a.highest_timeout_round ≤ b.highest_timeout_round)

theorem advances_refl (a : SafetyData H) : a.Advances a :=
  ⟨le_rfl, fun _ => ⟨le_rfl, le_rfl, le_rfl, le_rfl⟩⟩

theorem wellFormed_new (epoch : ℕ) : WellFormed (⟨epoch, 0, 0, 0, none, 0⟩ : SafetyData H) :=
  ⟨le_rfl, fun _ hv => by cases hv⟩

theorem Advances.trans {a b c : SafetyData H} (hab : a.Advances b) (hbc : b.Advances c) :
    a.Advances c := by
  refine ⟨hab.1.trans hbc.1, fun hac => ?_⟩
  have hab' : a.epoch = b.epoch := le_antisymm hab.1 (hac ▸ hbc.1)
  obtain ⟨h1, h2, h3, h4⟩ := hab.2 hab'
  obtain ⟨h5, h6, h7, h8⟩ := hbc.2 (hab' ▸ hac)
  exact ⟨h1.trans h5, h2.trans h6, h3.trans h7, h4.trans h8⟩

theorem Advances.of_epoch_eq {a b : SafetyData H} (he : a.epoch = b.epoch)
    (hl : a.last_voted_round ≤ b.last_voted_round) (hp : a.preferred_round ≤ b.preferred_round)
    (ho : a.one_chain_round ≤ b.one_chain_round)
    (hh : a.highest_timeout_round ≤ b.highest_timeout_round) : a.Advances b :=
  ⟨he.le, fun _ => ⟨hl, hp, ho, hh⟩⟩

theorem WellFormed.of_last_vote_eq {a b : SafetyData H} (hwf : a.WellFormed)
    (he : b.epoch = a.epoch) (hl : a.last_voted_round ≤ b.last_voted_round)
    (hh : b.highest_timeout_round ≤ b.last_voted_round) (hv : b.last_vote = a.last_vote) :
    b.WellFormed := by
  refine ⟨hh, fun v hbv => ?_⟩
  obtain ⟨h1, h2⟩ := hwf.2 v (hv ▸ hbv)
  exact ⟨h1.trans he.symm, h2.trans hl⟩

-- What the safety data remembers of a vote: a later epoch, or the vote's round is spent and the
-- last vote at that round is the vote itself.
def HasVoted (v : Vote H) (sd : SafetyData H) : Prop :=
  v.epoch < sd.epoch ∨
    v.epoch = sd.epoch ∧ v.vote_data.proposed.round ≤ sd.last_voted_round ∧
      ∀ w, sd.last_vote = some w → w.vote_data.proposed.round = v.vote_data.proposed.round → w = v

-- A fact about the safety data that holds from some point of an epoch on: it stays true while
-- the epoch lasts and is vacuous once a later epoch starts.
def Since (epoch : ℕ) (p : SafetyData H → Prop) (sd : SafetyData H) : Prop :=
  epoch < sd.epoch ∨ epoch = sd.epoch ∧ p sd

theorem Since.advance {e : ℕ} {p : SafetyData H → Prop} {a b : SafetyData H} (h : Since e p a)
    (hab : a.Advances b) (hp : a.epoch = b.epoch → p a → p b) : Since e p b := by
  rcases h with hlt | ⟨rfl, ha⟩
  · exact .inl (lt_of_lt_of_le hlt hab.1)
  · rcases lt_or_eq_of_le hab.1 with hlt | heq
    · exact .inl hlt
    · exact .inr ⟨heq, hp heq ha⟩

def HasTimedOut (epoch round : ℕ) : SafetyData H → Prop :=
  Since epoch fun sd => round ≤ sd.last_voted_round ∧ round ≤ sd.highest_timeout_round

def HasOneChain (epoch round : ℕ) : SafetyData H → Prop :=
  Since epoch fun sd => round ≤ sd.one_chain_round

theorem HasTimedOut.advance {e r : ℕ} {a b : SafetyData H} (h : HasTimedOut e r a)
    (hab : a.Advances b) : HasTimedOut e r b := by
  refine Since.advance h hab fun he ha => ?_
  obtain ⟨hl, -, -, hh⟩ := hab.2 he
  exact ⟨ha.1.trans hl, ha.2.trans hh⟩

theorem HasOneChain.advance {e r : ℕ} {a b : SafetyData H} (h : HasOneChain e r a)
    (hab : a.Advances b) : HasOneChain e r b :=
  Since.advance h hab fun he ha => ha.trans (hab.2 he).2.2.1

-- The last vote changes only to a vote above the old last voted round, or with a new epoch.
theorem HasVoted.advance {v : Vote H} {a b : SafetyData H} (h : HasVoted v a)
    (hab : a.Advances b)
    (hlv : b.last_vote = a.last_vote ∨ (a.epoch < b.epoch ∧ b.last_vote = none) ∨
      ∃ w, b.last_vote = some w ∧ a.last_voted_round < w.vote_data.proposed.round) :
    HasVoted v b := by
  rcases h with hlt | ⟨he, hl, hw⟩
  · exact .inl (lt_of_lt_of_le hlt hab.1)
  rcases lt_or_eq_of_le hab.1 with hlt | heq
  · exact .inl (he ▸ hlt)
  obtain ⟨hl', -, -, -⟩ := hab.2 heq
  refine .inr ⟨he.trans heq, hl.trans hl', fun w hbw hr => ?_⟩
  rcases hlv with hsame | ⟨hlt, -⟩ | ⟨w', hbw', hlt⟩
  · exact hw w (hsame ▸ hbw) hr
  · exact absurd heq hlt.ne
  · rw [hbw', Option.some.injEq] at hbw
    subst hbw
    omega

end SafetyData

namespace SafetyRules

variable [DecidableEq H] [Zero H] {cc : ConsensusCrypto H} {k : Checks H} {io : StorageIO}
  {sr sr' : SafetyRules H} {c : Call H} {r : Except (Error H) (Response H)}

-- Everything a call can do to the state: nothing, an initialisation, or a successful timeout,
-- vote or order vote.
theorem handle_cases (h : sr.handle cc k io c = (sr', r)) :
    sr' = sr ∨
      (∃ p, c = .initialize_ p ∧ sr' = (sr.guarded_initialize cc io p).1) ∨
      (∃ t tc s, sr.guarded_sign_timeout_with_qc cc io t tc = .ok (s, sr') ∧
        r = .ok (.timeout s)) ∨
      (∃ vp tc v, sr.guarded_construct_and_sign_vote_two_chain cc k io vp tc = .ok (v, sr') ∧
        r = .ok (.vote v)) ∨
      (∃ ovp o, c = .construct_and_sign_order_vote ovp ∧
        sr.guarded_construct_and_sign_order_vote cc io ovp = .ok (o, sr') ∧
        r = .ok (.order_vote o)) := by
  cases c with
  | initialize_ p =>
    exact .inr (.inl ⟨p, rfl, (congrArg Prod.fst h).symm⟩)
  | sign_proposal b =>
    cases h
    exact .inl rfl
  | sign_timeout_with_qc t tc =>
    simp only [handle] at h
    split at h
    · rename_i s sr1 hg
      cases h
      exact .inr (.inr (.inl ⟨t, tc, s, hg, rfl⟩))
    · cases h
      exact .inl rfl
  | construct_and_sign_vote_two_chain vp tc =>
    simp only [handle] at h
    split at h
    · rename_i v sr1 hg
      cases h
      exact .inr (.inr (.inr (.inl ⟨vp, tc, v, hg, rfl⟩)))
    · cases h
      exact .inl rfl
  | construct_and_sign_order_vote ovp =>
    simp only [handle] at h
    split at h
    · rename_i o sr1 hg
      cases h
      exact .inr (.inr (.inr (.inr ⟨ovp, o, rfl, hg, rfl⟩)))
    · cases h
      exact .inl rfl
  | sign_commit_vote li nli =>
    cases h
    exact .inl rfl

omit [Zero H] in
theorem timeout_step {t : TwoChainTimeout H} {tc : Option (TwoChainTimeoutCertificate H)}
    {s : Signature TimeoutSigningRepr}
    (h : sr.guarded_sign_timeout_with_qc cc io t tc = .ok (s, sr')) :
    let sd := sr.persistent_storage.safety_data
    let sd' := sr'.persistent_storage.safety_data
    s.message.epoch = sd.epoch ∧ sd.last_voted_round ≤ s.message.round ∧ sd'.epoch = sd.epoch ∧
      sd'.last_voted_round = s.message.round ∧
      sd'.highest_timeout_round = max sd.highest_timeout_round s.message.round ∧
      sd'.preferred_round = sd.preferred_round ∧ sd'.one_chain_round = sd.one_chain_round ∧
      sd'.last_vote = sd.last_vote ∧ sd.one_chain_round ≤ s.message.hqc_round := by
  obtain ⟨hepoch, hle, -, -, hone, sg, -, rfl, rfl⟩ := guarded_sign_timeout_with_qc_ok h
  exact ⟨hepoch, hle, rfl, rfl, rfl, rfl, rfl, rfl, hone⟩

theorem vote_step {vp : VoteProposal H} {tc : Option (TwoChainTimeoutCertificate H)} {v : Vote H}
    (h : sr.guarded_construct_and_sign_vote_two_chain cc k io vp tc = .ok (v, sr')) :
    let sd := sr.persistent_storage.safety_data
    let sd' := sr'.persistent_storage.safety_data
    (sd.last_vote = some v ∧ sr' = sr) ∨
      (v.epoch = sd.epoch ∧ sd.last_voted_round < v.vote_data.proposed.round ∧
        sd'.epoch = sd.epoch ∧ sd'.last_voted_round = v.vote_data.proposed.round ∧
        sd'.last_vote = some v ∧ sd.preferred_round ≤ sd'.preferred_round ∧
        sd.one_chain_round ≤ sd'.one_chain_round ∧
        sd'.highest_timeout_round = sd.highest_timeout_round) := by
  obtain ⟨vd, hvd, -, hcase⟩ := guarded_construct_and_sign_vote_two_chain_ok h
  rcases hcase with ⟨hcached, rfl⟩ | ⟨-, hlt, -, sg, -, -, hv, rfl⟩
  · exact .inl ⟨(Option.filter_eq_some_iff.mp hcached).1, rfl⟩
  · obtain ⟨hepoch, -, -, hgen⟩ := verify_proposal_ok hvd
    obtain ⟨hpe, hpr, -, -⟩ := gen_vote_data_some hgen
    have hvd' : v.vote_data = vd := congrArg Vote.vote_data hv
    refine .inr ⟨?_, ?_, ?_, ?_, rfl, ?_, ?_, ?_⟩
    · simp only [Vote.epoch, hvd', hpe, hepoch]
    · rw [hvd', hpr]; exact hlt
    · simp
    · simp [hvd', hpr, Block.round]
    · simp
    · simp
    · simp

theorem order_vote_step {ovp : OrderVoteProposal H} {o : OrderVote H}
    (h : sr.guarded_construct_and_sign_order_vote cc io ovp = .ok (o, sr')) :
    let sd := sr.persistent_storage.safety_data
    let sd' := sr'.persistent_storage.safety_data
    ovp.block.epoch = sd.epoch ∧ sd.highest_timeout_round < ovp.block.round ∧
      sd'.epoch = sd.epoch ∧ sd'.last_voted_round = sd.last_voted_round ∧
      sd'.last_vote = sd.last_vote ∧ sd'.highest_timeout_round = sd.highest_timeout_round ∧
      sd.preferred_round ≤ sd'.preferred_round ∧ sd.one_chain_round ≤ sd'.one_chain_round := by
  obtain ⟨hovp, hhtr, sg, -, -, rfl⟩ := guarded_construct_and_sign_order_vote_ok h
  exact ⟨(verify_order_vote_proposal_ok hovp).1, hhtr, by simp, by simp, by simp, by simp,
    by simp, by simp⟩

theorem handle_advances (h : sr.handle cc k io c = (sr', r))
    (hwf : sr.persistent_storage.safety_data.WellFormed) :
    sr.persistent_storage.safety_data.Advances sr'.persistent_storage.safety_data ∧
      sr'.persistent_storage.safety_data.WellFormed := by
  rcases handle_cases h with rfl | ⟨p, -, hi⟩ | ⟨t, tc, s, hg, -⟩ | ⟨vp, tc, v, hg, -⟩ |
    ⟨ovp, o, -, hg, -⟩
  · exact ⟨SafetyData.advances_refl _, hwf⟩
  · rcases guarded_initialize_safety_data hi with he | ⟨hlt, hre⟩
    · rw [he]
      exact ⟨SafetyData.advances_refl _, hwf⟩
    · refine ⟨⟨hlt.le, fun he => absurd he hlt.ne⟩, ?_⟩
      rw [hre]
      exact SafetyData.wellFormed_new _
  · obtain ⟨-, hle, he, hl, hh, hp, ho, hv, -⟩ := timeout_step hg
    have hhtr := hwf.1
    refine ⟨.of_epoch_eq he.symm (by omega) hp.ge ho.ge (by omega), ?_⟩
    exact hwf.of_last_vote_eq he (by omega) (by omega) hv
  · rcases vote_step hg with ⟨-, rfl⟩ | ⟨hve, hlt, he, hl, hv, hp, ho, hh⟩
    · exact ⟨SafetyData.advances_refl _, hwf⟩
    · have hhtr := hwf.1
      refine ⟨.of_epoch_eq he.symm (by omega) hp ho hh.ge, by omega, fun w hw => ?_⟩
      rw [hv, Option.some.injEq] at hw
      subst hw
      exact ⟨hve.trans he.symm, hl.ge⟩
  · obtain ⟨-, -, he, hl, hv, hh, hp, ho⟩ := order_vote_step hg
    have hhtr := hwf.1
    refine ⟨.of_epoch_eq he.symm hl.ge hp ho hh.ge, ?_⟩
    exact hwf.of_last_vote_eq he hl.ge (by omega) hv

theorem handle_last_vote (h : sr.handle cc k io c = (sr', r)) :
    let sd := sr.persistent_storage.safety_data
    let sd' := sr'.persistent_storage.safety_data
    sd'.last_vote = sd.last_vote ∨ (sd.epoch < sd'.epoch ∧ sd'.last_vote = none) ∨
      ∃ w, r = .ok (.vote w) ∧ sd'.last_vote = some w ∧
        sd.last_voted_round < w.vote_data.proposed.round ∧ w.epoch = sd.epoch := by
  rcases handle_cases h with rfl | ⟨p, -, hi⟩ | ⟨t, tc, s, hg, -⟩ | ⟨vp, tc, v, hg, hr⟩ |
    ⟨ovp, o, -, hg, -⟩
  · exact .inl rfl
  · rcases guarded_initialize_safety_data hi with he | ⟨hlt, hre⟩
    · exact .inl (by rw [he])
    · exact .inr (.inl ⟨hlt, by rw [hre]⟩)
  · exact .inl (timeout_step hg).2.2.2.2.2.2.2.1
  · rcases vote_step hg with ⟨-, rfl⟩ | ⟨hve, hlt, -, -, hv, -⟩
    · exact .inl rfl
    · exact .inr (.inr ⟨v, hr, hv, hlt, hve⟩)
  · exact .inl (order_vote_step hg).2.2.2.2.1

-- Which guarded function produced a successful response that is a timeout, a vote or an order vote.
theorem handle_ok {x : Response H} (h : sr.handle cc k io c = (sr', .ok x)) :
    match x with
    | .timeout s => ∃ t tc, c = .sign_timeout_with_qc t tc ∧
        sr.guarded_sign_timeout_with_qc cc io t tc = .ok (s, sr')
    | .vote v => ∃ vp tc, c = .construct_and_sign_vote_two_chain vp tc ∧
        sr.guarded_construct_and_sign_vote_two_chain cc k io vp tc = .ok (v, sr')
    | .order_vote o => ∃ ovp, c = .construct_and_sign_order_vote ovp ∧
        sr.guarded_construct_and_sign_order_vote cc io ovp = .ok (o, sr')
    | _ => True := by
  cases c with
  | initialize_ p =>
    obtain ⟨_, -, rfl⟩ := Except.map_eq_ok (congrArg Prod.snd h)
    trivial
  | sign_proposal b =>
    obtain ⟨_, -, rfl⟩ := Except.map_eq_ok (congrArg Prod.snd h)
    trivial
  | sign_timeout_with_qc t tc =>
    simp only [handle] at h
    split at h
    · rename_i hg
      cases h
      exact ⟨t, tc, rfl, hg⟩
    · cases h
  | construct_and_sign_vote_two_chain vp tc =>
    simp only [handle] at h
    split at h
    · rename_i hg
      cases h
      exact ⟨vp, tc, rfl, hg⟩
    · cases h
  | construct_and_sign_order_vote ovp =>
    simp only [handle] at h
    split at h
    · rename_i hg
      cases h
      exact ⟨ovp, rfl, hg⟩
    · cases h
  | sign_commit_vote li nli =>
    obtain ⟨_, -, rfl⟩ := Except.map_eq_ok (congrArg Prod.snd h)
    trivial

theorem hasVoted_of_vote {v : Vote H} (h : sr.handle cc k io c = (sr', .ok (.vote v)))
    (hwf : sr.persistent_storage.safety_data.WellFormed) :
    sr'.persistent_storage.safety_data.HasVoted v := by
  obtain ⟨vp, tc, -, hg⟩ := handle_ok h
  rcases vote_step hg with ⟨hlv, rfl⟩ | ⟨hve, -, he, hl, hv, -⟩
  · obtain ⟨hve, hvr⟩ := hwf.2 v hlv
    refine .inr ⟨hve, hvr, fun w hw _ => ?_⟩
    rw [hlv, Option.some.injEq] at hw
    exact hw.symm
  · refine .inr ⟨hve.trans he.symm, hl.ge, fun w hw _ => ?_⟩
    rw [hv, Option.some.injEq] at hw
    exact hw.symm

theorem hasTimedOut_of_timeout {s : Signature TimeoutSigningRepr}
    (h : sr.handle cc k io c = (sr', .ok (.timeout s))) :
    sr'.persistent_storage.safety_data.HasTimedOut s.message.epoch s.message.round := by
  obtain ⟨t, tc, -, hg⟩ := handle_ok h
  obtain ⟨hse, -, he, hl, hh, -⟩ := timeout_step hg
  exact .inr ⟨hse.trans he.symm, hl.ge, hh ▸ le_max_right _ _⟩

theorem vote_eq_of_hasVoted {v w : Vote H} (h : sr.handle cc k io c = (sr', .ok (.vote w)))
    (hwf : sr.persistent_storage.safety_data.WellFormed)
    (hv : sr.persistent_storage.safety_data.HasVoted v) (he : w.epoch = v.epoch)
    (hr : w.vote_data.proposed.round = v.vote_data.proposed.round) : w = v := by
  obtain ⟨vp, tc, -, hg⟩ := handle_ok h
  rcases vote_step hg with ⟨hlw, -⟩ | ⟨hwe, hlt, -⟩
  · have hwe := (hwf.2 w hlw).1
    rcases hv with hlt | ⟨-, -, hlast⟩
    · omega
    · exact hlast w hlw hr
  · rcases hv with hlt | ⟨hve, hl, -⟩
    · omega
    · omega

theorem vote_cached_of_hasTimedOut {v : Vote H} {e r : ℕ}
    (h : sr.handle cc k io c = (sr', .ok (.vote v)))
    (ht : sr.persistent_storage.safety_data.HasTimedOut e r) (he : v.epoch = e)
    (hr : v.vote_data.proposed.round = r) :
    sr.persistent_storage.safety_data.last_vote = some v ∧ sr' = sr := by
  obtain ⟨vp, tc, -, hg⟩ := handle_ok h
  rcases vote_step hg with hc | ⟨hve, hlt, -⟩
  · exact hc
  · rcases ht with hlt' | ⟨hte, hl, -⟩
    · omega
    · omega

theorem order_vote_round_of_hasTimedOut {ovp : OrderVoteProposal H} {o : OrderVote H} {e r : ℕ}
    (h : sr.handle cc k io (.construct_and_sign_order_vote ovp) = (sr', .ok (.order_vote o)))
    (ht : sr.persistent_storage.safety_data.HasTimedOut e r) (he : ovp.block.epoch = e) :
    r < ovp.block.round := by
  obtain ⟨ovp', hc, hg⟩ := handle_ok h
  cases hc
  obtain ⟨hbe, hlt, -⟩ := order_vote_step hg
  rcases ht with hlt' | ⟨hte, -, hh⟩
  · omega
  · omega

theorem trace_cons (sr : SafetyRules H) (k : Checks H) (io : StorageIO) (c : Call H)
    (ins : List (Checks H × StorageIO × Call H)) :
    sr.trace cc ((k, io, c) :: ins) =
      ⟨sr, c, (sr.handle cc k io c).2, (sr.handle cc k io c).1⟩ ::
        (sr.handle cc k io c).1.trace cc ins := rfl

theorem mem_trace_handle {ev : Event H} :
    ∀ {sr : SafetyRules H} {ins : List (Checks H × StorageIO × Call H)}, ev ∈ sr.trace cc ins →
      ∃ k io, ev.pre.handle cc k io ev.call = (ev.post, ev.response)
  | _, [], h => by cases h
  | sr, (k, io, c) :: ins, h => by
    rw [trace_cons, List.mem_cons] at h
    rcases h with rfl | h
    · exact ⟨k, io, rfl⟩
    · exact mem_trace_handle h

-- A property kept by every call holds before each call of a run.
theorem trace_invariant {P : SafetyRules H → Prop}
    (hstep : ∀ k io c (sr : SafetyRules H), P sr → P (sr.handle cc k io c).1) {ev : Event H} :
    ∀ {sr : SafetyRules H} {ins : List (Checks H × StorageIO × Call H)}, P sr →
      ev ∈ sr.trace cc ins → P ev.pre
  | _, [], _, h => by cases h
  | sr, (k, io, c) :: ins, hP, h => by
    rw [trace_cons, List.mem_cons] at h
    rcases h with rfl | h
    · exact hP
    · exact trace_invariant hstep (hstep k io c sr hP) h

-- A property that every event of the run keeps holds before each of its events.
theorem trace_induction {P : SafetyRules H → Prop} :
    ∀ {sr : SafetyRules H} {ins : List (Checks H × StorageIO × Call H)}, P sr →
      (∀ ev ∈ sr.trace cc ins, P ev.pre → P ev.post) → ∀ ev ∈ sr.trace cc ins, P ev.pre
  | _, [], _, _, _, h => by cases h
  | sr, (k, io, c) :: ins, hP, hstep, ev, h => by
    rw [trace_cons] at hstep h
    rcases List.mem_cons.mp h with rfl | h
    · exact hP
    · exact trace_induction (hstep _ List.mem_cons_self hP)
        (fun ev' hev' => hstep ev' (List.mem_cons_of_mem _ hev')) ev h

theorem trace_sublist_pair {ev₁ ev₂ : Event H} :
    ∀ {sr : SafetyRules H} {ins : List (Checks H × StorageIO × Call H)},
      [ev₁, ev₂].Sublist (sr.trace cc ins) → ∃ ins', ev₂ ∈ ev₁.post.trace cc ins'
  | _, [], h => by simp [trace] at h
  | sr, (k, io, c) :: ins, h => by
    rw [trace_cons, List.sublist_cons_iff] at h
    rcases h with h | ⟨_, he, h⟩
    · exact trace_sublist_pair h
    · rw [List.cons.injEq] at he
      obtain ⟨rfl, rfl⟩ := he
      exact ⟨ins, List.singleton_sublist.mp h⟩

theorem wellFormed_pre (hwf : sr.persistent_storage.safety_data.WellFormed) {ev : Event H}
    {ins : List (Checks H × StorageIO × Call H)} (h : ev ∈ sr.trace cc ins) :
    ev.pre.persistent_storage.safety_data.WellFormed :=
  trace_invariant (P := fun sr => sr.persistent_storage.safety_data.WellFormed)
    (fun _ _ _ _ hP => (handle_advances rfl hP).2) hwf h

theorem event_advances (hwf : sr.persistent_storage.safety_data.WellFormed) {ev : Event H}
    {ins : List (Checks H × StorageIO × Call H)} (h : ev ∈ sr.trace cc ins) :
    ev.pre.persistent_storage.safety_data.Advances ev.post.persistent_storage.safety_data ∧
      ev.post.persistent_storage.safety_data.WellFormed := by
  obtain ⟨k, io, hh⟩ := mem_trace_handle h
  exact handle_advances hh (wellFormed_pre hwf h)

-- A property of the safety data kept by every call from a well-formed state holds from the
-- state after an event to the state before any later event.
theorem trace_forward {P : SafetyData H → Prop}
    (hstep : ∀ k io c (sr : SafetyRules H), sr.persistent_storage.safety_data.WellFormed →
      P sr.persistent_storage.safety_data → P (sr.handle cc k io c).1.persistent_storage.safety_data)
    (hwf : sr.persistent_storage.safety_data.WellFormed) {ev₁ ev₂ : Event H}
    {ins : List (Checks H × StorageIO × Call H)} (h : [ev₁, ev₂].Sublist (sr.trace cc ins))
    (hP : P ev₁.post.persistent_storage.safety_data) : P ev₂.pre.persistent_storage.safety_data := by
  obtain ⟨ins', h₂⟩ := trace_sublist_pair h
  have hwf₁ := (event_advances hwf (h.subset (by simp : ev₁ ∈ [ev₁, ev₂]))).2
  exact (trace_invariant (P := fun sr => sr.persistent_storage.safety_data.WellFormed ∧
      P sr.persistent_storage.safety_data)
    (fun k io c sr hi => ⟨(handle_advances rfl hi.1).2, hstep k io c sr hi.1 hi.2⟩) ⟨hwf₁, hP⟩ h₂).2

theorem vote_after_vote (hwf : sr.persistent_storage.safety_data.WellFormed) {ev₁ ev₂ : Event H}
    {ins : List (Checks H × StorageIO × Call H)} (h : [ev₁, ev₂].Sublist (sr.trace cc ins))
    {v₁ v₂ : Vote H} (h₁ : ev₁.response = .ok (.vote v₁)) (h₂ : ev₂.response = .ok (.vote v₂))
    (he : v₂.epoch = v₁.epoch)
    (hr : v₂.vote_data.proposed.round = v₁.vote_data.proposed.round) : v₂ = v₁ := by
  have hm₁ : ev₁ ∈ sr.trace cc ins := h.subset (by simp)
  have hm₂ : ev₂ ∈ sr.trace cc ins := h.subset (by simp)
  obtain ⟨k₁, io₁, hh₁⟩ := mem_trace_handle hm₁
  obtain ⟨k₂, io₂, hh₂⟩ := mem_trace_handle hm₂
  rw [h₁] at hh₁
  rw [h₂] at hh₂
  have hv : ev₂.pre.persistent_storage.safety_data.HasVoted v₁ :=
    trace_forward (fun _ _ _ _ hwf hP => hP.advance (handle_advances rfl hwf).1
        ((handle_last_vote rfl).imp_right (.imp_right fun ⟨w, _, hw, hlt, _⟩ => ⟨w, hw, hlt⟩)))
      hwf h (hasVoted_of_vote hh₁ (wellFormed_pre hwf hm₁))
  exact vote_eq_of_hasVoted hh₂ (wellFormed_pre hwf hm₂) hv he hr

theorem vote_after_timeout (hwf : sr.persistent_storage.safety_data.WellFormed)
    {ev₁ ev₂ : Event H} {ins : List (Checks H × StorageIO × Call H)}
    (h : [ev₁, ev₂].Sublist (sr.trace cc ins)) {s : Signature TimeoutSigningRepr} {v : Vote H}
    (h₁ : ev₁.response = .ok (.timeout s)) (h₂ : ev₂.response = .ok (.vote v))
    (he : v.epoch = s.message.epoch) (hr : v.vote_data.proposed.round = s.message.round) :
    ev₂.pre.persistent_storage.safety_data.last_vote = some v ∧ ev₂.post = ev₂.pre := by
  obtain ⟨k₁, io₁, hh₁⟩ := mem_trace_handle (h.subset (by simp : ev₁ ∈ [ev₁, ev₂]))
  obtain ⟨k₂, io₂, hh₂⟩ := mem_trace_handle (h.subset (by simp : ev₂ ∈ [ev₁, ev₂]))
  rw [h₁] at hh₁
  rw [h₂] at hh₂
  have ht := trace_forward (fun _ _ _ _ hwf hP => hP.advance (handle_advances rfl hwf).1) hwf h
    (hasTimedOut_of_timeout hh₁)
  exact vote_cached_of_hasTimedOut hh₂ ht he hr

theorem order_vote_after_timeout (hwf : sr.persistent_storage.safety_data.WellFormed)
    {ev₁ ev₂ : Event H} {ins : List (Checks H × StorageIO × Call H)}
    (h : [ev₁, ev₂].Sublist (sr.trace cc ins)) {s : Signature TimeoutSigningRepr}
    {ovp : OrderVoteProposal H} {o : OrderVote H} (h₁ : ev₁.response = .ok (.timeout s))
    (hc : ev₂.call = .construct_and_sign_order_vote ovp) (h₂ : ev₂.response = .ok (.order_vote o))
    (he : ovp.block.epoch = s.message.epoch) : s.message.round < ovp.block.round := by
  obtain ⟨k₁, io₁, hh₁⟩ := mem_trace_handle (h.subset (by simp : ev₁ ∈ [ev₁, ev₂]))
  obtain ⟨k₂, io₂, hh₂⟩ := mem_trace_handle (h.subset (by simp : ev₂ ∈ [ev₁, ev₂]))
  rw [h₁] at hh₁
  rw [h₂, hc] at hh₂
  have ht := trace_forward (fun _ _ _ _ hwf hP => hP.advance (handle_advances rfl hwf).1) hwf h
    (hasTimedOut_of_timeout hh₁)
  exact order_vote_round_of_hasTimedOut hh₂ ht he

end SafetyRules

def SafetyRules.Event.ConsistentVotes (ev₁ ev₂ : SafetyRules.Event H) : Prop :=
  ∀ v₁ v₂ : Vote H, ev₁.response = .ok (.vote v₁) → ev₂.response = .ok (.vote v₂) →
    v₁.epoch = v₂.epoch → v₁.vote_data.proposed.round = v₂.vote_data.proposed.round → v₁ = v₂

instance : Std.Symm (SafetyRules.Event.ConsistentVotes (H := H)) :=
  ⟨fun _ _ h v₁ v₂ h₁ h₂ he hr => (h v₂ v₁ h₂ h₁ he.symm hr.symm).symm⟩

namespace SafetyRules

variable [DecidableEq H] [Zero H]

theorem trace_non_equivocation (cc : ConsensusCrypto H) (sr : SafetyRules H)
    (ins : List (Checks H × StorageIO × Call H))
    (hwf : sr.persistent_storage.safety_data.WellFormed) :
    let evs := sr.trace cc ins
    (∀ ev ∈ evs,
      ev.pre.persistent_storage.safety_data.Advances ev.post.persistent_storage.safety_data ∧
        ev.post.persistent_storage.safety_data.WellFormed) ∧
    (∀ ev₁ ∈ evs, ∀ ev₂ ∈ evs, ∀ v₁ v₂ : Vote H,
      ev₁.response = .ok (.vote v₁) → ev₂.response = .ok (.vote v₂) →
      v₁.epoch = v₂.epoch → v₁.vote_data.proposed.round = v₂.vote_data.proposed.round →
      v₁ = v₂) ∧
    (∀ (ev₁ ev₂ : Event H) s v, [ev₁, ev₂].Sublist evs →
      ev₁.response = .ok (.timeout s) → ev₂.response = .ok (.vote v) →
      v.epoch = s.message.epoch → v.vote_data.proposed.round = s.message.round →
      ev₂.pre.persistent_storage.safety_data.last_vote = some v ∧ ev₂.post = ev₂.pre) ∧
    (∀ (ev₁ ev₂ : Event H) s ovp o, [ev₁, ev₂].Sublist evs →
      ev₁.response = .ok (.timeout s) → ev₂.call = .construct_and_sign_order_vote ovp →
      ev₂.response = .ok (.order_vote o) → ovp.block.epoch = s.message.epoch →
      s.message.round < ovp.block.round) := by
  intro evs
  have hpair : evs.Pairwise Event.ConsistentVotes :=
    List.pairwise_iff_forall_sublist.mpr fun h v₁ v₂ h₁ h₂ he hr =>
      (vote_after_vote hwf h h₁ h₂ he.symm hr.symm).symm
  refine ⟨fun ev h => event_advances hwf h, fun ev₁ h₁ ev₂ h₂ => ?_,
    fun _ _ _ _ h => vote_after_timeout hwf h, fun _ _ _ _ _ h => order_vote_after_timeout hwf h⟩
  by_cases hne : ev₁ = ev₂
  · subst hne
    intro v₁ v₂ hv₁ hv₂ _ _
    rw [hv₁, Except.ok.injEq, Response.vote.injEq] at hv₂
    exact hv₂
  · exact hpair.forall h₁ h₂ hne

theorem trace_non_equivocation_new :
    let cc : ConsensusCrypto ℕ := ⟨⟨fun _ => 0, fun _ _ => true⟩, fun _ => 0, fun _ => 0, 0,
      fun _ _ => true⟩
    let sr : SafetyRules ℕ := .new (.initialize_ 1 2 ⟨0, 0⟩) false
    let evs := sr.trace cc []
    sr.persistent_storage.safety_data.WellFormed ∧
    (∀ ev ∈ evs,
      ev.pre.persistent_storage.safety_data.Advances ev.post.persistent_storage.safety_data ∧
        ev.post.persistent_storage.safety_data.WellFormed) ∧
    (∀ ev₁ ∈ evs, ∀ ev₂ ∈ evs, ∀ v₁ v₂ : Vote ℕ,
      ev₁.response = .ok (.vote v₁) → ev₂.response = .ok (.vote v₂) →
      v₁.epoch = v₂.epoch → v₁.vote_data.proposed.round = v₂.vote_data.proposed.round →
      v₁ = v₂) ∧
    (∀ (ev₁ ev₂ : Event ℕ) s v, [ev₁, ev₂].Sublist evs →
      ev₁.response = .ok (.timeout s) → ev₂.response = .ok (.vote v) →
      v.epoch = s.message.epoch → v.vote_data.proposed.round = s.message.round →
      ev₂.pre.persistent_storage.safety_data.last_vote = some v ∧ ev₂.post = ev₂.pre) ∧
    (∀ (ev₁ ev₂ : Event ℕ) s ovp o, [ev₁, ev₂].Sublist evs →
      ev₁.response = .ok (.timeout s) → ev₂.call = .construct_and_sign_order_vote ovp →
      ev₂.response = .ok (.order_vote o) → ovp.block.epoch = s.message.epoch →
      s.message.round < ovp.block.round) :=
  ⟨SafetyData.wellFormed_new 1, trace_non_equivocation _ _ [] (SafetyData.wellFormed_new 1)⟩

end SafetyRules

end Zapatos.Consensus

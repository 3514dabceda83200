import Zapatos.Lib.Basic
import Zapatos.Consensus.NonEquivocation

namespace Zapatos.Consensus

namespace SafetyRules

variable {H : Type} [DecidableEq H] [Zero H] {cc : ConsensusCrypto H} {k : Checks H}
  {io : StorageIO} {sr sr' : SafetyRules H} {c : Call H}

-- A vote returned above the last voted round did not come from the cache: it passed every check
-- of a fresh vote.
theorem handle_fresh_vote {v : Vote H} (h : sr.handle cc k io c = (sr', .ok (.vote v)))
    (hwf : sr.persistent_storage.safety_data.WellFormed)
    (hlt : sr.persistent_storage.safety_data.last_voted_round < v.vote_data.proposed.round) :
    ∃ vp tc, c = .construct_and_sign_vote_two_chain vp tc ∧
      vp.block.epoch = sr.persistent_storage.safety_data.epoch ∧
      vp.block.quorum_cert.certified_block.round < vp.block.round ∧
      v.vote_data.proposed.round = vp.block.round ∧ v.vote_data.proposed.id = vp.block.id cc ∧
      v.vote_data.parent = vp.block.quorum_cert.certified_block ∧
      safe_to_vote vp.block tc = .ok () ∧
      v.ledger_info.consensus_data_hash = cc.vote_data_hash v.vote_data ∧
      v.ledger_info.commit_info =
        (if vp.block.round = vp.block.quorum_cert.certified_block.round + 1
          then vp.block.quorum_cert.certified_block else BlockInfo.empty) ∧
      sr'.persistent_storage.safety_data.epoch = sr.persistent_storage.safety_data.epoch ∧
      v.vote_data.parent.round ≤ sr'.persistent_storage.safety_data.one_chain_round := by
  obtain ⟨vp, tc, hc, hg⟩ := handle_ok h
  obtain ⟨vd, hvd, -, hcase⟩ := guarded_construct_and_sign_vote_two_chain_ok hg
  rcases hcase with ⟨hcached, -⟩ | ⟨-, -, hsafe, s, -, hli, hv, hsr'⟩
  · have hlast := (Option.filter_eq_some_iff.mp hcached).1
    have hle := (hwf.2 v hlast).2
    omega
  obtain ⟨hepoch, -, hwell, hgen⟩ := verify_proposal_ok hvd
  obtain ⟨-, hpr, hpid, hpar⟩ := gen_vote_data_some hgen
  have hvd' : v.vote_data = vd := congrArg Vote.vote_data hv
  obtain ⟨hhash, hcommit⟩ := construct_ledger_info_2chain_ok hli
  refine ⟨vp, tc, hc, hepoch, Block.verify_well_formed_round hwell, ?_, ?_, ?_, hsafe, ?_,
    hcommit, by simp [hsr'], ?_⟩
  · rw [hvd', hpr]
  · rw [hvd', hpid]
  · rw [hvd', hpar]
  · rw [hhash, hvd']
  · simp [hsr', hvd', hpar]

theorem handle_order_vote {ovp : OrderVoteProposal H} {o : OrderVote H}
    (h : sr.handle cc k io (.construct_and_sign_order_vote ovp) = (sr', .ok (.order_vote o))) :
    ovp.block.epoch = sr.persistent_storage.safety_data.epoch ∧
      sr.persistent_storage.safety_data.highest_timeout_round < ovp.block.round ∧
      ovp.quorum_cert.certified_block = ovp.block_info ∧
      ovp.quorum_cert.certified_block.id = ovp.block.id cc ∧
      o.ledger_info = ⟨ovp.block_info, 0⟩ ∧
      sr'.persistent_storage.safety_data.epoch = sr.persistent_storage.safety_data.epoch ∧
      ovp.quorum_cert.certified_block.round ≤ sr'.persistent_storage.safety_data.one_chain_round := by
  obtain ⟨ovp', hc, hg⟩ := handle_ok h
  cases hc
  obtain ⟨hovp, hhtr, s, -, ho, hsr'⟩ := guarded_construct_and_sign_order_vote_ok hg
  obtain ⟨hepoch, hinfo, hid, -⟩ := verify_order_vote_proposal_ok hovp
  exact ⟨hepoch, hhtr, hinfo, hid, by rw [ho], by simp [hsr'], by simp [hsr']⟩

theorem handle_timeout {s : Signature TimeoutSigningRepr}
    (h : sr.handle cc k io c = (sr', .ok (.timeout s))) :
    s.message.epoch = sr.persistent_storage.safety_data.epoch ∧
      sr.persistent_storage.safety_data.one_chain_round ≤ s.message.hqc_round := by
  obtain ⟨t, tc, -, hg⟩ := handle_ok h
  obtain ⟨hse, -, -, -, -, -, -, -, hone⟩ := timeout_step hg
  exact ⟨hse, hone⟩

theorem handle_vote_epoch {v : Vote H} (h : sr.handle cc k io c = (sr', .ok (.vote v)))
    (hwf : sr.persistent_storage.safety_data.WellFormed) :
    v.epoch = sr.persistent_storage.safety_data.epoch := by
  obtain ⟨vp, tc, -, hg⟩ := handle_ok h
  rcases vote_step hg with ⟨hlast, -⟩ | ⟨hve, -⟩
  · exact (hwf.2 v hlast).1
  · exact hve

variable {ins : List (Checks H × StorageIO × Call H)}

-- Two votes of one run in the same epoch and round are the same vote.
theorem vote_unique (hwf : sr.persistent_storage.safety_data.WellFormed) {ev₁ ev₂ : Event H}
    (h₁ : ev₁ ∈ sr.trace cc ins) (h₂ : ev₂ ∈ sr.trace cc ins) {v₁ v₂ : Vote H}
    (hv₁ : ev₁.response = .ok (.vote v₁)) (hv₂ : ev₂.response = .ok (.vote v₂))
    (he : v₁.epoch = v₂.epoch) (hr : v₁.vote_data.proposed.round = v₂.vote_data.proposed.round) :
    v₁ = v₂ := by
  rcases List.mem_mem_pair_sublist h₁ h₂ with rfl | hsub | hsub
  · rw [hv₁, Except.ok.injEq, Response.vote.injEq] at hv₂
    exact hv₂
  · exact (vote_after_vote hwf hsub hv₁ hv₂ he.symm hr.symm).symm
  · exact vote_after_vote hwf hsub hv₂ hv₁ he hr

-- Every vote of an epoch that a run returns was returned fresh at some event of the run, when the
-- run starts without a vote of that epoch.
theorem vote_origin {e : ℕ} (hwf : sr.persistent_storage.safety_data.WellFormed)
    (hno : ∀ v, sr.persistent_storage.safety_data.last_vote = some v → v.epoch ≠ e)
    {ev : Event H} (hev : ev ∈ sr.trace cc ins) {v : Vote H}
    (hv : ev.response = .ok (.vote v)) (he : v.epoch = e) :
    ∃ ev' ∈ sr.trace cc ins, ev'.response = .ok (.vote v) ∧
      ev'.pre.persistent_storage.safety_data.last_voted_round < v.vote_data.proposed.round ∧
      ev'.pre.persistent_storage.safety_data.epoch = e := by
  -- The invariant: the last vote of epoch e was returned fresh at an event of the run.
  let Fresh : Vote H → Prop := fun w => ∃ ev' ∈ sr.trace cc ins, ev'.response = .ok (.vote w) ∧
    ev'.pre.persistent_storage.safety_data.last_voted_round < w.vote_data.proposed.round ∧
    ev'.pre.persistent_storage.safety_data.epoch = e
  have hinv := trace_induction (P := fun s => s.persistent_storage.safety_data.WellFormed ∧
      ∀ w, s.persistent_storage.safety_data.last_vote = some w → w.epoch = e → Fresh w)
    ⟨hwf, fun w hw hwe => absurd hwe (hno w hw)⟩ (fun ev₀ hev₀ hP => by
      obtain ⟨k₀, io₀, hh⟩ := mem_trace_handle hev₀
      refine ⟨(handle_advances hh hP.1).2, fun w hw hwe => ?_⟩
      rcases handle_last_vote hh with hsame | ⟨-, hnone⟩ | ⟨w', hr, hw', hlt, hwe'⟩
      · exact hP.2 w (hsame ▸ hw) hwe
      · rw [hnone] at hw
        cases hw
      · rw [hw', Option.some.injEq] at hw
        subst hw
        exact ⟨ev₀, hev₀, hr, hlt, hwe' ▸ hwe⟩) ev hev
  obtain ⟨k₀, io₀, hh⟩ := mem_trace_handle hev
  rw [hv] at hh
  obtain ⟨vp, tc, -, hg⟩ := handle_ok hh
  rcases vote_step hg with ⟨hlast, -⟩ | ⟨hve, hlt, -⟩
  · exact hinv.2 v hlast he
  · exact ⟨ev, hev, hv, hlt, hve ▸ he⟩

-- An event that leaves a QC of round κ observed in epoch e, and that could not have followed a
-- timeout of epoch e at round ρ, comes before every such timeout: their highest QC is at least κ.
theorem timeout_hqc_of_lock (hwf : sr.persistent_storage.safety_data.WellFormed)
    {ev₁ ev₂ : Event H} (h₁ : ev₁ ∈ sr.trace cc ins) (h₂ : ev₂ ∈ sr.trace cc ins)
    {e κ ρ : ℕ} (hne : ev₁.response ≠ ev₂.response)
    (hafter : ev₁.post.persistent_storage.safety_data.HasOneChain e κ)
    (hbefore : ¬ ev₁.pre.persistent_storage.safety_data.HasTimedOut e ρ)
    {s : Signature TimeoutSigningRepr} (hs : ev₂.response = .ok (.timeout s))
    (he : s.message.epoch = e) (hr : ρ ≤ s.message.round) : κ ≤ s.message.hqc_round := by
  obtain ⟨k₂, io₂, hh₂⟩ := mem_trace_handle h₂
  rw [hs] at hh₂
  obtain ⟨hse, hone⟩ := handle_timeout hh₂
  rcases List.mem_mem_pair_sublist h₁ h₂ with rfl | hsub | hsub
  · exact absurd rfl hne
  · have hoc := trace_forward (P := fun sd => sd.HasOneChain e κ)
      (fun _ _ _ _ hwf hP => hP.advance (handle_advances rfl hwf).1) hwf hsub hafter
    rcases hoc with hlt | ⟨-, hle⟩
    · omega
    · omega
  · have hto := trace_forward (P := fun sd => sd.HasTimedOut e s.message.round)
      (fun _ _ _ _ hwf hP => hP.advance (handle_advances rfl hwf).1) hwf hsub
      (he ▸ hasTimedOut_of_timeout hh₂)
    refine absurd ?_ hbefore
    rcases hto with hlt | ⟨heq, hl, hh⟩
    · exact .inl hlt
    · exact .inr ⟨heq, hr.trans hl, hr.trans hh⟩

end SafetyRules

end Zapatos.Consensus

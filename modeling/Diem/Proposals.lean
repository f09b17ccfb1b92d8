import Diem.History
/-!
# Proposals — one new-round event a round (`core.go`)

Three handlers can fire the new-round event, each under its own condition; what they share is that the round has just
risen.  A proposal is for the round it was made in, so a replica that never falls back proposes once a round.
-/
namespace Diem
namespace Core

open Pacemaker (Op)

section

variable (cr : Crypto) (cfg : Config) (env : Env)

/-- Where a step enters `processNewRoundEvent`: the core it is called on, and the TC it is given. -/
def newRound (c : Core) : Event → Option (Core × Option TimeoutCert)
  | .vote m =>
    if c.pacemaker.currentRound + maxRoundLead < m.voteInfo.round ∨ m.voteInfo.round + 1 < c.pacemaker.currentRound then
      none
    else match BlockTree.processVote cr cfg.history env cfg.id cfg.quorum c.ledger c.tree m with
      | .ok (l, t, _, some qc) =>
        match processCertificateQC cr cfg env { c with ledger := l, tree := t } (some qc) with
        | .ok ((c, moved), _) => if moved then some (c, none) else none
        | .error _            => none
      | _ => none
  | .timeout m =>
    match processCertificates cr cfg env c m.tmoInfo.highQc m.highCommitQc m.lastRoundTc with
    | .error _   => none
    | .ok (c, _) =>
      let r := c.pacemaker.processRemoteTimeout (verifier cr cfg) env cfg.id cfg.faulty c.tree c.safety m
      r.2.2.2.map (fun tc => ({ c with pacemaker := (r.1.advanceRoundTC (some tc)).1, safety := r.2.1 }, some tc))
  | _ => none

/-- The condition on a step: no round it acts on is the last there is. -/
def Unwrapped (c : Core) (e : Event) : Prop :=
  (∀ r ∈ e.rounds, r + 1 ≠ 0) ∧ ∀ m, e = .vote m → InWindow c m → m.voteInfo.round + 1 ≠ 0

/-- **A core on its own**: `New` and `Start`, then any events in any order, with everything it did. -/
def Run (c : Core) (tr : List Effect) : Prop :=
  ∃ env c₀ ts, newCore cr cfg = some c₀ ∧ Heard cr cfg (fun _ c e => Unwrapped c e) ts c ∧ tr = c₀.trace cr cfg env ts

end

variable {cr : Crypto} {cfg : Config} {env : Env}

/-! ## Where proposals come from -/

theorem not_proposal_of_certificateQC {c c' : Core} {qc : Option QuorumCert} {moved : Bool} {eff : List Effect}
    (h : processCertificateQC cr cfg env c qc = .ok ((c', moved), eff)) : ∀ p, .proposal p ∉ eff := by
  obtain ⟨bs, rfl⟩ := processCertificateQC_eff h
  exact fun p => not_proposal_of_onCommit

theorem not_proposal_of_certificates {c c' : Core} {qc highCommitQc : Option QuorumCert} {tc : Option TimeoutCert}
    {eff : List Effect} (h : processCertificates cr cfg env c qc highCommitQc tc = .ok (c', eff)) :
    ∀ p, .proposal p ∉ eff := by
  obtain ⟨bs, rfl⟩ := processCertificates_eff h
  exact fun p => not_proposal_of_onCommit

/-- What a step did, and whether it ended with the new-round event. -/
def Entered (cr : Crypto) (cfg : Config) (env : Env) (entered : Option (Core × Option TimeoutCert)) (c' : Core)
    (eff : List Effect) : Prop :=
  ∃ eff₀, (∀ p, .proposal p ∉ eff₀) ∧
    ((entered = none ∧ eff = eff₀) ∨
      ∃ tc, entered = some (c', tc) ∧ eff = eff₀ ++ c'.processNewRoundEvent cr cfg env tc)

theorem Entered.none {c' : Core} {eff : List Effect} (h : ∀ p, .proposal p ∉ eff) : Entered cr cfg env none c' eff :=
  ⟨eff, h, .inl ⟨rfl, rfl⟩⟩

theorem processVoteMsg_newRound {c c' : Core} {m : VoteMsg} {eff : List Effect}
    (h : processVoteMsg cr cfg env c m = .ok (c', eff)) :
    Entered cr cfg env (c.newRound cr cfg env (.vote m)) c' eff := by
  rcases processVoteMsg_ok h with ⟨hwin, rfl, rfl⟩ | ⟨hwin, l, t, bs, hp, hend⟩
  · rw [newRound, if_pos (not_not.1 hwin)]
    exact .none (fun p hp => by cases hp)
  rw [newRound, if_neg hwin]
  rcases hend with ⟨t', hacc, -, rfl⟩ | ⟨t', q, moved, eff', hacc, hq, rfl⟩
  · rw [processVote_of_accumulate hp hacc]
    exact .none (fun p => not_proposal_of_onCommit)
  · rw [processVote_of_accumulate hp hacc]
    dsimp only
    rw [hq]
    have hno : ∀ p, .proposal p ∉ bs.map Effect.onCommit ++ [.assembled q] ++ eff' := by
      intro p hp
      rcases List.mem_append.1 hp with hp | hp
      · rcases List.mem_append.1 hp with hp | hp
        · exact not_proposal_of_onCommit hp
        · cases List.mem_singleton.1 hp
      · exact not_proposal_of_certificateQC hq p hp
    refine ⟨_, hno, ?_⟩
    cases moved with
    | false => exact .inl ⟨rfl, rfl⟩
    | true => exact .inr ⟨.none, rfl, (List.append_assoc _ _ _).symm⟩

theorem processTimeoutMsg_newRound {c c' : Core} {m : TimeoutMsg} {eff : List Effect}
    (h : processTimeoutMsg cr cfg env c m = .ok (c', eff)) :
    Entered cr cfg env (c.newRound cr cfg env (.timeout m)) c' eff := by
  obtain ⟨c₁, eff₁, p, s, out, tc, h₁, h₂, hend⟩ := processTimeoutMsg_ok h
  have hno : ∀ p, .proposal p ∉ eff₁ ++ out.toList.map Effect.timeout := by
    intro p hp
    rcases List.mem_append.1 hp with hp | hp
    · exact not_proposal_of_certificates h₁ p hp
    · obtain ⟨x, -, hx⟩ := List.mem_map.1 hp
      cases hx
  refine ⟨_, hno, ?_⟩
  simp only [newRound, h₁, h₂]
  rcases hend with ⟨rfl, rfl, rfl⟩ | ⟨t, rfl, -, -, rfl, rfl⟩
  · exact .inl ⟨rfl, rfl⟩
  · exact .inr ⟨some t, rfl, rfl⟩

/-- **A step proposes only where it enters the new-round event**, on the core it ends in. -/
theorem step_newRound {c c' : Core} {e : Event} {eff : List Effect} (h : c.step cr cfg env e = .ok (c', eff)) :
    Entered cr cfg env (c.newRound cr cfg env e) c' eff := by
  cases e with
  | proposal p =>
    obtain ⟨c₁, eff₁, eff₂, h₁, -, -, rfl, hrest⟩ := processProposalMsg_ok h
    refine .none (fun q hq => ?_)
    rcases List.mem_append.1 hq with hq | hq
    · exact not_proposal_of_certificates h₁ q hq
    · rcases hrest _ hq with ⟨id, hx⟩ | ⟨v, dest, hx⟩ <;> cases hx
  | vote m => exact processVoteMsg_newRound h
  | timeout m => exact processTimeoutMsg_newRound h
  | localTimeout epoch =>
    rw [step] at h
    refine .none (fun p hp => ?_)
    split at h
    · cases h
      obtain ⟨x, -, hx⟩ := List.mem_map.1 hp
      cases hx
    · cases h
      cases hp
  | block b =>
    obtain ⟨-, rfl | ⟨id, rfl⟩⟩ := insert_ok h
    · exact .none (fun p hp => by cases hp)
    · exact .none (fun p hp => by cases List.mem_singleton.1 hp)
  | blockRequest id =>
    cases h
    exact .none (fun p hp => by cases List.mem_singleton.1 hp)

/-! ## Rounds only rise -/

/-- No vote was collected for the last round. -/
def VotesUnwrapped (t : BlockTree) : Prop := t.votes.Holds (fun _ b => b.voteInfo.round + 1 ≠ 0)

theorem VotesUnwrapped.accumulate {t t' : BlockTree} (h : VotesUnwrapped t) {id : UInt32} {quorum : Nat} {m : VoteMsg}
    {qc : Option QuorumCert} (hm : m.voteInfo.round + 1 ≠ 0) (hacc : t.accumulate cr env id quorum m = (t', qc)) :
    VotesUnwrapped t' ∧ ∀ q, qc = some q → q.voteInfo.round + 1 ≠ 0 := by
  have hbucket : (bucketOf cr t m).voteInfo.round + 1 ≠ 0 := by
    cases hl : t.votes.lookup (ledgerCommitDigest cr m.ledgerCommitInfo) with
    | none => simpa only [bucketOf, hl, Option.getD_none] using hm
    | some b => simpa only [bucketOf, hl, Option.getD_some] using h _ b hl
  rcases accumulate_cases hacc with ⟨rfl, rfl⟩ | ⟨-, b, rfl, -, -, -, hsub, hq⟩
  · exact ⟨h, fun q hq => by cases hq⟩
  · refine ⟨hsub.holds (Table.holds_insert h hbucket), fun q hqc => ?_⟩
    obtain ⟨-, sig, -, rfl⟩ := hq q hqc
    exact hbucket

theorem processCertificateQC_sub_votes {c c' : Core} {qc : Option QuorumCert} {moved : Bool} {eff : List Effect}
    (h : processCertificateQC cr cfg env c qc = .ok ((c', moved), eff)) : Table.Sub c'.tree.votes c.tree.votes := by
  cases qc with
  | none => cases h; exact Table.Sub.refl _
  | some q =>
    obtain ⟨l, t, bs, e, hq, -, rfl, -, -⟩ := processCertificateQC_ok h
    exact processQC_sub_votes hq

theorem processCertificates_sub_votes {c c' : Core} {qc highCommitQc : Option QuorumCert} {tc : Option TimeoutCert}
    {eff : List Effect} (h : processCertificates cr cfg env c qc highCommitQc tc = .ok (c', eff)) :
    Table.Sub c'.tree.votes c.tree.votes := by
  obtain ⟨c₁, _, eff₁, c₂, _, eff₂, h₁, h₂, rfl, -⟩ := processCertificates_ok h
  exact (processCertificateQC_sub_votes h₂).trans (processCertificateQC_sub_votes h₁)

theorem certificateOps_unwrapped {qc highCommitQc : Option QuorumCert} {tc : Option TimeoutCert}
    (hq : ∀ q ∈ qc.toList ++ highCommitQc.toList, q.voteInfo.round + 1 ≠ 0) (ht : ∀ t ∈ tc.toList, t.round + 1 ≠ 0) :
    ∀ op ∈ certificateOps qc highCommitQc tc, OpUnwrapped op := by
  intro op hop
  rw [certificateOps, ← List.map_append] at hop
  rcases List.mem_append.1 hop with hop | hop
  · obtain ⟨q, hmem, rfl⟩ := List.mem_map.1 hop
    exact hq q hmem
  · obtain ⟨t, hmem, rfl⟩ := List.mem_map.1 hop
    exact ht t hmem

theorem remoteOps_unwrapped {faulty : Nat} {p : Pacemaker} {info : TimeoutInfo} {op : Op}
    (h : op ∈ p.remoteOps faulty info) : OpUnwrapped op := by
  unfold Pacemaker.remoteOps at h
  split at h
  · cases h
  split at h
  · cases h
  rcases List.mem_cons.1 h with rfl | h
  · trivial
  · split at h
    · cases List.mem_singleton.1 h
      trivial
    · cases h

theorem processVoteMsg_unwrapped {c c' : Core} {m : VoteMsg} {eff : List Effect} (hv : VotesUnwrapped c.tree)
    (hm : InWindow c m → m.voteInfo.round + 1 ≠ 0) (h : processVoteMsg cr cfg env c m = .ok (c', eff)) :
    VotesUnwrapped c'.tree ∧ ∀ op ∈ c.ops cr cfg env (.vote m), OpUnwrapped op := by
  rcases processVoteMsg_ok h with ⟨hwin, rfl, -⟩ | ⟨hwin, l, t, bs, hp, hend⟩
  · rw [ops, if_pos (not_not.1 hwin)]
    exact ⟨hv, fun op hop => by cases hop⟩
  have ht : VotesUnwrapped t := (processQC_sub_votes hp).holds hv
  rw [ops, if_neg hwin]
  rcases hend with ⟨t', ha, rfl, -⟩ | ⟨t', q, moved, eff', ha, hq, -⟩
  · rw [processVote_of_accumulate hp ha]
    exact ⟨(ht.accumulate (hm hwin) ha).1, fun op hop => by cases hop⟩
  · rw [processVote_of_accumulate hp ha]
    obtain ⟨hvotes, hround⟩ := ht.accumulate (hm hwin) ha
    refine ⟨(processCertificateQC_sub_votes hq).holds hvotes, fun op hop => ?_⟩
    cases List.mem_singleton.1 hop
    exact hround q rfl

theorem processTimeoutMsg_unwrapped {c c' : Core} {m : TimeoutMsg} {eff : List Effect} (hv : VotesUnwrapped c.tree)
    (hqcs : ∀ q ∈ m.tmoInfo.highQc.toList ++ m.highCommitQc.toList, q.voteInfo.round + 1 ≠ 0)
    (htc : ∀ t ∈ m.lastRoundTc.toList, t.round + 1 ≠ 0) (hm : m.tmoInfo.round + 1 ≠ 0)
    (h : processTimeoutMsg cr cfg env c m = .ok (c', eff)) :
    VotesUnwrapped c'.tree ∧ ∀ op ∈ c.ops cr cfg env (.timeout m), OpUnwrapped op := by
  obtain ⟨c₁, eff₁, p, s, out, tc, h₁, h₂, hend⟩ := processTimeoutMsg_ok h
  have hvotes := (processCertificates_sub_votes h₁).holds hv
  have hcert := certificateOps_unwrapped hqcs htc
  simp only [ops, h₁, h₂, List.forall_mem_append]
  rcases hend with ⟨rfl, rfl, -⟩ | ⟨t, rfl, hround, -, rfl, -⟩
  · exact ⟨hvotes, hcert, fun op => remoteOps_unwrapped, fun op hop => by cases hop⟩
  · refine ⟨hvotes, hcert, fun op => remoteOps_unwrapped, fun op hop => ?_⟩
    cases List.mem_singleton.1 hop
    rwa [OpUnwrapped, hround]

/-- **A step enters no wrapped round**, and collects no vote for the last one. -/
theorem step_unwrapped {c c' : Core} {e : Event} {eff : List Effect} (hv : VotesUnwrapped c.tree) (hu : Unwrapped c e)
    (h : c.step cr cfg env e = .ok (c', eff)) :
    VotesUnwrapped c'.tree ∧ ∀ op ∈ c.ops cr cfg env e, OpUnwrapped op := by
  have hqcs : ∀ q ∈ e.qcs, q.voteInfo.round + 1 ≠ 0 := fun q hq =>
    hu.1 _ (List.mem_append_left _ (List.mem_append_left _ (List.mem_map.2 ⟨q, hq, rfl⟩)))
  have htc : ∀ t ∈ e.tc.toList, t.round + 1 ≠ 0 := fun t ht =>
    hu.1 _ (List.mem_append_left _ (List.mem_append_right _ (List.mem_map.2 ⟨t, ht, rfl⟩)))
  cases e with
  | proposal p =>
    obtain ⟨c₁, eff₁, eff₂, h₁, -, hvotes, -, -⟩ := processProposalMsg_ok h
    refine ⟨?_, certificateOps_unwrapped (fun q hq => hqcs q ?_) htc⟩
    · rw [VotesUnwrapped, hvotes]
      exact (processCertificates_sub_votes h₁).holds hv
    · -- a nil block has no certificate
      have hnil : ((none : Option Block).getD default).qc = none := rfl
      cases hb : p.block with
      | none =>
        rw [hb, hnil] at hq
        simpa [Event.qcs, hb] using hq
      | some b =>
        rw [hb] at hq
        simpa [Event.qcs, hb] using hq
  | vote m => exact processVoteMsg_unwrapped hv (hu.2 m rfl) h
  | timeout m =>
    exact processTimeoutMsg_unwrapped hv hqcs htc (hu.1 _ (List.mem_append_right _ (List.mem_singleton.2 rfl))) h
  | localTimeout epoch =>
    rw [step] at h
    rw [ops]
    split at h
    · rename_i he
      cases h
      rw [if_pos he]
      exact ⟨hv, fun op hop => by cases List.mem_singleton.1 hop; trivial⟩
    · rename_i he
      cases h
      rw [if_neg he]
      exact ⟨hv, fun op hop => by cases hop⟩
  | block b =>
    obtain ⟨rfl, -⟩ := insert_ok h
    exact ⟨hv, fun op hop => by cases hop⟩
  | blockRequest id =>
    cases h
    exact ⟨hv, fun op hop => by cases hop⟩

/-- **A step that enters the new-round event has raised the round.** -/
theorem newRound_rises {c c' : Core} {e : Event} {eff : List Effect} (hv : VotesUnwrapped c.tree) (hu : Unwrapped c e)
    (h : c.step cr cfg env e = .ok (c', eff)) (hnew : (c.newRound cr cfg env e).isSome = true) :
    c.pacemaker.currentRound < c'.pacemaker.currentRound := by
  have hops := (step_unwrapped hv hu h).2
  cases e with
  | proposal p => cases hnew
  | vote m =>
    rcases processVoteMsg_ok h with ⟨hwin, rfl, -⟩ | ⟨hwin, l, t, bs, hp, hend⟩
    · rw [newRound, if_pos (not_not.1 hwin)] at hnew
      cases hnew
    · rw [newRound, if_neg hwin] at hnew
      rw [ops, if_neg hwin] at hops
      rcases hend with ⟨t', ha, -, -⟩ | ⟨t', q, moved, eff', ha, hq, -⟩
      · rw [processVote_of_accumulate hp ha] at hnew
        cases hnew
      · rw [processVote_of_accumulate hp ha] at hnew hops
        dsimp only at hnew
        rw [hq] at hnew
        obtain ⟨l', t'', bs', e', -, -, rfl, hmoved, -⟩ := processCertificateQC_ok hq
        cases moved with
        | false => cases hnew
        | true =>
          rw [Pacemaker.advanceRoundQC_eq] at hmoved ⊢
          split at hmoved
          · cases hmoved
          · rename_i hlt
            rw [if_neg hlt]
            exact lt_round_succ hlt (hops (.advanceRoundQC q) (List.mem_singleton.2 rfl))
  | timeout m =>
    obtain ⟨c₁, eff₁, p, s, out, tc, h₁, h₂, hend⟩ := processTimeoutMsg_ok h
    simp only [ops, h₁, h₂] at hops
    rcases hend with ⟨rfl, -, -⟩ | ⟨t, rfl, -, hle, rfl, -⟩
    · simp only [newRound, h₁, h₂] at hnew
      cases hnew
    · -- up to the TC the round does not fall, and the TC is of that round or later
      have hcert : c.pacemaker.currentRound ≤ c₁.pacemaker.currentRound := by
        rw [processCertificates_performs h₁]
        exact performs_mono (fun op hop => hops op (List.mem_append_left _ hop))
      have hremote : c₁.pacemaker.currentRound ≤ p.currentRound := by
        rw [Pacemaker.processRemoteTimeout_performs h₂]
        exact performs_mono (fun op hop => hops op (List.mem_append_right _ (List.mem_append_left _ hop)))
      have hlt : ¬ t.round < p.currentRound := UInt64.not_lt.2 hle
      have htc : OpUnwrapped (.advanceRoundTC t) :=
        hops _ (List.mem_append_right _ (List.mem_append_right _ (List.mem_singleton.2 rfl)))
      rw [Pacemaker.currentRound_advanceRoundTC, if_neg hlt]
      exact UInt64.lt_of_le_of_lt (UInt64.le_trans hcert hremote) (lt_round_succ hlt htc)
  | localTimeout epoch => cases hnew
  | block b => cases hnew
  | blockRequest id => cases hnew

end Core

/-! ## Proposals in a run -/

/-- The round of the block of a proposal. -/
def Effect.proposed : Effect → Option UInt64
  | .proposal p => some (p.block.getD default).round
  | _           => none

/-- The rounds a replica proposed in, in order. -/
def proposedRounds (eff : List Effect) : List UInt64 := eff.filterMap Effect.proposed

namespace Core

variable {cr : Crypto} {cfg : Config} {env : Env}

theorem proposedRounds_append (eff eff' : List Effect) :
    proposedRounds (eff ++ eff') = proposedRounds eff ++ proposedRounds eff' := List.filterMap_append

theorem proposedRounds_eq_nil {eff : List Effect} (h : ∀ p, .proposal p ∉ eff) : proposedRounds eff = [] := by
  refine List.filterMap_eq_nil_iff.2 (fun x hx => ?_)
  cases x with
  | proposal p => exact absurd hx (h p)
  | _ => rfl

/-- The new-round event proposes for the current round, or not at all. -/
theorem proposedRounds_newRound (cr : Crypto) (cfg : Config) (env : Env) (c : Core) (tc : Option TimeoutCert) :
    proposedRounds (c.processNewRoundEvent cr cfg env tc) = [] ∨
      proposedRounds (c.processNewRoundEvent cr cfg env tc) = [c.pacemaker.currentRound] := by
  simp only [processNewRoundEvent]
  split
  · exact .inl rfl
  · split
    · exact .inl rfl
    · exact .inr rfl

/-- What a run keeps: the rounds proposed in are all different, and none is above the current one. -/
structure RunInv (c : Core) (tr : List Effect) : Prop where
  votes : VotesUnwrapped c.tree
  once  : (proposedRounds tr).Nodup
  past  : ∀ r ∈ proposedRounds tr, r ≤ c.pacemaker.currentRound

theorem RunInv.step {c c' : Core} {tr eff : List Effect} {e : Event} (h : RunInv c tr) (hu : Unwrapped c e)
    (hs : c.step cr cfg env e = .ok (c', eff)) : RunInv c' (tr ++ eff) := by
  obtain ⟨hv, hops⟩ := step_unwrapped h.votes hu hs
  have hmono : c.pacemaker.currentRound ≤ c'.pacemaker.currentRound := by
    rw [step_performs hs]
    exact performs_mono hops
  have hold : ∀ r ∈ proposedRounds tr, r ≤ c'.pacemaker.currentRound := fun r hr => UInt64.le_trans (h.past r hr) hmono
  obtain ⟨eff₀, hno, ⟨-, rfl⟩ | ⟨tc, hnew, rfl⟩⟩ := step_newRound hs
  · refine ⟨hv, ?_, ?_⟩ <;> rw [proposedRounds_append, proposedRounds_eq_nil hno, List.append_nil]
    · exact h.once
    · exact hold
  · have hrise := newRound_rises h.votes hu hs (by rw [hnew]; rfl)
    rw [← List.append_assoc]
    have heq : proposedRounds (tr ++ eff₀ ++ c'.processNewRoundEvent cr cfg env tc) =
        proposedRounds tr ++ proposedRounds (c'.processNewRoundEvent cr cfg env tc) := by
      rw [proposedRounds_append, proposedRounds_append, proposedRounds_eq_nil hno, List.append_nil]
    rcases proposedRounds_newRound cr cfg env c' tc with hn | hn
    · refine ⟨hv, ?_, ?_⟩ <;> rw [heq, hn, List.append_nil]
      · exact h.once
      · exact hold
    · refine ⟨hv, ?_, ?_⟩ <;> rw [heq, hn]
      · refine List.nodup_append.2 ⟨h.once, by simp, fun r hr r' hr' hrr => ?_⟩
        rw [List.mem_singleton] at hr'
        have hle := h.past r hr
        rw [hrr, hr'] at hle
        exact absurd hrise (UInt64.not_lt.2 hle)
      · intro r hr
        rcases List.mem_append.1 hr with hr | hr
        · exact hold r hr
        · rw [List.mem_singleton.1 hr]
          exact UInt64.le_refl _

/-- What a core has done by the time it is started. -/
theorem RunInv.start {c : Core} (hnew : newCore cr cfg = some c) :
    RunInv (c.start cr cfg env).1 (c.start cr cfg env).2 := by
  cases newCore_eq hnew
  refine ⟨Table.holds_empty _, ?_, fun r hr => ?_⟩
  · rcases proposedRounds_newRound cr cfg env _ _ with hn | hn
    · rw [Core.start, hn]
      exact List.nodup_nil
    · rw [Core.start, hn]
      exact List.nodup_singleton _
  · rcases proposedRounds_newRound cr cfg env _ _ with hn | hn
    · rw [Core.start, hn] at hr
      cases hr
    · rw [Core.start, hn] at hr
      rw [List.mem_singleton.1 hr]
      exact UInt64.le_refl _

theorem Heard.runInv {c₀ c : Core} {ts : List Turn} (hnew : newCore cr cfg = some c₀)
    (h : Heard cr cfg (fun _ c e => Unwrapped c e) ts c) : RunInv c (c₀.trace cr cfg env ts) := by
  refine h.invariant (J := fun ts c => RunInv c (c₀.trace cr cfg env ts)) (fun env' c hc => ?_)
    (fun ts c env' e c' eff ih hu hs => ?_)
  · -- the core of `Start` does not depend on what `Start` took from outside
    cases hnew.symm.trans hc
    rw [trace, List.flatMap_nil, List.append_nil]
    have hinv : RunInv (c₀.start cr cfg env).1 (c₀.start cr cfg env).2 := RunInv.start hnew
    exact hinv
  · rw [trace_turn]
    exact ih.step hu hs

theorem Run.inv {c : Core} {tr : List Effect} (h : Run cr cfg c tr) : RunInv c tr := by
  obtain ⟨env, c₀, ts, hnew, hheard, rfl⟩ := h
  exact hheard.runInv hnew

/-- `Unwrapped`, as a test; a vote is tried whether or not it is in the window. -/
def unwraps (e : Event) : Bool :=
  e.rounds.all (fun r => r + 1 != 0) && match e with
    | .vote m => m.voteInfo.round + 1 != 0
    | _       => true

theorem unwrapped_of_unwraps (c : Core) (e : Event) (h : unwraps e = true) : Unwrapped c e := by
  simp only [unwraps, Bool.and_eq_true, List.all_eq_true, bne_iff_ne, ne_eq] at h
  refine ⟨h.1, fun m hm _ => ?_⟩
  subst hm
  simpa using h.2

/-- **At most one proposal a round**: in every run of a core whose rounds do not wrap, no two proposals are for blocks
of one round, and every step that enters the new-round event raises the round. -/
theorem one_proposal_a_round {c : Core} {tr : List Effect} (h : Run cr cfg c tr) :
    (proposedRounds tr).Nodup ∧
    ∀ env e c' eff, Unwrapped c e → c.step cr cfg env e = .ok (c', eff) →
      (c.newRound cr cfg env e).isSome = true → c.pacemaker.currentRound < c'.pacemaker.currentRound :=
  ⟨h.inv.once, fun _ _ _ _ hu hs hnew => newRound_rises h.inv.votes hu hs hnew⟩

end Core

/-- Replica 3 enters round 3 with block 3 and counts the votes for it. -/
def Chain.collect : List Event :=
  [.proposal (Chain.proposal 3 none), .vote (Chain.vote 3 1 (Chain.cert 2)), .vote (Chain.vote 3 2 (Chain.cert 2))]

/-- The last vote for block 3 completes its certificate, and replica 3 proposes in round 4. -/
theorem chain_one_proposal :
    ∃ c tr c' eff, Core.Run Chain.net.crypto (Chain.net.config 3) c tr ∧
      c.step Chain.net.crypto (Chain.net.config 3) Chain.env (.vote (Chain.vote 3 4 (Chain.cert 2))) = .ok (c', eff) ∧
      proposedRounds (tr ++ eff) = [4] ∧ (proposedRounds (tr ++ eff)).Nodup ∧
      c.pacemaker.currentRound < c'.pacemaker.currentRound := by
  let cr := Chain.net.crypto
  let cfg := Chain.net.config 3
  let last : Event := .vote (Chain.vote 3 4 (Chain.cert 2))
  have hplay : Core.hears cr cfg Chain.env (fun _ => Core.unwraps) Chain.collect (fun ts c =>
      (newCore cr cfg).any (fun c₀ =>
        match c.step cr cfg Chain.env last with
        | .error _     => false
        | .ok (_, eff) => decide (proposedRounds (c₀.trace cr cfg Chain.env ts ++ eff) = [4]) &&
          (c.newRound cr cfg Chain.env last).isSome)) = true := by decide +kernel
  obtain ⟨ts, c, hheard, hcheck⟩ := Core.Heard.of_hears (P := fun _ c e => Core.Unwrapped c e)
    Core.unwrapped_of_unwraps hplay
  obtain ⟨c₀, hnew, hcheck⟩ := (Option.any_eq_true _ _).1 hcheck
  split at hcheck
  · cases hcheck
  rename_i c' eff hstep
  rw [Bool.and_eq_true, decide_eq_true_eq] at hcheck
  have hu : Core.Unwrapped c last := Core.unwrapped_of_unwraps c last (by decide)
  have hrun : Core.Run cr cfg c (c₀.trace cr cfg Chain.env ts) := ⟨Chain.env, c₀, ts, hnew, hheard, rfl⟩
  have hrun' : Core.Run cr cfg c' (c₀.trace cr cfg Chain.env ts ++ eff) :=
    ⟨Chain.env, c₀, _, hnew, hheard.turn Chain.env last c' eff hu hstep, by rw [Core.trace_turn]⟩
  exact ⟨c, _, c', eff, hrun, hstep, hcheck.1, (Core.one_proposal_a_round hrun').1,
    (Core.one_proposal_a_round hrun).2 _ _ c' eff hu hstep hcheck.2⟩

end Diem

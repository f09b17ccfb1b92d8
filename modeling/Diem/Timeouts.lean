import Diem.History
/-!
# Timeouts — what is collected for a round, and what it makes (`pacemaker.go`)

The certificates of a message take the replica to the message's round at least, so a timeout that is not late is for the
current round, and only the current round has a bucket.
-/
namespace Diem

/-! ## One bucket -/

namespace Pacemaker

/-- Timeouts are kept for the current round alone. -/
def Keyed (p : Pacemaker) : Prop := ∀ r b, p.pendingTimeouts.lookup r = some b → r = p.currentRound

namespace Keyed

variable {p : Pacemaker} (h : p.Keyed)
include h

theorem startTimer {round : UInt64} (hround : p.currentRound ≤ round) : (p.startTimer round).Keyed := by
  intro r b hb
  simp only [Pacemaker.startTimer, stop, Table.lookup_filter, Option.filter_eq_some_iff, Bool.not_eq_true',
    decide_eq_false_iff_not] at hb
  obtain rfl := h r b hb.1
  exact UInt64.le_antisymm hround (UInt64.not_lt.1 hb.2)

theorem file {info : TimeoutInfo} (hround : info.round = p.currentRound) : (p.file info).Keyed := by
  intro r b hb
  by_cases hr : r = info.round
  · exact hr.trans hround
  · rw [Pacemaker.file, AList.lookup_insert_ne hr] at hb
    exact h r b hb

/-- An operation that wraps no round, and files nothing but for the current round, leaves one bucket. -/
theorem perform {op : Op} (hop : Core.OpUnwrapped op) (hfile : ∀ info, op = .file info → info.round = p.currentRound) :
    (p.perform op).Keyed := by
  cases op with
  | file info => exact h.file (hfile info rfl)
  | advanceRoundQC q =>
    rw [Pacemaker.perform, advanceRoundQC_eq]
    split
    · exact h
    · rename_i hlt
      have hclear : { p with lastRoundTC := none }.Keyed := h
      exact hclear.startTimer (UInt64.le_of_lt (lt_round_succ hlt hop))
  | advanceRoundTC t =>
    rw [Pacemaker.perform, advanceRoundTC_eq]
    split
    · exact h
    · rename_i hlt
      have hset : { p with lastRoundTC := some t }.Keyed := h
      exact hset.startTimer (UInt64.le_of_lt (lt_round_succ hlt hop))
  | localTimeoutRound => exact h.startTimer (UInt64.le_refl _)
  | amplify =>
    have hstop : p.stop.Keyed := h
    exact hstop.startTimer (UInt64.le_refl _)

theorem performs {ops : List Op} (hops : ∀ op ∈ ops, Core.OpUnwrapped op) (hfile : ∀ info, .file info ∉ ops) :
    (p.performs ops).Keyed := by
  induction ops generalizing p with
  | nil => exact h
  | cons op ops ih =>
    refine ih (h.perform (hops op List.mem_cons_self) (fun info hop => ?_))
      (fun o ho => hops o (List.mem_cons_of_mem _ ho))
      (fun info hmem => hfile info (List.mem_cons_of_mem _ hmem))
    exact absurd (hop ▸ List.mem_cons_self) (hfile info)

/-- A timeout that is for the current round, or an earlier one, leaves one bucket. -/
theorem remoteOps {info : TimeoutInfo} (hround : info.round ≤ p.currentRound) (faulty : Nat) :
    (p.performs (p.remoteOps faulty info)).Keyed := by
  unfold Pacemaker.remoteOps
  split
  · exact h
  split
  · exact h
  rename_i hlate _
  have heq : info.round = p.currentRound := UInt64.le_antisymm hround (UInt64.not_lt.1 hlate)
  split
  · exact (h.file heq).performs (fun op hop => by cases List.mem_singleton.1 hop; trivial)
      (fun i hi => by cases List.mem_singleton.1 hi)
  · exact h.file heq

end Keyed
end Pacemaker

namespace Core

open Pacemaker (Op)

variable {cr : Crypto} {cfg : Config} {env : Env}

/-! ## In step with the sender -/

theorem succ_le_perform_QC {p : Pacemaker} {q : QuorumCert} (hq : q.voteInfo.round + 1 ≠ 0) :
    q.voteInfo.round + 1 ≤ (p.perform (.advanceRoundQC q)).currentRound := by
  rw [Pacemaker.perform, Pacemaker.currentRound_advanceRoundQC]
  split
  · rename_i hlt
    have hs := round_succ rfl hq
    rw [UInt64.lt_iff_toNat_lt] at hlt
    rw [UInt64.le_iff_toNat_le]
    omega
  · exact UInt64.le_refl _

theorem succ_le_perform_TC {p : Pacemaker} {t : TimeoutCert} (ht : t.round + 1 ≠ 0) :
    t.round + 1 ≤ (p.perform (.advanceRoundTC t)).currentRound := by
  rw [Pacemaker.perform, Pacemaker.currentRound_advanceRoundTC]
  split
  · rename_i hlt
    have hs := round_succ rfl ht
    rw [UInt64.lt_iff_toNat_lt] at hlt
    rw [UInt64.le_iff_toNat_le]
    omega
  · exact UInt64.le_refl _

/-- **The certificates of a well-formed message take the pacemaker to the message's round**, or it was further on. -/
theorem le_certificateOps {p : Pacemaker} {round : UInt64} {qc highCommitQc : Option QuorumCert}
    {tc : Option TimeoutCert} (hsome : qc.isSome = true) (hwf : wellFormed round (qcRound qc) tc = true)
    (hops : ∀ op ∈ certificateOps qc highCommitQc tc, OpUnwrapped op) :
    round ≤ (p.performs (certificateOps qc highCommitQc tc)).currentRound := by
  obtain ⟨-, hnext | ⟨-, t, rfl, hnext⟩⟩ := (wellFormed_iff _ _ _).1 hwf
  · obtain ⟨q, rfl⟩ := Option.isSome_iff_exists.1 hsome
    have hrest : certificateOps (some q) highCommitQc tc =
        .advanceRoundQC q :: (highCommitQc.toList.map .advanceRoundQC ++ tc.toList.map .advanceRoundTC) := rfl
    rw [hrest] at hops ⊢
    rw [← hnext.1]
    exact UInt64.le_trans (succ_le_perform_QC (hops _ List.mem_cons_self))
      (performs_mono (fun op hop => hops op (List.mem_cons_of_mem _ hop)))
  · rw [certificateOps] at hops ⊢
    rw [Pacemaker.performs_append, ← hnext]
    exact succ_le_perform_TC (hops _ (List.mem_append_right _ (List.mem_singleton.2 rfl)))

/-- After its certificates an accepted timeout is for the current round, or an earlier one. -/
theorem timeout_le_currentRound {c c' : Core} {m : TimeoutMsg} {eff : List Effect}
    (hm : (verifier cr cfg).verifyTimeout m = true)
    (hops : ∀ op ∈ certificateOps m.tmoInfo.highQc m.highCommitQc m.lastRoundTc, OpUnwrapped op)
    (h : processCertificates cr cfg env c m.tmoInfo.highQc m.highCommitQc m.lastRoundTc = .ok (c', eff)) :
    m.tmoInfo.round ≤ c'.pacemaker.currentRound := by
  have hwf := ((Verifier.verifyTimeout_iff _ m).1 hm).1
  rw [wellFormedTimeout, Bool.and_eq_true] at hwf
  rw [processCertificates_performs h]
  exact le_certificateOps hwf.1 hwf.2 hops

theorem proposal_le_currentRound {c c' : Core} {p : ProposalMsg} {b : Block} {eff : List Effect} (hb : p.block = some b)
    (hp : (verifier cr cfg).verifyProposal p = true)
    (hops : ∀ op ∈ certificateOps b.qc p.highCommitQc p.lastRoundTc, OpUnwrapped op)
    (h : processCertificates cr cfg env c b.qc p.highCommitQc p.lastRoundTc = .ok (c', eff)) :
    b.round ≤ c'.pacemaker.currentRound := by
  have hwf := ((Verifier.verifyProposal_iff _ p b hb).1 hp).1
  simp only [wellFormedProposal, hb, Bool.and_eq_true] at hwf
  rw [processCertificates_performs h]
  exact le_certificateOps hwf.1 hwf.2 hops

/-- **A step leaves one bucket.** -/
theorem keyed_step {c c' : Core} {e : Event} {eff : List Effect} (hk : c.pacemaker.Keyed) (he : c.Checked cr cfg env e)
    (h : c.step cr cfg env e = .ok (c', eff)) : c'.pacemaker.Keyed := by
  obtain ⟨hver, hrise⟩ := he
  rw [step_performs h]
  rw [Rising] at hrise
  by_cases htimeout : ∃ m, e = .timeout m
  · obtain ⟨m, rfl⟩ := htimeout
    obtain ⟨c₁, eff₁, p, s, out, tc, h₁, h₂, -⟩ := processTimeoutMsg_ok h
    simp only [ops, h₁, h₂] at hrise ⊢
    have hcert := fun op hop => hrise op (List.mem_append_left _ hop)
    have hk₁ := hk.performs hcert (file_not_mem_certificateOps _ _ _)
    rw [Pacemaker.performs_append, Pacemaker.performs_append]
    rw [← processCertificates_performs h₁] at hk₁ ⊢
    refine (hk₁.remoteOps (timeout_le_currentRound hver hcert h₁) cfg.faulty).performs (fun op hop => ?_) (by simp)
    exact hrise op (List.mem_append_right _ (List.mem_append_right _ hop))
  · exact hk.performs hrise (file_not_mem_ops (fun m hm => htimeout ⟨m, hm⟩))

theorem Heard.keyed {ts : List Turn} {c : Core} (h : Heard cr cfg (Checked cr cfg) ts c) : c.pacemaker.Keyed := by
  refine h.invariant (J := fun _ c => c.pacemaker.Keyed) (fun env c hnew => ?_) (fun _ _ _ _ _ _ => keyed_step)
  cases newCore_eq hnew
  have hempty : newPacemaker.Keyed := fun r b hb => by cases hb
  have hop : OpUnwrapped (.advanceRoundQC (genesisQC cr)) := (by decide : (0 : UInt64) + 1 ≠ 0)
  exact hempty.perform hop (fun info hinfo => by cases hinfo)

/-- The timeout `ProcessRemoteTimeout` answers with is the replica's own, for the round it is in. -/
theorem processRemoteTimeout_out {v : Verifier} {id : UInt32} {f : Nat} {t : BlockTree} {p p' : Pacemaker}
    {s s' : Safety} {m : TimeoutMsg} {out : Option TimeoutMsg} {tc : Option TimeoutCert}
    (h : p.processRemoteTimeout v env id f t s m = (p', s', out, tc)) :
    ∀ o, out = some o → o.tmoInfo.round = p.currentRound ∧ o.tmoInfo.sender = id := by
  intro o ho
  subst ho
  rcases Pacemaker.processRemoteTimeout_cases h with ⟨-, -, hout, -⟩ | ⟨-, hout | hout, -⟩
  · cases hout
  · cases hout
  · simp only [Pacemaker.localTimeoutRound, Prod.mk.injEq] at hout
    obtain ⟨info, hinfo, rfl⟩ := Option.map_eq_some_iff.1 hout.2.2.symm
    have hspec := (Safety.makeTimeout_spec _ _ _ _ _ _ _).2 info hinfo
    exact ⟨hspec.info.1, hspec.sender.1⟩

/-- **Rounds are synchronised**: in every state of every history over accepted events that wraps no round, the
certificates of an accepted message bring the replica to the message's round or further; what is then filed is for the
current round, what is answered is for that round, and no other round has timeouts. -/
theorem rounds_synchronised {ts : List Turn} {c : Core} (h : Heard cr cfg (Checked cr cfg) ts c) :
    (∀ env p b c₁ eff, p.block = some b → (verifier cr cfg).verifyProposal p = true →
      (∀ op ∈ certificateOps b.qc p.highCommitQc p.lastRoundTc, OpUnwrapped op) →
      c.processCertificates cr cfg env b.qc p.highCommitQc p.lastRoundTc = .ok (c₁, eff) →
      b.round ≤ c₁.pacemaker.currentRound) ∧
    (∀ env m c₁ eff, (verifier cr cfg).verifyTimeout m = true →
      (∀ op ∈ certificateOps m.tmoInfo.highQc m.highCommitQc m.lastRoundTc, OpUnwrapped op) →
      c.processCertificates cr cfg env m.tmoInfo.highQc m.highCommitQc m.lastRoundTc = .ok (c₁, eff) →
      m.tmoInfo.round ≤ c₁.pacemaker.currentRound ∧
      ∀ p s out tc,
        c₁.pacemaker.processRemoteTimeout (verifier cr cfg) env cfg.id cfg.faulty c₁.tree c₁.safety m =
        (p, s, out, tc) → (p = c₁.pacemaker ∧ out = none ∧ tc = none) ∨
        (m.tmoInfo.round = c₁.pacemaker.currentRound ∧ p.currentRound = m.tmoInfo.round ∧
          (∀ r b, p.pendingTimeouts.lookup r = some b → r = m.tmoInfo.round) ∧
          ∀ o, out = some o → o.tmoInfo.round = m.tmoInfo.round ∧ o.tmoInfo.sender = cfg.id)) ∧
    ∀ r b, c.pacemaker.pendingTimeouts.lookup r = some b → r = c.pacemaker.currentRound := by
  refine ⟨fun _ _ _ _ _ hb hp hops => proposal_le_currentRound hb hp hops, fun env m c₁ eff hm hops h₁ => ?_, h.keyed⟩
  have hle := timeout_le_currentRound hm hops h₁
  refine ⟨hle, fun p s out tc hp => ?_⟩
  have hk₁ := h.keyed.performs hops (file_not_mem_certificateOps _ _ _)
  rw [← processCertificates_performs h₁] at hk₁
  have hkp := hk₁.remoteOps hle cfg.faulty
  rw [← Pacemaker.processRemoteTimeout_performs hp] at hkp
  by_cases hdrop : m.tmoInfo.round < c₁.pacemaker.currentRound ∨
      m.tmoInfo.sender ∈ (c₁.pacemaker.bucket m.tmoInfo.round).senders
  · rw [Pacemaker.processRemoteTimeout_drop hdrop] at hp
    cases hp
    exact .inl ⟨rfl, rfl, rfl⟩
  · rw [not_or] at hdrop
    have hround : m.tmoInfo.round = c₁.pacemaker.currentRound := UInt64.le_antisymm hle (UInt64.not_lt.1 hdrop.1)
    have hcur : p.currentRound = c₁.pacemaker.currentRound := by
      rcases Pacemaker.processRemoteTimeout_cases hp with ⟨rfl, -⟩ | ⟨-, hout | hout, -⟩
      · rfl
      · cases hout
        rfl
      · cases hout
        rfl
    refine .inr ⟨hround, hcur.trans hround.symm, fun r b hb => ?_, fun o ho => ?_⟩
    · rw [hround, ← hcur]
      exact hkp r b hb
    · rw [hround]
      exact processRemoteTimeout_out hp o ho

end Core

/-! ## Replica 3 of the chain hears of round 4 -/

/-- Replica `i` gives up on round 4, over block 3. -/
def Chain.timeout (i : UInt32) : TimeoutMsg where
  tmoInfo      := { round := 4, highQc := some (Chain.cert 3), sender := i, sig := ⟨i, default⟩ }
  lastRoundTc  := none
  highCommitQc := none

/-- Replica 3, started, in round 1. -/
def Chain.started : Core := (Chain.replica.start Chain.net.crypto (Chain.net.config 3) Chain.env).1

theorem Chain.heard_started (P : Env → Core → Event → Prop) :
    Core.Heard Chain.net.crypto (Chain.net.config 3) P [] Chain.started :=
  .start Chain.env Chain.replica rfl

/-- From round 1 a timeout for round 4 takes replica 3 to round 4, where it is filed. -/
theorem chain_synchronised :
    ∃ c eff, Chain.started.pacemaker.currentRound = 1 ∧
      Chain.started.processCertificates Chain.net.crypto (Chain.net.config 3) Chain.env (Chain.timeout 1).tmoInfo.highQc
        (Chain.timeout 1).highCommitQc (Chain.timeout 1).lastRoundTc = .ok (c, eff) ∧
      (Chain.timeout 1).tmoInfo.round ≤ c.pacemaker.currentRound := by
  obtain ⟨-, htimeout, -⟩ := Core.rounds_synchronised (Chain.heard_started _)
  cases hcert : Chain.started.processCertificates Chain.net.crypto (Chain.net.config 3) Chain.env
    (Chain.timeout 1).tmoInfo.highQc (Chain.timeout 1).highCommitQc (Chain.timeout 1).lastRoundTc with
  | error s =>
    have hok : (Chain.started.processCertificates Chain.net.crypto (Chain.net.config 3) Chain.env
      (Chain.timeout 1).tmoInfo.highQc (Chain.timeout 1).highCommitQc (Chain.timeout 1).lastRoundTc).isOk = true := by
      decide +kernel
    rw [hcert] at hok
    cases hok
  | ok r => exact ⟨r.1, r.2, by decide, rfl,
      (htimeout Chain.env _ r.1 r.2 (by decide +kernel) (by decide +kernel) hcert).1⟩

end Diem

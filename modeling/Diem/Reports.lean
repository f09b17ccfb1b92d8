import Diem.Proposals
import Diem.Stores
import Diem.Timeouts
/-!
# Reports — what the signers of a TC reported, and the block a leader proposes behind it

A timeout's own certificate is processed before the timeout is filed, and the highest certificate's round never falls,
so no bucket ever reports a round above it.  The TC a bucket makes therefore reports none, whatever came in between.
-/
namespace Diem

theorem maxHighQCRound_le {tc : TimeoutCert} {r : UInt64} (h : ∀ v ∈ tc.votes, v.highQcRound ≤ r) :
    maxHighQCRound tc ≤ r := by
  unfold maxHighQCRound
  refine List.foldlRecOn (motive := fun highest => highest ≤ r) tc.votes _ UInt64.zero_le (fun highest hle v hv => ?_)
  rw [UInt64.le_iff_toNat_le] at hle ⊢
  rw [UInt64.toNat_max]
  exact Nat.max_le.2 ⟨hle, UInt64.le_iff_toNat_le.1 (h v hv)⟩

namespace Pacemaker

/-- No timeout filed reports a round above `r`. -/
def Reports (p : Pacemaker) (r : UInt64) : Prop := ∀ round, ∀ x ∈ (p.bucket round).infos, qcRound x.highQc ≤ r

namespace Reports

variable {p : Pacemaker} {r : UInt64} (h : p.Reports r)
include h

theorem mono {r' : UInt64} (hr : r ≤ r') : p.Reports r' := fun round x hx => UInt64.le_trans (h round x hx) hr

theorem performs {ops : List Op} (hops : ∀ info, .file info ∉ ops) : (p.performs ops).Reports r := by
  intro round x hx
  rcases p.bucket_performs hops round with hb | hb
  · rw [hb] at hx
    exact h round x hx
  · rw [hb] at hx
    cases hx

theorem file {info : TimeoutInfo} (hinfo : qcRound info.highQc ≤ r) : (p.file info).Reports r := by
  intro round x hx
  rw [bucket_file] at hx
  split at hx
  · rcases List.mem_append.1 hx with hx | hx
    · exact h round x hx
    · rw [List.mem_singleton.1 hx]
      exact hinfo
  · exact h round x hx

theorem remoteOps {info : TimeoutInfo} (hinfo : qcRound info.highQc ≤ r) (faulty : Nat) :
    (p.performs (p.remoteOps faulty info)).Reports r := by
  unfold Pacemaker.remoteOps
  split
  · exact h
  split
  · exact h
  split
  · exact (h.file hinfo).performs (fun i hi => by cases List.mem_singleton.1 hi)
  · exact h.file hinfo

/-- The certificate a bucket makes reports nothing above either. -/
theorem assembleTC (round : UInt64) : maxHighQCRound (Pacemaker.assembleTC round (p.bucket round).infos) ≤ r := by
  refine maxHighQCRound_le (fun v hv => ?_)
  obtain ⟨x, hx, rfl⟩ := mem_assembleTC hv
  exact h round x hx

end Reports
end Pacemaker

namespace Core

variable {cr : Crypto} {cfg : Config} {env : Env} {P : Env → Core → Event → Prop}

/-- No timeout filed reports a round above the highest certificate's. -/
def Reported (c : Core) : Prop := c.pacemaker.Reports c.tree.highQC.voteInfo.round

theorem Reported.certificates {c c' : Core} {qc highCommitQc : Option QuorumCert} {tc : Option TimeoutCert}
    {eff : List Effect} (hr : c.Reported)
    (h : processCertificates cr cfg env c qc highCommitQc tc = .ok (c', eff)) : c'.Reported := by
  rw [Reported, processCertificates_performs h]
  exact (hr.performs (file_not_mem_certificateOps _ _ _)).mono (processCertificates_highQC h).1

/-- **The certificate is processed before its timeout is filed**, so the TC a timeout completes reports nothing above
the highest certificate. -/
theorem Reported.remote {c c₁ : Core} {m : TimeoutMsg} {eff : List Effect} {p : Pacemaker} {s : Safety}
    {out : Option TimeoutMsg} {tc : Option TimeoutCert} (hr : c.Reported)
    (h₁ : processCertificates cr cfg env c m.tmoInfo.highQc m.highCommitQc m.lastRoundTc = .ok (c₁, eff))
    (h₂ : c₁.pacemaker.processRemoteTimeout (verifier cr cfg) env cfg.id cfg.faulty c₁.tree c₁.safety m =
      (p, s, out, tc)) :
    p.Reports c₁.tree.highQC.voteInfo.round ∧ ∀ t, tc = some t → maxHighQCRound t ≤ c₁.tree.highQC.voteInfo.round := by
  have hp : p.Reports c₁.tree.highQC.voteInfo.round := by
    rw [Pacemaker.processRemoteTimeout_performs h₂]
    exact (hr.certificates h₁).remoteOps (processCertificates_highQC h₁).2.1 cfg.faulty
  refine ⟨hp, fun t ht => ?_⟩
  rcases Pacemaker.processRemoteTimeout_cases h₂ with ⟨-, -, -, hnone⟩ | ⟨-, -, hsome⟩
  · rw [ht] at hnone
    cases hnone
  · obtain ⟨rfl, -⟩ := hsome t ht
    exact hp.assembleTC _

theorem Reported.step {c c' : Core} {e : Event} {eff : List Effect} (hr : c.Reported)
    (h : c.step cr cfg env e = .ok (c', eff)) : c'.Reported := by
  by_cases htimeout : ∃ m, e = .timeout m
  · obtain ⟨m, rfl⟩ := htimeout
    obtain ⟨c₁, eff₁, p, s, out, tc, h₁, h₂, hend⟩ := processTimeoutMsg_ok h
    obtain ⟨hp, -⟩ := hr.remote h₁ h₂
    rcases hend with ⟨-, rfl, -⟩ | ⟨t, -, -, -, rfl, -⟩
    · exact hp
    · have hno : ∀ info, Pacemaker.Op.file info ∉ [Pacemaker.Op.advanceRoundTC t] := by simp
      exact hp.performs hno
  · rw [Reported, step_performs h]
    exact (hr.performs (file_not_mem_ops (fun m hm => htimeout ⟨m, hm⟩))).mono (step_highQC h)

theorem Heard.reported {ts : List Turn} {c : Core} (h : Heard cr cfg P ts c) : c.Reported := by
  refine h.invariant (J := fun _ c => c.Reported) (fun env c hnew => ?_) (fun _ _ _ _ _ _ hr _ => hr.step)
  cases newCore_eq hnew
  have hempty : newPacemaker.Reports (newBlockTree cr).highQC.voteInfo.round := fun round x hx => by cases hx
  have hno : ∀ info, Pacemaker.Op.file info ∉ [Pacemaker.Op.advanceRoundQC (genesisQC cr)] := by simp
  exact hempty.performs hno

/-- The TC a step enters a round on is of the round before, and reports nothing above the highest certificate. -/
theorem Reported.newRound {c c' : Core} {e : Event} {eff : List Effect} {tc : TimeoutCert} (hr : c.Reported)
    (h : c.step cr cfg env e = .ok (c', eff)) (hnew : c.newRound cr cfg env e = some (c', some tc)) :
    tc.round + 1 = c'.pacemaker.currentRound ∧ maxHighQCRound tc ≤ c'.tree.highQC.voteInfo.round := by
  cases e with
  | proposal p => cases hnew
  | vote m =>
    -- a certificate put together from votes brings no TC
    simp only [Core.newRound] at hnew
    split at hnew
    · cases hnew
    · split at hnew
      · split at hnew
        · split at hnew <;> cases hnew
        · cases hnew
      · cases hnew
  | timeout m =>
    obtain ⟨c₁, eff₁, p, s, out, tc', h₁, h₂, hend⟩ := processTimeoutMsg_ok h
    simp only [Core.newRound, h₁, h₂] at hnew
    rcases hend with ⟨rfl, -, -⟩ | ⟨t, rfl, -, hle, rfl, -⟩
    · cases hnew
    · obtain rfl : t = tc := Option.some.inj (Prod.mk.inj (Option.some.inj hnew)).2
      refine ⟨?_, (hr.remote h₁ h₂).2 t rfl⟩
      rw [Pacemaker.currentRound_advanceRoundTC, if_neg (UInt64.not_lt.2 hle)]
  | localTimeout epoch => cases hnew
  | block b => cases hnew
  | blockRequest id => cases hnew

/-- **A leader extends what its TC reported**: whatever was heard, when a timeout makes a TC the highest certificate is
not below any round its signers reported; and the proposal that goes out behind it is safe to extend by it. -/
theorem leader_extends_tc {ts : List Turn} {c : Core} (h : Heard cr cfg P ts c) :
    (∀ env m c₁ eff p s out tc,
      c.processCertificates cr cfg env m.tmoInfo.highQc m.highCommitQc m.lastRoundTc = .ok (c₁, eff) →
      c₁.pacemaker.processRemoteTimeout (verifier cr cfg) env cfg.id cfg.faulty c₁.tree c₁.safety m =
        (p, s, out, some tc) → maxHighQCRound tc ≤ c₁.tree.highQC.voteInfo.round) ∧
    ∀ env e c' eff, c.step cr cfg env e = .ok (c', eff) → ∀ p, .proposal p ∈ eff → ∃ b, p.block = some b ∧
      ∀ tc, p.lastRoundTc = some tc → Safety.safeToExtend b.round (qcRound b.qc) (some tc) = true := by
  refine ⟨fun env m c₁ eff p s out tc h₁ h₂ => (h.reported.remote h₁ h₂).2 tc rfl, fun env e c' eff hs q hq => ?_⟩
  obtain ⟨eff₀, hno, ⟨-, rfl⟩ | ⟨tc', hnew, rfl⟩⟩ := step_newRound hs
  · exact absurd hq (hno q)
  rcases List.mem_append.1 hq with hq | hq
  · exact absurd hq (hno q)
  obtain ⟨sig, -, hprop⟩ := mem_processNewRoundEvent hq
  cases hprop
  refine ⟨_, rfl, fun tc htc => ?_⟩
  -- a TC that the certificate makes needless is left out
  have hsome : tc' = some tc := by
    dsimp only [justifyingTC] at htc
    split at htc
    · cases htc
    · exact htc
  subst hsome
  obtain ⟨hround, hmax⟩ := h.reported.newRound hs hnew
  rw [Safety.safeToExtend, Bool.and_eq_true, consecutive_iff, decide_eq_true_eq]
  exact ⟨hround, hmax⟩

end Core

/-- Replica 3 of the chain has the timeouts of 1 and 2, and the one of 4 makes a TC that reports round 3. -/
theorem chain_extends_tc :
    ∃ ts c c₁ eff p s out tc,
      Core.Heard Chain.net.crypto (Chain.net.config 3) (Core.Checked Chain.net.crypto (Chain.net.config 3)) ts c ∧
      c.processCertificates Chain.net.crypto (Chain.net.config 3) Chain.env (Chain.timeout 4).tmoInfo.highQc
        (Chain.timeout 4).highCommitQc (Chain.timeout 4).lastRoundTc = .ok (c₁, eff) ∧
      c₁.pacemaker.processRemoteTimeout (Core.verifier Chain.net.crypto (Chain.net.config 3)) Chain.env 3 1
        c₁.tree c₁.safety (Chain.timeout 4) = (p, s, out, some tc) ∧
      maxHighQCRound tc = 3 ∧ maxHighQCRound tc ≤ c₁.tree.highQC.voteInfo.round := by
  have hplay : Core.hears Chain.net.crypto (Chain.net.config 3) Chain.env
      (Core.checks Chain.net.crypto (Chain.net.config 3) Chain.env)
      [.timeout (Chain.timeout 1), .timeout (Chain.timeout 2)]
      (fun _ c => (c.processCertificates Chain.net.crypto (Chain.net.config 3) Chain.env
        (Chain.timeout 4).tmoInfo.highQc (Chain.timeout 4).highCommitQc (Chain.timeout 4).lastRoundTc).toOption.any
        (fun r => (r.1.pacemaker.processRemoteTimeout (Core.verifier Chain.net.crypto (Chain.net.config 3))
          Chain.env 3 1 r.1.tree r.1.safety (Chain.timeout 4)).2.2.2.any
          (fun tc => maxHighQCRound tc == 3))) = true := by
    decide +kernel
  obtain ⟨ts, c, hheard, hcheck⟩ := Core.Heard.of_hears Core.checked_of_checks hplay
  obtain ⟨⟨c₁, eff⟩, hok, hremote⟩ := (Option.any_eq_true _ _).1 hcheck
  obtain ⟨tc, htc, hmax⟩ := (Option.any_eq_true _ _).1 hremote
  have h₁ : c.processCertificates Chain.net.crypto (Chain.net.config 3) Chain.env (Chain.timeout 4).tmoInfo.highQc
      (Chain.timeout 4).highCommitQc (Chain.timeout 4).lastRoundTc = .ok (c₁, eff) := by
    cases hcert : c.processCertificates Chain.net.crypto (Chain.net.config 3) Chain.env (Chain.timeout 4).tmoInfo.highQc
      (Chain.timeout 4).highCommitQc (Chain.timeout 4).lastRoundTc with
    | error s =>
      rw [hcert] at hok
      cases hok
    | ok r =>
      rw [hcert] at hok
      exact congrArg Except.ok (Option.some.inj hok)
  have h₂ : c₁.pacemaker.processRemoteTimeout
      (Core.verifier Chain.net.crypto (Chain.net.config 3)) Chain.env 3 1 c₁.tree
      c₁.safety (Chain.timeout 4) = (_, _, _, some tc) := Prod.ext rfl (Prod.ext rfl (Prod.ext rfl htc))
  exact ⟨ts, c, c₁, eff, _, _, _, tc, hheard, h₁, h₂, by simpa using hmax,
    (Core.leader_extends_tc hheard).1 Chain.env (Chain.timeout 4) c₁ eff _ _ _ tc h₁ h₂⟩

end Diem

import Diem.System
/-!
# Micro — a step, one thing at a time

A core's step is a sequence of `Micro` steps (`step_micros`), one for each thing a handler does; a step that never
returns is such a sequence and what is left of the last one (`step_halts`).  An invariant is shown for micro steps, and
`Run.invariant` carries it to every state of every run.
-/
namespace Diem

namespace Net

variable (N : Net)

/-- **One thing a handler does**, in a step that event `e` began in the state `c₀`. -/
inductive Micro (i : UInt32) (env : Env) (c₀ : Core) (e : Event) : Core → List Effect → Core → Prop
  | cert (c : Core) (qc : QuorumCert) (c' : Core) (moved : Bool) (eff : List Effect) (hsrc : qc ∈ e.qcs)
      (h : c.processCertificateQC N.crypto (N.config i) env (some qc) = .ok ((c', moved), eff)) :
      Micro i env c₀ e c eff c'
  | tc (c : Core) (t : TimeoutCert) (hsrc : e.tc = some t) :
      Micro i env c₀ e c [] { c with pacemaker := (c.pacemaker.advanceRoundTC (some t)).1 }
  | insert (c : Core) (b : Block) (c' : Core) (eff : List Effect)
      (hsrc : e = .block b ∨ ∃ p, e = .proposal p ∧ p.block = some b)
      (h : c.insert (N.config i) env b = .ok (c', eff)) : Micro i env c₀ e c eff c'
  | vote (c : Core) (p : ProposalMsg) (b : Block) (dest : UInt32) (hp : e = .proposal p) (hb : p.block = some b)
      (hround : b.round = c.pacemaker.currentRound) (hqc : qcRound b.qc ≤ c.tree.highQC.voteInfo.round) :
      Micro i env c₀ e c
        ((c.safety.makeVote N.verifier env i c.ledger c.tree b p.lastRoundTc).2.toList.map (fun v => .vote v dest))
        { c with safety := (c.safety.makeVote N.verifier env i c.ledger c.tree b p.lastRoundTc).1 }
  | stop (c : Core) : Micro i env c₀ e c [] c.stop
  | timeout (c : Core) : Micro i env c₀ e c (c.localTimeoutRound N.crypto (N.config i) env).2
      (c.localTimeoutRound N.crypto (N.config i) env).1
  | note (c : Core) (m : TimeoutMsg) (hm : e = .timeout m)
      (hnew : m.tmoInfo.sender ∉ (c.pacemaker.bucket m.tmoInfo.round).senders) :
      Micro i env c₀ e c [] { c with pacemaker := c.pacemaker.file m.tmoInfo }
  | complete (c : Core) (m : TimeoutMsg) (tc : TimeoutCert) (c' : Core) (hm : e = .timeout m)
      (htc : tc = Pacemaker.assembleTC m.tmoInfo.round (c.pacemaker.bucket m.tmoInfo.round).infos)
      (hlen : (c.pacemaker.bucket m.tmoInfo.round).senders.length = N.verifier.quorum)
      (hround : c.pacemaker.currentRound ≤ m.tmoInfo.round)
      (hc' : c' = { c with pacemaker := (c.pacemaker.advanceRoundTC (some tc)).1 }) :
      Micro i env c₀ e c (c'.processNewRoundEvent N.crypto (N.config i) env (some tc)) c'
  | voteQC (m : VoteMsg) (qc : QuorumCert) (l : MemLedger) (t : BlockTree) (bs : List Block) (hm : e = .vote m)
      (hqc : m.highCommitQc = some qc) (hwin : InWindow c₀ m)
      (h : BlockTree.processQC (N.config i).history env.fuel c₀.ledger c₀.tree (some qc) = .ok (l, t, bs)) :
      Micro i env c₀ e c₀ (bs.map Effect.onCommit) { c₀ with ledger := l, tree := t }
  | gather (c : Core) (m : VoteMsg) (hm : e = .vote m)
      (h : (c.tree.accumulate N.crypto env i N.verifier.quorum m).2 = none) :
      Micro i env c₀ e c [] { c with tree := (c.tree.accumulate N.crypto env i N.verifier.quorum m).1 }
  | aggregate (c : Core) (m : VoteMsg) (qc : QuorumCert) (c' : Core) (moved : Bool) (eff : List Effect)
      (hm : e = .vote m) (hwin : InWindow c₀ m)
      (hqc : (c.tree.accumulate N.crypto env i N.verifier.quorum m).2 = some qc)
      (h : Core.processCertificateQC N.crypto (N.config i) env
        { c with tree := (c.tree.accumulate N.crypto env i N.verifier.quorum m).1 } (some qc) =
        .ok ((c', moved), eff)) :
      Micro i env c₀ e c
        (.assembled qc :: if moved then eff ++ c'.processNewRoundEvent N.crypto (N.config i) env none else eff) c'
  | reply (c : Core) (b : Option Block) : Micro i env c₀ e c [.reply b] c

/-- Micro steps one after another, with all that they did. -/
inductive Micros (i : UInt32) (env : Env) (c₀ : Core) (e : Event) : Core → List Effect → Core → Prop
  | refl (c : Core) : Micros i env c₀ e c [] c
  | tail {c c' c'' : Core} {eff eff' : List Effect} (h : Micros i env c₀ e c eff c')
      (h' : N.Micro i env c₀ e c' eff' c'') : Micros i env c₀ e c (eff ++ eff') c''

/-- **What is left of a micro step that a loop keeps from ending**: an insertion looking for the oldest ancestor
missing, a certificate that is committing, or one that has committed and elects a leader. -/
inductive Cut (i : UInt32) (env : Env) (e : Event) : Core → List Effect → Prop
  | insert (c : Core) (b : Block) (loop : Loop) (hsrc : e = .block b ∨ ∃ p, e = .proposal p ∧ p.block = some b)
      (h : (c.ledger.speculate (N.config i).execute b).1.missing env.fuel b.id = .error loop) : Cut i env e c []
  | commit (c : Core) (qc : QuorumCert) (loop : Loop) (hsrc : qc ∈ e.qcs ∨ ∃ m, e = .vote m ∧ m.highCommitQc = some qc)
      (h : BlockTree.processQC (N.config i).history env.fuel c.ledger c.tree (some qc) = .error loop) : Cut i env e c []
  | cert (c : Core) (qc : QuorumCert) (l : MemLedger) (t : BlockTree) (bs : List Block) (loop : Loop)
      (hsrc : qc ∈ e.qcs) (h : BlockTree.processQC (N.config i).history env.fuel c.ledger c.tree (some qc) =
        .ok (l, t, bs))
      (hloop : c.leaders.updateLeaders N.crypto (N.config i) env.fuel l c.pacemaker.currentRound qc = .error loop) :
      Cut i env e c (bs.map Effect.onCommit)
  | assembled (c : Core) (m : VoteMsg) (qc : QuorumCert) (loop : Loop) (hm : e = .vote m)
      (hqc : (c.tree.accumulate N.crypto env i N.verifier.quorum m).2 = some qc)
      (h : BlockTree.processQC (N.config i).history env.fuel c.ledger
        (c.tree.accumulate N.crypto env i N.verifier.quorum m).1 (some qc) = .error loop) :
      Cut i env e c [.assembled qc]
  | aggregate (c : Core) (m : VoteMsg) (qc : QuorumCert) (l : MemLedger) (t : BlockTree) (bs : List Block) (loop : Loop)
      (hm : e = .vote m) (hqc : (c.tree.accumulate N.crypto env i N.verifier.quorum m).2 = some qc)
      (h : BlockTree.processQC (N.config i).history env.fuel c.ledger
        (c.tree.accumulate N.crypto env i N.verifier.quorum m).1 (some qc) = .ok (l, t, bs))
      (hloop : c.leaders.updateLeaders N.crypto (N.config i) env.fuel l c.pacemaker.currentRound qc = .error loop) :
      Cut i env e c (.assembled qc :: bs.map Effect.onCommit)

section Steps

variable {N} {i : UInt32} {env : Env} {c₀ : Core} {e : Event}

theorem Micro.micros {c c' : Core} {eff : List Effect} (h : N.Micro i env c₀ e c eff c') :
    N.Micros i env c₀ e c eff c' := (Micros.refl c).tail h

theorem Micros.trans {c c' c'' : Core} {eff eff' : List Effect} (h : N.Micros i env c₀ e c eff c')
    (h' : N.Micros i env c₀ e c' eff' c'') : N.Micros i env c₀ e c (eff ++ eff') c'' := by
  induction h' with
  | refl => rw [List.append_nil]; exact h
  | tail _ hm ih => rw [← List.append_assoc]; exact ih.tail hm

/-- **A step caught in a loop**: micro steps, and what is left of the last one. -/
def Halts (N : Net) (i : UInt32) (env : Env) (c₀ : Core) (e : Event) (c : Core) (s : Stuck) : Prop :=
  ∃ c' eff eff', N.Micros i env c₀ e c eff c' ∧ N.Cut i env e c' eff' ∧ s.done = eff ++ eff'

theorem Cut.halts {c : Core} {s : Stuck} (h : N.Cut i env e c s.done) : N.Halts i env c₀ e c s :=
  ⟨c, [], s.done, .refl c, h, rfl⟩

theorem Micros.halts {c c' : Core} {eff : List Effect} {s s' : Stuck} (h : N.Micros i env c₀ e c eff c')
    (hd : s'.done = eff ++ s.done) (h' : N.Halts i env c₀ e c' s) : N.Halts i env c₀ e c s' := by
  obtain ⟨c'', eff', eff'', hm, hc, hd'⟩ := h'
  refine ⟨c'', eff ++ eff', eff'', h.trans hm, hc, ?_⟩
  rw [hd, hd', List.append_assoc]

theorem cert_micros {c c' : Core} {qc : Option QuorumCert} {moved : Bool} {eff : List Effect}
    (hsrc : ∀ q ∈ qc, q ∈ e.qcs)
    (h : c.processCertificateQC N.crypto (N.config i) env qc = .ok ((c', moved), eff)) :
    N.Micros i env c₀ e c eff c' ∧ qcRound qc ≤ c'.tree.highQC.voteInfo.round ∧
      c.tree.highQC.voteInfo.round ≤ c'.tree.highQC.voteInfo.round := by
  cases qc with
  | none =>
    cases h
    exact ⟨.refl c, by simp [qcRound], by simp⟩
  | some q =>
    refine ⟨(Micro.cert c q c' moved eff (hsrc q rfl) h).micros, ?_⟩
    obtain ⟨l, t, bs, le, hq, -, rfl, -, -⟩ := Core.processCertificateQC_ok h
    rw [(BlockTree.processQC_ok hq).1]
    exact ⟨higher_left _ _, higher_right _ _⟩

theorem cert_halts {c : Core} {qc : Option QuorumCert} {s : Stuck} (hsrc : ∀ q ∈ qc, q ∈ e.qcs)
    (h : c.processCertificateQC N.crypto (N.config i) env qc = .error s) : N.Halts i env c₀ e c s := by
  obtain ⟨q, rfl, ⟨hq, hd⟩ | ⟨l, t, bs, hq, hl, hd⟩⟩ := Core.processCertificateQC_error h
  · refine Cut.halts ?_
    rw [hd]
    exact .commit c q s.loop (.inl (hsrc q rfl)) hq
  · refine Cut.halts ?_
    rw [hd]
    exact .cert c q l t bs s.loop (hsrc q rfl) hq hl

theorem certificates_micros {c c' : Core} {qc hc : Option QuorumCert} {tc : Option TimeoutCert} {eff : List Effect}
    (hqc : ∀ q ∈ qc, q ∈ e.qcs) (hhc : ∀ q ∈ hc, q ∈ e.qcs) (htc : ∀ t ∈ tc, e.tc = some t)
    (h : c.processCertificates N.crypto (N.config i) env qc hc tc = .ok (c', eff)) :
    N.Micros i env c₀ e c eff c' ∧ qcRound qc ≤ c'.tree.highQC.voteInfo.round := by
  obtain ⟨c₁, m₁, eff₁, c₂, m₂, eff₂, h₁, h₂, rfl, rfl⟩ := Core.processCertificates_ok h
  obtain ⟨hm₁, hr₁, -⟩ : N.Micros i env c₀ e c eff₁ c₁ ∧ _ ∧ _ := cert_micros hqc h₁
  obtain ⟨hm₂, -, hr₂⟩ : N.Micros i env c₀ e c₁ eff₂ c₂ ∧ _ ∧ _ := cert_micros hhc h₂
  refine ⟨?_, UInt64.le_trans hr₁ hr₂⟩
  cases tc with
  | none => exact hm₁.trans hm₂
  | some t =>
    have hm₃ := (hm₁.trans hm₂).tail (Micro.tc c₂ t (htc t rfl))
    rwa [List.append_nil] at hm₃

theorem certificates_halts {c : Core} {qc hc : Option QuorumCert} {tc : Option TimeoutCert} {s : Stuck}
    (hqc : ∀ q ∈ qc, q ∈ e.qcs) (hhc : ∀ q ∈ hc, q ∈ e.qcs)
    (h : c.processCertificates N.crypto (N.config i) env qc hc tc = .error s) : N.Halts i env c₀ e c s := by
  unfold Core.processCertificates at h
  split at h
  · rename_i s' h₁
    cases h
    exact cert_halts hqc h₁
  · rename_i c₁ m₁ eff₁ h₁
    obtain ⟨s', h', hd⟩ := Core.after_error h
    refine (cert_micros hqc h₁).1.halts hd ?_
    split at h'
    · rename_i s'' h₂
      cases h'
      exact cert_halts hhc h₂
    · cases h'

theorem voteOn_micros {c c' : Core} {p : ProposalMsg} {b : Block} {eff : List Effect} (hp : e = .proposal p)
    (hb : p.block = some b) (hround : b.round = c.pacemaker.currentRound)
    (hqc : qcRound b.qc ≤ c.tree.highQC.voteInfo.round)
    (h : c.voteOn N.crypto (N.config i) env b p.lastRoundTc c.pacemaker.currentRound = .ok (c', eff)) :
    N.Micros i env c₀ e c eff c' := by
  unfold Core.voteOn at h
  split at h
  · cases h
  · rename_i c₁ eff₁ h₁
    have hm₁ : N.Micros i env c₀ e c eff₁ c₁ := (Micro.insert c b c₁ eff₁ (.inr ⟨p, hp, hb⟩) h₁).micros
    obtain ⟨rfl, -⟩ := Core.insert_ok h₁
    simp only [N.verifier_eq, N.id_eq] at h
    cases h
    exact hm₁.tail (Micro.vote _ p b _ hp hb hround hqc)

theorem insert_halts {c : Core} {b : Block} {s : Stuck} (hsrc : e = .block b ∨ ∃ p, e = .proposal p ∧ p.block = some b)
    (h : c.insert (N.config i) env b = .error s) : N.Halts i env c₀ e c s := by
  rw [Core.insert] at h
  split at h
  · rename_i loop hmiss
    cases h
    exact Cut.halts (.insert c b loop hsrc hmiss)
  · cases h

theorem proposal_micros {c' : Core} {p : ProposalMsg} {b : Block} {eff : List Effect} (hb : p.block = some b)
    (h : c₀.processProposalMsg N.crypto (N.config i) env p = .ok (c', eff)) :
    N.Micros i env c₀ (.proposal p) c₀ eff c' := by
  simp only [Core.processProposalMsg, hb, Option.getD_some] at h
  split at h
  · cases h
  · rename_i c₁ eff₁ h₁
    obtain ⟨hm, hr⟩ : N.Micros i env c₀ (.proposal p) c₀ eff₁ c₁ ∧ _ :=
      certificates_micros (by simp [Event.qcs, hb]; grind)
      (by simp [Event.qcs]; grind) (fun t ht => ht) h₁
    split at h
    · cases h; exact hm
    · rename_i hlead
      obtain ⟨eff₂, h', rfl⟩ := Core.after_ok h
      push Not at hlead
      exact hm.trans (voteOn_micros rfl hb hlead.1 hr h')

theorem proposal_halts {p : ProposalMsg} {b : Block} {s : Stuck} (hb : p.block = some b)
    (h : c₀.processProposalMsg N.crypto (N.config i) env p = .error s) :
    N.Halts i env c₀ (.proposal p) c₀ s := by
  simp only [Core.processProposalMsg, hb, Option.getD_some] at h
  have hqc : ∀ q ∈ b.qc, q ∈ (Event.proposal p).qcs := by simp [Event.qcs, hb]; grind
  have hhc : ∀ q ∈ p.highCommitQc, q ∈ (Event.proposal p).qcs := by simp [Event.qcs]; grind
  split at h
  · rename_i s' h₁
    cases h
    exact certificates_halts hqc hhc h₁
  · rename_i c₁ eff₁ h₁
    split at h
    · cases h
    · obtain ⟨s', h', hd⟩ := Core.after_error h
      refine (certificates_micros hqc hhc (fun t ht => ht) h₁).1.halts hd ?_
      unfold Core.voteOn at h'
      split at h'
      · rename_i s'' h₂
        cases h'
        exact insert_halts (.inr ⟨p, rfl, hb⟩) h₂
      · cases h'

theorem remoteTimeout_micros {c : Core} {m : TimeoutMsg} {f : Nat} {p' : Pacemaker} {s' : Safety}
    {out : Option TimeoutMsg} {tc : Option TimeoutCert}
    (h : c.pacemaker.processRemoteTimeout N.verifier env i f c.tree c.safety m = (p', s', out, tc)) :
    N.Micros i env c₀ (.timeout m) c (out.toList.map Effect.timeout) { c with pacemaker := p', safety := s' } := by
  rcases Pacemaker.processRemoteTimeout_cases h with ⟨rfl, rfl, rfl, -⟩ | ⟨hseen, hr, -⟩
  · exact .refl c
  · have hnote : N.Micros i env c₀ (.timeout m) c [] { c with pacemaker := c.pacemaker.file m.tmoInfo } :=
      (Micro.note c m rfl hseen).micros
    rcases hr with hr | hr
    · cases hr
      exact hnote
    · have hmic := (hnote.tail (Micro.stop _)).tail (Micro.timeout _)
      simp only [Core.localTimeoutRound, Core.stop, N.verifier_eq, N.id_eq, List.nil_append, ← hr] at hmic
      exact hmic

theorem timeout_micros {c' : Core} {m : TimeoutMsg} {eff : List Effect}
    (h : c₀.processTimeoutMsg N.crypto (N.config i) env m = .ok (c', eff)) :
    N.Micros i env c₀ (.timeout m) c₀ eff c' := by
  simp only [Core.processTimeoutMsg, N.verifier_eq, N.id_eq] at h
  split at h
  · cases h
  · rename_i c₁ eff₁ h₁
    obtain ⟨hm₁, -⟩ : N.Micros i env c₀ (.timeout m) c₀ eff₁ c₁ ∧ _ := certificates_micros (by simp [Event.qcs]; grind)
      (by simp [Event.qcs]; grind) (fun t ht => ht) h₁
    generalize hr : c₁.pacemaker.processRemoteTimeout N.verifier env i (N.config i).faulty c₁.tree c₁.safety m = r at h
    obtain ⟨p', s', out, tc⟩ := r
    have hm₂ := hm₁.trans (remoteTimeout_micros hr)
    cases tc with
    | none => cases h; exact hm₂
    | some tc =>
      cases h
      rcases Pacemaker.processRemoteTimeout_cases hr with ⟨-, -, -, hno⟩ | ⟨-, -, htc⟩
      · cases hno
      · obtain ⟨htc, hlen, hround⟩ := htc tc rfl
        exact hm₂.tail (Micro.complete _ m tc _ rfl htc hlen hround rfl)

theorem timeout_halts {m : TimeoutMsg} {s : Stuck}
    (h : c₀.processTimeoutMsg N.crypto (N.config i) env m = .error s) : N.Halts i env c₀ (.timeout m) c₀ s := by
  simp only [Core.processTimeoutMsg] at h
  split at h
  · rename_i s' h₁
    cases h
    exact certificates_halts (by simp [Event.qcs]; grind) (by simp [Event.qcs]; grind) h₁
  · split at h <;> cases h

/-- A vote received and not dropped: its commit certificate first, then the accumulator. -/
theorem processVote_micros {m : VoteMsg} {l : MemLedger} {t : BlockTree} {bs : List Block} {qc : Option QuorumCert}
    (hwin : ¬ (c₀.pacemaker.currentRound + maxRoundLead < m.voteInfo.round ∨
      m.voteInfo.round + 1 < c₀.pacemaker.currentRound))
    (h : BlockTree.processVote N.crypto (N.config i).history env i N.verifier.quorum c₀.ledger c₀.tree m =
      .ok (l, t, bs, qc)) :
    ∃ t₁, N.Micros i env c₀ (.vote m) c₀ (bs.map Effect.onCommit) { c₀ with ledger := l, tree := t₁ } ∧
      t₁.accumulate N.crypto env i N.verifier.quorum m = (t, qc) := by
  unfold BlockTree.processVote at h
  split at h
  · cases h
  · rename_i l₁ t₁ bs₁ h₁
    cases h
    refine ⟨t₁, ?_, rfl⟩
    cases hqc : m.highCommitQc with
    | none =>
      rw [hqc] at h₁
      cases h₁
      exact .refl c₀
    | some q =>
      rw [hqc] at h₁
      exact (Micro.voteQC m q l t₁ bs rfl hqc hwin h₁).micros

theorem quorum_eq (N : Net) (i : UInt32) : (N.config i).quorum = N.verifier.quorum := by
  rw [Config.quorum, N.members]
  rfl

theorem vote_micros {c' : Core} {m : VoteMsg} {eff : List Effect}
    (h : c₀.processVoteMsg N.crypto (N.config i) env m = .ok (c', eff)) : N.Micros i env c₀ (.vote m) c₀ eff c' := by
  simp only [Core.processVoteMsg, N.id_eq, N.quorum_eq] at h
  split at h
  · cases h; exact .refl c₀
  · rename_i hwin
    split at h
    · cases h
    · rename_i l t bs qc hv
      obtain ⟨t₁, hm, hacc⟩ := processVote_micros hwin hv
      split at h
      · cases h
        have hg := hm.tail (Micro.gather _ m rfl (by rw [hacc]))
        simpa only [hacc, List.append_nil] using hg
      · rename_i q
        obtain ⟨eff', h', rfl⟩ := Core.after_ok h
        split at h'
        · cases h'
        · rename_i c₂ moved eff₂ h₂
          cases h'
          have hg := hm.tail (Micro.aggregate _ m q c' moved eff₂ rfl hwin (by rw [hacc])
            (by simpa only [hacc] using h₂))
          simpa using hg

theorem vote_halts {m : VoteMsg} {s : Stuck}
    (h : c₀.processVoteMsg N.crypto (N.config i) env m = .error s) : N.Halts i env c₀ (.vote m) c₀ s := by
  simp only [Core.processVoteMsg, N.id_eq, N.quorum_eq] at h
  split at h
  · cases h
  · rename_i hwin
    split at h
    · rename_i e' hv
      cases h
      unfold BlockTree.processVote at hv
      split at hv
      · rename_i hq
        cases hv
        cases hqc : m.highCommitQc with
        | none => rw [hqc] at hq; cases hq
        | some q => rw [hqc] at hq; exact Cut.halts (.commit c₀ q _ (.inr ⟨m, rfl, hqc⟩) hq)
      · cases hv
    · rename_i l t bs qc hv
      obtain ⟨t₁, hm, hacc⟩ := processVote_micros hwin hv
      split at h
      · cases h
      · rename_i q
        obtain ⟨s', h', hd⟩ := Core.after_error h
        rw [List.append_assoc] at hd
        refine hm.halts (s := ⟨s'.loop, [.assembled q] ++ s'.done⟩) hd (Cut.halts ?_)
        split at h'
        · rename_i s'' h₂
          cases h'
          obtain ⟨q', hq', ⟨hq, hd⟩ | ⟨l', t', bs', hq, hl, hd⟩⟩ := Core.processCertificateQC_error h₂
          · cases hq'
            simp only [hd]
            exact .assembled _ m q _ rfl (by rw [hacc]) (by simpa only [hacc] using hq)
          · cases hq'
            simp only [hd]
            exact .aggregate _ m q l' t' bs' _ rfl (by rw [hacc]) (by simpa only [hacc] using hq) hl
        · cases h'

/-- **Everything a step does, one micro step at a time.** -/
theorem step_micros {c' : Core} {eff : List Effect} (he : N.Admits e)
    (h : c₀.step N.crypto (N.config i) env e = .ok (c', eff)) : N.Micros i env c₀ e c₀ eff c' := by
  cases e with
  | proposal p =>
    cases hb : p.block with
    | none => exact absurd he.1 (by simp [Verifier.verifyProposal, wellFormedProposal, hb])
    | some b => exact proposal_micros hb h
  | vote m => exact vote_micros h
  | timeout m => exact timeout_micros h
  | localTimeout epoch =>
    rw [Core.step] at h
    split at h
    · cases h; exact (Micro.timeout c₀).micros
    · cases h; exact .refl c₀
  | block b => exact (Micro.insert c₀ b c' eff (.inl rfl) h).micros
  | blockRequest id =>
    cases h
    exact (Micro.reply c₀ _).micros

theorem step_halts {s : Stuck} (he : N.Admits e) (h : c₀.step N.crypto (N.config i) env e = .error s) :
    N.Halts i env c₀ e c₀ s := by
  cases e with
  | proposal p =>
    cases hb : p.block with
    | none => exact absurd he.1 (by simp [Verifier.verifyProposal, wellFormedProposal, hb])
    | some b => exact proposal_halts hb h
  | vote m => exact vote_halts h
  | timeout m => exact timeout_halts h
  | localTimeout epoch =>
    rw [Core.step] at h
    split at h <;> cases h
  | block b => exact insert_halts (.inl rfl) h
  | blockRequest id => cases h

end Steps

/-! ## Invariants of runs -/

/-- What every micro step keeps, a sequence of them keeps. -/
theorem Micros.invariant {N : Net} {i : UInt32} {env : Env} {c₀ : Core} {e : Event} {J : List Effect → Core → Prop}
    (hstep : ∀ tr c eff c', J tr c → N.Micro i env c₀ e c eff c' → (∀ x ∈ eff, N.Legit i x) → J (tr ++ eff) c')
    {tr eff : List Effect} {c c' : Core} (h : N.Micros i env c₀ e c eff c') (hJ : J tr c)
    (hok : ∀ x ∈ eff, N.Legit i x) : J (tr ++ eff) c' := by
  induction h with
  | refl => rw [List.append_nil]; exact hJ
  | tail _ hm ih =>
    obtain ⟨hok, hok'⟩ := List.forall_mem_append.1 hok
    rw [← List.append_assoc]
    exact hstep _ _ _ _ (ih hok) hm hok'

/-- **What every micro step keeps, every state has.**  `J` is about a running replica and all it did; `K` is what is
left of it for a replica caught in a loop. -/
theorem Run.invariant {N : Net} {P : UInt32 → Core → Event → Prop} {J : UInt32 → List Effect → Core → Prop}
    {K : UInt32 → List Effect → Prop}
    (hstart : ∀ i env c, newCore N.crypto (N.config i) = some c →
      (∀ x ∈ (c.start N.crypto (N.config i) env).2, N.Legit i x) →
      J i (c.start N.crypto (N.config i) env).2 (c.start N.crypto (N.config i) env).1)
    (hmicro : ∀ i env c₀ e tr c eff c', N.Honest i → N.Admits e → P i c₀ e → J i tr c → N.Micro i env c₀ e c eff c' →
      (∀ x ∈ eff, N.Legit i x) → J i (tr ++ eff) c')
    (hcut : ∀ i env c₀ e tr c eff, N.Honest i → N.Admits e → P i c₀ e → J i tr c → N.Cut i env e c eff →
      (∀ x ∈ eff, N.Legit i x) → K i (tr ++ eff))
    {σ : Sys} (h : N.Run P σ) :
    ∀ i, (σ.status i = .fresh → σ.effects i = []) ∧ (∀ c, σ.status i = .running c → J i (σ.effects i) c) ∧
      (σ.status i = .stuck → K i (σ.effects i)) := by
  have hmicros : ∀ i env c₀ e tr c eff c', N.Honest i → N.Admits e → P i c₀ e → J i tr c →
      N.Micros i env c₀ e c eff c' → (∀ x ∈ eff, N.Legit i x) → J i (tr ++ eff) c' :=
    fun i env c₀ e tr c eff c' hi he hP hJ hm hok =>
      hm.invariant (fun tr c eff c' => hmicro i env c₀ e tr c eff c' hi he hP) hJ hok
  induction h with
  | refl => exact fun i => ⟨fun _ => rfl, fun _ hc => (by cases hc), fun hc => (by cases hc)⟩
  | tail _ hs ih =>
    intro j
    -- a step is one replica's; for the others nothing changed
    have hother : ∀ (τ : Sys) (i : UInt32) (s : Status) (eff : List Effect), j ≠ i →
        (τ.set i s eff).status j = τ.status j ∧ (τ.set i s eff).effects j = τ.effects j :=
      fun τ i s eff hij => ⟨τ.status_set_ne hij s eff, τ.effects_set_ne hij s eff⟩
    cases hs with
    | start i env c hi hσ hnew hok =>
      by_cases hij : j = i
      · subst hij
        rw [Sys.status_set_self, Sys.effects_set_self, (ih j).1 hσ, List.nil_append]
        refine ⟨fun hc => (by cases hc), fun c' hc => ?_, fun hc => (by cases hc)⟩
        cases hc
        exact hstart j env c hnew hok
      · rw [(hother _ i _ _ hij).1, (hother _ i _ _ hij).2]
        exact ih j
    | event i env c e c' eff hi hσ he hP hs hok =>
      by_cases hij : j = i
      · subst hij
        rw [Sys.status_set_self, Sys.effects_set_self]
        refine ⟨fun hc => (by cases hc), fun c'' hc => ?_, fun hc => (by cases hc)⟩
        cases hc
        exact hmicros j env c e _ c eff c' hi he hP ((ih j).2.1 c hσ) (step_micros he hs) hok
      · rw [(hother _ i _ _ hij).1, (hother _ i _ _ hij).2]
        exact ih j
    | stick i env c e s hi hσ he hP hs hok =>
      by_cases hij : j = i
      · subst hij
        rw [Sys.status_set_self, Sys.effects_set_self]
        refine ⟨fun hc => (by cases hc), fun _ hc => (by cases hc), fun _ => ?_⟩
        obtain ⟨c', eff, eff', hm, hc, hd⟩ := step_halts he hs
        rw [hd] at hok ⊢
        obtain ⟨hok, hok'⟩ := List.forall_mem_append.1 hok
        rw [← List.append_assoc]
        exact hcut j env c e _ c' eff' hi he hP (hmicros j env c e _ c eff c' hi he hP ((ih j).2.1 c hσ) hm hok) hc hok'
      · rw [(hother _ i _ _ hij).1, (hother _ i _ _ hij).2]
        exact ih j

/-- **Somewhere in a step**: an honest replica, running in `σ`, is at `c` after some micro steps of an event.  With none
of them it is between two steps. -/
def Midway (N : Net) (P : UInt32 → Core → Event → Prop) (σ : Sys) (i : UInt32) (c : Core) : Prop :=
  N.Honest i ∧ ∃ env c₀ e eff, σ.status i = .running c₀ ∧ N.Admits e ∧ P i c₀ e ∧ N.Micros i env c₀ e c₀ eff c ∧
    ∀ x ∈ eff, N.Legit i x

/-- What every micro step keeps holds in the middle of a step too. -/
theorem Midway.invariant {N : Net} {P : UInt32 → Core → Event → Prop} {J : UInt32 → List Effect → Core → Prop}
    (hmicro : ∀ i env c₀ e tr c eff c', N.Honest i → N.Admits e → P i c₀ e → J i tr c → N.Micro i env c₀ e c eff c' →
      (∀ x ∈ eff, N.Legit i x) → J i (tr ++ eff) c')
    {σ : Sys} {i : UInt32} {c : Core} (h : N.Midway P σ i c)
    (hrun : ∀ c₀, σ.status i = .running c₀ → J i (σ.effects i) c₀) : ∃ tr, J i tr c := by
  obtain ⟨hi, env, c₀, e, eff, hc₀, he, hP, hm, hok⟩ := h
  exact ⟨_, hm.invariant (fun tr c eff c' => hmicro i env c₀ e tr c eff c' hi he hP) (hrun c₀ hc₀) hok⟩

end Net

end Diem

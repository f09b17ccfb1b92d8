import Diem.Rounds
/-!
# Turns — what a step does to the pacemaker

A step drives the pacemaker through five operations and no others, so what is true of a step's rounds and timers is
what is true of each operation.  Nothing here needs the events to verify.
-/
namespace Diem
namespace Pacemaker

/-- An operation of the pacemaker, as `core.go` calls it; `amplify` is the `Stop` and `LocalTimeoutRound` that
`ProcessRemoteTimeout` runs on f+1 senders. -/
inductive Op where
  | file (info : TimeoutInfo)
  | advanceRoundQC (qc : QuorumCert)
  | advanceRoundTC (tc : TimeoutCert)
  | localTimeoutRound
  | amplify

/-- The pacemaker's half of an operation. -/
def perform (p : Pacemaker) : Op → Pacemaker
  | .file info         => p.file info
  | .advanceRoundQC qc => (p.advanceRoundQC (some qc)).1
  | .advanceRoundTC tc => (p.advanceRoundTC (some tc)).1
  | .localTimeoutRound => p.startTimer p.currentRound
  | .amplify           => p.stop.startTimer p.currentRound

def performs (p : Pacemaker) (ops : List Op) : Pacemaker := ops.foldl perform p

theorem performs_append (p : Pacemaker) (ops ops' : List Op) :
    p.performs (ops ++ ops') = (p.performs ops).performs ops' := List.foldl_append

/-- But for the one that files, an operation keeps a bucket or empties it. -/
theorem bucket_perform (p : Pacemaker) {op : Op} (hop : ∀ info, op ≠ .file info) (round : UInt64) :
    (p.perform op).bucket round = p.bucket round ∨ (p.perform op).bucket round = ⟨[], []⟩ := by
  have hstart : ∀ (q : Pacemaker) (r : UInt64), q.pendingTimeouts = p.pendingTimeouts →
      (q.startTimer r).bucket round = p.bucket round ∨ (q.startTimer r).bucket round = ⟨[], []⟩ := by
    intro q r hq
    rw [bucket_startTimer]
    split
    · exact .inr rfl
    · exact .inl (by rw [bucket, bucket, hq])
  cases op with
  | file info => exact absurd rfl (hop info)
  | advanceRoundQC q =>
    rw [perform, advanceRoundQC_eq]
    split
    · exact .inl rfl
    · exact hstart _ _ rfl
  | advanceRoundTC t =>
    rw [perform, advanceRoundTC_eq]
    split
    · exact .inl rfl
    · exact hstart _ _ rfl
  | localTimeoutRound => exact hstart _ _ rfl
  | amplify => exact hstart _ _ rfl

theorem bucket_performs (p : Pacemaker) {ops : List Op} (hops : ∀ info, .file info ∉ ops) (round : UInt64) :
    (p.performs ops).bucket round = p.bucket round ∨ (p.performs ops).bucket round = ⟨[], []⟩ := by
  induction ops generalizing p with
  | nil => exact .inl rfl
  | cons op ops ih =>
    rcases ih (p.perform op) (fun info hmem => hops info (List.mem_cons_of_mem _ hmem)) with h | h
    · rcases p.bucket_perform (fun info hop => hops info (hop ▸ List.mem_cons_self)) round with hop | hop
      · exact .inl (h.trans hop)
      · exact .inr (h.trans hop)
    · exact .inr h

/-- What `ProcessRemoteTimeout` asks for: nothing of a timeout it drops, else to file it, and on f+1 senders to give up
on the round. -/
def remoteOps (faulty : Nat) (p : Pacemaker) (info : TimeoutInfo) : List Op :=
  if info.round < p.currentRound then []
  else if info.sender ∈ (p.bucket info.round).senders then []
  else .file info :: if ((p.file info).bucket info.round).senders.length = faulty + 1 then [.amplify] else []

theorem remoteOps_drop {p : Pacemaker} {info : TimeoutInfo}
    (h : info.round < p.currentRound ∨ info.sender ∈ (p.bucket info.round).senders) (faulty : Nat) :
    p.remoteOps faulty info = [] := by
  by_cases hlate : info.round < p.currentRound
  · rw [remoteOps, if_pos hlate]
  · rw [remoteOps, if_neg hlate, if_pos (h.resolve_left hlate)]

theorem remoteOps_file {p : Pacemaker} {info : TimeoutInfo} (hlate : ¬ info.round < p.currentRound)
    (hnew : info.sender ∉ (p.bucket info.round).senders) (faulty : Nat) :
    p.remoteOps faulty info =
      .file info :: if ((p.file info).bucket info.round).senders.length = faulty + 1 then [.amplify] else [] := by
  rw [remoteOps, if_neg hlate, if_neg hnew]

theorem processRemoteTimeout_performs {v : Verifier} {env : Env} {id : UInt32} {faulty : Nat} {t : BlockTree}
    {p p' : Pacemaker} {s s' : Safety} {m : TimeoutMsg} {out : Option TimeoutMsg} {tc : Option TimeoutCert}
    (h : p.processRemoteTimeout v env id faulty t s m = (p', s', out, tc)) :
    p' = p.performs (p.remoteOps faulty m.tmoInfo) := by
  obtain rfl : (p.processRemoteTimeout v env id faulty t s m).1 = p' := by rw [h]
  unfold processRemoteTimeout remoteOps
  by_cases hlate : m.tmoInfo.round < p.currentRound
  · simp only [if_pos hlate]
    rfl
  by_cases hseen : m.tmoInfo.sender ∈ (p.bucket m.tmoInfo.round).senders
  · simp only [if_neg hlate, if_pos hseen]
    rfl
  simp only [if_neg hlate, if_neg hseen]
  by_cases hf : ((p.file m.tmoInfo).bucket m.tmoInfo.round).senders.length = faulty + 1
  · simp only [if_pos hf]
    split <;> rfl
  · simp only [if_neg hf]
    split <;> rfl

end Pacemaker

namespace Core

open Pacemaker (Op)

section

variable (cr : Crypto) (cfg : Config) (env : Env)

/-- What the certificates of a message ask for, in the order they are processed. -/
def certificateOps (qc highCommitQc : Option QuorumCert) (tc : Option TimeoutCert) : List Op :=
  qc.toList.map .advanceRoundQC ++ highCommitQc.toList.map .advanceRoundQC ++ tc.toList.map .advanceRoundTC

/-- **What a step asks of the pacemaker**, in order. -/
def ops (c : Core) : Event → List Op
  | .proposal p => certificateOps (p.block.getD default).qc p.highCommitQc p.lastRoundTc
  | .vote m =>
    if c.pacemaker.currentRound + maxRoundLead < m.voteInfo.round ∨ m.voteInfo.round + 1 < c.pacemaker.currentRound then
      []
    else match BlockTree.processVote cr cfg.history env cfg.id cfg.quorum c.ledger c.tree m with
      | .error _          => []
      | .ok (_, _, _, qc) => qc.toList.map .advanceRoundQC
  | .timeout m =>
    certificateOps m.tmoInfo.highQc m.highCommitQc m.lastRoundTc ++
      match processCertificates cr cfg env c m.tmoInfo.highQc m.highCommitQc m.lastRoundTc with
      | .error _   => []
      | .ok (c, _) =>
        let r := c.pacemaker.processRemoteTimeout (verifier cr cfg) env cfg.id cfg.faulty c.tree c.safety m
        c.pacemaker.remoteOps cfg.faulty m.tmoInfo ++ r.2.2.2.toList.map .advanceRoundTC
  | .localTimeout epoch => if epoch = c.pacemaker.epoch then [.localTimeoutRound] else []
  | .block _            => []
  | .blockRequest _     => []

end

variable {cr : Crypto} {cfg : Config} {env : Env}

theorem processCertificateQC_performs {c c' : Core} {qc : Option QuorumCert} {moved : Bool} {eff : List Effect}
    (h : processCertificateQC cr cfg env c qc = .ok ((c', moved), eff)) :
    c'.pacemaker = c.pacemaker.performs (qc.toList.map .advanceRoundQC) := by
  cases qc with
  | none => cases h; rfl
  | some q =>
    obtain ⟨l, t, bs, e, -, -, rfl, -, -⟩ := processCertificateQC_ok h
    rfl

theorem processCertificates_performs {c c' : Core} {qc highCommitQc : Option QuorumCert} {tc : Option TimeoutCert}
    {eff : List Effect} (h : processCertificates cr cfg env c qc highCommitQc tc = .ok (c', eff)) :
    c'.pacemaker = c.pacemaker.performs (certificateOps qc highCommitQc tc) := by
  obtain ⟨c₁, _, eff₁, c₂, _, eff₂, h₁, h₂, rfl, -⟩ := processCertificates_ok h
  rw [certificateOps, Pacemaker.performs_append, Pacemaker.performs_append, ← processCertificateQC_performs h₁,
    ← processCertificateQC_performs h₂]
  cases tc <;> rfl

/-- Outside, certificates only commit. -/
theorem processCertificateQC_eff {c c' : Core} {qc : Option QuorumCert} {moved : Bool} {eff : List Effect}
    (h : processCertificateQC cr cfg env c qc = .ok ((c', moved), eff)) :
    ∃ bs : List Block, eff = bs.map Effect.onCommit := by
  cases qc with
  | none =>
    cases h
    exact ⟨[], rfl⟩
  | some q =>
    obtain ⟨l, t, bs, e, -, -, -, -, rfl⟩ := processCertificateQC_ok h
    exact ⟨bs, rfl⟩

theorem processCertificates_eff {c c' : Core} {qc highCommitQc : Option QuorumCert} {tc : Option TimeoutCert}
    {eff : List Effect} (h : processCertificates cr cfg env c qc highCommitQc tc = .ok (c', eff)) :
    ∃ bs : List Block, eff = bs.map Effect.onCommit := by
  obtain ⟨c₁, _, eff₁, c₂, _, eff₂, h₁, h₂, -, rfl⟩ := processCertificates_ok h
  obtain ⟨bs₁, rfl⟩ := processCertificateQC_eff h₁
  obtain ⟨bs₂, rfl⟩ := processCertificateQC_eff h₂
  exact ⟨bs₁ ++ bs₂, List.map_append.symm⟩

theorem processQC_sub_votes {history fuel : Nat} {l l' : MemLedger} {t t' : BlockTree} {qc : Option QuorumCert}
    {bs : List Block} (h : BlockTree.processQC history fuel l t qc = .ok (l', t', bs)) :
    Table.Sub t'.votes t.votes := by
  cases qc with
  | none => cases h; exact Table.Sub.refl _
  | some q =>
    rcases (BlockTree.processQC_ok h).2 with ⟨-, -, rfl⟩ | ⟨-, -, -, rfl⟩
    · exact Table.sub_filter _ _
    · exact Table.Sub.refl _

theorem processVote_of_accumulate {l l' : MemLedger} {t t' t'' : BlockTree} {m : VoteMsg} {bs : List Block}
    {qc : Option QuorumCert} (hp : BlockTree.processQC cfg.history env.fuel l t m.highCommitQc = .ok (l', t', bs))
    (hacc : t'.accumulate cr env cfg.id cfg.quorum m = (t'', qc)) :
    BlockTree.processVote cr cfg.history env cfg.id cfg.quorum l t m = .ok (l', t'', bs, qc) := by
  simp only [BlockTree.processVote, hp, hacc]

theorem file_not_mem_certificateOps (qc highCommitQc : Option QuorumCert) (tc : Option TimeoutCert)
    (info : TimeoutInfo) : .file info ∉ certificateOps qc highCommitQc tc := by
  simp [certificateOps]

/-- Only a timeout files anything. -/
theorem file_not_mem_ops {c : Core} {e : Event} (he : ∀ m, e ≠ .timeout m) (info : TimeoutInfo) :
    .file info ∉ c.ops cr cfg env e := by
  intro hinfo
  cases e with
  | proposal p => exact file_not_mem_certificateOps _ _ _ info hinfo
  | vote m =>
    simp only [ops] at hinfo
    split at hinfo
    · cases hinfo
    · split at hinfo <;> simp at hinfo
  | timeout m => exact he m rfl
  | localTimeout epoch =>
    simp only [ops] at hinfo
    split at hinfo <;> simp at hinfo
  | block b => cases hinfo
  | blockRequest id => cases hinfo

/-- **A vote, taken apart**: out of the window; counted; or the last of a certificate, which is then processed. -/
theorem processVoteMsg_ok {c c' : Core} {m : VoteMsg} {eff : List Effect}
    (h : processVoteMsg cr cfg env c m = .ok (c', eff)) :
    (¬ InWindow c m ∧ c' = c ∧ eff = []) ∨
    (InWindow c m ∧ ∃ l t bs, BlockTree.processQC cfg.history env.fuel c.ledger c.tree m.highCommitQc = .ok (l, t, bs) ∧
      ((∃ t', t.accumulate cr env cfg.id cfg.quorum m = (t', none) ∧ c' = { c with ledger := l, tree := t' } ∧
          eff = bs.map Effect.onCommit) ∨
        ∃ t' q moved eff', t.accumulate cr env cfg.id cfg.quorum m = (t', some q) ∧
          processCertificateQC cr cfg env { c with ledger := l, tree := t' } (some q) = .ok ((c', moved), eff') ∧
          eff = bs.map Effect.onCommit ++ [.assembled q] ++
            (if moved then eff' ++ processNewRoundEvent cr cfg env c' none else eff'))) := by
  rw [processVoteMsg] at h
  split at h
  · rename_i hwin
    cases h
    exact .inl ⟨fun hin => hin hwin, rfl, rfl⟩
  rename_i hwin
  refine .inr ⟨hwin, ?_⟩
  rw [BlockTree.processVote] at h
  split at h
  · cases h
  rename_i l t bs qc hv
  split at hv
  · cases hv
  rename_i l₀ t₀ bs₀ hp
  cases hv
  refine ⟨l, t₀, bs, hp, ?_⟩
  split at h
  · rename_i hnone
    cases h
    exact .inl ⟨_, Prod.ext rfl hnone, rfl, rfl⟩
  · rename_i q hsome
    obtain ⟨eff₁, h₁, rfl⟩ := after_ok h
    split at h₁
    · cases h₁
    · rename_i c₂ moved eff₂ h₂
      cases h₁
      exact .inr ⟨_, q, moved, eff₂, Prod.ext rfl hsome, h₂, rfl⟩

/-- **A timeout, taken apart**: its certificates, then the timeout itself, then the TC it may complete, which is of the
current round or later. -/
theorem processTimeoutMsg_ok {c c' : Core} {m : TimeoutMsg} {eff : List Effect}
    (h : processTimeoutMsg cr cfg env c m = .ok (c', eff)) :
    ∃ c₁ eff₁ p s out tc,
      processCertificates cr cfg env c m.tmoInfo.highQc m.highCommitQc m.lastRoundTc = .ok (c₁, eff₁) ∧
      c₁.pacemaker.processRemoteTimeout (verifier cr cfg) env cfg.id cfg.faulty c₁.tree c₁.safety m = (p, s, out, tc) ∧
      ((tc = none ∧ c' = { c₁ with pacemaker := p, safety := s } ∧ eff = eff₁ ++ out.toList.map Effect.timeout) ∨
        ∃ t, tc = some t ∧ t.round = m.tmoInfo.round ∧ p.currentRound ≤ t.round ∧
          c' = { c₁ with pacemaker := (p.advanceRoundTC (some t)).1, safety := s } ∧
          eff = eff₁ ++ out.toList.map Effect.timeout ++ processNewRoundEvent cr cfg env c' (some t)) := by
  rw [processTimeoutMsg] at h
  split at h
  · cases h
  rename_i c₁ eff₁ h₁
  generalize hr : c₁.pacemaker.processRemoteTimeout (verifier cr cfg) env cfg.id cfg.faulty c₁.tree c₁.safety m = r at h
  obtain ⟨p, s, out, tc⟩ := r
  refine ⟨c₁, eff₁, p, s, out, tc, h₁, hr, ?_⟩
  cases tc with
  | none =>
    cases h
    exact .inl ⟨rfl, rfl, rfl⟩
  | some t =>
    cases h
    rcases Pacemaker.processRemoteTimeout_cases hr with ⟨-, -, -, ht⟩ | ⟨-, -, ht⟩
    · cases ht
    · obtain ⟨rfl, -, hle⟩ := ht t rfl
      exact .inr ⟨_, rfl, rfl, hle, rfl, rfl⟩

/-- **A proposal, taken apart**: its certificates, and then nothing; or its block is of the current round and its
leader's, and is inserted and voted on. -/
theorem processProposalMsg_cases {c c' : Core} {p : ProposalMsg} {eff : List Effect}
    (h : processProposalMsg cr cfg env c p = .ok (c', eff)) :
    ∃ c₁ eff₁, processCertificates cr cfg env c (p.block.getD default).qc p.highCommitQc p.lastRoundTc =
    .ok (c₁, eff₁) ∧
      ((((p.block.getD default).round ≠ c₁.pacemaker.currentRound ∨
          p.sender ≠ c₁.leaders.getLeader c₁.pacemaker.currentRound ∨
          (p.block.getD default).author ≠ c₁.leaders.getLeader c₁.pacemaker.currentRound) ∧ c' = c₁ ∧ eff = eff₁) ∨
        ((p.block.getD default).round = c₁.pacemaker.currentRound ∧
          p.sender = c₁.leaders.getLeader c₁.pacemaker.currentRound ∧
          (p.block.getD default).author = c₁.leaders.getLeader c₁.pacemaker.currentRound ∧
          ∃ c₂ eff₂, insert cfg env c₁ (p.block.getD default) = .ok (c₂, eff₂) ∧
            c' = { c₂ with safety := (c₂.safety.makeVote (verifier cr cfg) env cfg.id c₂.ledger c₂.tree
              (p.block.getD default) p.lastRoundTc).1 } ∧
            eff = eff₁ ++ (eff₂ ++ (c₂.safety.makeVote (verifier cr cfg) env cfg.id c₂.ledger c₂.tree
              (p.block.getD default) p.lastRoundTc).2.toList.map
                (fun vote => .vote vote (c₂.leaders.getLeader (c₁.pacemaker.currentRound + 1)))))) := by
  rw [processProposalMsg] at h
  split at h
  · cases h
  rename_i c₁ eff₁ h₁
  refine ⟨c₁, eff₁, h₁, ?_⟩
  dsimp only at h
  split at h
  · rename_i hother
    cases h
    exact .inl ⟨hother, rfl, rfl⟩
  · rename_i hleader
    simp only [not_or, not_not] at hleader
    obtain ⟨eff₂, h₂, rfl⟩ := after_ok h
    refine .inr ⟨hleader.1, hleader.2.1, hleader.2.2, ?_⟩
    rw [voteOn] at h₂
    split at h₂
    · cases h₂
    · rename_i c₃ eff₃ h₃
      cases h₂
      exact ⟨c₃, eff₃, h₃, rfl, rfl⟩

/-- A proposal moves the pacemaker, and touches the votes, by its certificates alone. -/
theorem processProposalMsg_ok {c c' : Core} {p : ProposalMsg} {eff : List Effect}
    (h : processProposalMsg cr cfg env c p = .ok (c', eff)) :
    ∃ c₁ eff₁ eff₂, processCertificates cr cfg env c (p.block.getD default).qc p.highCommitQc p.lastRoundTc =
        .ok (c₁, eff₁) ∧ c'.pacemaker = c₁.pacemaker ∧ c'.tree.votes = c₁.tree.votes ∧ eff = eff₁ ++ eff₂ ∧
      ∀ x ∈ eff₂, (∃ id, x = .requestBlock id) ∨ ∃ v dest, x = .vote v dest := by
  obtain ⟨c₁, eff₁, h₁, ⟨-, rfl, rfl⟩ | ⟨-, -, -, c₂, eff₂, hins, rfl, rfl⟩⟩ := processProposalMsg_cases h
  · exact ⟨c', eff, [], h₁, rfl, rfl, (List.append_nil _).symm, fun x hx => by cases hx⟩
  · obtain ⟨rfl, hreq⟩ := insert_ok hins
    refine ⟨c₁, eff₁, _, h₁, rfl, rfl, rfl, fun x hx => ?_⟩
    rcases List.mem_append.1 hx with hx | hx
    · rcases hreq with rfl | ⟨id, rfl⟩
      · cases hx
      · exact .inl ⟨id, List.mem_singleton.1 hx⟩
    · obtain ⟨v, -, rfl⟩ := List.mem_map.1 hx
      exact .inr ⟨v, _, rfl⟩

/-- **A step moves the pacemaker by its operations.** -/
theorem step_performs {c c' : Core} {e : Event} {eff : List Effect} (h : c.step cr cfg env e = .ok (c', eff)) :
    c'.pacemaker = c.pacemaker.performs (c.ops cr cfg env e) := by
  cases e with
  | proposal p =>
    obtain ⟨c₁, eff₁, eff₂, h₁, hp, -⟩ := processProposalMsg_ok h
    exact hp.trans (processCertificates_performs h₁)
  | vote m =>
    rcases processVoteMsg_ok h with ⟨hwin, rfl, -⟩ | ⟨hwin, l, t, bs, hp, hend⟩
    · rw [ops, if_pos (not_not.1 hwin)]
      rfl
    · rw [ops, if_neg hwin]
      rcases hend with ⟨t', hacc, rfl, -⟩ | ⟨t', q, moved, eff', hacc, hq, -⟩
      · rw [processVote_of_accumulate hp hacc]
        rfl
      · rw [processVote_of_accumulate hp hacc]
        exact (processCertificateQC_performs hq :)
  | timeout m =>
    obtain ⟨c₁, eff₁, p, s, out, tc, h₁, h₂, hend⟩ := processTimeoutMsg_ok h
    simp only [ops, h₁, h₂, Pacemaker.performs_append]
    rw [← processCertificates_performs h₁, ← Pacemaker.processRemoteTimeout_performs h₂]
    rcases hend with ⟨rfl, rfl, -⟩ | ⟨t, rfl, -, -, rfl, -⟩
    · rfl
    · rfl
  | localTimeout epoch =>
    rw [step] at h
    rw [ops]
    split at h
    · rename_i he
      cases h
      rw [if_pos he]
      rfl
    · rename_i he
      cases h
      rw [if_neg he]
      rfl
  | block b =>
    obtain ⟨rfl, -⟩ := insert_ok h
    rfl
  | blockRequest id =>
    cases h
    rfl

end Core
end Diem

import Diem.Safety
/-!
# Pacemaker — rounds, timeouts and the round timer (`pacemaker.go`)

The armed timer is the epoch its callback captured; a firing only enqueues that epoch, so it is an event of the core and
not a step here.  The backoff policy sets durations and nothing else, and is left out.
-/
namespace Diem

structure TimeoutBucket where
  infos   : List TimeoutInfo
  senders : List UInt32
deriving DecidableEq

structure Pacemaker where
  currentRound    : UInt64
  lastRoundTC     : Option TimeoutCert
  pendingTimeouts : Table UInt64 TimeoutBucket
  timer           : Option UInt64
  epoch           : UInt64
deriving DecidableEq

def newPacemaker : Pacemaker := ⟨0, none, ∅, none, 0⟩

/-- Drops a TC the block's own certificate already justifies (`core.go`). -/
def justifyingTC (qcR round : UInt64) (tc : Option TimeoutCert) : Option TimeoutCert :=
  if qcR + 1 = round then none else tc

namespace Pacemaker

def stop (p : Pacemaker) : Pacemaker := { p with epoch := p.epoch + 1, timer := none }

def startTimer (p : Pacemaker) (newRound : UInt64) : Pacemaker :=
  let p := p.stop
  { p with
    currentRound    := newRound
    pendingTimeouts := p.pendingTimeouts.filter (fun r _ => !decide (r < newRound))
    timer           := some p.epoch }

/-- The timeout message a returned `TimeoutInfo` goes out in. -/
def timeoutMsg (t : BlockTree) (lastRoundTC : Option TimeoutCert) (info : TimeoutInfo) : TimeoutMsg where
  tmoInfo      := info
  lastRoundTc  := justifyingTC (qcRound info.highQc) info.round lastRoundTC
  highCommitQc := some t.highCommitQC

/-- The pacemaker, the counters, and the timeout broadcast, if Safety allowed one. -/
def localTimeoutRound (v : Verifier) (env : Env) (id : UInt32) (t : BlockTree) (p : Pacemaker) (s : Safety) :
    Pacemaker × Safety × Option TimeoutMsg :=
  let p := p.startTimer p.currentRound
  let r := s.makeTimeout v env id p.currentRound (some t.highQC) p.lastRoundTC
  (p, r.1, r.2.map (timeoutMsg t p.lastRoundTC))

/-- The certificate a full bucket makes: one vote a sender, in signer order. -/
def assembleTC (round : UInt64) (infos : List TimeoutInfo) : TimeoutCert where
  round := round
  votes := (infos.map (fun i => { highQcRound := qcRound i.highQc, sig := i.sig })).insertionSort
    (fun a b => a.sig.signer ≤ b.sig.signer)

def bucket (p : Pacemaker) (round : UInt64) : TimeoutBucket := (p.pendingTimeouts.lookup round).getD ⟨[], []⟩

/-- Adds a timeout to the bucket of its round. -/
def file (p : Pacemaker) (info : TimeoutInfo) : Pacemaker :=
  let b := p.bucket info.round
  { p with pendingTimeouts := p.pendingTimeouts.insert info.round ⟨b.infos ++ [info], info.sender :: b.senders⟩ }

/-- The pacemaker, the counters, the timeout broadcast on f+1 senders, and the certificate completed on a quorum. -/
def processRemoteTimeout (v : Verifier) (env : Env) (id : UInt32) (faulty : Nat) (t : BlockTree) (p : Pacemaker)
    (s : Safety) (tmo : TimeoutMsg) : Pacemaker × Safety × Option TimeoutMsg × Option TimeoutCert :=
  let info := tmo.tmoInfo
  if info.round < p.currentRound then (p, s, none, none)
  else if info.sender ∈ (p.bucket info.round).senders then (p, s, none, none)
  else
    let p := p.file info
    let b := p.bucket info.round
    -- separate tests: with n = 1 both thresholds are 1
    let r := if b.senders.length = faulty + 1 then localTimeoutRound v env id t p.stop s else (p, s, none)
    if b.senders.length ≠ v.quorum then (r.1, r.2.1, r.2.2, none)
    else (r.1, r.2.1, r.2.2, some (assembleTC info.round b.infos))

/-- Enters the round after the TC's, and reports whether the round moved. -/
def advanceRoundTC (p : Pacemaker) : Option TimeoutCert → Pacemaker × Bool
  | none    => (p, false)
  | some tc =>
    if tc.round < p.currentRound then (p, false)
    else ({ p with lastRoundTC := some tc }.startTimer (tc.round + 1), true)

/-- Enters the round after the certificate's; it alone justifies the entry, so the TC is cleared. -/
def advanceRoundQC (p : Pacemaker) (qc : Option QuorumCert) : Pacemaker × Bool :=
  if qcRound qc < p.currentRound then (p, false)
  else ({ p with lastRoundTC := none }.startTimer (qcRound qc + 1), true)

theorem bucket_file (p : Pacemaker) (info : TimeoutInfo) (round : UInt64) :
    (p.file info).bucket round =
      if round = info.round then ⟨(p.bucket round).infos ++ [info], info.sender :: (p.bucket round).senders⟩
      else p.bucket round := by
  by_cases h : round = info.round
  · subst h
    rw [if_pos rfl]
    simp only [bucket, file, AList.lookup_insert, Option.getD_some]
  · rw [if_neg h]
    simp only [bucket, file, AList.lookup_insert_ne h]

/-- A new round keeps the buckets of the rounds it may still leave on a TC. -/
theorem bucket_startTimer (p : Pacemaker) (newRound round : UInt64) :
    (p.startTimer newRound).bucket round = if round < newRound then ⟨[], []⟩ else p.bucket round := by
  simp only [bucket, startTimer, stop, Table.lookup_filter]
  by_cases h : round < newRound
  · cases p.pendingTimeouts.lookup round <;> simp [h]
  · cases p.pendingTimeouts.lookup round <;> simp [h, Option.filter]

/-- A timeout that is late, or of a sender that was heard, is dropped. -/
theorem processRemoteTimeout_drop {p : Pacemaker} {m : TimeoutMsg}
    (h : m.tmoInfo.round < p.currentRound ∨ m.tmoInfo.sender ∈ (p.bucket m.tmoInfo.round).senders)
    (v : Verifier) (env : Env) (id : UInt32) (f : Nat) (t : BlockTree) (s : Safety) :
    p.processRemoteTimeout v env id f t s m = (p, s, none, none) := by
  by_cases hlate : m.tmoInfo.round < p.currentRound
  · simp only [processRemoteTimeout, if_pos hlate]
  · simp only [processRemoteTimeout, if_neg hlate, if_pos (h.resolve_left hlate)]

/-- Any other is filed; f+1 senders are answered by one's own timeout, and a quorum makes a certificate. -/
theorem processRemoteTimeout_file {p : Pacemaker} {m : TimeoutMsg} (hlate : ¬ m.tmoInfo.round < p.currentRound)
    (hnew : m.tmoInfo.sender ∉ (p.bucket m.tmoInfo.round).senders) (v : Verifier) (env : Env) (id : UInt32) (f : Nat)
    (t : BlockTree) (s : Safety) :
    p.processRemoteTimeout v env id f t s m =
      let b := (p.file m.tmoInfo).bucket m.tmoInfo.round
      let r := if b.senders.length = f + 1 then localTimeoutRound v env id t (p.file m.tmoInfo).stop s
        else (p.file m.tmoInfo, s, none)
      (r.1, r.2.1, r.2.2, if b.senders.length = v.quorum then some (assembleTC m.tmoInfo.round b.infos) else none) := by
  simp only [processRemoteTimeout, if_neg hlate, if_neg hnew]
  by_cases hq : ((p.file m.tmoInfo).bucket m.tmoInfo.round).senders.length = v.quorum
  · rw [if_neg (not_not.2 hq), if_pos hq]
  · rw [if_pos hq, if_neg hq]

/-- **A timeout received**: dropped, or filed; on f+1 senders answered by one's own, which keeps round and bucket; and
on a quorum a certificate of the bucket. -/
theorem processRemoteTimeout_cases {v : Verifier} {env : Env} {id : UInt32} {f : Nat} {t : BlockTree} {p p' : Pacemaker}
    {s s' : Safety} {m : TimeoutMsg} {out : Option TimeoutMsg} {tc : Option TimeoutCert}
    (h : p.processRemoteTimeout v env id f t s m = (p', s', out, tc)) :
    (p' = p ∧ s' = s ∧ out = none ∧ tc = none) ∨
    (m.tmoInfo.sender ∉ (p.bucket m.tmoInfo.round).senders ∧
      ((p', s', out) = (p.file m.tmoInfo, s, none) ∨
        (p', s', out) = localTimeoutRound v env id t (p.file m.tmoInfo).stop s) ∧
      ∀ t, tc = some t → t = assembleTC m.tmoInfo.round (p'.bucket m.tmoInfo.round).infos ∧
        (p'.bucket m.tmoInfo.round).senders.length = v.quorum ∧ p'.currentRound ≤ m.tmoInfo.round) := by
  simp only [processRemoteTimeout] at h
  by_cases hlate : m.tmoInfo.round < p.currentRound
  · rw [if_pos hlate] at h
    cases h
    exact .inl ⟨rfl, rfl, rfl, rfl⟩
  rw [if_neg hlate] at h
  by_cases hseen : m.tmoInfo.sender ∈ (p.bucket m.tmoInfo.round).senders
  · rw [if_pos hseen] at h
    cases h
    exact .inl ⟨rfl, rfl, rfl, rfl⟩
  rw [if_neg hseen] at h
  refine .inr ⟨hseen, ?_⟩
  generalize hr : (if ((p.file m.tmoInfo).bucket m.tmoInfo.round).senders.length = f + 1 then
    localTimeoutRound v env id t (p.file m.tmoInfo).stop s else (p.file m.tmoInfo, s, none)) = r at h
  have hcases : r = (p.file m.tmoInfo, s, none) ∨ r = localTimeoutRound v env id t (p.file m.tmoInfo).stop s := by
    rw [← hr]
    split
    · exact .inr rfl
    · exact .inl rfl
  -- the amplified timeout restarts the timer of the same round, which keeps the bucket
  have hkeep : r.1.bucket m.tmoInfo.round = (p.file m.tmoInfo).bucket m.tmoInfo.round ∧
      r.1.currentRound = p.currentRound := by
    rcases hcases with rfl | rfl
    · exact ⟨rfl, rfl⟩
    · refine ⟨?_, rfl⟩
      exact (bucket_startTimer _ _ _).trans (if_neg hlate)
  split at h
  · cases h
    exact ⟨hcases, fun t ht => by cases ht⟩
  · rename_i hq
    cases h
    refine ⟨hcases, fun t ht => ?_⟩
    cases ht
    rw [hkeep.1, hkeep.2]
    exact ⟨rfl, not_not.1 hq, UInt64.not_lt.1 hlate⟩

/-! ## The certificate a full bucket makes -/

theorem mem_assembleTC {round : UInt64} {infos : List TimeoutInfo} {v : TimeoutVote}
    (h : v ∈ (assembleTC round infos).votes) : ∃ x ∈ infos, v = { highQcRound := qcRound x.highQc, sig := x.sig } := by
  obtain ⟨x, hx, rfl⟩ := List.mem_map.1 ((List.mem_insertionSort _).1 h)
  exact ⟨x, hx, rfl⟩

theorem length_assembleTC (round : UInt64) (infos : List TimeoutInfo) :
    (assembleTC round infos).votes.length = infos.length := by
  simp [assembleTC]

/-- Its signers are in order, each once, as the senders are. -/
theorem pairwise_assembleTC {round : UInt64} {infos : List TimeoutInfo} (hsigner : ∀ x ∈ infos, x.sig.signer = x.sender)
    (honce : (infos.map TimeoutInfo.sender).Nodup) :
    (assembleTC round infos).votes.Pairwise (fun a b => a.sig.signer < b.sig.signer) := by
  refine pairwise_lt_insertionSort (fun t : TimeoutVote => t.sig.signer) ?_
  have heq : infos.map ((fun t : TimeoutVote => t.sig.signer) ∘
      fun i => ({ highQcRound := qcRound i.highQc, sig := i.sig } : TimeoutVote)) = infos.map TimeoutInfo.sender :=
    List.map_congr_left hsigner
  rw [List.map_map, heq]
  exact honce

/-- **A quorum of verified timeouts of different senders makes a certificate that verifies.** -/
theorem verifyTC_assembleTC {v : Verifier} {round : UInt64} {infos : List TimeoutInfo} (hround : round ≠ 0)
    (hinfos : ∀ x ∈ infos, x.sig.signer = x.sender ∧
      verifySig v.crypto (timeoutDigest v.crypto round (qcRound x.highQc)) x.sig = true)
    (honce : (infos.map TimeoutInfo.sender).Nodup) (hlen : v.quorum ≤ infos.length) :
    v.verifyTC (some (assembleTC round infos)) = true := by
  refine (v.verifyTC_iff _).2 ⟨hround, pairwise_assembleTC (fun x hx => (hinfos x hx).1) honce, fun t ht => ?_, ?_⟩
  · obtain ⟨x, hx, rfl⟩ := mem_assembleTC ht
    exact (hinfos x hx).2
  · rwa [length_assembleTC]

theorem advanceRoundQC_eq (p : Pacemaker) (qc : QuorumCert) :
    p.advanceRoundQC (some qc) = if qc.voteInfo.round < p.currentRound then (p, false)
      else ({ p with lastRoundTC := none }.startTimer (qc.voteInfo.round + 1), true) := rfl

theorem advanceRoundTC_eq (p : Pacemaker) (tc : TimeoutCert) :
    p.advanceRoundTC (some tc) = if tc.round < p.currentRound then (p, false)
      else ({ p with lastRoundTC := some tc }.startTimer (tc.round + 1), true) := rfl

theorem currentRound_advanceRoundQC (p : Pacemaker) (qc : QuorumCert) :
    (p.advanceRoundQC (some qc)).1.currentRound =
      if qc.voteInfo.round < p.currentRound then p.currentRound else qc.voteInfo.round + 1 := by
  rw [advanceRoundQC_eq]
  split
  · rfl
  · rfl

theorem currentRound_advanceRoundTC (p : Pacemaker) (tc : TimeoutCert) :
    (p.advanceRoundTC (some tc)).1.currentRound =
      if tc.round < p.currentRound then p.currentRound else tc.round + 1 := by
  rw [advanceRoundTC_eq]
  split
  · rfl
  · rfl

end Pacemaker

end Diem

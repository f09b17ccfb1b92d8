import Diem.Calls
import Diem.Play
/-!
# Declined — a vote that is not cast

A later call goes by the two counters and by nothing else of the object, so a declined `MakeVote` that leaves them alone
might as well not have been made.  All but one of its exits come before the counters are raised.  The last comes after:
when `Sign` fails the round is spent, and with it the vote.
-/
namespace Diem
namespace Safety

/-- **The one exit behind the counters**: the block passes every check and was executed, and `Sign` fails on its vote.
-/
structure SignFails (v : Verifier) (env : Env) (l : MemLedger) (s : Safety) (b : Block) (lastTC : Option TimeoutCert) :
    Prop where
  blockID  : validBlockID v.crypto b = true
  certs    : validSignatures v b.qc lastTC = true
  safe     : s.safeToVote b.round (qcRound b.qc) lastTC = true
  unsigned : ∃ exec, l.pendingState b.id = some exec ∧ env.sign (ledgerCommitDigest v.crypto
    { commitStateId := commitStateIDCandidate l b.round b.qc
      voteInfoHash  := voteInfoHash v.crypto
        { id := b.id, round := b.round, parentId := parentID b, parentRound := qcRound b.qc, execStateId := exec } }) =
        none

/-- The counters of two objects agree. -/
structure Agrees (s s' : Safety) : Prop where
  vote : s.highestVoteRound = s'.highestVoteRound
  qc   : s.highestQCRound = s'.highestQCRound

variable {v : Verifier} {env : Env} {id : UInt32} {l : MemLedger} {t : BlockTree} {s s' : Safety} {b : Block}
  {lastTC : Option TimeoutCert}

/-! ## What a later call goes by -/

theorem makeVote_congr (v : Verifier) (env : Env) (id : UInt32) (l : MemLedger) (t : BlockTree) (b : Block)
    (lastTC : Option TimeoutCert) (h : Agrees s s') :
    (s.makeVote v env id l t b lastTC).2 = (s'.makeVote v env id l t b lastTC).2 ∧
      Agrees (s.makeVote v env id l t b lastTC).1 (s'.makeVote v env id l t b lastTC).1 := by
  have hsafe : s.safeToVote b.round (qcRound b.qc) lastTC = s'.safeToVote b.round (qcRound b.qc) lastTC := by
    rw [safeToVote, safeToVote, h.vote]
  unfold makeVote
  rw [hsafe]
  split
  · exact ⟨rfl, h⟩
  · split
    · exact ⟨rfl, h.vote, h.qc⟩
    · have hraised : Agrees ((s.updateHighestQCRound (qcRound b.qc)).increaseHighestVoteRound b.round)
          ((s'.updateHighestQCRound (qcRound b.qc)).increaseHighestVoteRound b.round) :=
        ⟨congrArg (max b.round) h.vote, congrArg (max (qcRound b.qc)) h.qc⟩
      dsimp only
      split
      · exact ⟨rfl, hraised⟩
      · exact ⟨rfl, hraised⟩

theorem makeTimeout_congr (v : Verifier) (env : Env) (id : UInt32) (round : UInt64) (highQC : Option QuorumCert)
    (lastTC : Option TimeoutCert) (h : Agrees s s') :
    (s.makeTimeout v env id round highQC lastTC).2 = (s'.makeTimeout v env id round highQC lastTC).2 ∧
      Agrees (s.makeTimeout v env id round highQC lastTC).1 (s'.makeTimeout v env id round highQC lastTC).1 := by
  have hsafe : s.safeToTimeout round (qcRound highQC) lastTC = s'.safeToTimeout round (qcRound highQC) lastTC := by
    rw [safeToTimeout, safeToTimeout, h.vote, h.qc]
  unfold makeTimeout
  rw [hsafe]
  split
  · exact ⟨rfl, h⟩
  · have hraised : Agrees (s.increaseHighestVoteRound round) (s'.increaseHighestVoteRound round) :=
      ⟨congrArg (max round) h.vote, h.qc⟩
    dsimp only
    split
    · exact ⟨rfl, hraised⟩
    · exact ⟨rfl, hraised⟩

theorem call_congr (v : Verifier) (id : UInt32) (c : Call) (h : Agrees s s') :
    (s.call v id c).2 = (s'.call v id c).2 ∧ Agrees (s.call v id c).1 (s'.call v id c).1 := by
  cases c with
  | makeVote env l t b lastTC =>
    obtain ⟨hanswer, hcounters⟩ := makeVote_congr v env id l t b lastTC h
    exact ⟨congrArg (Option.map (Signed.vote b lastTC)) hanswer, hcounters⟩
  | makeTimeout env round highQC lastTC =>
    obtain ⟨hanswer, hcounters⟩ := makeTimeout_congr v env id round highQC lastTC h
    exact ⟨congrArg (Option.map Signed.timeout) hanswer, hcounters⟩

/-- Objects whose counters agree stay so under the same calls. -/
theorem calls_congr (v : Verifier) (id : UInt32) (cs : List Call) (h : Agrees s s') :
    Agrees (s.calls v id cs).1 (s'.calls v id cs).1 := by
  induction cs generalizing s s' with
  | nil => exact h
  | cons c cs ih => exact ih (call_congr v id c h).2

/-! ## A call that declines -/

theorem sign_eq_none {d : Bytes} (h : sign env id d = none) : env.sign d = none :=
  Option.map_eq_none_iff.1 h

/-- **What a declined call leaves**: the counters as they were, or, when `Sign` failed, the block's round taken. -/
theorem makeVote_declined (h : (s.makeVote v env id l t b lastTC).2 = none) :
    (¬ SignFails v env l s b lastTC ∧ Agrees (s.makeVote v env id l t b lastTC).1 s) ∨
    (SignFails v env l s b lastTC ∧ s.highestVoteRound < b.round ∧
      b.round ≤ (s.makeVote v env id l t b lastTC).1.highestVoteRound) := by
  unfold makeVote at h ⊢
  split
  · rename_i hc
    refine .inl ⟨fun hf => ?_, rfl, rfl⟩
    rw [hf.blockID, hf.certs, hf.safe] at hc
    exact absurd hc (by decide)
  · rename_i hc
    rw [if_neg hc] at h
    simp only [Bool.not_eq_true, Bool.or_eq_false_iff, Bool.not_eq_false'] at hc
    obtain ⟨⟨hid, hsig⟩, hsafe⟩ := hc
    split
    · rename_i hexec
      refine .inl ⟨fun hf => ?_, rfl, rfl⟩
      obtain ⟨exec, hexec', -⟩ := hf.unsigned
      rw [hexec] at hexec'
      cases hexec'
    · rename_i exec hexec
      rw [hexec] at h
      dsimp only at h ⊢
      split
      · rename_i hsign
        refine .inr ⟨⟨hid, hsig, hsafe, exec, hexec, sign_eq_none hsign⟩, ((s.safeToVote_iff _ _ _).1 hsafe).1, ?_⟩
        show b.round ≤ max b.round s.highestVoteRound
        rw [UInt64.le_iff_toNat_le, UInt64.toNat_max]
        omega
      · rename_i hsign
        rw [hsign] at h
        cases h

/-- Where `Sign` fails, a `Sign` that works would have had a vote. -/
theorem SignFails.answers (h : SignFails v env l s b lastTC) (id : UInt32) (t : BlockTree) :
    ∃ m, (s.makeVote v { env with sign := some } id l t b lastTC).2 = some m := by
  obtain ⟨exec, hexec, -⟩ := h.unsigned
  unfold makeVote
  rw [h.blockID, h.certs, h.safe, hexec]
  exact ⟨_, rfl⟩

/-- **A declined vote burns nothing, unless `Sign` failed**: then, and only then, are the counters not what they were,
and there is a later call that is not answered as it would have been. -/
theorem declined_burns_nothing (v : Verifier) (env : Env) (id : UInt32) (l : MemLedger) (t : BlockTree) (s : Safety)
    (b : Block) (lastTC : Option TimeoutCert) (h : (s.makeVote v env id l t b lastTC).2 = none) :
    (((s.makeVote v env id l t b lastTC).1.highestVoteRound = s.highestVoteRound ∧
        (s.makeVote v env id l t b lastTC).1.highestQCRound = s.highestQCRound) ↔ ¬ SignFails v env l s b lastTC) ∧
    ((∀ cs c, (((s.makeVote v env id l t b lastTC).1.calls v id cs).1.call v id c).2 =
        ((s.calls v id cs).1.call v id c).2) ↔ ¬ SignFails v env l s b lastTC) := by
  rcases makeVote_declined h with ⟨hnot, hagrees⟩ | ⟨hfails, hlow, hhigh⟩
  · exact ⟨iff_of_true ⟨hagrees.vote, hagrees.qc⟩ hnot,
      iff_of_true (fun cs c => (call_congr v id c (calls_congr v id cs hagrees)).1) hnot⟩
  · refine ⟨iff_of_false (fun hsame => ?_) (fun hnot => hnot hfails),
      iff_of_false (fun hsame => ?_) (fun hnot => hnot hfails)⟩
    · rw [hsame.1] at hhigh
      exact UInt64.not_le.2 hlow hhigh
    · -- the same block again, and `Sign` works: voted for at first, refused now
      obtain ⟨m, hm⟩ := hfails.answers id t
      have hagain := hsame [] (.makeVote { env with sign := some } l t b lastTC)
      have hanswer : (s.call v id (.makeVote { env with sign := some } l t b lastTC)).2 = some (.vote b lastTC m) :=
        congrArg (Option.map (Signed.vote b lastTC)) hm
      have habove := ((call_spec v id _ _).2 _ (hagain.trans hanswer)).1
      have hround : m.voteInfo.round = b.round := by rw [((makeVote_spec _ _ _ _ _ _ _ _).2 m hm).info]
      have habove' : (s.makeVote v env id l t b lastTC).1.highestVoteRound < m.voteInfo.round := habove
      rw [hround] at habove'
      exact UInt64.not_le.2 habove' hhigh

end Safety

namespace Chain

/-- A ledger that executed the chain's first block. -/
def firstLedger : MemLedger := ((newMemLedger net.crypto).speculate (net.config 1).execute (block 1)).1

/-- The chain's environment, with a `Sign` that fails. -/
def muted : Env := { env with sign := fun _ => none }

/-- Asked by a caller to vote for the chain's first block. -/
def first (s : Safety) (env : Env) (l : MemLedger) : Safety × Option VoteMsg :=
  s.makeVote net.verifier env 1 l (newBlockTree net.crypto) (block 1) none

end Chain

/-- Block 1 declined before it is executed: later calls are answered as if it had never been asked for. -/
theorem unexecuted_burns_nothing :
    (Chain.first newSafety Chain.env (newMemLedger Chain.net.crypto)).2 = none ∧
    ∀ cs c, (((Chain.first newSafety Chain.env (newMemLedger Chain.net.crypto)).1.calls Chain.net.verifier 1 cs).1.call
        Chain.net.verifier 1 c).2 = ((newSafety.calls Chain.net.verifier 1 cs).1.call Chain.net.verifier 1 c).2 := by
  have h : (Chain.first newSafety Chain.env (newMemLedger Chain.net.crypto)).2 = none := by decide +kernel
  refine ⟨h, (Safety.declined_burns_nothing _ _ _ _ _ _ _ _ h).2.2 (fun hf => ?_)⟩
  have hexec : (newMemLedger Chain.net.crypto).pendingState (Chain.block 1).id = none := by decide +kernel
  obtain ⟨exec, hexec', -⟩ := hf.unsigned
  rw [hexec] at hexec'
  cases hexec'

/-- Block 1 declined because `Sign` failed: the round is spent.  Asked again, with a `Sign` that works, the object has
no vote, where one that was never asked has. -/
theorem failed_sign_burns_round :
    (Chain.first newSafety Chain.muted Chain.firstLedger).2 = none ∧
    newSafety.highestVoteRound = 0 ∧ (Chain.first newSafety Chain.muted Chain.firstLedger).1.highestVoteRound = 1 ∧
    (Chain.first (Chain.first newSafety Chain.muted Chain.firstLedger).1 Chain.env Chain.firstLedger).2 = none ∧
    (Chain.first newSafety Chain.env Chain.firstLedger).2 = some (Chain.vote 1 1 (Chain.cert 0)) := by
  decide +kernel

end Diem

import Diem.Invariant
import Diem.Play
/-!
# Messages — what an honest replica sends, every edge accepts

A vote and a timeout are checked twice: by Safety before it signs, and by the verifier of whoever receives them.  What
Safety does not check again is the commit certificate that rides along, which the tree's invariant vouches for, and the
length of the state ids, which is that of the VM's output.
-/
namespace Diem

/-- Every state id of the ledger is a full hash. -/
structure StatesInv (l : MemLedger) : Prop where
  pending : l.pending.Holds (fun _ s => s.state.len = hashLen)
  top     : l.commitState.len = hashLen

namespace StatesInv

variable {l l' : MemLedger}

theorem pendingState_len (h : StatesInv l) {id state : Bytes} (hs : l.pendingState id = some state) :
    state.len = hashLen := by
  unfold MemLedger.pendingState at hs
  split at hs
  · cases hs; exact h.top
  · obtain ⟨s, hlook, rfl⟩ := Option.map_eq_some_iff.1 hs
    exact h.pending id s hlook

theorem speculate (h : StatesInv l) {execute : Bytes → Payload → Bytes}
    (hexec : ∀ prev payload, (execute prev payload).len = hashLen) (b : Block) :
    StatesInv (l.speculate execute b).1 := by
  refine MemLedger.speculateFuel_induct (I := StatesInv) (Q := fun _ => True) ?_ ?_ ?_ ?_ _ l b h trivial
  · intro l b hl _
    exact ⟨hl.pending, hl.top⟩
  · intro l b prev hl _ _
    exact ⟨Table.holds_insert hl.pending (hexec prev b.payload), hl.top⟩
  · intro l k hl
    exact ⟨hl.pending, hl.top⟩
  · intro _ _ _ _ _
    trivial

theorem commit (h : StatesInv l) {history fuel : Nat} {id : Bytes} {bs : List Block}
    (hc : l.commit history fuel id = .ok (l', bs)) : StatesInv l' := by
  rcases MemLedger.commit_ok hc with ⟨rfl, rfl⟩ | ⟨chain, hr, rfl, rfl⟩
  · exact h
  · refine ⟨(MemLedger.commit_tables history l chain).1.holds h.pending, ?_⟩
    cases hr with
    | nil => exact h.top
    | @snoc chain id s _ hs =>
      rw [(MemLedger.commit_top history l chain s).2]
      exact h.pending id s hs

theorem processQC (h : StatesInv l) {history fuel : Nat} {t t' : BlockTree} {qc : QuorumCert} {bs : List Block}
    (hp : BlockTree.processQC history fuel l t (some qc) = .ok (l', t', bs)) : StatesInv l' := by
  obtain ⟨-, ⟨-, hcommit, -⟩ | ⟨-, rfl, -⟩⟩ := BlockTree.processQC_ok hp
  · exact h.commit hcommit
  · exact h

theorem commitStateIDCandidate_len (h : StatesInv l) (round : UInt64) (qc : Option QuorumCert) :
    (commitStateIDCandidate l round qc).len = hashLen := by
  unfold commitStateIDCandidate
  split
  · rfl
  · cases hs : l.pendingState (certifiedID qc) with
    | none => rfl
    | some state => exact h.pendingState_len hs

end StatesInv

/-- What the edge of another replica says to a message. -/
def Sendable (G : Group) (x : Effect) : Prop :=
  (∀ m, x = .timeout m → G.verifier.verifyTimeout m = true) ∧ ∀ v d, x = .vote v d → G.verifier.verifyVote v = true

theorem sendable_outside {G : Group} {x : Effect} (h : (∀ v d, x ≠ .vote v d) ∧ ∀ m, x ≠ .timeout m) :
    Sendable G x := ⟨fun m hm => absurd hm (h.2 m), fun v d hv => absurd hv (h.1 v d)⟩

section Send

variable {N : Net} {i : UInt32} {env : Env} {tr : List Effect} {c : Core} {Q : Block → Prop}

theorem sendable_vote {p : ProposalMsg} {b : Block} {v : VoteMsg} {s' : Safety} {d : UInt32}
    (h : CoreInv N.toGroup Q tr c) (hs : StatesInv c.ledger) (he : N.Admits (.proposal p)) (hb : p.block = some b)
    (hv : Safety.Voted N.verifier env i c.ledger c.tree c.safety s' b p.lastRoundTc v) (hok : N.Legit i (.vote v d)) :
    N.verifier.verifyVote v = true := by
  obtain ⟨hblock, hqc, -⟩ := he.proposed hb
  refine (N.verifier.verifyVote_iff v).2 ⟨hv.sender.2.trans hv.sender.1.symm, ?_, ?_, ?_, ?_⟩
  · rw [validVote_iff, hv.commit]
    refine ⟨?_, ?_, hs.pendingState_len hv.exec, hs.commitStateIDCandidate_len _ _, N.crypto.sha256_len _⟩
    · rw [hv.info]; exact hblock.id_len
    · rw [hv.info]
      change (parentID b).len = hashLen
      rw [parentID_eq]
      exact hqc.certifiedID_len
  · rw [hv.commit]
  · rw [verifySig, hv.sender.2]
    exact (hok _ _ rfl).1
  · rw [hv.highest]
    exact h.tree.highCommitQC.1

theorem sendable_timeout {info : TimeoutInfo} {s' : Safety} (h : CoreInv N.toGroup Q tr c)
    (ht : Safety.TimedOut N.verifier env i c.safety s' c.pacemaker.currentRound (some c.tree.highQC)
      c.pacemaker.lastRoundTC info)
    (hok : N.Legit i (.timeout (Pacemaker.timeoutMsg c.tree c.pacemaker.lastRoundTC info))) :
    N.verifier.verifyTimeout (Pacemaker.timeoutMsg c.tree c.pacemaker.lastRoundTC info) = true := by
  obtain ⟨-, -, hbelow, hwhy⟩ := (Safety.safeToTimeout_iff _ _ _ _).1 ht.safe
  have hne : c.pacemaker.currentRound ≠ 0 := fun h0 => absurd hbelow (by rw [h0]; simp)
  have hjust : N.verifier.verifyTC (justifyingTC c.tree.highQC.voteInfo.round c.pacemaker.currentRound
      c.pacemaker.lastRoundTC) = true := by
    unfold justifyingTC
    split
    · rfl
    · exact ht.tc
  refine (N.verifier.verifyTimeout_iff _).2 ⟨?_, ht.sender.2.trans ht.sender.1.symm, ?_, ?_, h.tree.highCommitQC.1, ?_⟩
  · -- the TC goes along exactly when the certificate alone does not explain the round
    simp only [wellFormedTimeout, Pacemaker.timeoutMsg, ht.info.1, ht.info.2, Option.isSome_some, Bool.true_and]
    refine (wellFormed_iff _ _ _).2 ⟨hne, ?_⟩
    unfold justifyingTC
    by_cases hnext : qcRound (some c.tree.highQC) + 1 = c.pacemaker.currentRound
    · exact .inl ⟨hnext, if_pos hnext⟩
    · rw [if_neg hnext]
      exact .inr ⟨hnext, hwhy.resolve_left hnext⟩
  · simp only [Pacemaker.timeoutMsg]
    rw [verifySig, ht.sender.2]
    exact (hok _ _ rfl).1
  · simp only [Pacemaker.timeoutMsg, ht.info.2]
    exact ht.certified
  · simp only [Pacemaker.timeoutMsg, ht.info.1, ht.info.2]
    exact hjust

end Send

/-- **One micro step sends only what every replica accepts.** -/
theorem sendable_micro {N : Net} {Q : Block → Prop} {i : UInt32} {env : Env} {c₀ : Core} {e : Event}
    {tr eff : List Effect} {c c' : Core} (he : N.Admits e) (h : CoreInv N.toGroup Q tr c) (hs : StatesInv c.ledger)
    (hexec : ∀ i prev payload, ((N.config i).execute prev payload).len = hashLen)
    (hm : N.Micro i env c₀ e c eff c') (hok : ∀ x ∈ eff, N.Legit i x) :
    StatesInv c'.ledger ∧ ∀ x ∈ eff, Sendable N.toGroup x := by
  cases hm with
  | cert _ qc _ moved _ hsrc hp =>
    obtain ⟨l, t, bs, le, hq, -, rfl, -, rfl⟩ := Core.processCertificateQC_ok hp
    exact ⟨hs.processQC hq, fun x hx => sendable_outside (Net.outside_onCommit hx)⟩
  | tc _ t hsrc => exact ⟨hs, by simp⟩
  | insert _ b _ _ hsrc hp =>
    obtain ⟨rfl, rfl | ⟨id, rfl⟩⟩ := Core.insert_ok hp
    · exact ⟨hs.speculate (hexec i) b, by simp⟩
    · exact ⟨hs.speculate (hexec i) b, by simp [Sendable]⟩
  | vote _ p b dest hp hb hround hqc =>
    subst hp
    refine ⟨hs, fun x hx => ?_⟩
    obtain ⟨v, hv, rfl⟩ := List.mem_map.1 hx
    have hvoted := (c.safety.makeVote_spec N.verifier env i c.ledger c.tree b p.lastRoundTc).2 v
      (Option.mem_toList.1 hv)
    refine ⟨fun m hm => (by cases hm), fun v' d hv' => ?_⟩
    cases hv'
    exact sendable_vote h hs he hb hvoted (hok _ hx)
  | stop => exact ⟨hs, by simp⟩
  | timeout =>
    refine ⟨hs, fun x hx => ?_⟩
    have hx' := hx
    simp only [Core.localTimeoutRound, Pacemaker.localTimeoutRound, N.verifier_eq, N.id_eq] at hx
    obtain ⟨m, hm, rfl⟩ := List.mem_map.1 hx
    obtain ⟨info, hinfo, rfl⟩ := Option.map_eq_some_iff.1 (Option.mem_toList.1 hm)
    have ht := (c.safety.makeTimeout_spec N.verifier env i c.pacemaker.currentRound (some c.tree.highQC)
      c.pacemaker.lastRoundTC).2 info hinfo
    refine ⟨fun m hm => ?_, fun v d hv => (by cases hv)⟩
    cases hm
    exact sendable_timeout h ht (hok _ hx')
  | note _ m hm hnew => exact ⟨hs, by simp⟩
  | complete _ m tc _ hm htc hlen hround hc' =>
    subst hc'
    exact ⟨hs, fun x hx => sendable_outside (Net.outside_propose hx)⟩
  | voteQC m qc l t bs hm hqc hwin hp =>
    exact ⟨hs.processQC hp, fun x hx => sendable_outside (Net.outside_onCommit hx)⟩
  | gather _ m hm hnone => exact ⟨hs, by simp⟩
  | aggregate _ m qc _ moved eff' hm hwin hqc hp =>
    obtain ⟨l, t, bs, le, hq, -, rfl, -, rfl⟩ := Core.processCertificateQC_ok hp
    refine ⟨hs.processQC hq, fun x hx => sendable_outside ?_⟩
    rcases List.mem_cons.1 hx with rfl | hx
    · exact ⟨fun v d h => (by cases h), fun m h => (by cases h)⟩
    · split at hx
      · rcases List.mem_append.1 hx with hx | hx
        · exact Net.outside_onCommit hx
        · exact Net.outside_propose hx
      · exact Net.outside_onCommit hx
  | reply _ b => exact ⟨hs, by simp [Sendable]⟩

/-- **Every timeout and every vote an honest replica sends is accepted by every replica of the group.** -/
theorem sent_acceptable {N : Net} {σ : Sys} (h : N.Reached Net.AnyEvent σ)
    (hexec : ∀ i prev payload, ((N.config i).execute prev payload).len = hashLen) {i : UInt32} {x : Effect}
    (hx : (i, x) ∈ σ.trace) :
    (∀ m, x = .timeout m → N.verifier.verifyTimeout m = true) ∧
      ∀ v dest, x = .vote v dest → N.verifier.verifyVote v = true := by
  obtain ⟨log, hb⟩ := h.ballots
  have hinv := Net.Run.invariant
    (J := fun _ tr c => CoreInv N.toGroup N.IsBlock tr c ∧ StatesInv c.ledger ∧ ∀ x ∈ tr, Sendable N.toGroup x)
    (K := fun _ tr => ∀ x ∈ tr, Sendable N.toGroup x) ?_ ?_ ?_ h.1 i
  · rw [← Sys.mem_effects] at hx
    cases hs : σ.status i with
    | fresh => rw [hinv.1 hs] at hx; cases hx
    | running c => exact (hinv.2.1 c hs).2.2 x hx
    | stuck => exact hinv.2.2 hs x hx
  · intro i env c hnew _
    refine ⟨coreInv_start hnew, ?_, fun x hx => sendable_outside (Net.outside_propose hx)⟩
    cases newCore_eq hnew
    exact ⟨Table.holds_empty _, N.crypto.sha256_len _⟩
  · rintro i env c₀ e tr c eff c' - he - ⟨hJ, hs, hsent⟩ hm hok
    obtain ⟨hs', hnew⟩ := sendable_micro he hJ hs hexec hm hok
    refine ⟨coreInv_micro (fun _ hb => hb) hb he (fun _ hsrc => he.isBlock hsrc) hJ hm hok, hs', fun x hx => ?_⟩
    rcases List.mem_append.1 hx with hx | hx
    · exact hsent x hx
    · exact hnew x hx
  · rintro i env c₀ e tr c eff - - - ⟨-, -, hsent⟩ hc - x hx
    rcases List.mem_append.1 hx with hx | hx
    · exact hsent x hx
    · exact sendable_outside (hc.outside hx)

/-- Replica 1's vote for block 2. -/
theorem chain_vote_acceptable :
    ∃ σ, Chain.net.Reached Net.AnyEvent σ ∧ (1, .vote (Chain.vote 2 1 (Chain.cert 1)) 2) ∈ σ.trace ∧
      Chain.net.verifier.verifyVote (Chain.vote 2 1 (Chain.cert 1)) = true := by
  obtain ⟨σ, hσ, -, hvote, -⟩ := Chain.opening_reached Net.AnyEvent (fun _ _ _ _ => trivial)
  exact ⟨σ, hσ, hvote, (sent_acceptable hσ (fun _ _ _ => len_digest 2) hvote).2 _ 2 rfl⟩

end Diem

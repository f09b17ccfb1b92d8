import Diem.Progress
import Diem.Thresholds
/-!
# Complete — no quorum is missed

That what a core puts together is valid says nothing of whether it is put together at all.  Here it is: the votes of a
quorum for one content certify its round, and the timeouts of a quorum end it, in whatever order they come, among
whatever else, and with what duplicates.  The thresholds are met exactly once because a sender is counted once, so
neither can be jumped over.
-/
namespace Diem

open Pacemaker (Op)

/-! ## Timeouts -/

/-- Timeouts of the round were stepped on from each of the senders. -/
def GaveUp (ts : List Turn) (round : UInt64) (senders : Finset UInt32) : Prop :=
  ∀ s ∈ senders, ∃ t ∈ ts, ∃ m, t.event = .timeout m ∧ m.tmoInfo.round = round ∧ m.tmoInfo.sender = s

/-- Every timeout heard is of a round that was left, or in the bucket of the current one. -/
def Noted (ts : List Turn) (p : Pacemaker) : Prop :=
  ∀ t ∈ ts, ∀ m, t.event = .timeout m → m.tmoInfo.round < p.currentRound ∨
    (m.tmoInfo.round = p.currentRound ∧ m.tmoInfo.sender ∈ (p.bucket p.currentRound).senders)

/-- **Where a round stands**: short of a quorum of senders, and given up on if there are f+1. -/
structure Short (quorum faulty : Nat) (ts : List Turn) (amps : List UInt64) (p : Pacemaker) : Prop where
  keyed : p.Keyed
  noted : Noted ts p
  below : (p.bucket p.currentRound).senders.length < quorum
  given : faulty < (p.bucket p.currentRound).senders.length → p.currentRound ∈ amps

theorem Pacemaker.Keyed.bucket_eq {p : Pacemaker} (h : p.Keyed) {round : UInt64} (hne : round ≠ p.currentRound) :
    p.bucket round = ⟨[], []⟩ := by
  cases hb : p.pendingTimeouts.lookup round with
  | none => rw [bucket, hb, Option.getD_none]
  | some b => exact absurd (h round b hb) hne

namespace Short

variable {quorum faulty : Nat} {ts : List Turn} {amps : List UInt64} {p : Pacemaker} {ops : List Op}

/-- **A round that is entered starts from nothing.** -/
theorem entered (hquorum : 0 < quorum) (hk : p.Keyed) (hnoted : Noted ts p) (hops : ∀ op ∈ ops, Core.OpUnwrapped op)
    (hfile : ∀ info, .file info ∉ ops) (hlt : p.currentRound < (p.performs ops).currentRound) :
    Short quorum faulty ts amps (p.performs ops) := by
  have hempty : (p.performs ops).bucket (p.performs ops).currentRound = ⟨[], []⟩ := by
    rcases p.bucket_performs hfile (p.performs ops).currentRound with hb | hb
    · rw [hb]
      exact hk.bucket_eq (UInt64.ne_of_lt hlt).symm
    · exact hb
  refine ⟨hk.performs hops hfile, fun t ht m hm => .inl ?_, ?_, ?_⟩
  · rcases hnoted t ht m hm with hr | ⟨hr, -⟩
    · exact UInt64.lt_trans hr hlt
    · rw [hr]
      exact hlt
  · rw [hempty]
    exact hquorum
  · rw [hempty]
    exact fun h => absurd h (Nat.not_lt_zero _)

/-- What files nothing leaves the round or leaves it as it stands. -/
theorem performs (h : Short quorum faulty ts amps p) (hops : ∀ op ∈ ops, Core.OpUnwrapped op)
    (hfile : ∀ info, .file info ∉ ops) : Short quorum faulty ts amps (p.performs ops) := by
  rcases p.performs_stays hops hfile with hlt | ⟨hround, hbucket⟩
  · exact entered (Nat.lt_of_le_of_lt (Nat.zero_le _) h.below) h.keyed h.noted hops hfile hlt
  · refine ⟨h.keyed.performs hops hfile, fun t ht m hm => ?_, ?_, ?_⟩
    · rw [hround, hbucket]
      exact h.noted t ht m hm
    · rw [hround, hbucket]
      exact h.below
    · rw [hround, hbucket]
      exact h.given

/-- **A timeout of the current round or an earlier one**: without a TC the round is still short of a quorum; a TC is of
the round it leaves. -/
theorem remote (h : Short quorum faulty ts amps p) {t : Turn} {m : TimeoutMsg} (hm : t.event = .timeout m)
    (hle : m.tmoInfo.round ≤ p.currentRound) {v : Verifier} (hv : v.quorum = quorum) {env : Env} {id : UInt32}
    {tree : BlockTree} {s s' : Safety} {p' : Pacemaker} {out : Option TimeoutMsg} {tc : Option TimeoutCert}
    (hp : p.processRemoteTimeout v env id faulty tree s m = (p', s', out, tc)) :
    p'.Keyed ∧ Noted (ts ++ [t]) p' ∧ (tc = none →
      Short quorum faulty (ts ++ [t]) (amps ++ (p.amplifies faulty m.tmoInfo).toList) p') := by
  by_cases hdrop : m.tmoInfo.round < p.currentRound ∨ m.tmoInfo.sender ∈ (p.bucket m.tmoInfo.round).senders
  · -- of a round that was left, or heard before
    have hno : p.amplifies faulty m.tmoInfo = none := by
      rw [Pacemaker.amplifies, Pacemaker.remoteOps_drop hdrop]
      rfl
    rw [Pacemaker.processRemoteTimeout_drop hdrop] at hp
    cases hp
    have hnoted : Noted (ts ++ [t]) p := by
      intro t' ht' m' hm'
      rcases List.mem_append.1 ht' with ht' | ht'
      · exact h.noted t' ht' m' hm'
      · rw [List.mem_singleton.1 ht', hm] at hm'
        cases hm'
        by_cases hlt : m.tmoInfo.round < p.currentRound
        · exact .inl hlt
        · have hround := UInt64.le_antisymm hle (UInt64.not_lt.1 hlt)
          have hseen := hdrop.resolve_left hlt
          rw [hround] at hseen
          exact .inr ⟨hround, hseen⟩
    rw [hno, Option.toList_none, List.append_nil]
    exact ⟨h.keyed, hnoted, fun _ => ⟨h.keyed, hnoted, h.below, h.given⟩⟩
  · rw [not_or] at hdrop
    have hround : m.tmoInfo.round = p.currentRound := UInt64.le_antisymm hle (UInt64.not_lt.1 hdrop.1)
    have hp' := Pacemaker.processRemoteTimeout_performs hp
    rw [Pacemaker.remoteOps_file hdrop.1 hdrop.2] at hp'
    have hfiled : ((p.file m.tmoInfo).bucket m.tmoInfo.round).senders =
        m.tmoInfo.sender :: (p.bucket m.tmoInfo.round).senders := by
      rw [Pacemaker.bucket_file, if_pos rfl]
    -- giving up on the round re-arms its timer and leaves the bucket
    have hsame : p'.currentRound = m.tmoInfo.round ∧
        p'.bucket m.tmoInfo.round = (p.file m.tmoInfo).bucket m.tmoInfo.round := by
      rw [hp', hround]
      split
      · exact ⟨rfl, (Pacemaker.bucket_startTimer _ _ _).trans (if_neg (UInt64.lt_irrefl _))⟩
      · exact ⟨rfl, rfl⟩
    obtain ⟨hcur, hbucket⟩ := hsame
    have hkeyed : p'.Keyed := by
      rw [hp', ← Pacemaker.remoteOps_file hdrop.1 hdrop.2]
      exact h.keyed.remoteOps hle faulty
    have hsenders : (p'.bucket p'.currentRound).senders = m.tmoInfo.sender :: (p.bucket p.currentRound).senders := by
      rw [hcur, hbucket, hfiled, hround]
    have hnoted : Noted (ts ++ [t]) p' := by
      intro t' ht' m' hm'
      rw [hsenders, hcur, hround]
      rcases List.mem_append.1 ht' with ht' | ht'
      · exact (h.noted t' ht' m' hm').imp_right (And.imp_right (List.mem_cons_of_mem _))
      · rw [List.mem_singleton.1 ht', hm] at hm'
        cases hm'
        exact .inr ⟨hround, List.mem_cons_self⟩
    refine ⟨hkeyed, hnoted, fun hnone => ⟨hkeyed, hnoted, ?_, fun hmany => ?_⟩⟩
    · rw [Pacemaker.processRemoteTimeout_file hdrop.1 hdrop.2] at hp
      have htc := congrArg (fun r => r.2.2.2) hp
      dsimp only at htc
      rw [hnone, hfiled, hv, hround] at htc
      have hbelow := h.below
      rw [hsenders, List.length_cons]
      split at htc
      · cases htc
      · rename_i hne
        rw [List.length_cons] at hne
        omega
    · rw [hsenders, List.length_cons] at hmany
      rw [hcur]
      by_cases hf : ((p.file m.tmoInfo).bucket m.tmoInfo.round).senders.length = faulty + 1
      · rw [Pacemaker.amplifies, Pacemaker.remoteOps_file hdrop.1 hdrop.2, if_pos hf]
        exact List.mem_append_right _ (List.mem_singleton.2 rfl)
      · rw [hfiled, hround, List.length_cons] at hf
        rw [hround]
        exact List.mem_append_left _ (h.given (by omega))

/-- A turn without a timeout adds nothing to note. -/
theorem quiet (h : Short quorum faulty ts amps p) {t : Turn} (ht : ∀ m, t.event ≠ .timeout m) :
    Short quorum faulty (ts ++ [t]) amps p := by
  refine ⟨h.keyed, fun t' ht' m hm => ?_, h.below, h.given⟩
  rcases List.mem_append.1 ht' with ht' | ht'
  · exact h.noted t' ht' m hm
  · exact absurd (List.mem_singleton.1 ht' ▸ hm) (ht m)

end Short

/-- **A turn with a timeout**: the certificates, the timeout, and the TC if it made one. -/
theorem Short.timeout {cr : Crypto} {cfg : Config} {env : Env} {ts : List Turn} {c c' : Core} {m : TimeoutMsg}
    {eff : List Effect} (h : Short cfg.quorum cfg.faulty ts (ts.filterMap (Turn.amplified cr cfg)) c.pacemaker)
    (hver : (Core.verifier cr cfg).verifyTimeout m = true) (hrise : c.Rising cr cfg env (.timeout m))
    (hs : c.step cr cfg env (.timeout m) = .ok (c', eff)) :
    Short cfg.quorum cfg.faulty (ts ++ [⟨c, env, .timeout m, c', eff⟩])
      ((ts ++ [(⟨c, env, .timeout m, c', eff⟩ : Turn)]).filterMap (Turn.amplified cr cfg)) c'.pacemaker := by
  obtain ⟨c₁, eff₁, p, s, out, tc, h₁, h₂, hend⟩ := Core.processTimeoutMsg_ok hs
  generalize hturn : (⟨c, env, .timeout m, c', eff⟩ : Turn) = turn
  have hevent : turn.event = .timeout m := hturn ▸ rfl
  have hamps : (ts ++ [turn]).filterMap (Turn.amplified cr cfg) =
      ts.filterMap (Turn.amplified cr cfg) ++ (c₁.pacemaker.amplifies cfg.faulty m.tmoInfo).toList := by
    have hremote : turn.remote cr cfg = some (c₁, m) := by
      subst hturn
      simp only [Turn.remote, h₁]
    rw [filterMap_concat, Turn.amplified, hremote]
  rw [Core.Rising] at hrise
  simp only [Core.ops, h₁, h₂] at hrise
  have hcert := fun op hop => hrise op (List.mem_append_left _ hop)
  have hshort : Short cfg.quorum cfg.faulty ts (ts.filterMap (Turn.amplified cr cfg)) c₁.pacemaker := by
    rw [Core.processCertificates_performs h₁]
    exact h.performs hcert (Core.file_not_mem_certificateOps _ _ _)
  obtain ⟨hkeyed, hnoted, hnone⟩ := hshort.remote hevent (Core.timeout_le_currentRound hver hcert h₁) rfl h₂
  rw [hamps]
  rcases hend with ⟨htc, rfl, -⟩ | ⟨t, rfl, -, hle, rfl, -⟩
  · exact hnone htc
  · -- the TC leaves its round
    have hop : Core.OpUnwrapped (.advanceRoundTC t) :=
      hrise _ (List.mem_append_right _ (List.mem_append_right _ (List.mem_singleton.2 rfl)))
    have hleft : p.currentRound < (p.performs [.advanceRoundTC t]).currentRound := by
      have hlt := lt_round_succ (UInt64.lt_irrefl t.round) hop
      have hnext : (p.advanceRoundTC (some t)).1.currentRound = t.round + 1 := by
        rw [Pacemaker.currentRound_advanceRoundTC, if_neg (UInt64.not_lt.2 hle)]
      exact hnext ▸ UInt64.lt_of_le_of_lt hle hlt
    exact Short.entered (Nat.lt_of_le_of_lt (Nat.zero_le _) h.below) hkeyed hnoted
      (fun op ho => by cases List.mem_singleton.1 ho; exact hop) (by simp) hleft

theorem Core.Heard.short {cr : Crypto} {cfg : Config} {ts : List Turn} {c : Core}
    (h : Core.Heard cr cfg (Core.Checked cr cfg) ts c) :
    Short cfg.quorum cfg.faulty ts (ts.filterMap (Turn.amplified cr cfg)) c.pacemaker := by
  refine h.invariant
    (J := fun ts c => Short cfg.quorum cfg.faulty ts (ts.filterMap (Turn.amplified cr cfg)) c.pacemaker)
    (fun env c hnew => ?_) (fun ts c env e c' eff hinv he hs => ?_)
  · have hkeyed := (Core.Heard.start (P := Core.Checked cr cfg) env c hnew).keyed
    cases newCore_eq hnew
    exact ⟨hkeyed, fun t ht => (by cases ht), Nat.lt_of_le_of_lt (Nat.zero_le _) (faulty_lt_quorumSize _),
      fun h => absurd h (Nat.not_lt_zero _)⟩
  · by_cases htimeout : ∃ m, e = .timeout m
    · obtain ⟨m, rfl⟩ := htimeout
      exact hinv.timeout he.1 he.2 hs
    · have hne : ∀ m, e ≠ .timeout m := fun m hm => htimeout ⟨m, hm⟩
      have hamps : (ts ++ [(⟨c, env, e, c', eff⟩ : Turn)]).filterMap (Turn.amplified cr cfg) =
          ts.filterMap (Turn.amplified cr cfg) := by
        have hremote : (⟨c, env, e, c', eff⟩ : Turn).remote cr cfg = none := by
          cases e with
          | timeout m => exact absurd rfl (hne m)
          | _ => rfl
        rw [filterMap_concat, Turn.amplified, hremote, Option.toList_none, List.append_nil]
      rw [hamps, Core.step_performs hs]
      exact (hinv.performs he.2 (Core.file_not_mem_ops hne)).quiet hne

/-- Senders whose timeouts were all heard are senders of the bucket, unless their round was left. -/
theorem Noted.card_le {ts : List Turn} {p : Pacemaker} (h : Noted ts p) {round : UInt64} {senders : Finset UInt32}
    (hs : GaveUp ts round senders) (hne : senders.Nonempty) :
    round < p.currentRound ∨ round = p.currentRound ∧ senders.card ≤ (p.bucket p.currentRound).senders.length := by
  obtain ⟨s, hs₀⟩ := hne
  obtain ⟨t, ht, m, hm, rfl, -⟩ := hs s hs₀
  rcases h t ht m hm with hlt | ⟨hround, -⟩
  · exact .inl hlt
  · refine .inr ⟨hround, ?_⟩
    have hsub : senders ⊆ (p.bucket p.currentRound).senders.toFinset := by
      intro s' hs'
      obtain ⟨t', ht', m', hm', hround', rfl⟩ := hs s' hs'
      rcases h t' ht' m' hm' with hlt' | ⟨-, hmem⟩
      · rw [hround', hround] at hlt'
        exact absurd hlt' (UInt64.lt_irrefl _)
      · exact List.mem_toFinset.2 hmem
    exact (Finset.card_le_card hsub).trans (List.toFinset_card_le _)

/-- **No quorum of timeouts is missed**: in every history over accepted events that wraps no round, a round that a
quorum was heard to give up on has been left, and one that f+1 were heard to give up on has been left, or was given up
on in answer to one of them, with the timeout `LocalTimeoutRound` broadcast. -/
theorem quorum_ends_round {cr : Crypto} {cfg : Config} {ts : List Turn} {c : Core}
    (h : Core.Heard cr cfg (Core.Checked cr cfg) ts c) {round : UInt64} {senders : Finset UInt32}
    (hs : GaveUp ts round senders) :
    (cfg.quorum ≤ senders.card → round < c.pacemaker.currentRound) ∧
      (cfg.faulty < senders.card →
        round < c.pacemaker.currentRound ∨
          ∃ t ∈ ts, t.amplified cr cfg = some round ∧ t.answer cr cfg = t.ownTimeout cr cfg) := by
  have hshort := h.short
  constructor
  · intro hq
    have hne := Finset.card_pos.1 (Nat.lt_of_lt_of_le (Nat.lt_of_le_of_lt (Nat.zero_le _) hshort.below) hq)
    rcases hshort.noted.card_le hs hne with hlt | ⟨-, hle⟩
    · exact hlt
    · have hbelow := hshort.below
      omega
  · intro hf
    have hne := Finset.card_pos.1 (Nat.lt_of_le_of_lt (Nat.zero_le _) hf)
    rcases hshort.noted.card_le hs hne with hlt | ⟨hround, hle⟩
    · exact .inl hlt
    · rw [hround]
      obtain ⟨t, ht, hamp⟩ := List.mem_filterMap.1 (hshort.given (Nat.lt_of_lt_of_le hf hle))
      refine .inr ⟨t, ht, hamp, ?_⟩
      rw [Turn.answer_eq, hamp]
      rfl

/-- Whether the turn is on a timeout of the round from the sender. -/
def Turn.gaveUp (round : UInt64) (sender : UInt32) (t : Turn) : Bool :=
  match t.event with
  | .timeout m => m.tmoInfo.round == round && m.tmoInfo.sender == sender
  | _          => false

theorem GaveUp.of_any {ts : List Turn} {round : UInt64} {senders : List UInt32}
    (h : senders.all (fun s => ts.any (Turn.gaveUp round s)) = true) : GaveUp ts round senders.toFinset := by
  intro s hs
  obtain ⟨t, ht, hgave⟩ := List.any_eq_true.1 (List.all_eq_true.1 h s (List.mem_toFinset.1 hs))
  unfold Turn.gaveUp at hgave
  split at hgave
  · rename_i m hm
    rw [Bool.and_eq_true, beq_iff_eq, beq_iff_eq] at hgave
    exact ⟨t, ht, m, hm, hgave⟩
  · cases hgave

/-- Replica 3 of the chain hears 2 again and again, then 1 and 4: round 4 is given up on, and left. -/
theorem chain_ends_round :
    ∃ ts c, Core.Heard Chain.net.crypto (Chain.net.config 3) (Core.Checked Chain.net.crypto (Chain.net.config 3)) ts c ∧
      GaveUp ts 4 [1, 2, 4].toFinset ∧ 4 < c.pacemaker.currentRound ∧
      (4 < c.pacemaker.currentRound ∨ ∃ t ∈ ts, t.amplified Chain.net.crypto (Chain.net.config 3) = some 4 ∧
        t.answer Chain.net.crypto (Chain.net.config 3) = t.ownTimeout Chain.net.crypto (Chain.net.config 3)) := by
  have hplay : Core.hears Chain.net.crypto (Chain.net.config 3) Chain.env
      (Core.checks Chain.net.crypto (Chain.net.config 3) Chain.env)
      [.timeout (Chain.timeout 2), .timeout (Chain.timeout 2), .timeout (Chain.timeout 1), .timeout (Chain.timeout 2),
        .timeout (Chain.timeout 4)]
      (fun ts _ => [1, 2, 4].all (fun s => ts.any (Turn.gaveUp 4 s))) = true := by decide +kernel
  obtain ⟨ts, c, hheard, hcheck⟩ := Core.Heard.of_hears Core.checked_of_checks hplay
  have hgave := GaveUp.of_any hcheck
  have hends := quorum_ends_round hheard hgave
  exact ⟨ts, c, hheard, hgave, hends.1 (by decide +kernel), hends.2 (by decide +kernel)⟩

/-! ## Votes -/

/-- The two votes are for one content. -/
def VoteMsg.Alike (v m : VoteMsg) : Prop := v.voteInfo = m.voteInfo ∧ v.ledgerCommitInfo = m.ledgerCommitInfo

instance (v m : VoteMsg) : Decidable (v.Alike m) := inferInstanceAs (Decidable (_ ∧ _))

/-- The round is more than `maxRoundLead` ahead of the core's: `processVoteMsg` drops its votes, and keeps nothing of
them. -/
def Core.TooFar (c : Core) (round : UInt64) : Prop := c.pacemaker.currentRound + maxRoundLead < round

instance (c : Core) (round : UInt64) : Decidable (c.TooFar round) := inferInstanceAs (Decidable (_ < _))

/-- Votes for the content were stepped on from each of the signers, when its round was `maxRoundLead` ahead of the
core's at most.  One that came earlier is not counted. -/
def Supported (ts : List Turn) (m : VoteMsg) (signers : Finset UInt32) : Prop :=
  ∀ s ∈ signers, ∃ t ∈ ts, ∃ v, t.event = .vote v ∧ v.Alike m ∧ v.sender = s ∧ ¬ t.core.TooFar m.voteInfo.round

/-- An accepted event that wraps no round, where `Sign` works. -/
def Core.Signing (N : Net) (i : UInt32) (env : Env) (c : Core) (e : Event) : Prop :=
  c.Admitted N i env e ∧ ∀ d, (env.sign d).isSome = true

/-- Two accepted votes of an honest replica in one round are alike. -/
theorem Ballots.alike {N : Net} {log : List (UInt32 × Signed)} (hb : Ballots N.toGroup log) {v m : VoteMsg}
    (hv : N.Admits (.vote v)) (hm : N.Admits (.vote m)) (hsender : v.sender = m.sender) (hhonest : N.Honest m.sender)
    (hround : v.voteInfo.round = m.voteInfo.round) : v.Alike m := by
  -- each is in the signer's history
  have hcast : ∀ u, N.Admits (.vote u) → u.sender = m.sender →
      Ballot.Act.vote u.voteInfo.round.toNat u.voteInfo.parentRound.toNat
      (u.voteInfo, u.ledgerCommitInfo) ∈ hist log m.sender := by
    intro u hu hus
    obtain ⟨hver, hinfo, hcommit, -⟩ := hu
    obtain ⟨hsigner, hvalid, hbound, hsig, -⟩ := (N.verifier.verifyVote_iff u).1 hver
    obtain ⟨hid, hparent, -, -, hhash⟩ := (validVote_iff _ _).1 hvalid
    have hsig' : N.crypto.verify m.sender (ledgerCommitDigest N.crypto u.ledgerCommitInfo) u.sig.sig = true := by
      rw [← hus, ← hsigner]
      exact hsig
    obtain ⟨w, b, tc, hw, hwl, hvouch⟩ := hb.vote_of_verify hhonest hsig' hcommit hhash
    have hwi : w.voteInfo = u.voteInfo := hvouch.info_eq hinfo hbound hid hparent
    refine hist_mem hw ?_
    rw [Signed.act, hwi, hwl]
  have hv' := hcast v hv hsender
  rw [hround] at hv'
  rcases hb.election.eq_or_before hhonest hv' (hcast m hm rfl) with heq | hlt | hlt
  · injection heq with _ _ hcontent
    exact ⟨congrArg Prod.fst hcontent, congrArg Prod.snd hcontent⟩
  · exact absurd hlt (Nat.lt_irrefl _)
  · exact absurd hlt (Nat.lt_irrefl _)

/-- What an honest replica voted for is above what it extends. -/
theorem Group.Backed.above {G : Group} {q : QuorumCert} (hq : G.Backed q) :
    q.voteInfo.parentRound < q.voteInfo.round := by
  obtain ⟨b, tc, hv⟩ := hq
  rw [hv.parentRound_eq, hv.round_eq]
  exact hv.above

/-- A bucket has a signature for each of its signers, and there are no more signers than ids: `append` has room. -/
theorem BucketInv.elems_push {G : Group} {voters : Table VoterKey Unit} {idx : Bytes} {b : VoteBucket}
    (h : BucketInv G voters idx b) (s : Signature) : (b.sigs.push s).elems = b.sigs.elems ++ [s] := by
  have hnodup : ((b.sigs.elems.map Signature.signer).map UInt32.toNat).Nodup :=
    h.once.map (fun _ _ heq => UInt32.toNat_inj.1 heq)
  have hsub : (b.sigs.elems.map Signature.signer).map UInt32.toNat ⊆ List.range (2 ^ 32) := by
    intro k hk
    obtain ⟨x, -, rfl⟩ := List.mem_map.1 hk
    exact List.mem_range.2 x.toNat_lt
  have hlen := (List.subperm_of_subset hnodup hsub).length_le
  rw [List.length_map, List.length_map, List.length_range] at hlen
  unfold Slice.push
  rw [dif_pos]
  rw [List.length_append, List.length_singleton]
  omega

/-- **What a vote does to the tree where `Sign` works.** -/
theorem accumulate_signing {cr : Crypto} {env : Env} {id : UInt32} {quorum : Nat} {t t' : BlockTree} {v : VoteMsg}
    {qc : Option QuorumCert} (hsign : ∀ d, (env.sign d).isSome = true)
    (h : t.accumulate cr env id quorum v = (t', qc)) :
    ((t.voters.lookup ⟨v.voteInfo.round, v.sender⟩).isSome = true ∧ t' = t ∧ qc = none) ∨
    ((t.voters.lookup ⟨v.voteInfo.round, v.sender⟩).isSome ≠ true ∧
      t'.voters = t.voters.insert ⟨v.voteInfo.round, v.sender⟩ () ∧ t'.highQC = t.highQC ∧
      t'.highCommitQC = t.highCommitQC ∧
      ∃ votes, votes = t.votes.insert (ledgerCommitDigest cr v.ledgerCommitInfo)
          { bucketOf cr t v with sigs := (bucketOf cr t v).sigs.push v.sig } ∧
        ((((bucketOf cr t v).sigs.push v.sig).len < quorum ∧ t'.votes = votes ∧ qc = none) ∨
          (quorum ≤ ((bucketOf cr t v).sigs.push v.sig).len ∧ ∃ q, qc = some q ∧
            q.voteInfo = (bucketOf cr t v).voteInfo ∧ q.ledgerCommitInfo = (bucketOf cr t v).commit ∧
            t'.votes = votes.erase (ledgerCommitDigest cr v.ledgerCommitInfo)))) := by
  simp only [BlockTree.accumulate] at h
  split at h
  · rename_i hslot
    cases h
    exact .inl ⟨hslot, rfl, rfl⟩
  · rename_i hslot
    refine .inr ⟨hslot, ?_⟩
    split at h
    · rename_i hlen
      cases h
      exact ⟨rfl, rfl, rfl, _, rfl, .inl ⟨hlen, rfl, rfl⟩⟩
    · rename_i hlen
      split at h
      · rename_i hnone
        obtain ⟨sig, hsig⟩ := Option.isSome_iff_exists.1 (hsign (qcSigsDigest cr (canonical
          ((bucketOf cr t v).sigs.push v.sig))))
        simp only [sign] at hnone
        exact absurd hnone (by rw [bucketOf] at hsig; rw [hsig]; simp)
      · cases h
        exact ⟨rfl, rfl, rfl, _, rfl, .inr ⟨Nat.le_of_not_lt hlen, _, rfl, rfl, rfl, rfl⟩⟩

/-- **A content short of its quorum**: each of the signers whose slot is taken is in the bucket, and the bucket is not
full. -/
structure Net.Awaits (N : Net) (m : VoteMsg) (signers : Finset UInt32) (t : BlockTree) : Prop where
  counted : ∀ s ∈ signers, (t.voters.lookup ⟨m.voteInfo.round, s⟩).isSome = true →
    s ∈ (bucketOf N.crypto t m).sigs.elems.map Signature.signer
  below   : (bucketOf N.crypto t m).sigs.len < N.verifier.quorum

/-- The votes for the content that came within the window took their slots. -/
def Slotted (ts : List Turn) (m : VoteMsg) (signers : Finset UInt32) (t : BlockTree) : Prop :=
  ∀ x ∈ ts, ∀ v, x.event = .vote v → v.Alike m → v.sender ∈ signers → InWindow x.core v →
    (t.voters.lookup ⟨m.voteInfo.round, v.sender⟩).isSome = true

section

variable {N : Net} {log : List (UInt32 × Signed)} {m v : VoteMsg} {signers : Finset UInt32} {t t' : BlockTree}
  {ts : List Turn}

theorem bucketOf_congr {cr : Crypto} (hvotes : t'.votes.lookup (ledgerCommitDigest cr m.ledgerCommitInfo) =
    t.votes.lookup (ledgerCommitDigest cr m.ledgerCommitInfo)) : bucketOf cr t' m = bucketOf cr t m := by
  rw [bucketOf, bucketOf, hvotes]

theorem bucketOf_alike {cr : Crypto} (hv : v.Alike m) : bucketOf cr t v = bucketOf cr t m := by
  rw [bucketOf, bucketOf, hv.1, hv.2]

/-- Pruning to a lower round keeps the bucket and the slots of the content. -/
theorem bucketOf_prune (ht : t.votes.Holds (BucketInv N.toGroup t.voters)) (hm : N.Admits (.vote m)) {id : Bytes}
    {root : UInt64} (hroot : ¬ m.voteInfo.round ≤ root) :
    bucketOf N.crypto (t.prune id root) m = bucketOf N.crypto t m := by
  apply bucketOf_congr
  rw [BlockTree.prune, Table.lookup_filter]
  cases hl : t.votes.lookup (ledgerCommitDigest N.crypto m.ledgerCommitInfo) with
  | none => rfl
  | some b =>
    obtain ⟨hinfo, -⟩ := (ht _ b hl).content_eq hm
    rw [Option.filter_some, if_pos]
    rw [hinfo, decide_eq_false hroot, Bool.not_false]

theorem voters_prune {id : Bytes} {root : UInt64} {k : VoterKey} (hroot : ¬ k.round ≤ root) :
    (t.prune id root).voters.lookup k = t.voters.lookup k := by
  rw [BlockTree.prune, Table.lookup_filter]
  cases t.voters.lookup k with
  | none => rfl
  | some u => rw [Option.filter_some, if_pos (by rw [decide_eq_false hroot, Bool.not_false])]

/-- **A certificate certifies the round or a later one, or leaves its votes**: what it prunes is below it. -/
theorem Net.Awaits.processQC (ht : t.votes.Holds (BucketInv N.toGroup t.voters)) (hm : N.Admits (.vote m))
    (h : N.Awaits m signers t) (hslotted : Slotted ts m signers t) {history fuel : Nat} {l l' : MemLedger}
    {q : QuorumCert} {bs : List Block} (hq : commits q.ledgerCommitInfo = true → N.Backed q)
    (hp : BlockTree.processQC history fuel l t (some q) = .ok (l', t', bs)) :
    m.voteInfo.round ≤ t'.highQC.voteInfo.round ∨ N.Awaits m signers t' ∧ Slotted ts m signers t' := by
  obtain ⟨-, ⟨hc, -, rfl⟩ | ⟨-, -, -, rfl⟩⟩ := BlockTree.processQC_ok hp
  · by_cases hroot : m.voteInfo.round ≤ q.voteInfo.parentRound
    · left
      exact UInt64.le_trans hroot (UInt64.le_trans (UInt64.le_of_lt (hq hc).above) (higher_left _ _))
    · right
      have hbucket : bucketOf N.crypto (t.prune q.voteInfo.parentId q.voteInfo.parentRound) m = bucketOf N.crypto t m :=
        bucketOf_prune ht hm hroot
      have hslot : ∀ s, (t.prune q.voteInfo.parentId q.voteInfo.parentRound).voters.lookup ⟨m.voteInfo.round, s⟩ =
          t.voters.lookup ⟨m.voteInfo.round, s⟩ := fun s => voters_prune (k := ⟨m.voteInfo.round, s⟩) hroot
      refine ⟨⟨fun s hs hsome => ?_, ?_⟩, fun x hx v hv halike hs hwin => ?_⟩
      · exact hbucket ▸ h.counted s hs ((hslot s) ▸ hsome)
      · exact hbucket ▸ h.below
      · exact (hslot _).symm ▸ hslotted x hx v hv halike hs hwin
  · exact .inr ⟨⟨h.counted, h.below⟩, hslotted⟩

/-- **A vote**: it completes a certificate for the content, or the content is still short of its quorum and the vote, if
it is for the content, has its slot. -/
theorem Net.Awaits.accumulate (ht : t.votes.Holds (BucketInv N.toGroup t.voters)) (hm : N.Admits (.vote m))
    (hone : v.sender ∈ signers → v.voteInfo.round = m.voteInfo.round → v.Alike m)
    (h : N.Awaits m signers t) (hslotted : Slotted ts m signers t) (hv : N.Admits (.vote v)) {env : Env} {i : UInt32}
    (hsign : ∀ d, (env.sign d).isSome = true) {qc : Option QuorumCert}
    (hacc : t.accumulate N.crypto env i N.verifier.quorum v = (t', qc)) :
    (∃ q, qc = some q ∧ q.voteInfo.round = m.voteInfo.round) ∨
      N.Awaits m signers t' ∧ Slotted ts m signers t' ∧
        (v.Alike m → (t'.voters.lookup ⟨m.voteInfo.round, v.sender⟩).isSome = true) := by
  obtain ⟨hvi, hvc, hinv⟩ := bucketOf_spec ht hv
  rcases accumulate_signing hsign hacc with ⟨hslot, rfl, rfl⟩ | ⟨hslot, hvoters, -, -, votes, rfl, hend⟩
  · exact .inr ⟨h, hslotted, fun halike => halike.1 ▸ hslot⟩
  have hkeep : ∀ k : VoterKey, (t.voters.lookup k).isSome = true → (t'.voters.lookup k).isSome = true := by
    intro k hk
    rw [hvoters]
    by_cases heq : k = ⟨v.voteInfo.round, v.sender⟩
    · rw [heq, AList.lookup_insert]
      rfl
    · rw [AList.lookup_insert_ne heq]
      exact hk
  have hslotted' : Slotted ts m signers t' := fun x hx u hu halike hs hwin =>
    hkeep _ (hslotted x hx u hu halike hs hwin)
  have htaken : v.Alike m → (t'.voters.lookup ⟨m.voteInfo.round, v.sender⟩).isSome = true := by
    intro halike
    rw [hvoters, ← halike.1, AList.lookup_insert]
    rfl
  by_cases hidx : ledgerCommitDigest N.crypto m.ledgerCommitInfo = ledgerCommitDigest N.crypto v.ledgerCommitInfo
  · -- the bucket of the content
    rw [← hidx] at hinv
    obtain ⟨hmi, hmc⟩ := hinv.content_eq hm
    have halike : v.Alike m := ⟨hvi.symm.trans hmi, hvc.symm.trans hmc⟩
    rcases hend with ⟨hlen, hvotes, rfl⟩ | ⟨-, q, rfl, hq, -, -⟩
    · refine .inr ⟨⟨fun s hs hsome => ?_, ?_⟩, hslotted', htaken⟩
      all_goals
        have hbucket : bucketOf N.crypto t' m =
            { bucketOf N.crypto t v with sigs := (bucketOf N.crypto t v).sigs.push v.sig } := by
          rw [bucketOf, hvotes, hidx, AList.lookup_insert]
          rfl
      · rw [hbucket]
        dsimp only
        rw [hinv.elems_push, List.map_append, bucketOf_alike halike]
        rw [hvoters] at hsome
        by_cases hsv : s = v.sender
        · obtain ⟨hsigner, -⟩ := (N.verifier.verifyVote_iff v).1 hv.1
          exact List.mem_append_right _ (List.mem_singleton.2 (hsv.trans hsigner.symm))
        · rw [AList.lookup_insert_ne (by simp [hsv])] at hsome
          exact List.mem_append_left _ (h.counted s hs hsome)
      · rw [hbucket]
        exact hlen
    · exact .inl ⟨q, rfl, by rw [hq, hmi]⟩
  · -- another bucket, and so not a slot of one of the signers in the round
    have hslots : ∀ s ∈ signers, t'.voters.lookup ⟨m.voteInfo.round, s⟩ = t.voters.lookup ⟨m.voteInfo.round, s⟩ := by
      intro s hs
      rw [hvoters]
      refine AList.lookup_insert_ne (fun heq => hidx ?_)
      injection heq with hround hsender
      rw [(hone (hsender ▸ hs) hround.symm).2]
    have hbucket : bucketOf N.crypto t' m = bucketOf N.crypto t m := by
      apply bucketOf_congr
      rcases hend with ⟨-, hvotes, -⟩ | ⟨-, q, -, -, -, hvotes⟩
      · rw [hvotes, AList.lookup_insert_ne hidx]
      · rw [hvotes, AList.lookup_erase_ne hidx, AList.lookup_insert_ne hidx]
    refine .inr ⟨⟨fun s hs hsome => ?_, hbucket ▸ h.below⟩, hslotted', htaken⟩
    rw [hbucket]
    exact h.counted s hs (hslots s hs ▸ hsome)

end

/-- The signer was heard voting for nothing but the content in its round. -/
def Faithful (ts : List Turn) (m : VoteMsg) (s : UInt32) : Prop :=
  ∀ x ∈ ts, ∀ v, x.event = .vote v → v.sender = s → v.voteInfo.round = m.voteInfo.round → v.Alike m

/-- **Where a content stands**: its round or a later one is certified, or it is short of its quorum with all the votes
for it counted. -/
def Net.Standing (N : Net) (ts : List Turn) (m : VoteMsg) (signers : Finset UInt32) (t : BlockTree) : Prop :=
  m.voteInfo.round ≤ t.highQC.voteInfo.round ∨ N.Awaits m signers t ∧ Slotted ts m signers t

section

variable {N : Net} {i : UInt32} {log : List (UInt32 × Signed)} {m : VoteMsg} {signers : Finset UInt32} {ts : List Turn}
  {env : Env} {c c' : Core} {e : Event} {eff : List Effect}

theorem Net.Standing.processQC {t t' : BlockTree} (ht : t.votes.Holds (BucketInv N.toGroup t.voters))
    (hm : N.Admits (.vote m)) (h : N.Standing ts m signers t) {history fuel : Nat} {l l' : MemLedger}
    {qc : Option QuorumCert} {bs : List Block} (hq : ∀ q ∈ qc, commits q.ledgerCommitInfo = true → N.Backed q)
    (hp : BlockTree.processQC history fuel l t qc = .ok (l', t', bs)) : N.Standing ts m signers t' := by
  rcases h with hhigh | ⟨hawaits, hslotted⟩
  · exact .inl (UInt64.le_trans hhigh (Core.processQC_highQC hp).1)
  · cases qc with
    | none =>
      cases hp
      exact .inr ⟨hawaits, hslotted⟩
    | some q => exact hawaits.processQC ht hm hslotted (hq q rfl) hp

/-- A turn that brings no vote, or one out of the window, takes no slot. -/
theorem Net.Standing.unslotted {t : BlockTree} (h : N.Standing ts m signers t) {x : Turn}
    (hx : ∀ v, x.event = .vote v → ¬ InWindow x.core v) : N.Standing (ts ++ [x]) m signers t := by
  refine h.imp_right (And.imp_right (fun hslotted y hy v hv halike hs hwin => ?_))
  rcases List.mem_append.1 hy with hy | hy
  · exact hslotted y hy v hv halike hs hwin
  · rw [List.mem_singleton.1 hy] at hv hwin
    exact absurd hwin (hx v hv)

/-- A turn with a vote that has its slot, if it is for the content. -/
theorem Net.Awaits.slot {t : BlockTree} (h : N.Awaits m signers t) (hslotted : Slotted ts m signers t) {x : Turn}
    {v : VoteMsg} (hx : x.event = .vote v)
    (htaken : v.Alike m → (t.voters.lookup ⟨m.voteInfo.round, v.sender⟩).isSome = true) :
    N.Standing (ts ++ [x]) m signers t := by
  refine .inr ⟨h, fun y hy u hu halike hs hwin => ?_⟩
  rcases List.mem_append.1 hy with hy | hy
  · exact hslotted y hy u hu halike hs hwin
  · rw [List.mem_singleton.1 hy, hx] at hu
    cases hu
    exact htaken halike

/-- **A turn with a vote.** -/
theorem Net.Standing.vote (hb : Ballots N.toGroup log) (hm : N.Admits (.vote m)) (hset : N.Settled c.stores)
    (h : N.Standing ts m signers c.tree) {v : VoteMsg} (hv : N.Admits (.vote v))
    (hone : v.sender ∈ signers → v.voteInfo.round = m.voteInfo.round → v.Alike m)
    (hsign : ∀ d, (env.sign d).isSome = true) (hs : c.step N.crypto (N.config i) env (.vote v) = .ok (c', eff)) :
    N.Standing (ts ++ [⟨c, env, .vote v, c', eff⟩]) m signers c'.tree := by
  rcases Core.processVoteMsg_ok hs with ⟨hwin, rfl, -⟩ | ⟨-, l, t, bs, hp, hend⟩
  · exact h.unslotted (fun u hu => by cases hu; exact hwin)
  have hqc : ∀ q ∈ v.highCommitQc, commits q.ledgerCommitInfo = true → N.Backed q := fun q hq =>
    (hv.highCommitQc hq).backed hb
  have ht := processQC_votes hset.buckets hp
  rw [N.id_eq, N.quorum_eq] at hend
  rcases h.processQC hset.buckets hm hqc hp with hhigh | ⟨hawaits, hslotted⟩
  · -- its round was certified before
    left
    refine UInt64.le_trans hhigh ?_
    rcases hend with ⟨t', hacc, rfl, -⟩ | ⟨t', q, moved, eff', hacc, hq, -⟩
    all_goals
      have hsame := accumulate_highQC N.crypto env i N.verifier.quorum t v
      rw [hacc] at hsame
      rw [← hsame]
    · exact UInt64.le_refl _
    · exact (Core.processCertificateQC_highQC hq).1
  · rcases hend with ⟨t', hacc, rfl, -⟩ | ⟨t', q, moved, eff', hacc, hq, -⟩
    · rcases hawaits.accumulate ht hm hone hslotted hv hsign hacc with ⟨q, hq, -⟩ | ⟨hawaits', hslotted', htaken⟩
      · cases hq
      · exact hawaits'.slot hslotted' rfl htaken
    · rcases hawaits.accumulate ht hm hone hslotted hv hsign hacc with ⟨q', hq', hround⟩ | ⟨hawaits', hslotted', htaken⟩
      · -- the certificate is for the content
        cases hq'
        exact .inl (hround ▸ (Core.processCertificateQC_highQC hq).2)
      · -- the certificate is for another content, and may prune
        have hset' : t'.votes.Holds (BucketInv N.toGroup t'.voters) := (accumulate_votes ht hv hacc).1
        have hback : ∀ q' ∈ some q, commits q'.ledgerCommitInfo = true → N.Backed q' := fun q' hq' _ => by
          cases hq'
          obtain ⟨b, sig, -, hinv, hlen, -, -, rfl⟩ := (accumulate_votes ht hv hacc).2 q rfl
          exact hinv.vouched hb hlen
        obtain ⟨l', t'', bs', le, hp', -, rfl, -, -⟩ := Core.processCertificateQC_ok hq
        exact (hawaits'.slot hslotted' rfl htaken).processQC hset' hm hback hp'

/-- A turn without a vote: certificates, and blocks inserted. -/
theorem Net.Standing.quiet (hb : Ballots N.toGroup log) (hm : N.Admits (.vote m)) (hset : N.Settled c.stores)
    (h : N.Standing ts m signers c.tree) (he : N.Admits e) (hne : ∀ v, e ≠ .vote v)
    (hs : c.step N.crypto (N.config i) env e = .ok (c', eff)) :
    N.Standing (ts ++ [⟨c, env, e, c', eff⟩]) m signers c'.tree := by
  have hallow : ∀ w ∈ c.writes N.crypto (N.config i) env e, N.Allows w := he.allows hb hset.buckets
  have hI : N.Settled c'.stores ∧ N.Standing ts m signers c'.stores.tree := by
    refine Stores.writes_induct (I := fun s => N.Settled s ∧ N.Standing ts m signers s.tree)
      (fun s w s' hmem _ hI hw => ⟨(hI.1.write hb (hallow w hmem) hw).1, ?_⟩)
      (Stores.along_of_forall (fun _ _ => trivial) _ c.stores) ⟨hset, h⟩ (Core.step_writes hs)
    rcases Core.mem_writes_cases hmem with ⟨q, rfl⟩ | ⟨b, rfl, -⟩ | ⟨v, -, hv⟩
    · obtain ⟨bs, hp⟩ := Stores.write_processQC hw
      exact hI.2.processQC hI.1.buckets hm (fun q' hq' => by cases hq'; exact hallow _ hmem) hp
    · cases hw
      exact hI.2.imp_right (And.imp_left (fun h => ⟨h.counted, h.below⟩))
    · exact absurd hv (hne v)
  exact hI.2.unslotted (fun v hv => absurd hv (hne v))

end

/-- **What a history keeps** of a content. -/
structure Net.Watched (N : Net) (m : VoteMsg) (signers : Finset UInt32) (ts : List Turn) (c : Core) : Prop where
  settled  : N.Settled c.stores
  passed   : ∀ x ∈ ts, N.Admits x.event ∧ x.core.pacemaker.currentRound ≤ c.pacemaker.currentRound
  standing : (∀ s ∈ signers, Faithful ts m s) → N.Standing ts m signers c.tree

theorem Core.Heard.watched {N : Net} {i : UInt32} {log : List (UInt32 × Signed)} (hb : Ballots N.toGroup log)
    {ts : List Turn} {c : Core} (h : Core.Heard N.crypto (N.config i) (Core.Signing N i) ts c) {m : VoteMsg}
    (hm : N.Admits (.vote m)) (signers : Finset UInt32) : N.Watched m signers ts c := by
  refine h.invariant (J := fun ts c => N.Watched m signers ts c) (fun env c hnew => ?_)
    (fun ts c env e c' eff hinv hP hs => ?_)
  · have hset := settled_new N
    cases newCore_eq hnew
    refine ⟨hset, fun x hx => (by cases hx), fun _ =>
      .inr ⟨⟨fun s _ hsome => (by cases hsome), ?_⟩, fun x hx => (by cases hx)⟩⟩
    exact Nat.lt_of_le_of_lt (Nat.zero_le _) (faulty_lt_quorumSize N.validators.length)
  · obtain ⟨⟨he, hrise⟩, hsign⟩ := hP
    have hpassed := hrise.mono hs
    refine ⟨(hinv.settled.writes hb (he.allows hb hinv.settled.buckets) (Core.step_writes hs)).1, fun x hx => ?_,
      fun hfaith => ?_⟩
    · rcases List.mem_append.1 hx with hx | hx
      · exact (hinv.passed x hx).imp_right (UInt64.le_trans · hpassed)
      · rw [List.mem_singleton.1 hx]
        exact ⟨he, hpassed⟩
    · have hstand := hinv.standing (fun s hs x hx => hfaith s hs x (List.mem_append_left _ hx))
      by_cases hvote : ∃ v, e = .vote v
      · obtain ⟨v, rfl⟩ := hvote
        refine hstand.vote hb hm hinv.settled he (fun hmem hround => ?_) hsign hs
        exact hfaith _ hmem _ (List.mem_append_right _ (List.mem_singleton.2 rfl)) v rfl rfl hround
      · exact hstand.quiet hb hm hinv.settled he (fun v hv => hvote ⟨v, hv⟩) hs

/-- Signers that were all heard within the window are all in the bucket. -/
theorem Net.Awaits.card_lt {N : Net} {m : VoteMsg} {signers : Finset UInt32} {t : BlockTree} (h : N.Awaits m signers t)
    (hall : ∀ s ∈ signers, (t.voters.lookup ⟨m.voteInfo.round, s⟩).isSome = true) :
    signers.card < N.verifier.quorum := by
  have hsub : signers ⊆ ((bucketOf N.crypto t m).sigs.elems.map Signature.signer).toFinset := fun s hs =>
    List.mem_toFinset.2 (h.counted s hs (hall s hs))
  calc signers.card ≤ ((bucketOf N.crypto t m).sigs.elems.map Signature.signer).toFinset.card :=
        Finset.card_le_card hsub
    _ ≤ ((bucketOf N.crypto t m).sigs.elems.map Signature.signer).length := List.toFinset_card_le _
    _ = (bucketOf N.crypto t m).sigs.len := List.length_map ..
    _ < N.verifier.quorum := h.below

/-- **No quorum of votes is missed**: where the honest replicas sign by `Safety` alone and at most f others are
Byzantine, in every history of a core over accepted events that wraps no round and in which `Sign` works, once votes for
one content were heard from a quorum inside the window of `processVoteMsg`, each from an honest signer or one heard
voting for nothing else in the round, that round or a later one is certified, or the core has left it by more than a
round.  The window is `maxRoundLead` rounds ahead of the core's and one behind: a vote from beyond does not count
towards `Supported`. -/
theorem quorum_certifies {N : Net} {i : UInt32} {S : SafetySys} (hS : N.SafetyRun S) (hu : N.Unforgeable S.log)
    {ts : List Turn} {c : Core} (h : Core.Heard N.crypto (N.config i) (Core.Signing N i) ts c) {m : VoteMsg}
    (hm : N.Admits (.vote m)) {signers : Finset UInt32} (hquorum : N.verifier.quorum ≤ signers.card)
    (hsup : Supported ts m signers) (hone : ∀ s ∈ signers, N.Honest s ∨ Faithful ts m s) :
    m.voteInfo.round ≤ c.tree.highQC.voteInfo.round ∨ m.voteInfo.round + 1 < c.pacemaker.currentRound := by
  have hb := Ballots.of_run hS hu
  have hwatched := h.watched hb hm signers
  have hfaith : ∀ s ∈ signers, Faithful ts m s := by
    intro s hs
    rcases hone s hs with hhonest | hfaith
    · obtain ⟨t, ht, u, hut, halike, rfl, -⟩ := hsup s hs
      intro x hx v hv hsender hround
      have hsame := hb.alike (hv ▸ (hwatched.passed x hx).1) (hut ▸ (hwatched.passed t ht).1) hsender hhonest
        (by rw [halike.1, hround])
      exact ⟨hsame.1.trans halike.1, hsame.2.trans halike.2⟩
    · exact hfaith
  rcases hwatched.standing hfaith with hhigh | ⟨hawaits, hslotted⟩
  · exact .inl hhigh
  · right
    by_contra hlate
    -- no vote came too late, so every signer has its slot
    have hall : ∀ s ∈ signers, (c.tree.voters.lookup ⟨m.voteInfo.round, s⟩).isSome = true := by
      intro s hs
      obtain ⟨t, ht, u, hut, halike, rfl, hahead⟩ := hsup s hs
      refine hslotted t ht u hut halike hs ?_
      rw [InWindow, halike.1]
      rintro (hfar | hleft)
      · exact hahead hfar
      · exact hlate (UInt64.lt_of_lt_of_le hleft (hwatched.passed t ht).2)
    have hlt := hawaits.card_lt hall
    omega

/-- Whether the turn is on a vote for the content from the signer, not too far ahead. -/
def Turn.supports (m : VoteMsg) (s : UInt32) (t : Turn) : Bool :=
  match t.event with
  | .vote v => decide (v.Alike m ∧ v.sender = s) &&
      !decide (t.core.TooFar m.voteInfo.round)
  | _       => false

theorem Supported.of_any {ts : List Turn} {m : VoteMsg} {signers : List UInt32}
    (h : signers.all (fun s => ts.any (Turn.supports m s)) = true) : Supported ts m signers.toFinset := by
  intro s hs
  obtain ⟨t, ht, hsup⟩ := List.any_eq_true.1 (List.all_eq_true.1 h s (List.mem_toFinset.1 hs))
  unfold Turn.supports at hsup
  split at hsup
  · rename_i v hv
    rw [Bool.and_eq_true, decide_eq_true_eq, Bool.not_eq_true', decide_eq_false_iff_not] at hsup
    exact ⟨t, ht, v, hv, hsup.1.1, hsup.1.2, hsup.2⟩
  · cases hsup

/-- Whether the turn is on no vote of the signer for another content of the round. -/
def Turn.faithful (m : VoteMsg) (s : UInt32) (t : Turn) : Bool :=
  match t.event with
  | .vote v => decide (v.sender = s → v.voteInfo.round = m.voteInfo.round → v.Alike m)
  | _       => true

theorem Faithful.of_all {ts : List Turn} {m : VoteMsg} {s : UInt32} (h : ts.all (Turn.faithful m s) = true) :
    Faithful ts m s := by
  intro x hx v hv
  have hx := List.all_eq_true.1 h x hx
  rw [Turn.faithful, hv] at hx
  exact of_decide_eq_true hx

/-- Replica 3 of the chain hears the Byzantine replica's vote for block 3 again and again, and then those of 1 and 4. -/
theorem chain_certifies :
    ∃ ts c, Core.Heard Chain.net.crypto (Chain.net.config 3) (Core.Signing Chain.net 3) ts c ∧
      Supported ts (Chain.vote 3 4 (Chain.cert 2)) [1, 2, 4].toFinset ∧
      (3 ≤ c.tree.highQC.voteInfo.round ∨ (3 : UInt64) + 1 < c.pacemaker.currentRound) := by
  have hplay : Core.hears Chain.net.crypto (Chain.net.config 3) Chain.env (Core.admitted Chain.net 3 Chain.env)
      [.proposal (Chain.proposal 3 none), .vote (Chain.vote 3 2 (Chain.cert 2)), .vote (Chain.vote 3 2 (Chain.cert 2)),
        .vote (Chain.vote 3 4 (Chain.cert 2)), .vote (Chain.vote 3 2 (Chain.cert 2)),
        .vote (Chain.vote 3 1 (Chain.cert 2))]
      (fun ts _ => [1, 2, 4].all (fun s => ts.any (Turn.supports (Chain.vote 3 4 (Chain.cert 2)) s)) &&
        ts.all (Turn.faithful (Chain.vote 3 4 (Chain.cert 2)) 2)) = true := by decide +kernel
  obtain ⟨ts, c, hheard, hcheck⟩ := Core.Heard.of_hears
    (P := Core.Signing Chain.net 3) (fun c e he => ⟨Core.admitted_of_test c e he, fun _ => rfl⟩) hplay
  rw [Bool.and_eq_true] at hcheck
  have hsup := Supported.of_any hcheck.1
  obtain ⟨σ, hreached, -⟩ := Chain.opening_reached Net.AnyEvent (fun _ _ _ _ => trivial)
  obtain ⟨S, hS, hu⟩ := hreached.safetyRun
  refine ⟨ts, c, hheard, hsup, quorum_certifies hS hu hheard (by decide +kernel) (by decide +kernel) hsup
    (fun s hs => ?_)⟩
  rw [List.mem_toFinset] at hs
  simp only [List.mem_cons, List.not_mem_nil, or_false] at hs
  rcases hs with rfl | rfl | rfl
  · exact .inl (by decide)
  · exact .inr (Faithful.of_all hcheck.2)
  · exact .inl (by decide)

end Diem

import Diem.Accumulator
import Diem.Complete
import Diem.Settle
/-!
# Level — a core and the certificates of its round

A core in round `k` has a highest certificate `q`, of the round before or of an earlier one.  A certificate it has
processed before changes nothing but the election, and that only once; the proposal of the round is executed and voted
for; the votes are counted until there is a quorum of them; and the certificate of the round takes the core to the next.
None of the loops on the way needs more turns than there were rounds.
-/
namespace Diem

/-! ## Certificates -/

/-- **A core in round `k`**: tree, ledger and elections are those given, and of the round it has counted votes of `seen`
at most. -/
structure Net.Level (N : Net) (k : UInt64) (q hc : QuorumCert) (l : MemLedger) (roll : UInt64 → Option UInt32)
    (seen : List UInt32) (c : Core) : Prop where
  ledger       : c.ledger = l
  validators   : c.leaders.validators = (newLeaderElection (N.config 0)).validators
  roll         : c.leaders.roll = roll
  round        : c.pacemaker.currentRound = k
  highQC       : c.tree.highQC = q
  highCommitQC : c.tree.highCommitQC = hc
  buckets      : c.tree.votes.Holds (BucketInv N.toGroup c.tree.voters)
  slots        : ∀ vk, (c.tree.voters.lookup vk).isSome = true → vk.round < k ∨ vk.round = k ∧ vk.signer ∈ seen

/-- Counters, rounds and timeouts are as they were. -/
def Core.Kept (c c' : Core) : Prop := c'.safety = c.safety ∧ c'.pacemaker = c.pacemaker

/-- The round after `k` was entered on a certificate. -/
def Core.Moved (k : UInt64) (c c' : Core) : Prop :=
  c'.safety = c.safety ∧ c'.pacemaker = { c.pacemaker with lastRoundTC := none }.startTimer (k + 1)

theorem Core.Kept.trans {c₁ c₂ c₃ : Core} (h₁ : c₁.Kept c₂) (h₂ : c₂.Kept c₃) : c₁.Kept c₃ :=
  ⟨h₂.1.trans h₁.1, h₂.2.trans h₁.2⟩

theorem Core.Moved.trans_kept {k : UInt64} {c₁ c₂ c₃ : Core} (h₁ : c₁.Moved k c₂) (h₂ : c₂.Kept c₃) : c₁.Moved k c₃ :=
  ⟨h₂.1.trans h₁.1, h₂.2.trans h₁.2⟩

theorem Core.Kept.trans_moved {k : UInt64} {c₁ c₂ c₃ : Core} (h₁ : c₁.Kept c₂) (h₂ : c₂.Moved k c₃) : c₁.Moved k c₃ :=
  ⟨h₂.1.trans h₁.1, by rw [h₂.2, h₁.2]⟩

/-- **A certificate that has nothing left to say** commits nothing. -/
theorem Group.Stands.processQC {G : Group} {k : UInt64} {q hc x : QuorumCert} {history fuel : Nat} {l l' : MemLedger}
    {t t' : BlockTree} {bs : List Block} (hx : G.Stands k q hc l x) (hhigh : t.highQC = q)
    (hcommit : t.highCommitQC = hc) (h : BlockTree.processQC history fuel l t (some x) = .ok (l', t', bs)) :
    l' = l ∧ bs = [] ∧ t'.highQC = q ∧ t'.highCommitQC = hc := by
  obtain ⟨-, ⟨hc, hl, rfl⟩ | ⟨-, rfl, rfl, rfl⟩⟩ := BlockTree.processQC_ok h
  · obtain ⟨hparent, hhigher⟩ := hx.done hc
    rw [MemLedger.commit, if_pos hparent] at hl
    cases hl
    refine ⟨rfl, rfl, ?_, ?_⟩
    · dsimp only
      rw [hhigh, hx.high]
    · dsimp only
      rw [hcommit, hhigher]
  · refine ⟨rfl, rfl, ?_, hcommit⟩
    dsimp only
    rw [hhigh, hx.high]

theorem Group.Stands.processQC_returns {G : Group} {k : UInt64} {q hc x : QuorumCert} {history fuel : Nat}
    {l : MemLedger} {t : BlockTree} (hx : G.Stands k q hc l x) :
    ∃ r, BlockTree.processQC history fuel l t (some x) = .ok r := by
  rw [BlockTree.processQC]
  split
  · rename_i hc
    rw [MemLedger.commit, if_pos (hx.done hc).1]
    exact ⟨_, rfl⟩
  · exact ⟨_, rfl⟩

theorem isSome_of_sub {K V : Type} [DecidableEq K] {m m' : Table K V} (h : Table.Sub m m') {k : K}
    (hk : (m.lookup k).isSome = true) : (m'.lookup k).isSome = true := by
  obtain ⟨v, hv⟩ := Option.isSome_iff_exists.1 hk
  rw [h k v hv]
  rfl

/-- Who leads round `r` by what is on file. -/
def Net.leads (N : Net) (roll : UInt64 → Option UInt32) (r : UInt64) : UInt32 :=
  rollLeader (newLeaderElection (N.config 0)).validators roll r

namespace Net.Level

variable {N : Net} {k : UInt64} {q hc y : QuorumCert} {l : MemLedger} {roll : UInt64 → Option UInt32}
  {seen : List UInt32} {c c' : Core} {i : UInt32} {env : Env} {moved : Bool} {eff : List Effect}
  {chain : List Speculated} {x : Speculated}

theorem getLeader_eq (h : N.Level k q hc l roll seen c) (round : UInt64) :
    c.leaders.getLeader round = N.leads roll round := by
  rw [LeaderElection.getLeader_roll, h.validators, h.roll]
  rfl

/-- What the certificates did may be followed by anything that touches neither tree nor ledger nor elections. -/
theorem congr (h : N.Level k q hc l roll seen c) (htree : c'.tree = c.tree) (hledger : c'.ledger = c.ledger)
    (hleaders : c'.leaders = c.leaders) (hround : c'.pacemaker.currentRound = c.pacemaker.currentRound) :
    N.Level k q hc l roll seen c' :=
  ⟨hledger.trans h.ledger, by rw [hleaders]; exact h.validators, by rw [hleaders]; exact h.roll, hround.trans h.round,
    by rw [htree]; exact h.highQC, by rw [htree]; exact h.highCommitQC, by rw [htree]; exact h.buckets,
    by rw [htree]; exact h.slots⟩

/-- **A certificate again**: it changes nothing but what is on file. -/
theorem again (h : N.Level k q hc l roll seen c) (hy : N.Stands k q hc l y)
    (hp : Core.processCertificateQC N.crypto (N.config i) env c (some y) = .ok ((c', moved), eff)) :
    ∃ roll', LeaderElection.Elects N.crypto (N.config i) l k y roll roll' ∧ N.Level k q hc l roll' seen c' ∧ c.Kept c' ∧
      eff = [] := by
  obtain ⟨l', t, bs, e, hqc, hupd, rfl, -, rfl⟩ := Core.processCertificateQC_ok hp
  have hvotes := processQC_votes h.buckets hqc
  have hsub := (processQC_voters hqc).1
  rw [h.ledger] at hqc
  obtain ⟨rfl, rfl, hhigh, hcommit⟩ := hy.processQC h.highQC h.highCommitQC hqc
  rw [h.round] at hupd
  obtain ⟨helects, hvalidators⟩ := LeaderElection.elects_of_updateLeaders hupd
  -- the round is past that of the certificate
  have hpace : (c.pacemaker.advanceRoundQC (some y)).1 = c.pacemaker := by
    rw [Pacemaker.advanceRoundQC_eq, h.round, if_pos hy.lt]
  exact ⟨e.roll, h.roll ▸ helects,
    ⟨rfl, hvalidators.trans h.validators, rfl, by rw [hpace]; exact h.round, hhigh, hcommit,
    hvotes, fun vk hvk => h.slots vk (isSome_of_sub hsub hvk)⟩, ⟨rfl, hpace⟩, rfl⟩

/-- **The certificate of the round**: what it commits is committed, and the next round is entered. -/
theorem enter (h : N.Level k q hc l roll seen c) (hexec : N.Executed k q hc chain x l) {q' : QuorumCert}
    (hq' : q'.Certifies k q x.block) (hk : k < k + 1)
    (hp : Core.processCertificateQC N.crypto (N.config i) env c (some q') = .ok ((c', moved), eff)) :
    N.Level (k + 1) q' (nextCommitQC k q hc q') (l.certified (N.config i).history k q chain).1 roll [] c' ∧
      c.Moved k c' ∧ moved = true ∧ eff = (l.certified (N.config i).history k q chain).2.map Effect.onCommit := by
  obtain ⟨l', t, bs, e, hqc, hupd, rfl, hmoved, rfl⟩ := Core.processCertificateQC_ok hp
  have hsub := (processQC_voters hqc).1
  have hbuckets := processQC_votes h.buckets hqc
  have hhigher : ∀ y : QuorumCert, y.voteInfo.round < k → higher q' y = q' := fun y hy => by
    rw [higher, if_pos (by rw [hq'.round]; exact hy)]
  -- no election is due: the replica is not past the certificate's round yet
  have hroll : c.leaders = e := by
    have hdue : q'.voteInfo.round + 1 ≠ c.pacemaker.currentRound := by
      rw [hq'.round, h.round]
      exact (UInt64.ne_of_lt hk).symm
    rw [LeaderElection.updateLeaders, if_pos (.inr hdue)] at hupd
    exact Except.ok.inj hupd
  subst hroll
  have hmove : ¬ q'.voteInfo.round < c.pacemaker.currentRound := by
    rw [hq'.round, h.round]
    exact UInt64.lt_irrefl _
  have hpace : c.pacemaker.advanceRoundQC (some q') =
      ({ c.pacemaker with lastRoundTC := none }.startTimer (k + 1), true) := by
    rw [Pacemaker.advanceRoundQC_eq, if_neg hmove, hq'.round]
  have hslots : ∀ vk, (t.voters.lookup vk).isSome = true → vk.round < k + 1 ∨ vk.round = k + 1 ∧ vk.signer ∈ [] := by
    intro vk hvk
    rcases h.slots vk (isSome_of_sub hsub hvk) with hlt | ⟨heq, -⟩
    · exact .inl (UInt64.lt_trans hlt hk)
    · exact .inl (heq ▸ hk)
  have htree : t.highQC = q' ∧ t.highCommitQC = nextCommitQC k q hc q' ∧
      (l', bs) = l.certified (N.config i).history k q chain := by
    obtain ⟨hhigh, ⟨hcommits, hcommit, rfl⟩ | ⟨hno, rfl, rfl, rfl⟩⟩ := BlockTree.processQC_ok hqc
    · have hnext : q.voteInfo.round + 1 = k := by
        rw [hq'.commits] at hcommits
        exact of_decide_eq_true hcommits
      rw [h.ledger, hq'.parentId] at hcommit
      refine ⟨?_, ?_, ?_⟩
      · dsimp only
        rw [h.highQC, hhigher q hexec.highQC.lt]
      · dsimp only
        rw [h.highCommitQC, hhigher hc hexec.highCommitQC.lt, nextCommitQC, if_pos hnext]
      · rw [MemLedger.certified, if_pos hnext]
        exact MemLedger.commit_settle hexec.hung hexec.top hexec.rises hcommit
    · have hgap : q.voteInfo.round + 1 ≠ k := by
        rw [hq'.commits] at hno
        exact of_decide_eq_false hno
      refine ⟨?_, ?_, ?_⟩
      · dsimp only
        rw [h.highQC, hhigher q hexec.highQC.lt]
      · dsimp only
        rw [h.highCommitQC, nextCommitQC, if_neg hgap]
      · rw [MemLedger.certified, if_neg hgap, h.ledger]
  obtain ⟨hhigh, hcommit, hled⟩ := htree
  refine ⟨⟨congrArg Prod.fst hled, h.validators, h.roll, by rw [hpace]; rfl, hhigh, hcommit, hbuckets, hslots⟩,
    ⟨rfl, by rw [hpace]⟩, by rw [hmoved, hpace], ?_⟩
  rw [← hled]

/-- **The loops end** that a certificate starts, the first time or again. -/
theorem again_returns (h : N.Level k q hc l roll seen c) (hready : N.Ready k q hc chain l) (hy : N.Stands k q hc l y)
    (hfuel : k.toNat ≤ env.fuel) : ∃ r, Core.processCertificateQC N.crypto (N.config i) env c (some y) = .ok r := by
  cases hs : Core.processCertificateQC N.crypto (N.config i) env c (some y) with
  | ok r => exact ⟨r, rfl⟩
  | error s =>
    obtain ⟨y', hy', ⟨hp, -⟩ | ⟨l', t, bs, hp, hloop, -⟩⟩ := Core.processCertificateQC_error hs
    all_goals
      cases hy'
      rw [h.ledger] at hp
    · obtain ⟨r, hr⟩ := hy.processQC_returns
      rw [hr] at hp
      cases hp
    · obtain ⟨rfl, -⟩ := hy.processQC h.highQC h.highCommitQC hp
      obtain ⟨w, hw⟩ := hready.walk_returns hy (N.config i).window (N.config i).exclude hfuel ⟨[], []⟩
      rw [LeaderElection.updateLeaders_error hloop] at hw
      cases hw

theorem enter_returns (h : N.Level k q hc l roll seen c) (hexec : N.Executed k q hc chain x l) {q' : QuorumCert}
    (hq' : q'.Certifies k q x.block) (hk : k < k + 1) (hfuel : k.toNat ≤ env.fuel) :
    ∃ r, Core.processCertificateQC N.crypto (N.config i) env c (some q') = .ok r := by
  cases hs : Core.processCertificateQC N.crypto (N.config i) env c (some q') with
  | ok r => exact ⟨r, rfl⟩
  | error s =>
    obtain ⟨q₀, hq₀, ⟨hp, -⟩ | ⟨l', t, bs, hp, hloop, -⟩⟩ := Core.processCertificateQC_error hs
    all_goals cases hq₀
    · obtain ⟨⟨l', bs⟩, hr⟩ : ∃ r, l.commit (N.config i).history env.fuel q.voteInfo.id = .ok r :=
        MemLedger.commit_returns hexec.top hexec.rises (Nat.le_trans (Nat.le_of_lt hexec.short) hfuel)
      rw [BlockTree.processQC] at hp
      split at hp
      · rw [hq'.parentId, h.ledger, hr] at hp
        cases hp
      · cases hp
    · -- no election is due
      have hdue : q'.voteInfo.round + 1 ≠ c.pacemaker.currentRound := by
        rw [hq'.round, h.round]
        exact (UInt64.ne_of_lt hk).symm
      rw [LeaderElection.updateLeaders, if_pos (.inr hdue)] at hloop
      cases hloop

end Net.Level

/-! ## Proposals -/

/-- What `MakeVote` puts to the vote for a block: its vote info, and what the votes commit. -/
def MemLedger.content (cr : Crypto) (l : MemLedger) (b : Block) : Content :=
  let info : VoteInfo :=
    { id := b.id, round := b.round, parentId := parentID b, parentRound := qcRound b.qc
      execStateId := (l.pendingState b.id).getD zeroHash }
  (info, { commitStateId := commitStateIDCandidate l b.round b.qc, voteInfoHash := voteInfoHash cr info })

/-- The vote is for the content, and brings the certificate along. -/
structure VoteMsg.For (content : Content) (hc : QuorumCert) (i : UInt32) (v : VoteMsg) : Prop where
  info         : v.voteInfo = content.1
  commit       : v.ledgerCommitInfo = content.2
  highCommitQc : v.highCommitQc = some hc
  sender       : v.sender = i

theorem VoteMsg.For.id {cr : Crypto} {l : MemLedger} {b : Block} {hc : QuorumCert} {i : UInt32} {v : VoteMsg}
    (h : v.For (l.content cr b) hc i) : v.voteInfo.id = b.id := by
  rw [h.info]
  rfl

theorem VoteMsg.For.round {cr : Crypto} {l : MemLedger} {b : Block} {hc : QuorumCert} {i : UInt32} {v : VoteMsg}
    (h : v.For (l.content cr b) hc i) : v.voteInfo.round = b.round := by
  rw [h.info]
  rfl

/-- **What warrants round `k`**: it follows that of the certificate, and there is no TC; or it follows the TC's, whose
signers reported nothing above the certificate. -/
def Warrants (k : UInt64) (q : QuorumCert) (tc : Option TimeoutCert) : Prop :=
  (q.voteInfo.round + 1 = k ∧ tc = none) ∨
    ∃ t, tc = some t ∧ t.round + 1 = k ∧ t.round < k ∧ maxHighQCRound t ≤ q.voteInfo.round

/-- **`MakeVote` returns a vote** for a valid block of a new round that is warranted, if the block is executed and
`Sign` works. -/
theorem Safety.makeVote_returns {v : Verifier} {env : Env} {id : UInt32} {l : MemLedger} {t : BlockTree} {s : Safety}
    {b : Block} {q : QuorumCert} {tc : Option TimeoutCert} {exec : Bytes} (hid : validBlockID v.crypto b = true)
    (hb : b.qc = some q) (hqc : v.verifyQC b.qc = true) (htc : v.verifyTC tc = true)
    (hround : s.highestVoteRound < b.round) (hlt : q.voteInfo.round < b.round) (hwarrants : Warrants b.round q tc)
    (hexec : l.pendingState b.id = some exec) (hsign : ∀ d, (env.sign d).isSome = true) :
    ∃ m, (s.makeVote v env id l t b tc).2 = some m ∧ m.For (l.content v.crypto b) t.highCommitQC id ∧
      (s.makeVote v env id l t b tc).1.highestVoteRound = b.round ∧
      (s.makeVote v env id l t b tc).1.highestQCRound = max q.voteInfo.round s.highestQCRound := by
  have hqcr : qcRound b.qc = q.voteInfo.round := by
    rw [hb]
    rfl
  have hsafe : s.safeToVote b.round (qcRound b.qc) tc = true := by
    rw [safeToVote_iff, hqcr]
    refine ⟨hround, hlt, hwarrants.imp And.left ?_⟩
    rintro ⟨t, ht, hnext, -, hmax⟩
    exact ⟨t, ht, hnext, hmax⟩
  have hsome : (s.makeVote v env id l t b tc).2.isSome = true := by
    have hcheck : (!validBlockID v.crypto b || !validSignatures v b.qc tc || !s.safeToVote b.round (qcRound b.qc) tc) =
        false := by
      rw [validSignatures, hid, hqc, htc, hsafe]
      rfl
    have hsign' : ∀ d, (Diem.sign env id d).isSome = true := fun d => by
      rw [Diem.sign, Option.isSome_map]
      exact hsign d
    simp only [makeVote, hcheck, hexec]
    split
    · rename_i hcontra
      cases hcontra
    · split
      · rename_i hnone
        exact absurd (hsign' _) (by rw [hnone]; simp)
      · rfl
  obtain ⟨m, hm⟩ := Option.isSome_iff_exists.1 hsome
  have hvoted := (s.makeVote_spec v env id l t b tc).2 m hm
  have hinfo : m.voteInfo = (l.content v.crypto b).1 := by
    rw [hvoted.info, MemLedger.content, hvoted.exec]
    rfl
  refine ⟨m, hm, ⟨hinfo, ?_, hvoted.highest, hvoted.sender.1⟩, hvoted.voted, by rw [hvoted.qc, hqcr]⟩
  rw [hvoted.commit, hinfo]
  rfl

/-- **The leader's proposal of round `k`** over the highest certificate. -/
structure ProposalMsg.Over (k : UInt64) (q hc : QuorumCert) (leader : UInt32) (b : Block) (p : ProposalMsg) : Prop where
  block        : p.block = some b
  round        : b.round = k
  qc           : b.qc = some q
  highCommitQc : p.highCommitQc = some hc
  lastRoundTc  : Warrants k q p.lastRoundTc
  sender       : p.sender = leader
  author       : b.author = leader

theorem Warrants.late {k : UInt64} {q : QuorumCert} {tc : Option TimeoutCert} (h : Warrants k q tc) :
    ∀ t, tc = some t → t.round < k := by
  rintro t rfl
  rcases h with ⟨-, hnone⟩ | ⟨t', heq, -, hlt, -⟩
  · cases hnone
  · cases heq
    exact hlt

/-- A TC of an earlier round changes nothing. -/
theorem Pacemaker.advanceRoundTC_late {p : Pacemaker} {k : UInt64} {tc : Option TimeoutCert}
    (hround : p.currentRound = k) (h : ∀ t, tc = some t → t.round < k) : (p.advanceRoundTC tc).1 = p := by
  cases tc with
  | none => rfl
  | some t => rw [Pacemaker.advanceRoundTC_eq, hround, if_pos (h t rfl)]

namespace Net.Level

variable {N : Net} {k : UInt64} {q hc : QuorumCert} {l : MemLedger} {roll : UInt64 → Option UInt32} {seen : List UInt32}
  {c c' c₁ : Core} {i leader : UInt32} {env : Env} {eff out : List Effect} {chain : List Speculated} {x : Speculated}
  {b : Block} {p : ProposalMsg} {tc : Option TimeoutCert}

/-- The block of the round is executed, and nothing is asked for. -/
theorem insert (h : N.Level k q hc l roll seen c) (hready : N.Ready k q hc chain l) (hqc : b.qc = some q)
    (hs : c.insert (N.config i) env b = .ok (c', eff)) :
    N.Level k q hc (l.speculate (N.config i).execute b).1 roll seen c' ∧ c.Kept c' ∧ eff = [] := by
  rw [Core.insert] at hs
  simp only [BlockTree.executeAndInsert] at hs
  rw [h.ledger, MemLedger.missing, hready.held_speculate hqc] at hs
  cases hs
  exact ⟨⟨rfl, h.validators, h.roll, h.round, h.highQC, h.highCommitQC, h.buckets, h.slots⟩, ⟨rfl, rfl⟩, rfl⟩

/-- The certificates of a proposal are processed first. -/
theorem certificates (hp : p.Over k q hc leader b)
    (hs : c.step N.crypto (N.config i) env (.proposal p) = .ok (c', eff)) :
    ∃ c₁ out, c.processCertificates N.crypto (N.config i) env (some q) (some hc) p.lastRoundTc = .ok (c₁, out) := by
  obtain ⟨c₁, out, h₁, -⟩ := Core.processProposalMsg_cases hs
  rw [hp.block, hp.highCommitQc, Option.getD_some, hp.qc] at h₁
  exact ⟨c₁, out, h₁⟩

/-- **A proposal of the round is voted for**, whatever its certificates did first. -/
theorem votes (h₁ : c.processCertificates N.crypto (N.config i) env (some q) (some hc) p.lastRoundTc = .ok (c₁, out))
    (h : N.Level k q hc l roll seen c₁) (hready : N.Ready k q hc chain l) (hvoted : c₁.safety.highestVoteRound < k)
    (hexec : ∀ prev payload, (N.config i).execute prev payload ≠ zeroHash) (hp : p.Over k q hc leader b)
    (he : N.Admits (.proposal p)) (hleader : N.leads roll k = leader) (hsign : ∀ d, (env.sign d).isSome = true)
    (hs : c.step N.crypto (N.config i) env (.proposal p) = .ok (c', eff)) :
    N.Level k q hc (l.speculate (N.config i).execute b).1 roll seen c' ∧ c'.pacemaker = c₁.pacemaker ∧
      c'.safety.highestVoteRound = k ∧
      c'.safety.highestQCRound = max q.voteInfo.round c₁.safety.highestQCRound ∧
      ∃ v, v.For ((l.speculate (N.config i).execute b).1.content N.crypto b) hc i ∧
        eff = out ++ [.vote v (N.leads roll (k + 1))] := by
  have hb := he.isBlock (.inr ⟨p, rfl, hp.block⟩)
  obtain ⟨-, hqc, -⟩ := he.proposed hp.block
  have htc : N.verifier.verifyTC p.lastRoundTc = true := he.tc.1
  rw [Core.step, Core.processProposalMsg] at hs
  simp only [hp.block, Option.getD_some, hp.qc, hp.highCommitQc, hp.sender, hp.author, hp.round, h₁] at hs
  have hget : c₁.leaders.getLeader c₁.pacemaker.currentRound = leader := by
    rw [h.getLeader_eq, h.round]
    exact hleader
  rw [if_neg (by rw [hget, h.round]; simp)] at hs
  obtain ⟨eff₂, h₂, rfl⟩ := Core.after_ok hs
  rw [Core.voteOn] at h₂
  split at h₂
  · cases h₂
  rename_i c₂ eff₃ h₃
  obtain ⟨hlevel, hkept, rfl⟩ := h.insert hready hp.qc h₃
  obtain ⟨s, hins⟩ := hready.insert hb hp.round hp.qc hexec
  obtain ⟨exec, hstate⟩ : ∃ exec, c₂.ledger.pendingState b.id = some exec := by
    rw [hlevel.ledger]
    exact Option.ne_none_iff_exists'.1 (MemLedger.pendingState_of_isSome (by rw [hins.pending]; rfl))
  obtain ⟨v, hv, hfor, hround, hqcs⟩ : ∃ v,
    (c₂.safety.makeVote (Core.verifier N.crypto (N.config i)) env (N.config i).id
      c₂.ledger c₂.tree b p.lastRoundTc).2 = some v ∧ _ ∧ _ ∧ _ :=
    Safety.makeVote_returns hb.1 hp.qc (by rw [N.verifier_eq]; exact hqc.1) (by rw [N.verifier_eq]; exact htc)
      (by rw [hkept.1, hp.round]; exact hvoted) (by rw [hp.round]; exact hready.highQC.lt)
      (by rw [hp.round]; exact hp.lastRoundTc) hstate hsign
  cases h₂
  rw [hlevel.ledger, hlevel.highCommitQC, N.id_eq] at hfor
  refine ⟨hlevel.congr rfl rfl rfl rfl, hkept.2, hround.trans hp.round, by rw [← hkept.1]; exact hqcs, v, hfor, ?_⟩
  rw [hv, hlevel.getLeader_eq, h.round]
  rfl

/-- **A proposal whose certificates were processed is stepped on.** -/
theorem proposal_returns
    (h₁ : c.processCertificates N.crypto (N.config i) env (some q) (some hc) p.lastRoundTc = .ok (c₁, out))
    (h : N.Level k q hc l roll seen c₁) (hready : N.Ready k q hc chain l) (hp : p.Over k q hc leader b) :
    ∃ r, c.step N.crypto (N.config i) env (.proposal p) = .ok r := by
  have hinsert : ∃ r, c₁.insert (N.config i) env b = .ok r := by
    rw [Core.insert]
    simp only [BlockTree.executeAndInsert, h.ledger, MemLedger.missing, hready.held_speculate hp.qc]
    exact ⟨_, rfl⟩
  obtain ⟨⟨c₂, eff₂⟩, h₂⟩ := hinsert
  rw [Core.step, Core.processProposalMsg]
  simp only [hp.block, Option.getD_some, hp.qc, hp.highCommitQc, h₁]
  split
  · exact ⟨_, rfl⟩
  · rw [Core.voteOn, h₂]
    exact ⟨_, rfl⟩

/-- **The certificates of a message of the round**, on a core that has processed them: an election is held by the
highest at most, and the other one is too old for any. -/
theorem certificates_again (h : N.Level k q hc l roll seen c) (hready : N.Ready k q hc chain l)
    (htc : ∀ t, tc = some t → t.round < k)
    (h₁ : c.processCertificates N.crypto (N.config i) env (some q) (some hc) tc = .ok (c₁, out)) :
    ∃ roll', LeaderElection.Elects N.crypto (N.config i) l k q roll roll' ∧ N.Level k q hc l roll' seen c₁ ∧ c.Kept c₁ ∧
      out = [] := by
  obtain ⟨c₂, m₂, out₂, c₃, m₃, out₃, h₂, h₃, rfl, rfl⟩ := Core.processCertificates_ok h₁
  obtain ⟨roll', helects, hlevel, hkept, rfl⟩ := h.again hready.highQC h₂
  obtain ⟨roll'', helects', hlevel', hkept', rfl⟩ := hlevel.again hready.highCommitQC h₃
  have hroll : roll'' = roll' := by
    rcases hready.order with rfl | hlt
    · exact helects.again helects'
    · exact helects'.still (hready.succ_ne hlt)
  have hpace := Pacemaker.advanceRoundTC_late hlevel'.round htc
  refine ⟨roll', helects, (hroll ▸ hlevel').congr rfl rfl rfl (by rw [hpace]), ?_, rfl⟩
  exact hkept.trans (hkept'.trans ⟨rfl, hpace⟩)

/-- A proposal on a core that is a round behind: the certificate takes it to the round, and then the election is held.
-/
theorem certificates_enter (h : N.Level k q hc l roll seen c) (hexec : N.Executed k q hc chain x l) {q' : QuorumCert}
    (hq' : q'.Certifies k q x.block) (hk : k < k + 1) (htc : ∀ t, tc = some t → t.round < k + 1)
    (h₁ : c.processCertificates N.crypto (N.config i) env (some q') (some (nextCommitQC k q hc q')) tc =
      .ok (c₁, out)) :
    ∃ roll', LeaderElection.Elects N.crypto (N.config i) (l.certified (N.config i).history k q chain).1 (k + 1) q'
        roll roll' ∧
      N.Level (k + 1) q' (nextCommitQC k q hc q') (l.certified (N.config i).history k q chain).1 roll' [] c₁ ∧
      c.Moved k c₁ ∧ out = (l.certified (N.config i).history k q chain).2.map Effect.onCommit := by
  obtain ⟨c₂, m₂, out₂, c₃, m₃, out₃, h₂, h₃, rfl, rfl⟩ := Core.processCertificates_ok h₁
  obtain ⟨hlevel, hmoved, -, rfl⟩ := h.enter hexec hq' hk h₂
  have hready := hexec.certified (N.config i).history hk hq'
  obtain ⟨roll', helects, hlevel', hkept, rfl⟩ := hlevel.again hready.highCommitQC h₃
  have hpace := Pacemaker.advanceRoundTC_late hlevel'.round htc
  refine ⟨roll', ?_, hlevel'.congr rfl rfl rfl (by rw [hpace]), hmoved.trans_kept (hkept.trans ⟨rfl, hpace⟩),
    List.append_nil _⟩
  by_cases hnext : q.voteInfo.round + 1 = k
  · rwa [nextCommitQC, if_pos hnext] at helects
  · -- over a gap in rounds nobody is elected
    have hold : hc.voteInfo.round < q'.voteInfo.round := by
      rw [hq'.round]
      exact hexec.highCommitQC.lt
    rw [nextCommitQC, if_neg hnext] at helects
    refine .inl ⟨.inl ?_, helects.still (hready.succ_ne hold)⟩
    rw [hq'.parentRound, hq'.round]
    exact hnext

theorem certificates_again_returns (h : N.Level k q hc l roll seen c) (hready : N.Ready k q hc chain l)
    (tc : Option TimeoutCert) (hfuel : k.toNat ≤ env.fuel) :
    ∃ r, c.processCertificates N.crypto (N.config i) env (some q) (some hc) tc = .ok r := by
  obtain ⟨⟨⟨c₂, m₂⟩, out₂⟩, h₂⟩ := h.again_returns (i := i) hready hready.highQC hfuel
  obtain ⟨roll', -, hlevel, -⟩ := h.again hready.highQC h₂
  obtain ⟨⟨⟨c₃, m₃⟩, out₃⟩, h₃⟩ := hlevel.again_returns (i := i) hready hready.highCommitQC hfuel
  rw [Core.processCertificates, h₂]
  dsimp only
  rw [h₃]
  exact ⟨_, rfl⟩

theorem certificates_enter_returns (h : N.Level k q hc l roll seen c) (hexec : N.Executed k q hc chain x l)
    {q' : QuorumCert} (hq' : q'.Certifies k q x.block) (hk : k < k + 1) (tc : Option TimeoutCert)
    (hfuel : (k + 1).toNat ≤ env.fuel) :
    ∃ r, c.processCertificates N.crypto (N.config i) env (some q') (some (nextCommitQC k q hc q')) tc = .ok r := by
  have hfuel' : k.toNat ≤ env.fuel := Nat.le_trans (Nat.le_of_lt (UInt64.lt_iff_toNat_lt.1 hk)) hfuel
  obtain ⟨⟨⟨c₂, m₂⟩, out₂⟩, h₂⟩ := h.enter_returns (i := i) hexec hq' hk hfuel'
  obtain ⟨hlevel, -⟩ := h.enter hexec hq' hk h₂
  have hready := hexec.certified (N.config i).history hk hq'
  obtain ⟨⟨⟨c₃, m₃⟩, out₃⟩, h₃⟩ := hlevel.again_returns (i := i) hready hready.highCommitQC hfuel
  rw [Core.processCertificates, h₂]
  dsimp only
  rw [h₃]
  exact ⟨_, rfl⟩

end Net.Level

/-! ## The votes of a round -/

/-- There is a round after this one. -/
theorem lt_succ_of_room {k : UInt64} (hroom : k.toNat + 4 < 2 ^ 64) : k < k + 1 := by
  rw [UInt64.lt_iff_toNat_lt, UInt64.toNat_add]
  exact (by omega : k.toNat < (k.toNat + 1) % 2 ^ 64)

theorem commits_of_ne {l : LedgerCommitInfo} (hlen : l.commitStateId.len = hashLen) (hne : l.commitStateId ≠ zeroHash) :
    commits l = true := by
  by_contra hno
  rw [commits, List.any_eq_true] at hno
  refine hne (Slice.ext' (List.eq_replicate_iff.2 ⟨hlen, fun x hx => ?_⟩))
  by_contra hx0
  exact hno ⟨x, hx, bne_iff_ne.2 hx0⟩

/-- **A certificate of what is put to the vote** commits the block below if rounds are consecutive, since the state of
that is known; over a gap it commits nothing. -/
theorem Group.Executed.certifies {G : Group} {k : UInt64} {q hc q' : QuorumCert} {chain : List Speculated}
    {x : Speculated} {l : MemLedger} {cr : Crypto} (h : G.Executed k q hc chain x l)
    (hinfo : q'.voteInfo = (l.content cr x.block).1) (hcommit : q'.ledgerCommitInfo = (l.content cr x.block).2)
    (hlen : q'.ledgerCommitInfo.commitStateId.len = hashLen) : q'.Certifies k q x.block := by
  have hround : qcRound x.block.qc = q.voteInfo.round := by
    rw [h.qc]
    rfl
  have hcand : q'.ledgerCommitInfo.commitStateId = commitStateIDCandidate l x.block.round x.block.qc := by
    rw [hcommit]
    rfl
  refine ⟨by rw [hinfo]; rfl, by rw [hinfo]; exact h.round, by rw [hinfo]; exact h.parentID_eq,
    by rw [hinfo]; exact hround, ?_⟩
  by_cases hnext : q.voteInfo.round + 1 = k
  · obtain ⟨s, hs, hne⟩ := h.state
    rw [commitStateIDCandidate, consecutive_iff.2 (by rw [hround, h.round]; exact hnext), h.qc,
      certifiedID, hs] at hcand
    rw [decide_eq_true hnext]
    exact commits_of_ne hlen (hcand ▸ hne)
  · have hgap : consecutive x.block.round (qcRound x.block.qc) = false := by
      rw [← Bool.not_eq_true, consecutive_iff, hround, h.round]
      exact hnext
    rw [commitStateIDCandidate, hgap] at hcand
    rw [decide_eq_false hnext, commits, hcand]
    rfl

namespace Net.Level

variable {N : Net} {k : UInt64} {q hc : QuorumCert} {l : MemLedger} {roll : UInt64 → Option UInt32} {seen : List UInt32}
  {c c' : Core} {i j : UInt32} {env : Env} {eff : List Effect} {chain : List Speculated} {x : Speculated} {v : VoteMsg}

/-- Of a round without votes there is no bucket. -/
theorem bucketOf_empty (h : N.Level k q hc l roll [] c) (hv : N.Admits (.vote v)) (hround : v.voteInfo.round = k) :
    (bucketOf N.crypto c.tree v).sigs.len = 0 := by
  obtain ⟨hinfo, -, hinv⟩ := bucketOf_spec h.buckets hv
  rw [Slice.len, List.length_eq_zero_iff]
  refine List.eq_nil_iff_forall_not_mem.2 (fun s hs => ?_)
  have htaken := hinv.taken s hs
  rw [hinfo, hround] at htaken
  rcases h.slots _ htaken with hlt | ⟨-, hmem⟩
  · exact UInt64.lt_irrefl _ hlt
  · cases hmem

/-- The certificate a vote brings along is processed again: the vote's bucket stays. -/
theorem bucketOf_again {t : BlockTree} {bs : List Block} {fuel : Nat} {l' : MemLedger}
    (h : N.Level k q hc l roll seen c) (hready : N.Ready k q hc chain l) (hv : N.Admits (.vote v))
    (hround : v.voteInfo.round = k)
    (hp : BlockTree.processQC (N.config i).history fuel c.ledger c.tree (some hc) = .ok (l', t, bs)) :
    bucketOf N.crypto t v = bucketOf N.crypto c.tree v := by
  obtain ⟨-, ⟨-, -, rfl⟩ | ⟨-, -, -, rfl⟩⟩ := BlockTree.processQC_ok hp
  · have hroot : ¬ v.voteInfo.round ≤ hc.voteInfo.parentRound := by
      rw [hround, UInt64.not_le]
      exact hready.highCommitQC.older
    have hprune : bucketOf N.crypto (c.tree.prune hc.voteInfo.parentId hc.voteInfo.parentRound) v =
        bucketOf N.crypto c.tree v := bucketOf_prune h.buckets hv hroot
    exact hprune
  · rfl

/-- **A vote of the round is put in its bucket**: it is one more, or the last that was missing. -/
theorem tally {t t' : BlockTree} {bs : List Block} {l' : MemLedger} {qc : Option QuorumCert}
    (h : N.Level k q hc l roll seen c) (hexec : N.Executed k q hc chain x l) (hv : N.Admits (.vote v))
    (hfor : v.For (l.content N.crypto x.block) hc j) (hj : j ∉ seen)
    (hlen : (bucketOf N.crypto c.tree v).sigs.len = seen.length) (hsign : ∀ d, (env.sign d).isSome = true)
    (hp : BlockTree.processQC (N.config i).history env.fuel c.ledger c.tree (some hc) = .ok (l', t, bs))
    (hacc : t.accumulate N.crypto env i N.verifier.quorum v = (t', qc)) :
    N.Level k q hc l roll (j :: seen) { c with ledger := l', tree := t' } ∧ bs = [] ∧
      ((seen.length + 1 < N.verifier.quorum ∧ qc = none ∧ (bucketOf N.crypto t' v).sigs.len = seen.length + 1) ∨
        (N.verifier.quorum ≤ seen.length + 1 ∧ ∃ q', qc = some q' ∧ q'.Certifies k q x.block)) := by
  have hround : v.voteInfo.round = k := by
    rw [hfor.info]
    exact hexec.round
  have hbucket := h.bucketOf_again hexec.toReady hv hround hp
  have ht := processQC_votes h.buckets hp
  have hsub := (processQC_voters hp).1
  rw [h.ledger] at hp
  obtain ⟨rfl, rfl, hhigh, hcommit⟩ := hexec.highCommitQC.processQC h.highQC h.highCommitQC hp
  obtain ⟨hinfo, hbcommit, hinv⟩ := bucketOf_spec ht hv
  have hpush : ((bucketOf N.crypto t v).sigs.push v.sig).len = seen.length + 1 := by
    rw [Slice.len, hinv.elems_push, List.length_append, ← hlen, hbucket]
    rfl
  rcases accumulate_signing hsign hacc with ⟨hslot, -, -⟩ | ⟨-, hvoters, hhigh', hcommit', votes, hvotes, hend⟩
  · -- the slot of the sender was free
    rcases h.slots _ (isSome_of_sub hsub hslot) with hlt | ⟨-, hmem⟩
    · exact absurd (hround ▸ hlt) (UInt64.lt_irrefl _)
    · exact absurd (hfor.sender ▸ hmem) hj
  refine ⟨⟨rfl, h.validators, h.roll, h.round, hhigh'.trans hhigh, hcommit'.trans hcommit,
    (accumulate_votes ht hv hacc).1, fun vk hvk => ?_⟩, rfl, ?_⟩
  · rw [hvoters] at hvk
    by_cases heq : vk = ⟨v.voteInfo.round, v.sender⟩
    · subst heq
      exact .inr ⟨hround, hfor.sender ▸ List.mem_cons_self⟩
    · rw [AList.lookup_insert_ne heq] at hvk
      exact (h.slots vk (isSome_of_sub hsub hvk)).imp_right (And.imp_right (List.mem_cons_of_mem _))
  · rw [hpush] at hend
    rcases hend with ⟨hlt, hv', rfl⟩ | ⟨hle, q', rfl, hqi, hqc, -⟩
    · refine .inl ⟨hlt, rfl, ?_⟩
      rw [← hpush, bucketOf, hv', hvotes, AList.lookup_insert]
      rfl
    · refine .inr ⟨hle, q', rfl, hexec.certifies ((hqi.trans hinfo).trans hfor.info)
        ((hqc.trans hbcommit).trans hfor.commit) ?_⟩
      obtain ⟨-, hvalid, -⟩ := (N.verifier.verifyVote_iff v).1 hv.1
      rw [hqc, hbcommit]
      exact ((validVote_iff _ _).1 hvalid).2.2.2.1

/-- **A vote of the round is counted.**  At the last that was missing the certificate is put together, what it commits
is committed, and the next round is entered. -/
theorem count (h : N.Level k q hc l roll seen c) (hexec : N.Executed k q hc chain x l) (hroom : k.toNat + 4 < 2 ^ 64)
    (hv : N.Admits (.vote v)) (hfor : v.For (l.content N.crypto x.block) hc j) (hj : j ∉ seen)
    (hlen : (bucketOf N.crypto c.tree v).sigs.len = seen.length) (hsign : ∀ d, (env.sign d).isSome = true)
    (hs : c.step N.crypto (N.config i) env (.vote v) = .ok (c', eff)) :
    (seen.length + 1 < N.verifier.quorum ∧ N.Level k q hc l roll (j :: seen) c' ∧ c.Kept c' ∧ eff = [] ∧
      (bucketOf N.crypto c'.tree v).sigs.len = seen.length + 1) ∨
    (N.verifier.quorum ≤ seen.length + 1 ∧ ∃ q', q'.Certifies k q x.block ∧
      N.Level (k + 1) q' (nextCommitQC k q hc q') (l.certified (N.config i).history k q chain).1 roll [] c' ∧
      c.Moved k c' ∧
      eff = .assembled q' :: ((l.certified (N.config i).history k q chain).2.map Effect.onCommit ++
        Core.processNewRoundEvent N.crypto (N.config i) env c' none)) := by
  have hk := lt_succ_of_room hroom
  rcases Core.processVoteMsg_ok hs with ⟨hwin, -, -⟩ | ⟨-, l₁, t, bs, hp, hend⟩
  · refine absurd ?_ hwin
    have hround : v.voteInfo.round = k := by
      rw [hfor.info]
      exact hexec.round
    rw [InWindow, h.round, hround]
    rintro (hlt | hlt)
    · rw [UInt64.lt_iff_toNat_lt, UInt64.toNat_add] at hlt
      exact absurd hlt (by change ¬ (k.toNat + 4) % 2 ^ 64 < k.toNat; omega)
    · exact UInt64.lt_irrefl _ (UInt64.lt_trans hlt hk)
  rw [hfor.highCommitQc] at hp
  rw [N.id_eq, N.quorum_eq] at hend
  rcases hend with ⟨t', hacc, rfl, rfl⟩ | ⟨t', q', moved, eff', hacc, hq, rfl⟩
  all_goals obtain ⟨hlevel, rfl, hcount⟩ := h.tally hexec hv hfor hj hlen hsign hp hacc
  · rcases hcount with ⟨hlt, -, hlen'⟩ | ⟨-, q', hcontra, -⟩
    · exact .inl ⟨hlt, hlevel, ⟨rfl, rfl⟩, rfl, hlen'⟩
    · cases hcontra
  · rcases hcount with ⟨-, hcontra, -⟩ | ⟨hle, q'', heq, hcert⟩
    · cases hcontra
    · cases heq
      obtain ⟨hnext, hmoved, rfl, rfl⟩ := hlevel.enter hexec hcert hk hq
      exact .inr ⟨hle, q', hcert, hnext, hmoved, rfl⟩

/-- And the step returns. -/
theorem vote_returns (h : N.Level k q hc l roll seen c) (hexec : N.Executed k q hc chain x l)
    (hroom : k.toNat + 4 < 2 ^ 64) (hv : N.Admits (.vote v)) (hfor : v.For (l.content N.crypto x.block) hc j)
    (hj : j ∉ seen) (hlen : (bucketOf N.crypto c.tree v).sigs.len = seen.length)
    (hsign : ∀ d, (env.sign d).isSome = true) (hfuel : k.toNat ≤ env.fuel) :
    ∃ r, c.step N.crypto (N.config i) env (.vote v) = .ok r := by
  obtain ⟨⟨l', t, bs⟩, hp⟩ : ∃ r, BlockTree.processQC (N.config i).history env.fuel c.ledger c.tree
    (some hc) = .ok r := by
    rw [h.ledger]
    exact hexec.highCommitQC.processQC_returns
  rw [Core.step, Core.processVoteMsg]
  dsimp only
  split
  · exact ⟨_, rfl⟩
  rw [BlockTree.processVote, hfor.highCommitQc, hp]
  dsimp only
  rw [N.id_eq, N.quorum_eq]
  generalize hacc : t.accumulate N.crypto env i N.verifier.quorum v = y
  obtain ⟨t', qc⟩ := y
  obtain ⟨hlevel, -, ⟨-, rfl, -⟩ | ⟨-, q', rfl, hcert⟩⟩ := h.tally hexec hv hfor hj hlen hsign hp hacc
  · exact ⟨_, rfl⟩
  · dsimp only
    obtain ⟨⟨⟨c', moved⟩, eff⟩, hr⟩ := hlevel.enter_returns (i := i) hexec hcert (lt_succ_of_room hroom) hfuel
    rw [hr]
    exact ⟨_, rfl⟩

/-- Whoever leads the round proposes when it enters it, over the highest certificate and with what justifies the round.
-/
theorem proposes (h : N.Level k q hc l roll seen c) {tc : Option TimeoutCert}
    (hjust : Warrants k q (justifyingTC q.voteInfo.round k tc)) (hsign : ∀ d, (env.sign d).isSome = true) :
    (N.leads roll k ≠ i ∧ Core.processNewRoundEvent N.crypto (N.config i) env c tc = []) ∨
    (N.leads roll k = i ∧ ∃ b p, p.Over k q hc i b ∧
      Core.processNewRoundEvent N.crypto (N.config i) env c tc = [.proposal p]) := by
  have hget : c.leaders.getLeader c.pacemaker.currentRound = N.leads roll k := by
    rw [h.getLeader_eq, h.round]
  simp only [Core.processNewRoundEvent, hget, N.id_eq]
  by_cases hlead : N.leads roll k = i
  · obtain ⟨sig, hsig⟩ := Option.isSome_iff_exists.1
      (hsign (c.tree.generateBlock N.crypto i env.txns c.pacemaker.currentRound).id)
    rw [if_neg (not_not.2 hlead), sign, hsig]
    refine .inr ⟨hlead, c.tree.generateBlock N.crypto i env.txns c.pacemaker.currentRound, _, ?_, rfl⟩
    rw [← h.highQC, ← h.round] at hjust
    exact ⟨rfl, h.round, congrArg some h.highQC, congrArg some h.highCommitQC, h.highQC ▸ h.round ▸ hjust, rfl, rfl⟩
  · rw [if_pos hlead]
    exact .inl ⟨hlead, rfl⟩

end Net.Level

/-- Replica `i` steps on an event that its edge lets in, and `Sign` works. -/
structure Net.Turned (N : Net) (i : UInt32) (e : Event) (c c' : Core) (eff : List Effect) : Prop where
  admits  : N.Admits e
  stepped : ∃ env, (∀ d, (env.sign d).isSome = true) ∧ c.step N.crypto (N.config i) env e = .ok (c', eff)

/-- Replica `i` steps on the events one after the other. -/
inductive Net.Hears (N : Net) (i : UInt32) : List Event → Core → Core → List Effect → Prop
  | nil (c : Core) : Hears N i [] c c []
  | cons {e : Event} {es : List Event} {c c₁ c' : Core} {eff eff' : List Effect} :
      N.Turned i e c c₁ eff → Hears N i es c₁ c' eff' → Hears N i (e :: es) c c' (eff ++ eff')

/-- The events stepped one after the other, with all that was done; none if a step does not return. -/
def Core.steps (cr : Crypto) (cfg : Config) (env : Env) : List Event → Core → Option (Core × List Effect)
  | [],      c => some (c, [])
  | e :: es, c =>
    match c.step cr cfg env e with
    | .error _      => none
    | .ok (c', eff) => (steps cr cfg env es c').map (fun x => (x.1, eff ++ x.2))

theorem Core.steps_cons {cr : Crypto} {cfg : Config} {env : Env} {e : Event} {es : List Event} {c c₁ c' : Core}
    {eff eff' : List Effect} (h : c.step cr cfg env e = .ok (c₁, eff))
    (h' : Core.steps cr cfg env es c₁ = some (c', eff')) :
    Core.steps cr cfg env (e :: es) c = some (c', eff ++ eff') := by
  rw [Core.steps, h]
  dsimp only
  rw [h']
  rfl

theorem Net.Hears.of_steps {N : Net} {i : UInt32} {env : Env} (hsign : ∀ d, (env.sign d).isSome = true) {c' : Core} :
    ∀ {es : List Event} {c : Core} {eff : List Effect}, (∀ e ∈ es, N.Admits e) →
      Core.steps N.crypto (N.config i) env es c = some (c', eff) → N.Hears i es c c' eff
  | [],      c, eff, _,       h => by
    cases h
    exact .nil c'
  | e :: es, c, eff, hadmits, h => by
    rw [Core.steps] at h
    split at h
    · cases h
    · rename_i c₁ eff₁ hs
      obtain ⟨⟨c₂, eff₂⟩, hrest, heq⟩ := Option.map_eq_some_iff.1 h
      cases heq
      exact .cons ⟨hadmits e List.mem_cons_self, env, hsign, hs⟩
        (Net.Hears.of_steps hsign (fun e he => hadmits e (List.mem_cons_of_mem _ he)) hrest)

/-- Votes for one content that are still to be counted, where those of `seen` have been. -/
structure Net.Due (N : Net) (content : Content) (hc : QuorumCert) (seen : List UInt32) (t : BlockTree)
    (vs : List VoteMsg) : Prop where
  votes  : ∀ v ∈ vs, v.For content hc v.sender ∧ v.sender ∉ seen ∧ (bucketOf N.crypto t v).sigs.len = seen.length
  nodup  : (vs.map VoteMsg.sender).Nodup

theorem Net.Due.tail {N : Net} {content : Content} {hc : QuorumCert} {seen : List UInt32}
    {t t' : BlockTree} {v : VoteMsg} {vs : List VoteMsg} (h : N.Due content hc seen t (v :: vs))
    (hlen : (bucketOf N.crypto t' v).sigs.len = seen.length + 1) : N.Due content hc (v.sender :: seen) t' vs := by
  have hnodup := h.nodup
  rw [List.map_cons, List.nodup_cons] at hnodup
  refine ⟨fun u hu => ?_, hnodup.2⟩
  obtain ⟨hfor, -, -⟩ := h.votes v List.mem_cons_self
  obtain ⟨hfor', hnew', -⟩ := h.votes u (List.mem_cons_of_mem _ hu)
  have halike : u.Alike v := ⟨hfor'.info.trans hfor.info.symm, hfor'.commit.trans hfor.commit.symm⟩
  have hne : u.sender ≠ v.sender := fun heq => hnodup.1 (heq ▸ List.mem_map_of_mem hu)
  refine ⟨hfor', List.not_mem_cons_of_ne_of_not_mem hne hnew', ?_⟩
  rw [bucketOf_alike halike, hlen]
  rfl

namespace Net.Level

variable {N : Net} {k : UInt64} {q hc : QuorumCert} {l : MemLedger} {roll : UInt64 → Option UInt32}
  {i : UInt32} {chain : List Speculated} {x : Speculated}

/-- **The votes of a quorum, in any order**: the leader of the next round puts the certificate together at the last of
them, and answers with its proposal. -/
theorem gather (hexec : N.Executed k q hc chain x l) (hroom : k.toNat + 4 < 2 ^ 64) (hlead : N.leads roll (k + 1) = i) :
    ∀ {vs : List VoteMsg} {seen : List UInt32} {c c' : Core} {eff : List Effect}, N.Level k q hc l roll seen c →
      N.Due (l.content N.crypto x.block) hc seen c.tree vs → vs ≠ [] → seen.length + vs.length = N.verifier.quorum →
      N.Hears i (vs.map Event.vote) c c' eff →
      ∃ q' b' p', q'.Certifies k q x.block ∧
        N.Level (k + 1) q' (nextCommitQC k q hc q') (l.certified (N.config i).history k q chain).1 roll [] c' ∧
        c.Moved k c' ∧ p'.Over (k + 1) q' (nextCommitQC k q hc q') i b' ∧
        eff = .assembled q' ::
          ((l.certified (N.config i).history k q chain).2.map Effect.onCommit ++ [.proposal p']) := by
  intro vs
  induction vs with
  | nil => exact fun _ _ hne => absurd rfl hne
  | cons v vs ih =>
    intro seen c c' eff h hdue _ hlen hears
    rw [List.map_cons] at hears
    rcases hears with _ | ⟨⟨hv, env, hsign, hs⟩, hrest⟩
    obtain ⟨hfor, hnew, hbucket⟩ := hdue.votes v List.mem_cons_self
    rw [List.length_cons] at hlen
    rcases h.count hexec hroom hv hfor hnew hbucket hsign hs with
      ⟨hlt, hlevel, hkept, rfl, hbucket'⟩ | ⟨hle, q', hq', hlevel, hmoved, rfl⟩
    · have hne : vs ≠ [] := by
        rintro rfl
        rw [List.length_nil] at hlen
        omega
      obtain ⟨q', b', p', hq', hlevel', hmoved, hp', heff⟩ :=
        ih hlevel (hdue.tail hbucket') hne (by rw [List.length_cons]; omega) hrest
      exact ⟨q', b', p', hq', hlevel', hkept.trans_moved hmoved, hp', heff⟩
    · -- the last of them
      have hnil : vs = [] := List.length_eq_zero_iff.1 (by omega)
      subst hnil
      cases hrest
      have hjust : Warrants (k + 1) q' (justifyingTC q'.voteInfo.round (k + 1) none) := by
        rw [hq'.round]
        exact .inl ⟨by rw [hq'.round], if_pos rfl⟩
      rcases hlevel.proposes (i := i) hjust hsign with ⟨hno, -⟩ | ⟨-, b', p', hp', heq⟩
      · exact absurd hlead hno
      · rw [heq]
        exact ⟨q', b', p', hq', hlevel, hmoved, hp', List.append_nil _⟩

/-- And every step returns. -/
theorem gather_returns (hexec : N.Executed k q hc chain x l) (hroom : k.toNat + 4 < 2 ^ 64) {env : Env}
    (hsign : ∀ d, (env.sign d).isSome = true) (hfuel : k.toNat ≤ env.fuel) :
    ∀ {vs : List VoteMsg} {seen : List UInt32} {c : Core}, N.Level k q hc l roll seen c →
      N.Due (l.content N.crypto x.block) hc seen c.tree vs → (∀ v ∈ vs, N.Admits (.vote v)) →
      seen.length + vs.length ≤ N.verifier.quorum →
      ∃ c' eff, Core.steps N.crypto (N.config i) env (vs.map Event.vote) c = some (c', eff) := by
  intro vs
  induction vs with
  | nil => exact fun _ _ _ _ => ⟨_, _, rfl⟩
  | cons v vs ih =>
    intro seen c h hdue hadmits hlen
    have hv := hadmits v List.mem_cons_self
    obtain ⟨hfor, hnew, hbucket⟩ := hdue.votes v List.mem_cons_self
    rw [List.length_cons] at hlen
    obtain ⟨⟨c₁, eff₁⟩, hs⟩ := h.vote_returns (i := i) hexec hroom hv hfor hnew hbucket hsign hfuel
    rcases h.count hexec hroom hv hfor hnew hbucket hsign hs with ⟨-, hlevel, -, -, hbucket'⟩ | ⟨hle, -⟩
    · obtain ⟨c', eff, hrest⟩ := ih hlevel (hdue.tail hbucket') (fun u hu => hadmits u (List.mem_cons_of_mem _ hu))
        (by rw [List.length_cons]; omega)
      exact ⟨c', _, Core.steps_cons hs hrest⟩
    · have hnil : vs = [] := List.length_eq_zero_iff.1 (by omega)
      subst hnil
      exact ⟨c₁, _, Core.steps_cons hs rfl⟩

end Net.Level

end Diem

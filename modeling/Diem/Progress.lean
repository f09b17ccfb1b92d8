import Diem.Stores
/-!
# Progress — counters that only rise

Round, highest certificates, votes and commits are counted in five places, by different handlers.  As long as no round
wraps none of the counters falls, and they stay in order: what was voted for is not beyond the round, nothing is known
beyond the highest certificate, and no commit is beyond the certificate that made it.  `Commit` compares no rounds: that
it raises the ledger's is known from the certificates of the chain it climbs, a quorum behind each.
-/
namespace Diem

/-! ## Commits -/

/-- An honest replica voted for the certificate's content. -/
def Group.Backed (G : Group) (q : QuorumCert) : Prop := ∃ b tc, G.Vouched q.voteInfo q.ledgerCommitInfo b tc

/-- What such a certificate commits is a certified block of a lower round. -/
theorem Group.Backed.parent {G : Group} {log : List (UInt32 × Signed)} (hb : Ballots G log) {q : QuorumCert}
    (hq : G.Backed q) : G.CertifiedID q.voteInfo.parentId ∧
      ∃ p, G.IsBlock p ∧ p.id = q.voteInfo.parentId ∧ p.round < q.voteInfo.round := by
  obtain ⟨b, tc, hv⟩ := hq
  have hid : certifiedID b.qc = q.voteInfo.parentId := by rw [hv.parentId_eq, parentID_eq]
  obtain ⟨p, hp, hpid, hpr⟩ := hb.exists_block hv.qc
  refine ⟨⟨b.qc, hv.qc, hid⟩, p, hp, hpid.trans hid, ?_⟩
  rw [hpr, hv.round_eq]
  exact hv.above

/-- The ledger's commit round is that of the block at its frontier. -/
def Group.Fronted (G : Group) (l : MemLedger) : Prop :=
  ∃ b, G.IsBlock b ∧ b.id = l.commitID ∧ b.round = l.commitRound

section

variable {G : Group} {l l' : MemLedger} {log : List (UInt32 × Signed)}

/-- A pending path to a certified block rises from the commit round. -/
theorem LedgerInv.path_rises (hb : Ballots G log) (h : LedgerInv G G.IsBlock l) (hfront : G.Fronted l)
    {chain : List Speculated} {id : Bytes} (hr : l.Rises chain id) (hid : G.CertifiedID id) :
    ∃ b, G.IsBlock b ∧ b.id = id ∧ l.commitRound ≤ b.round := by
  induction hr with
  | nil =>
    obtain ⟨b, hblock, hbid, hround⟩ := hfront
    exact ⟨b, hblock, hbid, by rw [hround]; exact UInt64.le_refl _⟩
  | @snoc chain id s hr hs ih =>
    obtain ⟨rfl, hblock, hparent⟩ := h.pending _ _ hs
    have hcert := (hb.certifiedID_parent hid hblock hparent.len).resolve_left hparent.ne_zeroHash
    obtain ⟨p, hp, hpid, hround⟩ := ih hcert.1
    have hlt := hb.round_lt_of_parent hid hblock hp hpid
    exact ⟨s.block, hblock, rfl, UInt64.le_of_lt (UInt64.lt_of_le_of_lt hround hlt)⟩

/-- **A commit raises the commit round**, to that of the block committed, or does nothing. -/
theorem LedgerInv.commit_rises (hb : Ballots G log) (h : LedgerInv G G.IsBlock l) (hfront : G.Fronted l)
    {history fuel : Nat} {id : Bytes} {bs : List Block} (hid : G.CertifiedID id)
    (hc : l.commit history fuel id = .ok (l', bs)) :
    l' = l ∨ (l'.commitID = id ∧ G.Fronted l' ∧ l.commitRound ≤ l'.commitRound) := by
  by_cases htop : id = l.commitID
  · rw [MemLedger.commit, if_pos htop] at hc
    cases hc
    exact .inl rfl
  rcases MemLedger.commit_ok hc with ⟨rfl, -⟩ | ⟨chain, hr, -, rfl⟩
  · exact .inl rfl
  · obtain ⟨b, hblock, hbid, hround⟩ := h.path_rises hb hfront hr hid
    cases hr with
    | nil => exact absurd rfl htop
    | @snoc chain id s hr hs =>
      obtain ⟨rfl, hs', -⟩ := h.pending _ _ hs
      obtain ⟨-, hround'⟩ := MemLedger.commit_round history l chain s
      refine .inr ⟨(MemLedger.commit_top history l chain s).1, ⟨s.block, hs', ?_, hround'.symm⟩, ?_⟩
      · exact (MemLedger.commit_top history l chain s).1.symm
      · rw [hround', ← hblock.round_eq hs' hbid]
        exact hround

end

/-! ## The stores -/

/-- The tree's counters, and the ledger's, are no further back. -/
structure Stores.Ahead (s s' : Stores) : Prop where
  highQC       : s.tree.highQC.voteInfo.round ≤ s'.tree.highQC.voteInfo.round
  highCommitQC : s.tree.highCommitQC.voteInfo.round ≤ s'.tree.highCommitQC.voteInfo.round
  committed    : s.ledger.commitRound ≤ s'.ledger.commitRound

theorem Stores.Ahead.refl (s : Stores) : Ahead s s := ⟨UInt64.le_refl _, UInt64.le_refl _, UInt64.le_refl _⟩

theorem Stores.Ahead.trans {s s' s'' : Stores} (h : Ahead s s') (h' : Ahead s' s'') : Ahead s s'' :=
  ⟨UInt64.le_trans h.highQC h'.highQC, UInt64.le_trans h.highCommitQC h'.highCommitQC,
    UInt64.le_trans h.committed h'.committed⟩

/-- **Ledger and tree in order**: the commit round is that of a block, and not beyond the highest commit certificate,
nor that beyond the highest certificate. -/
structure Net.Settled (N : Net) (s : Stores) : Prop where
  buckets   : s.tree.votes.Holds (BucketInv N.toGroup s.tree.voters)
  ledger    : LedgerInv N.toGroup N.IsBlock s.ledger
  front     : N.Fronted s.ledger
  committed : s.ledger.commitRound ≤ s.tree.highCommitQC.voteInfo.round
  highest   : s.tree.highCommitQC.voteInfo.round ≤ s.tree.highQC.voteInfo.round

/-- What a core may write. -/
def Net.Allows (N : Net) : Write → Prop
  | .processQC q        => commits q.ledgerCommitInfo = true → N.Backed q
  | .executeAndInsert b => N.IsBlock b
  | .accumulate m       => N.Admits (.vote m)

section

variable {N : Net} {log : List (UInt32 × Signed)} {i : UInt32} {env : Env} {s s' : Stores}

theorem settled_new (N : Net) : N.Settled ⟨newMemLedger N.crypto, newBlockTree N.crypto⟩ := by
  have hround := MemLedger.commitRound_genesis N.crypto
  refine ⟨Table.holds_empty _, ⟨Table.holds_empty _, Table.holds_empty _, ?_, _, Group.isBlock_genesis _, rfl⟩,
    ⟨_, Group.isBlock_genesis _, rfl, hround.symm⟩, UInt64.le_of_eq hround, UInt64.le_refl _⟩
  exact Table.holds_insert (Table.holds_empty _) ⟨rfl, .inl rfl⟩

theorem Net.Settled.processQC (hb : Ballots N.toGroup log) {history fuel : Nat} {l l' : MemLedger} {t t' : BlockTree}
    {q : QuorumCert} {bs : List Block} (h : N.Settled ⟨l, t⟩) (hq : commits q.ledgerCommitInfo = true → N.Backed q)
    (hp : BlockTree.processQC history fuel l t (some q) = .ok (l', t', bs)) :
    N.Settled ⟨l', t'⟩ ∧ Stores.Ahead ⟨l, t⟩ ⟨l', t'⟩ := by
  have hbuckets := processQC_votes h.buckets hp
  obtain ⟨-, ⟨hc, hcommit, rfl⟩ | ⟨-, rfl, -, rfl⟩⟩ := BlockTree.processQC_ok hp
  · obtain ⟨hcert, p, hblock, hpid, hlt⟩ := (hq hc).parent hb
    obtain ⟨hledger, -, -⟩ := h.ledger.commit (fun _ hQ => hQ) hb hcert hcommit
    have hhigh := higher_mono q h.highest
    rcases h.ledger.commit_rises hb h.front hcert hcommit with rfl | ⟨hid, hfront, hrise⟩
    · exact ⟨⟨hbuckets, hledger, h.front, UInt64.le_trans h.committed (higher_right _ _), hhigh⟩,
        ⟨higher_right _ _, higher_right _ _, UInt64.le_refl _⟩⟩
    · refine ⟨⟨hbuckets, hledger, hfront, ?_, hhigh⟩, ⟨higher_right _ _, higher_right _ _, hrise⟩⟩
      obtain ⟨b, hblock', hbid, hround⟩ := hfront
      rw [← hround, hblock'.round_eq hblock (hbid.trans (hid.trans hpid.symm))]
      exact UInt64.le_trans (UInt64.le_of_lt hlt) (higher_left _ _)
  · exact ⟨⟨hbuckets, h.ledger, h.front, h.committed, UInt64.le_trans h.highest (higher_right _ _)⟩,
      ⟨higher_right _ _, UInt64.le_refl _, UInt64.le_refl _⟩⟩

theorem Net.Settled.write (hb : Ballots N.toGroup log) (h : N.Settled s) {w : Write} (hallow : N.Allows w)
    (hw : s.write N.crypto (N.config i) env w = .ok s') : N.Settled s' ∧ s.Ahead s' := by
  cases w with
  | processQC q =>
    obtain ⟨bs, hp⟩ := Stores.write_processQC hw
    exact h.processQC hb hallow hp
  | executeAndInsert b =>
    cases hw
    obtain ⟨-, hid, -⟩ := MemLedger.speculate_frame (N.config i).execute s.ledger b
    have hround := MemLedger.speculate_round (N.config i).execute s.ledger b
    obtain ⟨f, hf, hfid, hfround⟩ := h.front
    refine ⟨⟨h.buckets, h.ledger.speculate (fun _ hQ => hQ) hallow _,
      ⟨f, hf, hfid.trans hid.symm, hfround.trans hround.symm⟩,
      ?_, h.highest⟩, ⟨UInt64.le_refl _, UInt64.le_refl _, ?_⟩⟩
    · exact hround.trans_le h.committed
    · exact UInt64.le_of_eq hround.symm
  | accumulate m =>
    cases hw
    simp only [N.id_eq, N.quorum_eq]
    generalize hacc : s.tree.accumulate N.crypto env i N.verifier.quorum m = r
    obtain ⟨t', qc⟩ := r
    have hbuckets := (accumulate_votes h.buckets hallow hacc).1
    rcases accumulate_cases hacc with ⟨rfl, -⟩ | ⟨-, b, -, hhigh, hcommit, -, -, -⟩
    · exact ⟨h, .refl s⟩
    · refine ⟨⟨hbuckets, h.ledger, h.front, ?_, ?_⟩, ?_, ?_, UInt64.le_refl _⟩
      · simp only [hcommit]
        exact h.committed
      · simp only [hcommit, hhigh]
        exact h.highest
      · simp only [hhigh]
        exact UInt64.le_refl _
      · simp only [hcommit]
        exact UInt64.le_refl _

/-- **All that the writes of a step may do.** -/
theorem Net.Settled.writes (hb : Ballots N.toGroup log) {ws : List Write} (hallow : ∀ w ∈ ws, N.Allows w)
    (h : N.Settled s) (hw : s.writes N.crypto (N.config i) env ws = .ok s') : N.Settled s' ∧ s.Ahead s' := by
  refine Stores.writes_induct (I := fun s₁ => N.Settled s₁ ∧ s.Ahead s₁) (fun s₁ w s₂ hmem _ hI hwrite => ?_)
    (Stores.along_of_forall (fun _ _ => trivial) _ s) ⟨h, .refl s⟩ hw
  obtain ⟨hsettled, hahead⟩ := hI.1.write hb (hallow w hmem) hwrite
  exact ⟨hsettled, hI.2.trans hahead⟩

/-- A certificate that is accepted and commits is backed. -/
theorem Group.AcceptsQC.backed {G : Group} {log : List (UInt32 × Signed)} (hb : Ballots G log) {q : QuorumCert}
    (hq : G.AcceptsQC (some q)) (hc : commits q.ledgerCommitInfo = true) : G.Backed q :=
  hb.vouched hq (hq.round_ne_zero hc)

theorem allows_certificateWrites {qc highCommitQc : Option QuorumCert} (hb : Ballots N.toGroup log)
    (hqc : ∀ q ∈ qc, N.AcceptsQC (some q)) (hcommit : ∀ q ∈ highCommitQc, N.AcceptsQC (some q)) :
    ∀ w ∈ Core.certificateWrites qc highCommitQc, N.Allows w := by
  intro w hw
  simp only [Core.certificateWrites, List.mem_append, List.mem_map, Option.mem_toList] at hw
  rcases hw with ⟨q, hq, rfl⟩ | ⟨q, hq, rfl⟩
  · exact (hqc q hq).backed hb
  · exact (hcommit q hq).backed hb

theorem backed_processVote (hb : Ballots N.toGroup log) {history : Nat} {l l' : MemLedger}
    {t t' : BlockTree} {m : VoteMsg} {bs : List Block} {q : QuorumCert} (he : N.Admits (.vote m))
    (ht : t.votes.Holds (BucketInv N.toGroup t.voters))
    (h : t.processVote N.crypto history env i N.verifier.quorum l m = .ok (l', t', bs, some q)) : N.Backed q := by
  unfold BlockTree.processVote at h
  split at h
  · cases h
  rename_i l₁ t₁ bs₁ hp
  simp only [Except.ok.injEq, Prod.mk.injEq] at h
  obtain ⟨b, sig, -, hinv, hlen, -, -, rfl⟩ := (accumulate_votes (processQC_votes ht hp) he rfl).2 q h.2.2.2
  exact hinv.vouched hb hlen

/-- **What a step writes is allowed**: its certificates are accepted, and of the one a vote completes a quorum holds an
honest vote. -/
theorem Net.Admits.allows (hb : Ballots N.toGroup log) {c : Core} {e : Event} (he : N.Admits e)
    (hbuckets : c.tree.votes.Holds (BucketInv N.toGroup c.tree.voters)) :
    ∀ w ∈ c.writes N.crypto (N.config i) env e, N.Allows w := by
  intro w hw
  cases e with
  | proposal p =>
    rw [Core.writes] at hw
    rcases List.mem_append.1 hw with hw | hw
    · refine allows_certificateWrites hb (fun q hq => he.qcs q ?_) (fun q hq => he.qcs q ?_) w hw
      · rw [Event.qcs, he.proposal_block]
        exact List.mem_append_left _ (Option.mem_toList.2 hq)
      · exact List.mem_append_right _ (Option.mem_toList.2 hq)
    · split at hw
      · cases hw
      · dsimp only at hw
        split at hw
        · cases hw
        · rw [List.mem_singleton.1 hw]
          exact he.isBlock (.inr ⟨p, rfl, he.proposal_block⟩)
  | vote m =>
    rw [Core.writes] at hw
    split at hw
    · cases hw
    rcases List.mem_append.1 hw with hw | hw
    · obtain ⟨q, hq, rfl⟩ := List.mem_map.1 hw
      exact (he.highCommitQc (Option.mem_toList.1 hq)).backed hb
    rcases List.mem_cons.1 hw with rfl | hw
    · exact he
    · split at hw
      · cases hw
      · rename_i l t bs qc hvote
        obtain ⟨q, hq, rfl⟩ := List.mem_map.1 hw
        rw [N.id_eq, N.quorum_eq] at hvote
        exact fun _ => backed_processVote hb he hbuckets (Option.mem_toList.1 hq ▸ hvote)
  | timeout m =>
    rw [Core.writes] at hw
    refine allows_certificateWrites hb (fun q hq => he.qcs q ?_) (fun q hq => he.qcs q ?_) w hw
    · exact List.mem_append_left _ (Option.mem_toList.2 hq)
    · exact List.mem_append_right _ (Option.mem_toList.2 hq)
  | localTimeout epoch => cases hw
  | block b =>
    rw [List.mem_singleton.1 hw]
    exact he.isBlock (.inl rfl)
  | blockRequest id => cases hw

end

/-! ## Safety's counters -/

/-- The counters rose, if at all, to no more than `round` and `qcR`. -/
structure Safety.Raised (s s' : Safety) (round qcR : UInt64) : Prop where
  grows : Safety.Grows s s'
  vote  : s'.highestVoteRound = s.highestVoteRound ∨ s'.highestVoteRound ≤ round
  qc    : s'.highestQCRound = s.highestQCRound ∨ s'.highestQCRound ≤ qcR

namespace Safety

theorem Raised.refl (s : Safety) (round qcR : UInt64) : Raised s s round qcR := ⟨.refl s, .inl rfl, .inl rfl⟩

theorem Raised.mono {s s' : Safety} {round round' qcR qcR' : UInt64} (h : Raised s s' round qcR) (hr : round ≤ round')
    (hq : qcR ≤ qcR') : Raised s s' round' qcR' :=
  ⟨h.grows, h.vote.imp_right (UInt64.le_trans · hr), h.qc.imp_right (UInt64.le_trans · hq)⟩

theorem max_eq_or_le (a b : UInt64) : max a b = b ∨ max a b ≤ a := by
  rw [← UInt64.toNat_inj, UInt64.le_iff_toNat_le, UInt64.toNat_max]
  omega

theorem makeVote_raised (v : Verifier) (env : Env) (id : UInt32) (l : MemLedger) (t : BlockTree)
    (s : Safety) (b : Block) (lastTC : Option TimeoutCert) :
    Raised s (s.makeVote v env id l t b lastTC).1 b.round (qcRound b.qc) := by
  refine ⟨(makeVote_spec ..).1, ?_, ?_⟩
  all_goals
    rcases makeVote_counters v env id l t s b lastTC with ⟨hvote, hqc⟩ | ⟨hvote, hqc⟩
  · exact .inl hvote
  · rw [hvote]
    exact max_eq_or_le _ _
  · exact .inl hqc
  · rw [hqc]
    exact max_eq_or_le _ _

theorem makeTimeout_raised (v : Verifier) (env : Env) (id : UInt32) (s : Safety) (round : UInt64)
    (highQC : Option QuorumCert) (lastTC : Option TimeoutCert) (qcR : UInt64) :
    Raised s (s.makeTimeout v env id round highQC lastTC).1 round qcR := by
  refine ⟨(makeTimeout_spec ..).1, ?_, ?_⟩
  all_goals
    rcases makeTimeout_counters v env id s round highQC lastTC with hsame | hvote
  · exact .inl (congrArg _ hsame)
  · rw [hvote]
    exact max_eq_or_le _ _
  · exact .inl (congrArg _ hsame)
  · rw [hvote]
    exact .inl rfl

end Safety

theorem Pacemaker.processRemoteTimeout_raised {v : Verifier} {env : Env} {id : UInt32} {f : Nat} {t : BlockTree}
    {p p' : Pacemaker} {s s' : Safety} {m : TimeoutMsg} {out : Option TimeoutMsg} {tc : Option TimeoutCert}
    (qcR : UInt64) (h : p.processRemoteTimeout v env id f t s m = (p', s', out, tc)) :
    Safety.Raised s s' p.currentRound qcR := by
  rcases processRemoteTimeout_cases h with ⟨-, rfl, -⟩ | ⟨-, hlocal | hlocal, -⟩
  · exact .refl s' _ _
  · cases hlocal
    exact .refl s _ _
  · cases hlocal
    exact Safety.makeTimeout_raised v env id s p.currentRound (some t.highQC) p.lastRoundTC qcR

namespace Core

variable {cr : Crypto} {cfg : Config} {env : Env} {c c' : Core} {e : Event} {eff : List Effect}

theorem processCertificateQC_safety {qc : Option QuorumCert} {moved : Bool}
    (h : processCertificateQC cr cfg env c qc = .ok ((c', moved), eff)) : c'.safety = c.safety := by
  cases qc with
  | none =>
    cases h
    rfl
  | some q =>
    obtain ⟨l, t, bs, le, -, -, rfl, -, -⟩ := processCertificateQC_ok h
    rfl

theorem processCertificates_safety {qc highCommitQc : Option QuorumCert} {tc : Option TimeoutCert}
    (h : processCertificates cr cfg env c qc highCommitQc tc = .ok (c', eff)) : c'.safety = c.safety := by
  obtain ⟨c₁, _, eff₁, c₂, _, eff₂, h₁, h₂, rfl, -⟩ := processCertificates_ok h
  exact (processCertificateQC_safety h₂).trans (processCertificateQC_safety h₁)

/-- **A step votes for its round or gives it up**, over certificates it knows. -/
theorem step_raised (hrise : c.Rising cr cfg env e) (hs : c.step cr cfg env e = .ok (c', eff)) :
    Safety.Raised c.safety c'.safety c'.pacemaker.currentRound c'.tree.highQC.voteInfo.round := by
  cases e with
  | proposal p =>
    obtain ⟨c₁, eff₁, h₁, ⟨-, rfl, -⟩ | ⟨hround, -, -, c₂, eff₂, hins, rfl, -⟩⟩ := processProposalMsg_cases hs
    · rw [processCertificates_safety h₁]
      exact .refl _ _ _
    · obtain ⟨rfl, -⟩ := insert_ok hins
      rw [← processCertificates_safety h₁]
      exact (Safety.makeVote_raised ..).mono (UInt64.le_of_eq hround) (processCertificates_highQC h₁).2.1
  | vote m =>
    rcases processVoteMsg_ok hs with ⟨-, rfl, -⟩ | ⟨-, l, t, bs, hp, ⟨t', -, rfl, -⟩ | ⟨t', q, moved, eff', -, hq, -⟩⟩
    · exact .refl _ _ _
    · exact .refl _ _ _
    · rw [processCertificateQC_safety hq]
      exact .refl _ _ _
  | timeout m =>
    obtain ⟨c₁, eff₁, p, s, out, tc, h₁, h₂, hend⟩ := processTimeoutMsg_ok hs
    -- what the timeout itself asks of the pacemaker comes after its certificates
    have hmove : c'.pacemaker = c₁.pacemaker.performs
        (c₁.pacemaker.remoteOps cfg.faulty m.tmoInfo ++ tc.toList.map .advanceRoundTC) := by
      rw [Pacemaker.performs_append, ← Pacemaker.processRemoteTimeout_performs h₂]
      rcases hend with ⟨rfl, rfl, -⟩ | ⟨t, rfl, -, -, rfl, -⟩ <;> rfl
    have hround : c₁.pacemaker.currentRound ≤ c'.pacemaker.currentRound := by
      rw [hmove]
      refine performs_mono (fun op hop => hrise op ?_)
      simp only [ops, h₁, h₂]
      exact List.mem_append_right _ hop
    have hsafety : c'.safety = s := by
      rcases hend with ⟨-, rfl, -⟩ | ⟨t, -, -, -, rfl, -⟩ <;> rfl
    rw [hsafety, ← processCertificates_safety h₁]
    exact (Pacemaker.processRemoteTimeout_raised _ h₂).mono hround (UInt64.le_refl _)
  | localTimeout epoch =>
    rw [step] at hs
    split at hs
    · cases hs
      exact Safety.makeTimeout_raised ..
    · cases hs
      exact .refl _ _ _
  | block b =>
    obtain ⟨rfl, -⟩ := insert_ok hs
    exact .refl _ _ _
  | blockRequest id =>
    cases hs
    exact .refl _ _ _

/-! ## Steps and histories -/

/-- **No counter has fallen.** -/
structure Ahead (c c' : Core) : Prop where
  round            : c.pacemaker.currentRound ≤ c'.pacemaker.currentRound
  highQC           : c.tree.highQC.voteInfo.round ≤ c'.tree.highQC.voteInfo.round
  highCommitQC     : c.tree.highCommitQC.voteInfo.round ≤ c'.tree.highCommitQC.voteInfo.round
  highestVoteRound : c.safety.highestVoteRound ≤ c'.safety.highestVoteRound
  highestQCRound   : c.safety.highestQCRound ≤ c'.safety.highestQCRound
  commitRound      : c.ledger.commitRound ≤ c'.ledger.commitRound

/-- **The counters are in order.** -/
structure Ordered (c : Core) : Prop where
  voted     : c.safety.highestVoteRound ≤ c.pacemaker.currentRound
  seen      : c.safety.highestQCRound ≤ c.tree.highQC.voteInfo.round
  highest   : c.tree.highCommitQC.voteInfo.round ≤ c.tree.highQC.voteInfo.round
  committed : c.ledger.commitRound ≤ c.tree.highCommitQC.voteInfo.round

/-- **One step**: no counter falls, and the order is kept. -/
theorem step_progress {N : Net} {i : UInt32} {log : List (UInt32 × Signed)} (hb : Ballots N.toGroup log)
    (he : N.Admits e) (hrise : c.Rising N.crypto (N.config i) env e)
    (hs : c.step N.crypto (N.config i) env e = .ok (c', eff)) (hset : N.Settled c.stores) (hord : c.Ordered) :
    c.Ahead c' ∧ N.Settled c'.stores ∧ c'.Ordered := by
  obtain ⟨hset', hahead⟩ := hset.writes hb (he.allows hb hset.buckets) (step_writes hs)
  have hround := hrise.mono hs
  have hraised := step_raised hrise hs
  refine ⟨⟨hround, hahead.highQC, hahead.highCommitQC, hraised.grows.vote, hraised.grows.qc, hahead.committed⟩,
    hset', ?_, ?_,
    hset'.highest, hset'.committed⟩
  · rcases hraised.vote with hsame | hle
    · rw [hsame]
      exact UInt64.le_trans hord.voted hround
    · exact hle
  · rcases hraised.qc with hsame | hle
    · rw [hsame]
      exact UInt64.le_trans hord.seen hahead.highQC
    · exact hle

/-- An accepted event that wraps no round. -/
def Admitted (N : Net) (i : UInt32) (env : Env) (c : Core) (e : Event) : Prop :=
  N.Admits e ∧ c.Rising N.crypto (N.config i) env e

/-- `Admitted`, as a test. -/
def admitted (N : Net) [∀ s, Decidable (s ∈ N.hashed)] (i : UInt32) (env : Env) (c : Core) (e : Event) : Bool :=
  decide (N.Admits e) && (c.ops N.crypto (N.config i) env e).all (fun op => decide (OpUnwrapped op))

theorem admitted_of_test {N : Net} [∀ s, Decidable (s ∈ N.hashed)] {i : UInt32} (c : Core) (e : Event)
    (h : c.admitted N i env e = true) : c.Admitted N i env e := by
  rw [admitted, Bool.and_eq_true] at h
  exact ⟨of_decide_eq_true h.1, fun op hop => of_decide_eq_true (List.all_eq_true.1 h.2 op hop)⟩

/-- **Progress.**  Where the honest replicas sign by `Safety` alone and at most f others are Byzantine, in every history
of a core over accepted events that wraps no round: each step leaves every counter where it was or raises it, and after
each step the counters are in order. -/
theorem counters_rise {N : Net} {i : UInt32} {S : SafetySys} (hS : N.SafetyRun S) (hu : N.Unforgeable S.log)
    {ts : List Turn} (h : Heard N.crypto (N.config i) (Admitted N i) ts c) :
    c.Ordered ∧ ∀ x ∈ ts, x.core.Ahead x.next ∧ x.next.Ordered := by
  have hb := Ballots.of_run hS hu
  have hinv : N.Settled c.stores ∧ c.Ordered ∧ ∀ x ∈ ts, x.core.Ahead x.next ∧ x.next.Ordered := by
    refine h.invariant (J := fun ts c => N.Settled c.stores ∧ c.Ordered ∧ ∀ x ∈ ts, x.core.Ahead x.next ∧
      x.next.Ordered)
      (fun env c hnew => ?_) (fun ts c env e c' eff hinv hP hs => ?_)
    · have hset := settled_new N
      cases newCore_eq hnew
      exact ⟨hset, ⟨UInt64.zero_le, UInt64.zero_le, hset.highest, hset.committed⟩, fun x hx => (by cases hx)⟩
    · obtain ⟨hset, hord, hturns⟩ := hinv
      obtain ⟨hahead, hset', hord'⟩ := step_progress hb hP.1 hP.2 hs hset hord
      refine ⟨hset', hord', fun x hx => ?_⟩
      rcases List.mem_append.1 hx with hx | hx
      · exact hturns x hx
      · rw [List.mem_singleton.1 hx]
        exact ⟨hahead, hord'⟩
  exact hinv.2

end Core

/-- Replica 4 of the chain, over the first three proposals: it is in round 3, and has committed the first block. -/
theorem chain_counters_rise :
    ∃ ts c, Core.Heard Chain.net.crypto (Chain.net.config 4) (Core.Admitted Chain.net 4) ts c ∧
      c.pacemaker.currentRound = 3 ∧ c.ledger.commitRound = 1 ∧ c.Ordered ∧ ∀ x ∈ ts, x.core.Ahead x.next := by
  have hplay : Core.hears Chain.net.crypto (Chain.net.config 4) Chain.env (Core.admitted Chain.net 4 Chain.env)
      [.proposal (Chain.proposal 1 (some (Chain.cert 0))), .proposal (Chain.proposal 2 none),
        .proposal (Chain.proposal 3 (some (Chain.cert 2)))]
      (fun _ c => decide (c.pacemaker.currentRound = 3 ∧ c.ledger.commitRound = 1)) = true := by decide +kernel
  obtain ⟨ts, c, hheard, hcheck⟩ := Core.Heard.of_hears Core.admitted_of_test hplay
  obtain ⟨σ, hreached, -⟩ := Chain.opening_reached Net.AnyEvent (fun _ _ _ _ => trivial)
  obtain ⟨S, hS, hu⟩ := hreached.safetyRun
  obtain ⟨hord, hturns⟩ := Core.counters_rise hS hu hheard
  obtain ⟨hround, hcommit⟩ := of_decide_eq_true hcheck
  exact ⟨ts, c, hheard, hround, hcommit, hord, fun x hx => (hturns x hx).1⟩

end Diem

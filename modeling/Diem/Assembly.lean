import Diem.Turns
/-!
# Assembly — the certificates `ProcessVote` returns

Calls of `ProcessVote` and `ProcessQC` on one tree, in any order, over accepted votes that their signers choose freely.
Buckets, slots and pruning together keep a bucket to one content and one vote a signer, so what fills up is a
certificate, and, if an honest replica voted for its content, one that `VerifyQC` accepts.  Which vote came first does
not show in it.
-/
namespace Diem

/-- **The calls of one tree**: the votes `ProcessVote` was given, and the certificates it returned.  The ledger is any
ledger at each call, and `ProcessQC` may be given any certificate. -/
inductive Net.Gathers (N : Net) (i : UInt32) (history : Nat) : List VoteMsg → List QuorumCert → BlockTree → Prop
  | start : Net.Gathers N i history [] [] (newBlockTree N.crypto)
  | vote {ms : List VoteMsg} {qs : List QuorumCert} {t : BlockTree} (env : Env) (l : MemLedger) (m : VoteMsg)
      (l' : MemLedger) (t' : BlockTree) (bs : List Block) (qc : Option QuorumCert) (h : Net.Gathers N i history ms qs t)
      (he : N.Admits (.vote m)) (hsign : ∀ d s, env.sign d = some s → N.crypto.verify i d s = true)
      (hcall : t.processVote N.crypto history env i N.verifier.quorum l m = .ok (l', t', bs, qc)) :
      Net.Gathers N i history (ms ++ [m]) (qs ++ qc.toList) t'
  | cert {ms : List VoteMsg} {qs : List QuorumCert} {t : BlockTree} (fuel : Nat) (l : MemLedger)
      (qc : Option QuorumCert) (l' : MemLedger) (t' : BlockTree) (bs : List Block) (h : Net.Gathers N i history ms qs t)
      (hcall : t.processQC history fuel l qc = .ok (l', t', bs)) : Net.Gathers N i history ms qs t'

/-- The vote was returned by a call of `MakeVote`. -/
def Safety.Makes (v : Verifier) (m : VoteMsg) : Prop :=
  ∃ env id l t s b tc, (Safety.makeVote v env id l t s b tc).2 = some m

/-- **The votes of a certificate's bucket**: some of those that came in, all under the digest the bucket is kept under,
and their signatures are the certificate's. -/
structure Pooled (cr : Crypto) (ms : List VoteMsg) (q : QuorumCert) (vs : List VoteMsg) : Prop where
  heard : vs.Sublist ms
  key   : ∀ v ∈ vs, ledgerCommitDigest cr v.ledgerCommitInfo = ledgerCommitDigest cr q.ledgerCommitInfo
  sigs  : q.signatures.elems.Perm (vs.map VoteMsg.sig)

/-- **A certificate of its votes**: all are for the content it ships, which binds the block voted for; a quorum signed
it, in the order of their signers; and `VerifyQC` accepts it, if an honest replica made one of them. -/
structure Net.Certifies (N : Net) (q : QuorumCert) (vs : List VoteMsg) : Prop where
  content  : ∀ v ∈ vs, v.voteInfo = q.voteInfo ∧ v.ledgerCommitInfo = q.ledgerCommitInfo
  bound    : voteInfoHash N.crypto q.voteInfo = q.ledgerCommitInfo.voteInfoHash
  signed   : ∀ s ∈ q.signatures.elems, verifySig N.crypto (ledgerCommitDigest N.crypto q.ledgerCommitInfo) s = true
  ordered  : q.signatures.elems.Pairwise (fun a b => a.signer < b.signer)
  quorum   : N.verifier.quorum ≤ q.signatures.len
  verifies : (∃ v ∈ vs, Safety.Makes N.verifier v) → N.verifier.verifyQC (some q) = true

/-! ## Buckets and what came in -/

/-- The bucket's signatures are those of votes that came in under its digest. -/
def Filled (cr : Crypto) (ms : List VoteMsg) (b : VoteBucket) : Prop :=
  ∃ vs : List VoteMsg, vs.Sublist ms ∧
    (∀ v ∈ vs, ledgerCommitDigest cr v.ledgerCommitInfo = ledgerCommitDigest cr b.commit) ∧
    b.sigs.elems = vs.map VoteMsg.sig

theorem Filled.mono {cr : Crypto} {ms : List VoteMsg} {b : VoteBucket} (h : Filled cr ms b) (m : VoteMsg) :
    Filled cr (ms ++ [m]) b := by
  obtain ⟨vs, hsub, hkey, hsigs⟩ := h
  exact ⟨vs, hsub.trans (List.sublist_append_left _ _), hkey, hsigs⟩

theorem Filled.push {cr : Crypto} {ms : List VoteMsg} {b : VoteBucket} (h : Filled cr ms b) {m : VoteMsg}
    (hm : b.commit = m.ledgerCommitInfo) : Filled cr (ms ++ [m]) { b with sigs := b.sigs.push m.sig } := by
  rcases b.sigs.elems_push m.sig with helems | helems
  · obtain ⟨vs, hsub, hkey, hsigs⟩ := h
    refine ⟨vs ++ [m], hsub.append (List.Sublist.refl _), fun v hv => ?_, ?_⟩
    · rcases List.mem_append.1 hv with hv | hv
      · exact hkey v hv
      · rw [List.mem_singleton.1 hv, hm]
    · rw [List.map_append, ← hsigs]
      exact helems
  · obtain ⟨vs, hsub, hkey, hsigs⟩ := h.mono m
    exact ⟨vs, hsub, hkey, helems.trans hsigs⟩

/-- **A certificate is a full bucket**, in order, under its author's signature. -/
structure Net.Full (N : Net) (i : UInt32) (ms : List VoteMsg) (voters : Table VoterKey Unit) (idx : Bytes)
    (b : VoteBucket) (sig : Signature) (q : QuorumCert) : Prop where
  bucket : BucketInv N.toGroup voters idx b
  filled : Filled N.crypto ms b
  quorum : N.verifier.quorum ≤ b.sigs.len
  author : sig.signer = i ∧ N.crypto.verify i (qcSigsDigest N.crypto (canonical b.sigs)) sig.sig = true
  qc     : q = { voteInfo := b.voteInfo, ledgerCommitInfo := b.commit, signatures := canonical b.sigs, author := i
                 authorSig := some sig }

/-- What holds after every call. -/
structure Net.Gathered (N : Net) (i : UInt32) (ms : List VoteMsg) (qs : List QuorumCert) (t : BlockTree) : Prop where
  admits  : ∀ m ∈ ms, N.Admits (.vote m)
  buckets : t.votes.Holds (BucketInv N.toGroup t.voters)
  filled  : t.votes.Holds (fun _ => Filled N.crypto ms)
  full    : ∀ q ∈ qs, ∃ voters idx b sig, N.Full i ms voters idx b sig q

section

variable {N : Net} {i : UInt32} {history fuel : Nat} {ms : List VoteMsg} {qs : List QuorumCert} {t t' : BlockTree}

/-- Pruning drops buckets and slots; a bucket that stays keeps the slots of its round. -/
theorem Net.Gathered.processQC {l l' : MemLedger} {qc : Option QuorumCert} {bs : List Block} (h : N.Gathered i ms qs t)
    (hcall : t.processQC history fuel l qc = .ok (l', t', bs)) : N.Gathered i ms qs t' :=
  ⟨h.admits, processQC_votes h.buckets hcall, (Core.processQC_sub_votes hcall).holds h.filled, h.full⟩

theorem Net.Gathered.accumulate {env : Env} {m : VoteMsg} {qc : Option QuorumCert} (h : N.Gathered i ms qs t)
    (he : N.Admits (.vote m)) (hsign : ∀ d s, env.sign d = some s → N.crypto.verify i d s = true)
    (hcall : t.accumulate N.crypto env i N.verifier.quorum m = (t', qc)) :
    N.Gathered i (ms ++ [m]) (qs ++ qc.toList) t' := by
  have hadmits : ∀ v ∈ ms ++ [m], N.Admits (.vote v) := fun v hv => (List.mem_append.1 hv).elim (h.admits v)
    (fun hv => by rw [List.mem_singleton.1 hv]; exact he)
  have hfull : ∀ q ∈ qs, ∃ voters idx b sig, N.Full i (ms ++ [m]) voters idx b sig q := fun q hq => by
    obtain ⟨voters, idx, b, sig, hf⟩ := h.full q hq
    exact ⟨voters, idx, b, sig, { hf with filled := hf.filled.mono m }⟩
  have hfilled : t.votes.Holds (fun _ => Filled N.crypto (ms ++ [m])) := fun idx b hb => (h.filled idx b hb).mono m
  obtain ⟨-, hcommit, -⟩ := bucketOf_spec h.buckets he
  -- the bucket the vote goes to, before and after
  have hpush : Filled N.crypto (ms ++ [m])
      { bucketOf N.crypto t m with sigs := (bucketOf N.crypto t m).sigs.push m.sig } := by
    refine Filled.push ?_ hcommit
    unfold bucketOf
    cases hl : t.votes.lookup (ledgerCommitDigest N.crypto m.ledgerCommitInfo) with
    | none => exact ⟨[], List.nil_sublist _, fun v hv => (by cases hv), rfl⟩
    | some b => exact h.filled _ b hl
  obtain ⟨hbuckets, hcert⟩ := accumulate_votes h.buckets he hcall
  refine ⟨hadmits, hbuckets, ?_, fun q hq => ?_⟩
  · rcases accumulate_cases hcall with ⟨rfl, -⟩ | ⟨-, b, rfl, -, -, -, hsub, -⟩
    · exact hfilled
    · exact hsub.holds (Table.holds_insert hfilled hpush)
  · rcases List.mem_append.1 hq with hq | hq
    · exact hfull q hq
    · obtain ⟨b, sig, rfl, hinv, hlen, -, ⟨hid, hsig⟩, hqc⟩ := hcert q (Option.mem_toList.1 hq)
      exact ⟨_, _, _, sig, hinv, hpush, hlen, ⟨hid, hsign _ _ hsig⟩, hqc⟩

theorem Net.Gathers.gathered (h : N.Gathers i history ms qs t) : N.Gathered i ms qs t := by
  induction h with
  | start => exact ⟨fun m hm => (by cases hm), fun idx b hb => (by cases hb), fun idx b hb => (by cases hb),
      fun q hq => (by cases hq)⟩
  | vote env l m l' t' bs qc h he hsign hcall ih =>
    unfold BlockTree.processVote at hcall
    split at hcall
    · cases hcall
    · rename_i l₁ t₁ bs₁ hqc
      cases hcall
      exact (ih.processQC hqc).accumulate he hsign rfl
  | cert fuel l qc l' t' bs h hcall ih => exact ih.processQC hcall

/-- Votes, one call each, over one ledger; none if one is not accepted or its call does not return. -/
def Net.gather (N : Net) [∀ s, Decidable (s ∈ N.hashed)] (i : UInt32) (history : Nat) (env : Env) (l : MemLedger) :
    List VoteMsg × List QuorumCert × BlockTree → List VoteMsg → Option (List VoteMsg × List QuorumCert × BlockTree)
  | s, []              => some s
  | (ms, qs, t), m :: rest =>
    if N.Admits (.vote m) then
      match t.processVote N.crypto history env i N.verifier.quorum l m with
      | .error _            => none
      | .ok (_, t', _, qc) => gather N i history env l (ms ++ [m], qs ++ qc.toList, t') rest
    else none

theorem Net.Gathers.gather [∀ s, Decidable (s ∈ N.hashed)] {env : Env} {l : MemLedger}
    (hsign : ∀ d s, env.sign d = some s → N.crypto.verify i d s = true) :
    ∀ {rest ms : List VoteMsg} {qs : List QuorumCert} {t : BlockTree} {ms' : List VoteMsg} {qs' : List QuorumCert}
      {t' : BlockTree}, N.Gathers i history ms qs t →
      N.gather i history env l (ms, qs, t) rest = some (ms', qs', t') → N.Gathers i history ms' qs' t'
  | [], _, _, _, _, _, _, h, hg => by
    cases hg
    exact h
  | m :: rest, ms, qs, t, ms', qs', t', h, hg => by
    rw [Net.gather] at hg
    split at hg
    · rename_i he
      split at hg
      · cases hg
      · rename_i l₁ t₁ bs qc hcall
        exact Net.Gathers.gather hsign (.vote env l m l₁ t₁ bs qc h he hsign hcall) hg
    · cases hg

end

/-! ## What a full bucket makes -/

namespace Net.Full

variable {N : Net} {i : UInt32} {ms : List VoteMsg} {voters : Table VoterKey Unit} {idx : Bytes} {b : VoteBucket}
  {sig : Signature} {q : QuorumCert}

theorem counted (h : N.Full i ms voters idx b sig q) : ∃ vs, Pooled N.crypto ms q vs := by
  obtain ⟨vs, hsub, hkey, hsigs⟩ := h.filled
  refine ⟨vs, hsub, ?_, ?_⟩
  · rw [h.qc]
    exact hkey
  · rw [h.qc, ← hsigs]
    exact List.perm_insertionSort _ _

/-- The content shipped is that of every vote counted, not of the first only. -/
theorem content_eq (h : N.Full i ms voters idx b sig q) {v : VoteMsg} (he : N.Admits (.vote v))
    (hkey : ledgerCommitDigest N.crypto v.ledgerCommitInfo = ledgerCommitDigest N.crypto q.ledgerCommitInfo) :
    v.voteInfo = q.voteInfo ∧ v.ledgerCommitInfo = q.ledgerCommitInfo := by
  have hb := h.bucket
  rw [hb.key] at hb
  rw [h.qc] at hkey ⊢
  rw [← hkey] at hb
  obtain ⟨hvi, hc⟩ := hb.content_eq he
  exact ⟨hvi.symm, hc.symm⟩

/-- A content that `MakeVote` signed is above round 0, and commits only over consecutive rounds. -/
theorem verifyQC (h : N.Full i ms voters idx b sig q) {v : VoteMsg} (hv : Safety.Makes N.verifier v)
    (hinfo : v.voteInfo = q.voteInfo) (hcommit : v.ledgerCommitInfo = q.ledgerCommitInfo) :
    N.verifier.verifyQC (some q) = true := by
  obtain ⟨env, id, l, t, s, blk, tc, hmade⟩ := hv
  have hvoted := (s.makeVote_spec N.verifier env id l t blk tc).2 v hmade
  obtain ⟨-, habove, -⟩ := (Safety.safeToVote_iff _ _ _ _).1 hvoted.safe
  have hb : b.voteInfo = v.voteInfo ∧ b.commit = v.ledgerCommitInfo := by
    rw [hinfo, hcommit, h.qc]
    exact ⟨rfl, rfl⟩
  have hround : b.voteInfo.round = blk.round := by rw [hb.1, hvoted.info]
  rw [h.qc]
  refine h.bucket.verifyQC h.quorum (fun h0 => ?_) (fun hc => ?_) h.author.1 h.author.2
  · rw [hround] at h0
    exact absurd habove (by rw [h0]; simp)
  · rw [hb.2, hvoted.commit] at hc
    rw [hround, hb.1, hvoted.info, consecutive_iff]
    exact commitStateIDCandidate_commits hc

theorem certifies (h : N.Full i ms voters idx b sig q) (hms : ∀ m ∈ ms, N.Admits (.vote m)) {vs : List VoteMsg}
    (hvs : Pooled N.crypto ms q vs) : N.Certifies q vs := by
  have hcontent : ∀ v ∈ vs, v.voteInfo = q.voteInfo ∧ v.ledgerCommitInfo = q.ledgerCommitInfo := fun v hv =>
    h.content_eq (hms v (hvs.heard.subset hv)) (hvs.key v hv)
  refine ⟨hcontent, ?_, ?_, ?_, ?_, ?_⟩
  · rw [h.qc]
    exact h.bucket.bound
  · rw [h.qc]
    exact fun s hs => h.bucket.signed s ((List.mem_insertionSort _).1 hs)
  · rw [h.qc]
    exact pairwise_lt_insertionSort Signature.signer h.bucket.once
  · rw [h.qc]
    exact Nat.le_trans h.quorum (Nat.le_of_eq (List.length_insertionSort _ _).symm)
  · rintro ⟨v, hv, hmade⟩
    exact h.verifyQC hmade (hcontent v hv).1 (hcontent v hv).2

end Net.Full

/-- **The same votes, the same signature list**: in signer order there is one order only. -/
theorem Pooled.signatures_eq {cr : Crypto} {ms ms' : List VoteMsg} {q q' : QuorumCert} {vs vs' : List VoteMsg}
    (h : Pooled cr ms q vs) (h' : Pooled cr ms' q' vs')
    (hord : q.signatures.elems.Pairwise (fun a b => a.signer < b.signer))
    (hord' : q'.signatures.elems.Pairwise (fun a b => a.signer < b.signer)) (hvs : ∀ v, v ∈ vs ↔ v ∈ vs') :
    q.signatures = q'.signatures := by
  have hnodup : vs.Nodup := List.Nodup.of_map _ (h.sigs.nodup_iff.1 (List.Nodup.of_map _ (Group.signers_nodup id hord)))
  have hnodup' : vs'.Nodup :=
    List.Nodup.of_map _ (h'.sigs.nodup_iff.1 (List.Nodup.of_map _ (Group.signers_nodup id hord')))
  have hperm : vs.Perm vs' := (List.perm_ext_iff_of_nodup hnodup hnodup').2 hvs
  have hsigs : q.signatures.elems.Perm q'.signatures.elems := h.sigs.trans ((hperm.map _).trans h'.sigs.symm)
  exact Slice.ext' (increasing_ext hord hord' (fun _ => hsigs.mem_iff))

/-- **Assembled certificates are valid.**  Whatever `ProcessVote` and `ProcessQC` were called with and in whatever
order, a certificate `ProcessVote` returned comes of a bucket of votes, and certifies what they vote for; and at any
replica, in any order, the same votes make the same certificate, up to its author. -/
theorem Net.Gathers.assembled_valid {N : Net} {i : UInt32} {history : Nat} {ms : List VoteMsg} {qs : List QuorumCert}
    {t : BlockTree} (h : N.Gathers i history ms qs t) :
    ∀ q ∈ qs, (∃ vs, Pooled N.crypto ms q vs) ∧ ∀ vs, Pooled N.crypto ms q vs → N.Certifies q vs ∧
      ∀ j history' ms' qs' t', N.Gathers j history' ms' qs' t' → ∀ q' ∈ qs', ∀ vs', Pooled N.crypto ms' q' vs' →
        (∀ v, v ∈ vs ↔ v ∈ vs') →
        q.voteInfo = q'.voteInfo ∧ q.ledgerCommitInfo = q'.ledgerCommitInfo ∧ q.signatures = q'.signatures := by
  intro q hq
  obtain ⟨voters, idx, b, sig, hfull⟩ := h.gathered.full q hq
  refine ⟨hfull.counted, fun vs hvs => ?_⟩
  have hcert := hfull.certifies h.gathered.admits hvs
  refine ⟨hcert, fun j history' ms' qs' t' h' q' hq' vs' hvs' hsame => ?_⟩
  obtain ⟨voters', idx', b', sig', hfull'⟩ := h'.gathered.full q' hq'
  have hcert' := hfull'.certifies h'.gathered.admits hvs'
  -- a quorum is not empty, so there is a vote to compare the contents by
  obtain ⟨v, hv⟩ : ∃ v, v ∈ vs := by
    refine List.exists_mem_of_length_pos ?_
    have hlen : q.signatures.elems.length = vs.length := by rw [hvs.sigs.length_eq, List.length_map]
    rw [← hlen]
    exact Nat.lt_of_lt_of_le (Nat.zero_lt_of_lt (faulty_lt_quorumSize _)) hcert.quorum
  obtain ⟨hvi, hlc⟩ := hcert.content v hv
  obtain ⟨hvi', hlc'⟩ := hcert'.content v ((hsame v).1 hv)
  exact ⟨hvi.symm.trans hvi', hlc.symm.trans hlc', hvs.signatures_eq hvs' hcert.ordered hcert'.ordered hsame⟩

namespace Chain

/-- Replicas 1 and 4 put certificates together. -/
abbrev talliers : Net := (book [(1, digest 3), (4, digest 3)]).net 1 2

/-- They sign the list of the three signatures, and nothing else. -/
def tallyEnv : Env := ⟨fun d => if d = digest 3 then some default else none, default, 8⟩

theorem tallyEnv_signs {i : UInt32} (hi : i = 1 ∨ i = 4) (d s : Bytes) (h : tallyEnv.sign d = some s) :
    talliers.crypto.verify i d s = true := by
  have hd : d = digest 3 := by
    by_contra hd
    rw [tallyEnv] at h
    simp [hd] at h
  rw [hd]
  rcases hi with rfl | rfl
  · change talliers.crypto.verify 1 (digest 3) default = true
    decide +kernel
  · change talliers.crypto.verify 4 (digest 3) default = true
    decide +kernel

/-- The certificate of block 1, by replica `i`. -/
def tallied (i : UInt32) : QuorumCert := { cert 1 with author := i, authorSig := some ⟨i, default⟩ }

def ballots : List VoteMsg := [vote 1 1 (cert 0), vote 1 1 (cert 0), vote 1 2 (cert 0), vote 1 4 (cert 0)]

theorem gathers {i : UInt32} (hi : i = 1 ∨ i = 4) {ms : List VoteMsg} {qs : List QuorumCert}
    (h : (match talliers.gather i defaultHistory tallyEnv (newMemLedger talliers.crypto)
        ([], [], newBlockTree talliers.crypto) ms with
      | none              => false
      | some (ms', qs', _) => decide (ms' = ms ∧ qs' = qs)) = true) :
    ∃ t, talliers.Gathers i defaultHistory ms qs t := by
  split at h
  · cases h
  · rename_i ms' qs' t hg
    obtain ⟨rfl, rfl⟩ := of_decide_eq_true h
    exact ⟨t, Net.Gathers.gather (tallyEnv_signs hi) .start hg⟩

theorem makes_vote : Safety.Makes talliers.verifier (vote 1 1 (cert 0)) :=
  ⟨env, 1, ((newMemLedger talliers.crypto).speculate (talliers.config 1).execute (block 1)).1,
    newBlockTree talliers.crypto, newSafety, block 1, none, by decide +kernel⟩

end Chain

/-- Replica 1 of the chain hears the votes for its first block, one of them twice, and replica 4 hears them in reverse:
each makes a certificate of them, of the same signatures, and it verifies. -/
theorem chain_assembled : ∃ t t', Chain.talliers.Gathers 1 defaultHistory Chain.ballots [Chain.tallied 1] t ∧
    Chain.talliers.Gathers 4 defaultHistory Chain.ballots.reverse [Chain.tallied 4] t' ∧
    (Chain.tallied 1).signatures = (Chain.tallied 4).signatures ∧
    Chain.talliers.verifier.verifyQC (some (Chain.tallied 1)) = true := by
  have hrun : ∃ t, Chain.talliers.Gathers 1 defaultHistory Chain.ballots [Chain.tallied 1] t :=
    Chain.gathers (.inl rfl) (by decide +kernel)
  have hrun' : ∃ t, Chain.talliers.Gathers 4 defaultHistory Chain.ballots.reverse [Chain.tallied 4] t :=
    Chain.gathers (.inr rfl) (by decide +kernel)
  have hcounted : Pooled Chain.talliers.crypto Chain.ballots (Chain.tallied 1) Chain.ballots.dedup :=
    ⟨by decide +kernel, by decide +kernel, by decide +kernel⟩
  have hcounted' : Pooled Chain.talliers.crypto Chain.ballots.reverse (Chain.tallied 4) Chain.ballots.dedup.reverse :=
    ⟨by decide +kernel, by decide +kernel, by decide +kernel⟩
  obtain ⟨t, h⟩ := hrun
  obtain ⟨t', h'⟩ := hrun'
  obtain ⟨hcert, horder⟩ := (h.assembled_valid _ List.mem_cons_self).2 _ hcounted
  refine ⟨t, t', h, h', ?_, hcert.verifies ⟨_, by decide +kernel, Chain.makes_vote⟩⟩
  exact (horder _ _ _ _ _ h' _ List.mem_cons_self _ hcounted' (fun v => List.mem_reverse.symm)).2.2

end Diem

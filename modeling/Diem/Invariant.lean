import Diem.Climb
import Diem.Refine
/-!
# Invariant — what every core of a run keeps

Three parts, one for each module under the core: the ledger's blocks go by their ids and hang together (`LedgerInv`),
the tree's certificates are ones every replica accepts and its vote buckets hold votes of different signers (`TreeInv`),
and so for the pacemaker's TC and timeout buckets (`PaceInv`).  A certificate a replica puts together itself is then as
good as a received one: a quorum holds an honest vote, and an honest vote passed the checks.  Over all of it stands the
chain: what a replica committed climbs, parent by parent, from genesis to its frontier.
-/
namespace Diem

open Relation (Climb)

/-! ## Certified ids -/

/-- Some accepted certificate is of this id. -/
def Group.CertifiedID (G : Group) (id : Bytes) : Prop := ∃ qc, G.AcceptsQC qc ∧ certifiedID qc = id

/-- Some block has the id. -/
def Group.BlockID (G : Group) (id : Bytes) : Prop := ∃ b, G.IsBlock b ∧ b.id = id

theorem Group.BlockID.len {G : Group} {id : Bytes} (h : G.BlockID id) : id.len = hashLen := by
  obtain ⟨b, hb, rfl⟩ := h
  exact hb.id_len

theorem Group.BlockID.ne_zeroHash {G : Group} {id : Bytes} (h : G.BlockID id) : id ≠ zeroHash := by
  obtain ⟨b, hb, rfl⟩ := h
  exact hb.id_ne_zeroHash

theorem Group.AcceptsQC.round_ne_zero {G : Group} {q : QuorumCert} (hq : G.AcceptsQC (some q))
    (hc : commits q.ledgerCommitInfo = true) : q.voteInfo.round ≠ 0 := by
  intro h0
  have hzero : commits (genesisQC G.crypto).ledgerCommitInfo = false := rfl
  rw [hq.eq_genesisQC h0, hzero] at hc
  cases hc

namespace Ballots

open Diem.Group

variable {G : Group} {log : List (UInt32 × Signed)} (h : Ballots G log)
include h

/-- What a certificate commits is certified itself. -/
theorem certifiedID_of_commits {q : QuorumCert} (hq : G.AcceptsQC (some q)) (hc : commits q.ledgerCommitInfo = true) :
    G.CertifiedID q.voteInfo.parentId := by
  obtain ⟨b, tc, hv⟩ := h.vouched hq (hq.round_ne_zero hc)
  exact ⟨b.qc, hv.qc, by rw [hv.parentId_eq, parentID_eq]⟩

/-- An honest replica voted for a certified block, or it is genesis and has no parent. -/
theorem vouched_of_certifiedID {b : Block} (hc : G.CertifiedID b.id) (hb : G.IsBlock b)
    (hlen : (parentID b).len = hashLen) :
    parentID b = zeroHash ∨ ∃ b' v l tc, G.Vouched v l b' tc ∧ b.id = b'.id ∧ parentID b = parentID b' := by
  obtain ⟨qc, hqc, hid⟩ := hc
  cases qc with
  | none => cases hqc.1
  | some q =>
    by_cases h0 : q.voteInfo.round = 0
    · have hg : b.id = (genesisBlock G.crypto).id := by
        rw [← hid, hqc.eq_genesisQC h0]
        rfl
      exact .inl (hb.parent_eq (isBlock_genesis G) hg hlen)
    · obtain ⟨b', tc, hv⟩ := h.vouched hqc h0
      have hbb : b.id = b'.id := hid.symm.trans hv.id_eq
      have hlen' : (parentID b').len = hashLen := by
        rw [parentID_eq]
        exact hv.qc.certifiedID_len
      exact .inr ⟨b', _, _, tc, hv, hbb, hb.parent_eq hv.block hbb (hlen.trans hlen'.symm)⟩

/-- **Down the chain of a certified block**: below genesis there is nothing, below any other block a certified one, and
the block's own certificate, if it is a valid one, is of a lower round. -/
theorem certifiedID_parent {b : Block} (hc : G.CertifiedID b.id) (hb : G.IsBlock b)
    (hlen : (parentID b).len = hashLen) : parentID b = zeroHash ∨
      (G.CertifiedID (parentID b) ∧ (G.AcceptsQC b.qc → qcRound b.qc < b.round)) := by
  rcases h.vouched_of_certifiedID hc hb hlen with hzero | ⟨b', v, l, tc, hv, hbb, hparent⟩
  · exact .inl hzero
  · refine .inr ⟨⟨b'.qc, hv.qc, by rw [hparent, parentID_eq]⟩, fun hq => ?_⟩
    obtain ⟨p, hp, hpid, hpr⟩ := h.exists_block hq
    have hround : qcRound b.qc = qcRound b'.qc := by
      rw [← hpr]
      refine h.round_eq hv.qc hp ?_
      rw [hpid, ← parentID_eq, hparent, parentID_eq]
    rw [hround, hb.round_eq hv.block hbb]
    exact hv.above

/-- **Rounds rise along the chain of a certified block**: its parent is of a lower round. -/
theorem round_lt_of_parent {b p : Block} (hc : G.CertifiedID b.id) (hb : G.IsBlock b) (hp : G.IsBlock p)
    (hpid : p.id = parentID b) : p.round < b.round := by
  rcases h.vouched_of_certifiedID hc hb (hpid ▸ hp.id_len) with hzero | ⟨b', v, l, tc, hv, hbb, hparent⟩
  · exact absurd (hpid.trans hzero) hp.id_ne_zeroHash
  · have hround : p.round = qcRound b'.qc := h.round_eq hv.qc hp (by rw [hpid, hparent, parentID_eq])
    rw [hround, hb.round_eq hv.block hbb]
    exact hv.above

end Ballots

/-! ## The ledger -/

/-- **The ledger's blocks are filed under their ids**; what is pending has a parent id of full length, and what is
committed is genesis or certified. -/
structure LedgerInv (G : Group) (Q : Block → Prop) (l : MemLedger) : Prop where
  pending   : l.pending.Holds (fun id s => s.block.id = id ∧ Q s.block ∧ G.BlockID (parentID s.block))
  held      : l.held.Holds (fun id b => b.id = id ∧ Q b)
  committed : l.committed.Holds (fun id b => b.id = id ∧ (b = genesisBlock G.crypto ∨ (Q b ∧ G.CertifiedID id ∧
                G.BlockID (parentID b))))
  top       : G.BlockID l.commitID

namespace LedgerInv

variable {G : Group} {Q : Block → Prop} {l l' : MemLedger}

/-- What has a state is a block. -/
theorem blockID (hQ : ∀ b, Q b → G.IsBlock b) (h : LedgerInv G Q l) {id prev : Bytes}
    (hp : l.pendingState id = some prev) : G.BlockID id := by
  unfold MemLedger.pendingState at hp
  split at hp
  · rename_i hid
    rw [hid]
    exact h.top
  · obtain ⟨s, hs, -⟩ := Option.map_eq_some_iff.1 hp
    obtain ⟨hid, hb, -⟩ := h.pending _ _ hs
    exact ⟨s.block, hQ _ hb, hid⟩

theorem speculate (hQ : ∀ b, Q b → G.IsBlock b) (h : LedgerInv G Q l) {b : Block} (hb : Q b)
    (execute : Bytes → Payload → Bytes) : LedgerInv G Q (l.speculate execute b).1 := by
  refine MemLedger.speculateFuel_induct (I := LedgerInv G Q) (Q := Q) ?_ ?_ ?_ ?_ _ l b h hb
  · intro l b hl hb
    exact ⟨hl.pending, Table.holds_insert hl.held ⟨rfl, hb⟩, hl.committed, hl.top⟩
  · intro l b prev hl hb hprev
    exact ⟨Table.holds_insert hl.pending ⟨rfl, hb, hl.blockID hQ hprev⟩, hl.held, hl.committed, hl.top⟩
  · intro l k hl
    exact ⟨hl.pending, (Table.sub_erase _ _).holds hl.held, hl.committed, hl.top⟩
  · intro l k b hl hk
    exact (hl.held k b hk).2

/-- A pending path climbs, parent by parent, from the frontier. -/
theorem climb (hQ : ∀ b, Q b → G.IsBlock b) (h : LedgerInv G Q l) {chain : List Speculated} {id : Bytes}
    (hr : l.Rises chain id) : Climb G.Parent l.commitID ((chain.map Speculated.block).map Block.id) id := by
  induction hr with
  | nil => exact .nil
  | @snoc chain id s _ hs ih =>
    obtain ⟨rfl, hb, hparent⟩ := h.pending _ _ hs
    rw [List.map_append, List.map_append]
    exact ih.snoc ⟨s.block, hQ _ hb, rfl, rfl, hparent.len⟩

/-- Every block on a pending path to a certified one is certified. -/
theorem certified_path (hQ : ∀ b, Q b → G.IsBlock b) {log : List (UInt32 × Signed)} (hb : Ballots G log)
    (h : LedgerInv G Q l) {chain : List Speculated} {id : Bytes} (hr : l.Rises chain id) (hc : G.CertifiedID id) :
    ∀ s ∈ chain, Q s.block ∧ G.CertifiedID s.block.id ∧ G.BlockID (parentID s.block) := by
  induction hr with
  | nil => intro s hs; cases hs
  | @snoc chain id s hr hs ih =>
    obtain ⟨rfl, hblock, hparent⟩ := h.pending _ _ hs
    intro s' hs'
    rcases List.mem_append.1 hs' with hs' | hs'
    · -- what is executed is not genesis, below which there is nothing
      have hcert := (hb.certifiedID_parent hc (hQ _ hblock) hparent.len).resolve_left hparent.ne_zeroHash
      exact ih hcert.1 s' hs'
    · rw [List.mem_singleton.1 hs']
      exact ⟨hblock, hc, hparent⟩

/-- **`Commit` climbs from the frontier to the block it is given**, or does nothing. -/
theorem commit (hQ : ∀ b, Q b → G.IsBlock b) {log : List (UInt32 × Signed)} (hb : Ballots G log) (h : LedgerInv G Q l)
    {history fuel : Nat} {id : Bytes} {bs : List Block} (hid : G.CertifiedID id)
    (hc : l.commit history fuel id = .ok (l', bs)) :
    LedgerInv G Q l' ∧ Climb G.Parent l.commitID (bs.map Block.id) l'.commitID ∧
      (l'.commitID = l.commitID ∨ l'.commitID = id) := by
  rcases MemLedger.commit_ok hc with ⟨rfl, rfl⟩ | ⟨chain, hr, rfl, rfl⟩
  · exact ⟨h, .nil, .inl rfl⟩
  · obtain ⟨hp, hh, hcom⟩ := MemLedger.commit_tables history l chain
    have hcert := h.certified_path hQ hb hr hid
    have htop : (((chain.foldl MemLedger.advance l).prune).forget history).commitID = id ∧ G.BlockID id := by
      cases hr with
      | nil => exact ⟨rfl, h.top⟩
      | @snoc chain id s _ hs =>
        obtain ⟨rfl, hblock, -⟩ := h.pending _ _ hs
        exact ⟨(MemLedger.commit_top history l chain s).1, s.block, hQ _ hblock, rfl⟩
    refine ⟨⟨hp.holds h.pending, hh.holds h.held, ?_, ?_⟩, ?_, .inr htop.1⟩
    · exact hcom _ h.committed (fun s hs => ⟨rfl, .inr (hcert s hs)⟩)
    · rw [htop.1]; exact htop.2
    · rw [htop.1]; exact h.climb hQ hr

end LedgerInv

/-! ## The tree -/

/-- A bucket's votes are verified, for one content, and of different signers, whose slots in its round are taken. -/
structure BucketInv (G : Group) (voters : Table VoterKey Unit) (idx : Bytes) (b : VoteBucket) : Prop where
  key    : idx = ledgerCommitDigest G.crypto b.commit
  valid  : validVote b.voteInfo b.commit = true
  bound  : voteInfoHash G.crypto b.voteInfo = b.commit.voteInfoHash
  known  : voteInfoBytes b.voteInfo ∈ G.hashed ∧ ledgerCommitBytes b.commit ∈ G.hashed
  signed : ∀ s ∈ b.sigs.elems, verifySig G.crypto (ledgerCommitDigest G.crypto b.commit) s = true
  taken  : ∀ s ∈ b.sigs.elems, (voters.lookup ⟨b.voteInfo.round, s.signer⟩).isSome = true
  once   : (b.sigs.elems.map Signature.signer).Nodup

structure TreeInv (G : Group) (t : BlockTree) : Prop where
  highQC       : G.AcceptsQC (some t.highQC)
  highCommitQC : G.AcceptsQC (some t.highCommitQC)
  votes        : t.votes.Holds (BucketInv G t.voters)

theorem acceptsQC_genesisQC (G : Group) : G.AcceptsQC (some (genesisQC G.crypto)) := by
  refine ⟨(G.verifier.verifyQC_iff _).2 ⟨?_, .inl ⟨rfl, rfl⟩⟩, fun q hq h0 => ?_⟩
  · rw [validVote_iff]
    exact ⟨G.crypto.sha256_len _, rfl, rfl, rfl, rfl⟩
  · cases hq
    exact absurd rfl h0

theorem treeInv_newBlockTree (G : Group) : TreeInv G (newBlockTree G.crypto) :=
  ⟨acceptsQC_genesisQC G, acceptsQC_genesisQC G, Table.holds_empty _⟩

theorem acceptsQC_higher {G : Group} {a b : QuorumCert} (ha : G.AcceptsQC (some a)) (hb : G.AcceptsQC (some b)) :
    G.AcceptsQC (some (higher a b)) := by
  rcases higher_eq a b with h | h
  · rw [h]; exact ha
  · rw [h]; exact hb

/-- A bucket kept by `prune` keeps its signers' slots: bucket and slots go by one round. -/
theorem BucketInv.prune {G : Group} {voters : Table VoterKey Unit} {idx : Bytes} {b : VoteBucket} {root : UInt64}
    (h : BucketInv G voters idx b) (hr : ¬ b.voteInfo.round ≤ root) :
    BucketInv G (voters.filter (fun vk _ => !decide (vk.round ≤ root))) idx b := by
  refine ⟨h.key, h.valid, h.bound, h.known, h.signed, fun s hs => ?_, h.once⟩
  have ht := h.taken s hs
  rw [Table.lookup_filter]
  cases hl : voters.lookup ⟨b.voteInfo.round, s.signer⟩ with
  | none => rw [hl] at ht; cases ht
  | some u => simp [Option.filter, hr]

/-- A processed certificate leaves buckets out, and no others than those whose slots it frees. -/
theorem processQC_votes {G : Group} {history fuel : Nat} {l l' : MemLedger} {t t' : BlockTree} {qc : Option QuorumCert}
    {bs : List Block} (ht : t.votes.Holds (BucketInv G t.voters))
    (h : BlockTree.processQC history fuel l t qc = .ok (l', t', bs)) : t'.votes.Holds (BucketInv G t'.voters) := by
  cases qc with
  | none =>
    cases h
    exact ht
  | some q =>
    obtain ⟨-, ⟨-, -, rfl⟩ | ⟨-, -, -, rfl⟩⟩ := BlockTree.processQC_ok h
    · intro idx b hb
      simp only [BlockTree.prune, Table.lookup_filter, Option.filter_eq_some_iff] at hb
      exact (ht idx b hb.1).prune (by simpa using hb.2)
    · exact ht

/-- **A processed certificate** keeps tree and ledger, and the frontier stays or moves to the certificate's parent. -/
theorem processQC_inv {G : Group} {Q : Block → Prop} (hQ : ∀ b, Q b → G.IsBlock b) {log : List (UInt32 × Signed)}
    (hb : Ballots G log) {history fuel : Nat} {l l' : MemLedger} {t t' : BlockTree} {qc : QuorumCert} {bs : List Block}
    (ht : TreeInv G t) (hl : LedgerInv G Q l) (hq : G.AcceptsQC (some qc))
    (h : BlockTree.processQC history fuel l t (some qc) = .ok (l', t', bs)) :
    TreeInv G t' ∧ LedgerInv G Q l' ∧ Climb G.Parent l.commitID (bs.map Block.id) l'.commitID ∧
      (l'.commitID = l.commitID ∨ (commits qc.ledgerCommitInfo = true ∧ l'.commitID = qc.voteInfo.parentId)) := by
  have hvotes := processQC_votes ht.votes h
  obtain ⟨-, ⟨hc, hcommit, rfl⟩ | ⟨-, rfl, rfl, rfl⟩⟩ := BlockTree.processQC_ok h
  · obtain ⟨hl', hclimb, htop⟩ := hl.commit hQ hb (hb.certifiedID_of_commits hq hc) hcommit
    exact ⟨⟨acceptsQC_higher hq ht.highQC, acceptsQC_higher hq ht.highCommitQC, hvotes⟩, hl', hclimb,
      htop.imp_right (fun htop => ⟨hc, htop⟩)⟩
  · exact ⟨⟨acceptsQC_higher hq ht.highQC, ht.highCommitQC, ht.votes⟩, hl, .nil, .inl rfl⟩

/-- **A full bucket makes a certificate that verifies**, if its content is one `MakeVote` would sign and its author's
signature is good. -/
theorem BucketInv.verifyQC {G : Group} {voters : Table VoterKey Unit} {idx : Bytes} {b : VoteBucket}
    (h : BucketInv G voters idx b) (hlen : G.verifier.quorum ≤ b.sigs.len) (hround : b.voteInfo.round ≠ 0)
    (hcommit : commits b.commit = true → consecutive b.voteInfo.round b.voteInfo.parentRound = true) {i : UInt32}
    {sig : Signature} (hid : sig.signer = i)
    (hver : G.crypto.verify i (qcSigsDigest G.crypto (canonical b.sigs)) sig.sig = true) :
    G.verifier.verifyQC (some { voteInfo := b.voteInfo, ledgerCommitInfo := b.commit, signatures := canonical b.sigs
                                author := i, authorSig := some sig }) = true := by
  refine (G.verifier.verifyQC_iff _).2 ⟨h.valid, .inr ⟨hround, h.bound, hcommit, ?_, hid, ?_⟩⟩
  · refine (G.verifier.verifyCert_iff _ _).2 ⟨?_, fun s hs => h.signed s ((List.mem_insertionSort _).1 hs), ?_⟩
    · exact pairwise_lt_insertionSort Signature.signer h.once
    · exact Nat.le_trans hlen (Nat.le_of_eq (List.length_insertionSort _ _).symm)
  · unfold verifySig
    simp only [Option.getD_some, hid]
    exact hver

/-- **An honest replica voted for the content of a full bucket.** -/
theorem BucketInv.vouched {G : Group} {voters : Table VoterKey Unit} {idx : Bytes} {b : VoteBucket}
    (h : BucketInv G voters idx b) {log : List (UInt32 × Signed)} (hb : Ballots G log)
    (hlen : G.verifier.quorum ≤ b.sigs.len) : ∃ b' tc, G.Vouched b.voteInfo b.commit b' tc := by
  obtain ⟨hlenid, hlenp, -, -, hhash⟩ := (validVote_iff _ _).1 h.valid
  obtain ⟨v, b', tc, hvouch⟩ := hb.exists_vote h.once h.signed hlen h.known.2 hhash
  obtain rfl : v = b.voteInfo := hvouch.info_eq h.known.1 h.bound hlenid hlenp
  exact ⟨b', tc, hvouch⟩

section Votes

variable {N : Net} {t : BlockTree} {m : VoteMsg}

/-- The bucket `ProcessVote` takes for a vote, before the vote is in it. -/
def bucketOf (cr : Crypto) (t : BlockTree) (m : VoteMsg) : VoteBucket :=
  (t.votes.lookup (ledgerCommitDigest cr m.ledgerCommitInfo)).getD
    { voteInfo := m.voteInfo, commit := m.ledgerCommitInfo, sigs := default }

/-- Digests of different contents differ: a bucket under a vote's digest is for the vote's content. -/
theorem BucketInv.content_eq {voters : Table VoterKey Unit} {b : VoteBucket}
    (h : BucketInv N.toGroup voters (ledgerCommitDigest N.crypto m.ledgerCommitInfo) b) (he : N.Admits (.vote m)) :
    b.voteInfo = m.voteInfo ∧ b.commit = m.ledgerCommitInfo := by
  obtain ⟨hv, hinfo, hcommit, -⟩ := he
  obtain ⟨-, hvalid, hbound, -, -⟩ := (N.verifier.verifyVote_iff m).1 hv
  exact Group.content_of_digest h.valid hvalid h.bound hbound h.known ⟨hinfo, hcommit⟩ h.key.symm

/-- Whatever bucket the digest leads to, it is for the vote's content. -/
theorem bucketOf_spec (ht : t.votes.Holds (BucketInv N.toGroup t.voters)) (he : N.Admits (.vote m)) :
    (bucketOf N.crypto t m).voteInfo = m.voteInfo ∧ (bucketOf N.crypto t m).commit = m.ledgerCommitInfo ∧
      BucketInv N.toGroup t.voters (ledgerCommitDigest N.crypto m.ledgerCommitInfo) (bucketOf N.crypto t m) := by
  cases hl : t.votes.lookup (ledgerCommitDigest N.crypto m.ledgerCommitInfo) with
  | none =>
    obtain ⟨hv, hinfo, hcommit, -⟩ := he
    obtain ⟨-, hvalid, hbound, -, -⟩ := (N.verifier.verifyVote_iff m).1 hv
    have hb : bucketOf N.crypto t m = { voteInfo := m.voteInfo, commit := m.ledgerCommitInfo, sigs := default } := by
      rw [bucketOf, hl]; rfl
    rw [hb]
    exact ⟨rfl, rfl, rfl, hvalid, hbound, ⟨hinfo, hcommit⟩, fun s hs => (by cases hs), fun s hs => (by cases hs),
      List.nodup_nil⟩
  | some b =>
    have hb : bucketOf N.crypto t m = b := by rw [bucketOf, hl]; rfl
    rw [hb]
    obtain ⟨hvi, hc⟩ := (ht _ b hl).content_eq he
    exact ⟨hvi, hc, ht _ b hl⟩

/-- The vote in the bucket: its signer had not taken the slot. -/
theorem BucketInv.push {G : Group} {voters : Table VoterKey Unit} {idx : Bytes} {b : VoteBucket} {s : Signature}
    (h : BucketInv G voters idx b) (hs : verifySig G.crypto (ledgerCommitDigest G.crypto b.commit) s = true)
    (hnew : (voters.lookup ⟨b.voteInfo.round, s.signer⟩).isSome ≠ true) :
    BucketInv G (voters.insert ⟨b.voteInfo.round, s.signer⟩ ()) idx { b with sigs := b.sigs.push s } := by
  have hmem : ∀ x ∈ (b.sigs.push s).elems, x ∈ b.sigs.elems ∨ x = s := by
    intro x hx
    rcases b.sigs.elems_push s with he | he
    · rw [he] at hx; simpa using hx
    · rw [he] at hx; exact .inl hx
  refine ⟨h.key, h.valid, h.bound, h.known, fun x hx => ?_, fun x hx => ?_, ?_⟩
  · rcases hmem x hx with hx | rfl
    · exact h.signed x hx
    · exact hs
  · by_cases hxs : x.signer = s.signer
    · rw [hxs, AList.lookup_insert]; rfl
    · rw [AList.lookup_insert_ne (by simpa using hxs)]
      rcases hmem x hx with hx | rfl
      · exact h.taken x hx
      · exact absurd rfl hxs
  · rcases b.sigs.elems_push s with he | he
    · rw [he, List.map_append]
      refine List.nodup_append.2 ⟨h.once, by simp, fun a ha c hc hac => ?_⟩
      obtain ⟨x, hx, rfl⟩ := List.mem_map.1 ha
      rw [List.map_singleton, List.mem_singleton] at hc
      exact hnew (by rw [← hc, ← hac]; exact h.taken x hx)
    · rw [he]; exact h.once

theorem BucketInv.insert_voter {G : Group} {voters : Table VoterKey Unit} {idx : Bytes} {b : VoteBucket}
    (h : BucketInv G voters idx b) (vk : VoterKey) : BucketInv G (voters.insert vk ()) idx b := by
  refine ⟨h.key, h.valid, h.bound, h.known, h.signed, fun s hs => ?_, h.once⟩
  by_cases hk : (⟨b.voteInfo.round, s.signer⟩ : VoterKey) = vk
  · rw [hk, AList.lookup_insert]; rfl
  · rw [AList.lookup_insert_ne hk]; exact h.taken s hs

/-- **What a vote does to the tree**: nothing, or it is put in its bucket; and on a quorum the bucket becomes a
certificate, author's signature and all. -/
theorem accumulate_cases {cr : Crypto} {env : Env} {id : UInt32} {quorum : Nat} {t t' : BlockTree}
    {qc : Option QuorumCert} (h : t.accumulate cr env id quorum m = (t', qc)) :
    (t' = t ∧ qc = none) ∨
    ((t.voters.lookup ⟨m.voteInfo.round, m.sender⟩).isSome ≠ true ∧ ∃ b, b = bucketOf cr t m ∧
      t'.highQC = t.highQC ∧ t'.highCommitQC = t.highCommitQC ∧
      t'.voters = t.voters.insert ⟨m.voteInfo.round, m.sender⟩ () ∧
      Table.Sub t'.votes (t.votes.insert (ledgerCommitDigest cr m.ledgerCommitInfo)
        { b with sigs := b.sigs.push m.sig }) ∧
      ∀ q, qc = some q → quorum ≤ (b.sigs.push m.sig).len ∧ ∃ sig,
        (sig.signer = id ∧ env.sign (qcSigsDigest cr (canonical (b.sigs.push m.sig))) = some sig.sig) ∧
        q = { voteInfo := b.voteInfo, ledgerCommitInfo := b.commit, signatures := canonical (b.sigs.push m.sig),
              author := id, authorSig := some sig }) := by
  simp only [BlockTree.accumulate] at h
  split at h
  · cases h; exact .inl ⟨rfl, rfl⟩
  · rename_i hnew
    refine .inr ⟨hnew, bucketOf cr t m, rfl, ?_⟩
    split at h
    · cases h
      exact ⟨rfl, rfl, rfl, Table.Sub.refl _, fun q hq => by cases hq⟩
    · rename_i hlen
      split at h
      · cases h
        exact ⟨rfl, rfl, rfl, Table.Sub.refl _, fun q hq => by cases hq⟩
      · rename_i sig hsig
        cases h
        refine ⟨rfl, rfl, rfl, Table.sub_erase _ _, fun q hq => ?_⟩
        cases hq
        exact ⟨Nat.le_of_not_lt hlen, sig, Safety.sign_eq_some hsig, rfl⟩

theorem accumulate_highQC (cr : Crypto) (env : Env) (id : UInt32) (quorum : Nat) (t : BlockTree) (m : VoteMsg) :
    (t.accumulate cr env id quorum m).1.highQC = t.highQC := by
  generalize hacc : t.accumulate cr env id quorum m = r
  obtain ⟨t', qc⟩ := r
  rcases accumulate_cases hacc with ⟨rfl, -⟩ | ⟨-, b, -, heq, -⟩
  · rfl
  · exact heq

/-- **A vote keeps the buckets**, and the certificate it completes is a full bucket, for the vote's content. -/
theorem accumulate_votes {i : UInt32} {env : Env} {t' : BlockTree} {qc : Option QuorumCert}
    (ht : t.votes.Holds (BucketInv N.toGroup t.voters)) (he : N.Admits (.vote m))
    (h : t.accumulate N.crypto env i N.verifier.quorum m = (t', qc)) :
    t'.votes.Holds (BucketInv N.toGroup t'.voters) ∧ ∀ q, qc = some q → ∃ b sig,
      b = { bucketOf N.crypto t m with sigs := (bucketOf N.crypto t m).sigs.push m.sig } ∧
      BucketInv N.toGroup t'.voters (ledgerCommitDigest N.crypto m.ledgerCommitInfo) b ∧
      N.verifier.quorum ≤ b.sigs.len ∧
      b.voteInfo = m.voteInfo ∧ (sig.signer = i ∧ env.sign (qcSigsDigest N.crypto (canonical b.sigs)) = some sig.sig) ∧
      q = { voteInfo := b.voteInfo, ledgerCommitInfo := b.commit, signatures := canonical b.sigs, author := i
            authorSig := some sig } := by
  rcases accumulate_cases h with ⟨rfl, rfl⟩ | ⟨hnew, b, hbucket, -, -, hvoters, hsub, hq⟩
  · exact ⟨ht, fun q hq => by cases hq⟩
  · obtain ⟨hvi, hci, hinv⟩ := bucketOf_spec ht he
    rw [← hbucket] at hvi hci hinv
    obtain ⟨hsigner, -, -, hsig, -⟩ := (N.verifier.verifyVote_iff m).1 he.1
    rw [← hvi, ← hsigner] at hnew hvoters
    rw [← hci] at hsig
    have hpush := hinv.push hsig hnew
    rw [← hvoters] at hpush
    refine ⟨hsub.holds (Table.holds_insert (fun idx b' hb' => ?_) hpush), fun q hqc => ?_⟩
    · rw [hvoters]
      exact (ht idx b' hb').insert_voter _
    · obtain ⟨hlen, sig, hid, rfl⟩ := hq q hqc
      exact ⟨_, sig, by rw [hbucket], hpush, hlen, hvi, hid, rfl⟩

/-- **A vote keeps the tree's invariant, and the certificate it completes is one every replica accepts.** -/
theorem accumulate_inv {log : List (UInt32 × Signed)} (i : UInt32) (env : Env) {t' : BlockTree} {qc : Option QuorumCert}
    (hb : Ballots N.toGroup log) (ht : TreeInv N.toGroup t) (he : N.Admits (.vote m))
    (h : t.accumulate N.crypto env i N.verifier.quorum m = (t', qc)) :
    TreeInv N.toGroup t' ∧ ∀ q, qc = some q → N.Legit i (.assembled q) →
      N.AcceptsQC (some q) ∧ q.voteInfo = m.voteInfo := by
  obtain ⟨hvotes, hfull⟩ := accumulate_votes ht.votes he h
  refine ⟨⟨?_, ?_, hvotes⟩, fun q hqc hlegit => ?_⟩
  · rcases accumulate_cases h with ⟨rfl, -⟩ | ⟨-, -, -, hhq, -⟩
    · exact ht.highQC
    · rw [hhq]
      exact ht.highQC
  · rcases accumulate_cases h with ⟨rfl, -⟩ | ⟨-, -, -, -, hhc, -⟩
    · exact ht.highCommitQC
    · rw [hhc]
      exact ht.highCommitQC
  obtain ⟨b, sig, -, hinv, hlen, hvi, ⟨hid, -⟩, rfl⟩ := hfull q hqc
  -- a quorum of verified votes holds an honest one, so the content passed Safety's checks
  obtain ⟨b', tc, hvouch⟩ := hinv.vouched hb hlen
  have hround : b.voteInfo.round ≠ 0 := by
    rw [hvouch.round_eq]
    intro h0
    exact absurd hvouch.above (by rw [h0]; simp)
  refine ⟨⟨hinv.verifyQC hlen hround (fun hc => ?_) hid ?_, ?_⟩, hvi⟩
  · rw [consecutive_iff, hvouch.round_eq, hvouch.parentRound_eq]
    exact hvouch.commit hc
  · exact (hlegit _ _ rfl).1
  · intro q hq _
    cases hq
    exact hinv.known

end Votes

/-! ## The pacemaker -/

/-- A bucket's timeouts are verified, of its round, and of different senders. -/
structure TimeoutsInv (G : Group) (round : UInt64) (b : TimeoutBucket) : Prop where
  infos   : ∀ x ∈ b.infos, round ≠ 0 ∧ x.sig.signer = x.sender ∧
              verifySig G.crypto (timeoutDigest G.crypto round (qcRound x.highQc)) x.sig = true ∧
              timeoutBytes round (qcRound x.highQc) ∈ G.hashed
  senders : b.senders = (b.infos.map TimeoutInfo.sender).reverse
  once    : b.senders.Nodup

structure PaceInv (G : Group) (p : Pacemaker) : Prop where
  tc      : G.AcceptsTC p.lastRoundTC
  buckets : ∀ r, TimeoutsInv G r (p.bucket r)

theorem timeoutsInv_empty (G : Group) (r : UInt64) : TimeoutsInv G r ⟨[], []⟩ :=
  ⟨fun x hx => (by cases hx), rfl, List.nodup_nil⟩

theorem PaceInv.startTimer {G : Group} {p : Pacemaker} (h : PaceInv G p) (r : UInt64) : PaceInv G (p.startTimer r) := by
  refine ⟨h.tc, fun r' => ?_⟩
  rw [Pacemaker.bucket_startTimer]
  split
  · exact timeoutsInv_empty G r'
  · exact h.buckets r'

theorem PaceInv.advanceRoundQC {G : Group} {p : Pacemaker} (h : PaceInv G p) (qc : QuorumCert) :
    PaceInv G (p.advanceRoundQC (some qc)).1 := by
  rw [Pacemaker.advanceRoundQC_eq]
  split
  · exact h
  · have hclear : PaceInv G { p with lastRoundTC := none } := ⟨G.acceptsTC_none, h.buckets⟩
    exact hclear.startTimer _

theorem PaceInv.advanceRoundTC {G : Group} {p : Pacemaker} (h : PaceInv G p) {tc : TimeoutCert}
    (ht : G.AcceptsTC (some tc)) : PaceInv G (p.advanceRoundTC (some tc)).1 := by
  rw [Pacemaker.advanceRoundTC_eq]
  split
  · exact h
  · have hset : PaceInv G { p with lastRoundTC := some tc } := ⟨ht, h.buckets⟩
    exact hset.startTimer _

theorem PaceInv.file {N : Net} {p : Pacemaker} {m : TimeoutMsg} (h : PaceInv N.toGroup p) (he : N.Admits (.timeout m))
    (hnew : m.tmoInfo.sender ∉ (p.bucket m.tmoInfo.round).senders) : PaceInv N.toGroup (p.file m.tmoInfo) := by
  refine ⟨h.tc, fun r => ?_⟩
  rw [Pacemaker.bucket_file]
  split
  · rename_i hr
    subst hr
    have hb := h.buckets m.tmoInfo.round
    obtain ⟨hwf, hsigner, hsig, -⟩ := (N.verifier.verifyTimeout_iff m).1 he.1
    rw [wellFormedTimeout, Bool.and_eq_true, wellFormed_iff] at hwf
    refine ⟨fun x hx => ?_, ?_, List.nodup_cons.2 ⟨hnew, hb.once⟩⟩
    · rcases List.mem_append.1 hx with hx | hx
      · exact hb.infos x hx
      · rw [List.mem_singleton] at hx
        subst hx
        exact ⟨hwf.2.1, hsigner, hsig, he.2.1⟩
    · rw [hb.senders, List.map_append, List.reverse_append]
      rfl
  · exact h.buckets r

/-- **A full bucket makes a TC every replica accepts.** -/
theorem TimeoutsInv.acceptsTC {G : Group} {r : UInt64} {b : TimeoutBucket} (h : TimeoutsInv G r b)
    (hlen : b.senders.length = G.verifier.quorum) : G.AcceptsTC (some (Pacemaker.assembleTC r b.infos)) := by
  have hinfos : b.infos.length = G.verifier.quorum := by
    rw [← hlen, h.senders, List.length_reverse, List.length_map]
  have honce : (b.infos.map TimeoutInfo.sender).Nodup := by
    rw [← List.nodup_reverse, ← h.senders]
    exact h.once
  -- a quorum is not empty, and an accepted timeout is not for round 0
  have hpos : 0 < b.infos.length := by
    rw [hinfos]
    exact Nat.lt_of_le_of_lt (Nat.zero_le _) (faulty_lt_quorumSize _)
  obtain ⟨x, hx⟩ := List.exists_mem_of_length_pos hpos
  refine ⟨Pacemaker.verifyTC_assembleTC (h.infos x hx).1 (fun x hx => ⟨(h.infos x hx).2.1, (h.infos x hx).2.2.1⟩) honce
    hinfos.ge, ?_⟩
  intro tc htc t ht
  cases htc
  obtain ⟨x, hx, rfl⟩ := Pacemaker.mem_assembleTC ht
  exact (h.infos x hx).2.2.2

/-! ## The core -/

/-- The ids a replica has passed to `OnCommit`, in order. -/
def committedIDs (eff : List Effect) : List Bytes :=
  eff.filterMap (fun x => match x with
    | .onCommit b => some b.id
    | _           => none)

theorem committedIDs_append (eff eff' : List Effect) :
    committedIDs (eff ++ eff') = committedIDs eff ++ committedIDs eff' := List.filterMap_append

theorem committedIDs_onCommit (bs : List Block) : committedIDs (bs.map Effect.onCommit) = bs.map Block.id := by
  simp [committedIDs, List.filterMap_map]

theorem committedIDs_propose (cr : Crypto) (cfg : Config) (env : Env) (c : Core) (tc : Option TimeoutCert) :
    committedIDs (c.processNewRoundEvent cr cfg env tc) = [] := by
  refine List.filterMap_eq_nil_iff.2 (fun x hx => ?_)
  obtain ⟨sig, -, rfl⟩ := Core.mem_processNewRoundEvent hx
  rfl

/-- The frontier is genesis, or the parent an accepted certificate commits. -/
def Frontier (G : Group) (id : Bytes) : Prop :=
  id = (genesisBlock G.crypto).id ∨
    ∃ q, G.AcceptsQC (some q) ∧ commits q.ledgerCommitInfo = true ∧ q.voteInfo.parentId = id

/-- What was committed climbs from genesis to `top`. -/
def Committed (G : Group) (eff : List Effect) (top : Bytes) : Prop :=
  Climb G.Parent (genesisBlock G.crypto).id (committedIDs eff) top ∧ Frontier G top

/-- **The invariant of a running core**, with all that its replica did.  `Q` is what is known of the blocks that come
in. -/
structure CoreInv (G : Group) (Q : Block → Prop) (eff : List Effect) (c : Core) : Prop where
  ledger    : LedgerInv G Q c.ledger
  tree      : TreeInv G c.tree
  pacemaker : PaceInv G c.pacemaker
  chain     : Committed G eff c.ledger.commitID

theorem Committed.quiet {G : Group} {eff eff' : List Effect} {top : Bytes} (h : Committed G eff top)
    (hq : committedIDs eff' = []) : Committed G (eff ++ eff') top := by
  rw [Committed, committedIDs_append, hq, List.append_nil]
  exact h

section Core

variable {N : Net} {Q : Block → Prop} (hQ : ∀ b, Q b → N.IsBlock b) {log : List (UInt32 × Signed)}
  (hb : Ballots N.toGroup log) {i : UInt32} {env : Env} {c₀ : Core} {e : Event} {tr eff : List Effect} {c c' : Core}

theorem coreInv_start (hnew : newCore N.crypto (N.config i) = some c) :
    CoreInv N.toGroup Q (c.start N.crypto (N.config i) env).2 (c.start N.crypto (N.config i) env).1 := by
  cases newCore_eq hnew
  have hpace : PaceInv N.toGroup newPacemaker := ⟨N.acceptsTC_none, fun r => timeoutsInv_empty _ r⟩
  refine ⟨⟨Table.holds_empty _, Table.holds_empty _, ?_, _, Group.isBlock_genesis _, rfl⟩, treeInv_newBlockTree _,
    hpace.advanceRoundQC _, ?_, .inl rfl⟩
  · exact Table.holds_insert (Table.holds_empty _) ⟨rfl, .inl rfl⟩
  · simp only [Core.start, committedIDs_propose]
    exact .nil

include hQ hb

/-- **A processed certificate**, in the core: only tree, ledger and what is committed change. -/
theorem CoreInv.processQC {history fuel : Nat} {qc : QuorumCert} {l : MemLedger} {t : BlockTree} {bs : List Block}
    (h : CoreInv N.toGroup Q tr c) (hq : N.AcceptsQC (some qc))
    (hp : BlockTree.processQC history fuel c.ledger c.tree (some qc) = .ok (l, t, bs)) :
    CoreInv N.toGroup Q (tr ++ bs.map Effect.onCommit) { c with ledger := l, tree := t } := by
  obtain ⟨ht, hl, hclimb, htop⟩ := processQC_inv hQ hb h.tree h.ledger hq hp
  refine ⟨hl, ht, h.pacemaker, ?_, ?_⟩
  · rw [committedIDs_append, committedIDs_onCommit]
    exact h.chain.1.trans hclimb
  · rcases htop with htop | ⟨hc, htop⟩
    · rw [htop]; exact h.chain.2
    · exact .inr ⟨qc, hq, hc, htop.symm⟩

theorem CoreInv.processCertificateQC {qc : QuorumCert} {moved : Bool} (h : CoreInv N.toGroup Q tr c)
    (hq : N.AcceptsQC (some qc))
    (hp : c.processCertificateQC N.crypto (N.config i) env (some qc) = .ok ((c', moved), eff)) :
    CoreInv N.toGroup Q (tr ++ eff) c' := by
  obtain ⟨l, t, bs, e, hqc, -, rfl, -, rfl⟩ := Core.processCertificateQC_ok hp
  have h' := h.processQC hQ hb hq hqc
  exact ⟨h'.ledger, h'.tree, h'.pacemaker.advanceRoundQC qc, h'.chain⟩

omit hQ in
/-- The certificate a vote completed is accepted, and the tree keeps its invariant. -/
theorem CoreInv.assembled {m : VoteMsg} {qc : QuorumCert} (h : CoreInv N.toGroup Q tr c) (he : N.Admits (.vote m))
    (hqc : (c.tree.accumulate N.crypto env i N.verifier.quorum m).2 = some qc) (hok : N.Legit i (.assembled qc)) :
    N.AcceptsQC (some qc) ∧ qc.voteInfo = m.voteInfo ∧ CoreInv N.toGroup Q (tr ++ [.assembled qc])
      { c with tree := (c.tree.accumulate N.crypto env i N.verifier.quorum m).1 } := by
  obtain ⟨ht, hacc⟩ := accumulate_inv i env hb h.tree he rfl
  obtain ⟨hq, hvi⟩ := hacc qc hqc hok
  exact ⟨hq, hvi, h.ledger, ht, h.pacemaker, h.chain.quiet rfl⟩

/-- **Every micro step keeps the invariant.** -/
theorem coreInv_micro (he : N.Admits e) (hin : ∀ b, e = .block b ∨ (∃ p, e = .proposal p ∧ p.block = some b) → Q b)
    (h : CoreInv N.toGroup Q tr c) (hm : N.Micro i env c₀ e c eff c') (hok : ∀ x ∈ eff, N.Legit i x) :
    CoreInv N.toGroup Q (tr ++ eff) c' := by
  cases hm with
  | cert _ qc _ moved _ hsrc hp => exact h.processCertificateQC hQ hb (he.qcs qc hsrc) hp
  | tc _ t hsrc =>
    have ht := he.tc
    rw [hsrc] at ht
    exact ⟨h.ledger, h.tree, h.pacemaker.advanceRoundTC ht, h.chain.quiet rfl⟩
  | insert _ b _ _ hsrc hp =>
    obtain ⟨rfl, hreq⟩ := Core.insert_ok hp
    have hl := h.ledger.speculate hQ (hin b hsrc) (N.config i).execute
    obtain ⟨-, htop, -⟩ := MemLedger.speculate_frame (N.config i).execute c.ledger b
    refine ⟨hl, ⟨h.tree.highQC, h.tree.highCommitQC, h.tree.votes⟩, h.pacemaker, ?_⟩
    rw [htop]
    rcases hreq with rfl | ⟨id, rfl⟩
    · exact h.chain.quiet rfl
    · exact h.chain.quiet rfl
  | vote _ p b dest hp hb hround hqc =>
    refine ⟨h.ledger, h.tree, h.pacemaker, h.chain.quiet ?_⟩
    cases (c.safety.makeVote N.verifier env i c.ledger c.tree b p.lastRoundTc).2 <;> rfl
  | stop => exact ⟨h.ledger, h.tree, ⟨h.pacemaker.tc, h.pacemaker.buckets⟩, h.chain.quiet rfl⟩
  | timeout =>
    refine ⟨h.ledger, h.tree, h.pacemaker.startTimer _, h.chain.quiet ?_⟩
    rw [Core.localTimeoutRound]
    cases (c.pacemaker.localTimeoutRound (Core.verifier N.crypto (N.config i)) env
      (N.config i).id c.tree c.safety).2.2 <;>
      rfl
  | note _ m hm hnew =>
    subst hm
    exact ⟨h.ledger, h.tree, h.pacemaker.file he hnew, h.chain.quiet rfl⟩
  | complete _ m tc _ hm htc hlen hround hc' =>
    have ht : N.AcceptsTC (some tc) := by
      rw [htc]
      exact (h.pacemaker.buckets _).acceptsTC hlen
    subst hc'
    exact ⟨h.ledger, h.tree, h.pacemaker.advanceRoundTC ht, h.chain.quiet (committedIDs_propose _ _ _ _ _)⟩
  | voteQC m qc l t bs hm hqc hwin hp =>
    subst hm
    exact h.processQC hQ hb (he.highCommitQc hqc) hp
  | gather _ m hm hnone =>
    subst hm
    exact ⟨h.ledger, (accumulate_inv i env hb h.tree he rfl).1, h.pacemaker, h.chain.quiet rfl⟩
  | aggregate _ m qc _ moved eff' hm hwin hqc hp =>
    subst hm
    obtain ⟨hq, -, h1⟩ := h.assembled hb he hqc (hok _ List.mem_cons_self)
    have h2 := h1.processCertificateQC hQ hb hq hp
    rw [List.append_assoc] at h2
    split
    · have h3 : CoreInv N.toGroup Q (tr ++ ([.assembled qc] ++ eff') ++ _) c' :=
        ⟨h2.ledger, h2.tree, h2.pacemaker,
          h2.chain.quiet (committedIDs_propose N.crypto (N.config i) env c' none)⟩
      rwa [List.append_assoc, List.append_assoc] at h3
    · exact h2
  | reply _ b => exact ⟨h.ledger, h.tree, h.pacemaker, h.chain.quiet rfl⟩

/-- What is left of a step caught in a loop committed along the same chain. -/
theorem committed_cut (he : N.Admits e) (h : CoreInv N.toGroup Q tr c) (hc : N.Cut i env e c eff)
    (hok : ∀ x ∈ eff, N.Legit i x) : ∃ top, Committed N.toGroup (tr ++ eff) top := by
  cases hc with
  | insert => exact ⟨_, h.chain.quiet rfl⟩
  | commit => exact ⟨_, h.chain.quiet rfl⟩
  | cert qc l t bs loop hsrc hp hloop => exact ⟨_, (h.processQC hQ hb (he.qcs qc hsrc) hp).chain⟩
  | assembled => exact ⟨_, h.chain.quiet rfl⟩
  | aggregate m qc l t bs loop hm hqc hp hloop =>
    subst hm
    obtain ⟨hq, -, h1⟩ := h.assembled hb he hqc (hok _ List.mem_cons_self)
    have h2 := (h1.processQC hQ hb hq hp).chain
    rw [List.append_assoc] at h2
    exact ⟨_, h2⟩

end Core

/-- **The invariant in every state of every run.** -/
theorem coreInv_run {N : Net} {log : List (UInt32 × Signed)} (hb : Ballots N.toGroup log)
    {P : UInt32 → Core → Event → Prop} {σ : Sys} (h : N.Run P σ) :
    ∀ i, (σ.status i = .fresh → σ.effects i = []) ∧
      (∀ c, σ.status i = .running c → CoreInv N.toGroup N.IsBlock (σ.effects i) c) ∧
      (σ.status i = .stuck → ∃ top, Committed N.toGroup (σ.effects i) top) :=
  Net.Run.invariant (J := fun _ tr c => CoreInv N.toGroup N.IsBlock tr c)
    (K := fun _ tr => ∃ top, Committed N.toGroup tr top)
    (fun _ _ _ hnew _ => coreInv_start hnew)
    (fun _ _ _ _ _ _ _ _ _ he _ hJ hm hok =>
      coreInv_micro (fun _ hb => hb) hb he (fun _ hsrc => he.isBlock hsrc) hJ hm hok)
    (fun _ _ _ _ _ _ _ _ he _ hJ hc hok => committed_cut (fun _ hb => hb) hb he hJ hc hok) h

end Diem

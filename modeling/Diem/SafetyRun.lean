import Diem.Group
/-!
# SafetyRun — what the Safety objects of a group guarantee, whatever surrounds them

The state is one Safety object a validator and the log of what honest keys signed.  A step is a call of `MakeVote` or
`MakeTimeout` with any arguments at all, or a signature the rest of the replica asks the same key for.  A run of such
steps leaves `Ballots`: each honest key's signatures are ordered as its counters order them, each vote was over a block
that passed the checks, and nobody else's signature verifies.  Everything below is read off `Ballots`, through the
theory of `Ballot`.
-/
namespace Diem

open Ballot (Act Recorded Election)

/-- The content of a vote, as a round certifies it. -/
abbrev Content := VoteInfo × LedgerCommitInfo

/-! ## Runs -/

structure SafetySys where
  safety : UInt32 → Safety
  log    : List (UInt32 × Signed)

namespace SafetySys

def init : SafetySys := ⟨fun _ => newSafety, []⟩

/-- Replica `i`'s object becomes `s`, and its key signed `x`. -/
def record (σ : SafetySys) (i : UInt32) (s : Safety) (x : Option Signed) : SafetySys :=
  ⟨Function.update σ.safety i s, σ.log ++ x.toList.map (fun x => (i, x))⟩

end SafetySys

namespace Group

variable (G : Group)

/-- What a call that returned the vote `m` hashed on the way. -/
structure VoteHashed (b : Block) (tc : Option TimeoutCert) (m : VoteMsg) : Prop where
  block : b.bytes ∈ G.hashed
  qc    : G.KnownQC b.qc
  tc    : G.KnownTC tc
  info  : voteInfoBytes m.voteInfo ∈ G.hashed
  vote  : ledgerCommitBytes m.ledgerCommitInfo ∈ G.hashed

inductive SafetyStep : SafetySys → SafetySys → Prop
  | makeVote (σ : SafetySys) (i : UInt32) (env : Env) (l : MemLedger) (t : BlockTree) (b : Block)
      (tc : Option TimeoutCert) (hi : G.Honest i)
      (hk : ∀ m, ((σ.safety i).makeVote G.verifier env i l t b tc).2 = some m → G.VoteHashed b tc m) :
      SafetyStep σ (σ.record i ((σ.safety i).makeVote G.verifier env i l t b tc).1
        (((σ.safety i).makeVote G.verifier env i l t b tc).2.map .vote))
  | makeTimeout (σ : SafetySys) (i : UInt32) (env : Env) (round : UInt64) (highQC : Option QuorumCert)
      (tc : Option TimeoutCert) (hi : G.Honest i)
      (hk : ∀ m, ((σ.safety i).makeTimeout G.verifier env i round highQC tc).2 = some m →
        timeoutBytes m.round (qcRound m.highQc) ∈ G.hashed) :
      SafetyStep σ (σ.record i ((σ.safety i).makeTimeout G.verifier env i round highQC tc).1
        (((σ.safety i).makeTimeout G.verifier env i round highQC tc).2.map .timeout))
  | block (σ : SafetySys) (i : UInt32) (b : Block) (hi : G.Honest i) (hk : b.bytes ∈ G.hashed) :
      SafetyStep σ (σ.record i (σ.safety i) (some (.block b)))
  | sigs (σ : SafetySys) (i : UInt32) (s : Slice Signature) (hi : G.Honest i) (hk : qcSigsBytes s ∈ G.hashed) :
      SafetyStep σ (σ.record i (σ.safety i) (some (.sigs s)))

/-- **Every interleaving of calls**, from fresh objects. -/
def SafetyRun (σ : SafetySys) : Prop := Relation.ReflTransGen G.SafetyStep SafetySys.init σ

/-! ## What a run leaves behind -/

/-- What stands behind an honest vote: block and certificates that were checked, and the rule that let it be cast. -/
structure Vouched (v : VoteInfo) (l : LedgerCommitInfo) (b : Block) (tc : Option TimeoutCert) : Prop where
  block  : G.IsBlock b
  qc     : G.AcceptsQC b.qc
  gaveUp : G.AcceptsTC tc
  info   : v = { id := b.id, round := b.round, parentId := parentID b, parentRound := qcRound b.qc,
                 execStateId := v.execStateId }
  above  : qcRound b.qc < b.round
  rule   : qcRound b.qc + 1 = b.round ∨
             ∃ t, tc = some t ∧ t.round + 1 = b.round ∧ maxHighQCRound t ≤ qcRound b.qc
  bound  : l.voteInfoHash = voteInfoHash G.crypto v
  commit : commits l = true → qcRound b.qc + 1 = b.round
  hashed : voteInfoBytes v ∈ G.hashed

section

variable {G} {v : VoteInfo} {l : LedgerCommitInfo} {b : Block} {tc : Option TimeoutCert}

theorem AcceptsQC.certifiedID_len {qc : Option QuorumCert} (h : G.AcceptsQC qc) : (certifiedID qc).len = hashLen := by
  obtain ⟨hv, -⟩ := h
  cases qc with
  | none => cases hv
  | some q => exact ((validVote_iff _ _).1 ((G.verifier.verifyQC_iff q).1 hv).1).1

theorem AcceptsQC.eq_some {qc : Option QuorumCert} (h : G.AcceptsQC qc) : ∃ q, qc = some q := by
  cases qc with
  | none => cases h.1
  | some q => exact ⟨q, rfl⟩

theorem Vouched.id_eq (h : G.Vouched v l b tc) : v.id = b.id := by rw [h.info]

theorem Vouched.round_eq (h : G.Vouched v l b tc) : v.round = b.round := by rw [h.info]

theorem Vouched.parentId_eq (h : G.Vouched v l b tc) : v.parentId = parentID b := by rw [h.info]

theorem Vouched.parentRound_eq (h : G.Vouched v l b tc) : v.parentRound = qcRound b.qc := by rw [h.info]

theorem Vouched.parentId_len (h : G.Vouched v l b tc) : v.parentId.len = hashLen := by
  rw [h.parentId_eq, parentID_eq]
  exact h.qc.certifiedID_len

end

def Sound (x : Signed) : Prop :=
  x.bytes ∈ G.hashed ∧ ∀ m, x = .vote m → ∃ b tc, G.Vouched m.voteInfo m.ledgerCommitInfo b tc

end Group

def Signed.act : Signed → Option (Act Content)
  | .vote m    => some (.vote m.voteInfo.round.toNat m.voteInfo.parentRound.toNat (m.voteInfo, m.ledgerCommitInfo))
  | .timeout m => some (.timeout m.round.toNat (qcRound m.highQc).toNat)
  | .block _   => none
  | .sigs _    => none

/-- What replica `i` voted and timed out, oldest first. -/
def hist (log : List (UInt32 × Signed)) (i : UInt32) : List (Act Content) :=
  log.filterMap (fun e => if e.1 = i then e.2.act else none)

theorem hist_snoc_self (log : List (UInt32 × Signed)) (i : UInt32) (x : Signed) :
    hist (log ++ [(i, x)]) i = hist log i ++ x.act.toList := by
  unfold hist
  rw [List.filterMap_append]
  cases hx : x.act <;> simp [hx]

theorem hist_snoc_ne (log : List (UInt32 × Signed)) {i j : UInt32} (hij : i ≠ j) (x : Signed) :
    hist (log ++ [(i, x)]) j = hist log j := by
  simp [hist, List.filterMap_append, hij]

theorem mem_hist_vote {log : List (UInt32 × Signed)} {i : UInt32} {r q : Nat} {c : Content}
    (h : Act.vote r q c ∈ hist log i) : ∃ m, (i, Signed.vote m) ∈ log ∧ r = m.voteInfo.round.toNat ∧
      q = m.voteInfo.parentRound.toNat ∧ c = (m.voteInfo, m.ledgerCommitInfo) := by
  obtain ⟨⟨j, x⟩, hmem, hx⟩ := List.mem_filterMap.1 h
  by_cases hj : j = i
  · subst hj
    rw [if_pos rfl] at hx
    cases x with
    | vote m => cases hx; exact ⟨m, hmem, rfl, rfl, rfl⟩
    | timeout m => cases hx
    | block b => cases hx
    | sigs s => cases hx
  · rw [if_neg hj] at hx
    cases hx

theorem hist_mem {log : List (UInt32 × Signed)} {i : UInt32} {x : Signed} {a : Act Content} (h : (i, x) ∈ log)
    (hx : x.act = some a) : a ∈ hist log i := List.mem_filterMap.2 ⟨(i, x), h, by rw [if_pos rfl]; exact hx⟩

structure SafetyInv (G : Group) (σ : SafetySys) : Prop where
  recorded : ∀ i, Recorded (σ.safety i).highestVoteRound.toNat (σ.safety i).highestQCRound.toNat (hist σ.log i)
  sound    : ∀ i x, (i, x) ∈ σ.log → G.Sound x

/-- **One step of the record**: only the signer's part is to be shown. -/
theorem SafetyInv.record {G : Group} {σ : SafetySys} (h : SafetyInv G σ) {i : UInt32} {s : Safety} {x : Option Signed}
    (hx : ∀ y, x = some y → G.Sound y)
    (hr : Recorded s.highestVoteRound.toNat s.highestQCRound.toNat (hist σ.log i ++ (x.bind Signed.act).toList)) :
    SafetyInv G (σ.record i s x) := by
  constructor
  · intro j
    by_cases hj : j = i
    · subst hj
      simp only [SafetySys.record, Function.update_self]
      cases x with
      | none => simpa using hr
      | some y => simpa [hist_snoc_self] using hr
    · simp only [SafetySys.record, Function.update_of_ne hj]
      cases x with
      | none => simpa using h.recorded j
      | some y => simpa [hist_snoc_ne _ (Ne.symm hj)] using h.recorded j
  · intro j y hy
    simp only [SafetySys.record, List.mem_append] at hy
    rcases hy with hy | hy
    · exact h.sound j y hy
    · cases x with
      | none => simp at hy
      | some z =>
        simp only [Option.toList_some, List.map_cons, List.map_nil, List.mem_singleton, Prod.mk.injEq] at hy
        exact hx y (by rw [hy.2])

theorem commitStateIDCandidate_commits {l : MemLedger} {r : UInt64} {qc : Option QuorumCert} {h : Bytes}
    (hc : commits ⟨commitStateIDCandidate l r qc, h⟩ = true) : qcRound qc + 1 = r := by
  by_contra hn
  have hcons : (!consecutive r (qcRound qc)) = true := by
    cases hb : consecutive r (qcRound qc)
    · rfl
    · exact absurd (consecutive_iff.1 hb) hn
  rw [commitStateIDCandidate, if_pos hcons] at hc
  have hzero : commits ⟨zeroHash, h⟩ = false := rfl
  rw [hzero] at hc
  cases hc

/-- A returned vote stands on what `MakeVote` checked. -/
theorem Safety.Voted.vouched {G : Group} {env : Env} {i : UInt32} {l : MemLedger} {t : BlockTree} {s s' : Safety}
    {b : Block} {tc : Option TimeoutCert} {m : VoteMsg} (h : Safety.Voted G.verifier env i l t s s' b tc m)
    (hk : G.VoteHashed b tc m) : G.Vouched m.voteInfo m.ledgerCommitInfo b tc := by
  obtain ⟨-, habove, hrule⟩ := (Safety.safeToVote_iff _ _ _ _).1 h.safe
  refine ⟨⟨h.blockID, hk.block⟩, ⟨h.certified, hk.qc⟩, ⟨h.tc, hk.tc⟩, h.info, habove, hrule, ?_, fun hc => ?_, hk.info⟩
  · rw [h.commit]; rfl
  · rw [h.commit] at hc
    exact commitStateIDCandidate_commits hc

theorem SafetyInv.step {G : Group} {σ σ' : SafetySys} (h : SafetyInv G σ) (hs : G.SafetyStep σ σ') :
    SafetyInv G σ' := by
  cases hs with
  | makeVote i env l t b tc hi hk =>
    obtain ⟨hgrow, hspec⟩ := (σ.safety i).makeVote_spec G.verifier env i l t b tc
    have hv := UInt64.le_iff_toNat_le.1 hgrow.vote
    have hq := UInt64.le_iff_toNat_le.1 hgrow.qc
    cases hm : ((σ.safety i).makeVote G.verifier env i l t b tc).2 with
    | none => exact h.record (by simp) (by simpa using (h.recorded i).mono hv hq)
    | some m =>
      have hvoted := hspec m hm
      have hvouch := hvoted.vouched (hk m hm)
      obtain ⟨hr, -, -⟩ := (Safety.safeToVote_iff _ _ _ _).1 hvoted.safe
      refine h.record (fun y hy => ?_) ?_
      · cases hy
        exact ⟨(hk m hm).vote, fun m' hm' => by cases hm'; exact ⟨b, tc, hvouch⟩⟩
      · have hrec := (h.recorded i).vote b.round.toNat (qcRound b.qc).toNat (m.voteInfo, m.ledgerCommitInfo)
          (UInt64.lt_iff_toNat_lt.1 hr)
        rw [hvoted.voted, hvoted.qc, UInt64.toNat_max, Nat.max_comm]
        simpa [Signed.act, hvouch.round_eq, hvouch.parentRound_eq] using hrec
  | makeTimeout i env round highQC tc hi hk =>
    obtain ⟨hgrow, hspec⟩ := (σ.safety i).makeTimeout_spec G.verifier env i round highQC tc
    have hv := UInt64.le_iff_toNat_le.1 hgrow.vote
    have hq := UInt64.le_iff_toNat_le.1 hgrow.qc
    cases hm : ((σ.safety i).makeTimeout G.verifier env i round highQC tc).2 with
    | none => exact h.record (by simp) (by simpa using (h.recorded i).mono hv hq)
    | some m =>
      have ht := hspec m hm
      obtain ⟨hqc, hr, -, -⟩ := (Safety.safeToTimeout_iff _ _ _ _).1 ht.safe
      refine h.record (fun y hy => ?_) ?_
      · cases hy
        exact ⟨hk m hm, fun m' hm' => by cases hm'⟩
      · have hrec := (h.recorded i).timeout round.toNat (qcRound highQC).toNat (UInt64.le_iff_toNat_le.1 hr)
          (UInt64.le_iff_toNat_le.1 hqc)
        rw [ht.voted, ht.qc]
        simpa [Signed.act, ht.info.1, ht.info.2] using hrec
  | block i b hi hk =>
    refine h.record (fun y hy => ?_) (by simpa [Signed.act] using h.recorded i)
    cases hy
    exact ⟨hk, fun m hm => by cases hm⟩
  | sigs i s hi hk =>
    refine h.record (fun y hy => ?_) (by simpa [Signed.act] using h.recorded i)
    cases hy
    exact ⟨hk, fun m hm => by cases hm⟩

theorem SafetyInv.run {G : Group} {σ : SafetySys} (h : G.SafetyRun σ) : SafetyInv G σ := by
  induction h with
  | refl => exact ⟨fun i => Recorded.nil _ _, fun i x hx => by cases hx⟩
  | tail _ hs ih => exact ih.step hs

/-- **All that the rest needs of a run**: whose signatures there are, in which order, and what stands behind them. -/
structure Ballots (G : Group) (log : List (UInt32 × Signed)) : Prop where
  ordered     : ∀ i, (hist log i).Pairwise Act.Before
  sound       : ∀ i x, (i, x) ∈ log → G.Sound x
  unforgeable : G.Unforgeable log

theorem Ballots.of_run {G : Group} {σ : SafetySys} (h : G.SafetyRun σ) (hu : G.Unforgeable σ.log) : Ballots G σ.log :=
  ⟨fun i => ((SafetyInv.run h).recorded i).ordered, (SafetyInv.run h).sound, hu⟩

/-! ## From certificates to ballots -/

namespace Group

variable {G : Group}

theorem AcceptsQC.eq_genesisQC {q : QuorumCert} (h : G.AcceptsQC (some q)) (h0 : q.voteInfo.round = 0) :
    q = genesisQC G.crypto := by
  rcases ((G.verifier.verifyQC_iff q).1 h.1).2 with ⟨-, hg⟩ | ⟨hne, -⟩
  · exact hg
  · exact absurd h0 hne

/-- What was soundly signed over the digest of a commit info is a vote for it. -/
theorem Sound.vote {x : Signed} (h : G.Sound x) {l : LedgerCommitInfo}
    (hd : G.crypto.sha256 x.bytes = ledgerCommitDigest G.crypto l) (hl : ledgerCommitBytes l ∈ G.hashed)
    (hlen : l.voteInfoHash.len = hashLen) :
    ∃ m b tc, x = .vote m ∧ m.ledgerCommitInfo = l ∧ G.Vouched m.voteInfo l b tc := by
  obtain ⟨hxh, hvote⟩ := h
  obtain ⟨m, rfl, hbytes⟩ := Signed.eq_vote_of_bytes (G.collisionFree.inj hxh hl hd)
  obtain ⟨b, tc, hvouch⟩ := hvote m rfl
  have hm : m.ledgerCommitInfo = l := by
    refine ledgerCommitBytes_inj ?_ hbytes
    rw [hvouch.bound, hlen]
    exact G.crypto.sha256_len _
  rw [hm] at hvouch
  exact ⟨m, b, tc, rfl, hm, hvouch⟩

/-- And over the digest of a timeout, that timeout. -/
theorem Sound.timeout {x : Signed} (h : G.Sound x) {r q : UInt64}
    (hd : G.crypto.sha256 x.bytes = timeoutDigest G.crypto r q) (hk : timeoutBytes r q ∈ G.hashed) :
    ∃ m, x = .timeout m ∧ m.round = r ∧ qcRound m.highQc = q :=
  Signed.eq_timeout_of_bytes (G.collisionFree.inj h.1 hk hd)

/-- A vote info bound by the same hash as an honest vote's is that vote info. -/
theorem Vouched.info_eq {v w : VoteInfo} {l : LedgerCommitInfo} {b : Block} {tc : Option TimeoutCert}
    (h : G.Vouched v l b tc) (hw : voteInfoBytes w ∈ G.hashed) (hh : voteInfoHash G.crypto w = l.voteInfoHash)
    (hid : w.id.len = hashLen) (hp : w.parentId.len = hashLen) : v = w := by
  have hvid : v.id.len = hashLen := by rw [h.id_eq]; exact h.block.id_len
  refine voteInfoBytes_inj (hvid.trans hid.symm) (h.parentId_len.trans hp.symm) ?_
  exact G.collisionFree.inj h.hashed hw (h.bound.symm.trans hh.symm)

end Group

namespace Ballots

open Diem.Group

variable {G : Group} {log : List (UInt32 × Signed)} (h : Ballots G log)

/-- The validators as voters, with the quorums of `quorumSize` members. -/
def election : Election UInt32 Content where
  hist    := hist log
  honest  := fun i => G.Honest i
  quorum  := fun A => (∀ i ∈ A, i ∈ G.validators) ∧ quorumSize G.validators.length ≤ A.card
  meet    := fun _ hA _ hB => quorum_meet hA.1 hA.2 hB.1 hB.2
  ordered := fun i _ => h.ordered i

include h

/-- An honest signature over a commit info is a vote for it. -/
theorem vote_of_verify {i : UInt32} {l : LedgerCommitInfo} {s : Bytes} (hi : G.Honest i)
    (hv : G.crypto.verify i (ledgerCommitDigest G.crypto l) s = true) (hl : ledgerCommitBytes l ∈ G.hashed)
    (hlen : l.voteInfoHash.len = hashLen) :
    ∃ m b tc, (i, Signed.vote m) ∈ log ∧ m.ledgerCommitInfo = l ∧ G.Vouched m.voteInfo l b tc := by
  obtain ⟨x, hx, hd⟩ := h.unforgeable i hi _ _ hv
  obtain ⟨m, b, tc, rfl, hm, hvouch⟩ := (h.sound i x hx).vote hd hl hlen
  exact ⟨m, b, tc, hx, hm, hvouch⟩

/-- A quorum of signatures over a commit info holds an honest vote for it. -/
theorem exists_vote {l : LedgerCommitInfo} {sigs : List Signature} (honce : (sigs.map Signature.signer).Nodup)
    (hsig : ∀ s ∈ sigs, verifySig G.crypto (ledgerCommitDigest G.crypto l) s = true)
    (hlen : G.verifier.quorum ≤ sigs.length) (hl : ledgerCommitBytes l ∈ G.hashed)
    (hhash : l.voteInfoHash.len = hashLen) : ∃ v b tc, G.Vouched v l b tc := by
  have hin : ∀ i ∈ (sigs.map Signature.signer).toFinset, i ∈ G.validators := by
    intro i hi
    obtain ⟨s, hs, rfl⟩ := List.mem_map.1 (List.mem_toFinset.1 hi)
    exact G.registered _ _ _ (hsig s hs)
  have hcard : quorumSize G.validators.length ≤ (sigs.map Signature.signer).toFinset.card := by
    rw [List.toFinset_card_of_nodup honce, List.length_map]
    exact hlen
  obtain ⟨i, hi, hmem, -⟩ := quorum_meet hin hcard hin hcard
  obtain ⟨s, hs, rfl⟩ := List.mem_map.1 (List.mem_toFinset.1 hmem)
  obtain ⟨m, b, tc, -, -, hv⟩ := h.vote_of_verify hi (hsig s hs) hl hhash
  exact ⟨m.voteInfo, b, tc, hv⟩

/-- **An accepted certificate above genesis is certified**: every honest signer voted for just that content. -/
theorem certified {q : QuorumCert} (hq : G.AcceptsQC (some q)) (h0 : q.voteInfo.round ≠ 0) :
    h.election.Certified q.voteInfo.round.toNat q.voteInfo.parentRound.toNat (q.voteInfo, q.ledgerCommitInfo) := by
  obtain ⟨hinfo, hcommit⟩ := hq.2 q rfl h0
  obtain ⟨hvalid, ⟨hz, -⟩ | ⟨-, hbind, -, hcert, -⟩⟩ := (G.verifier.verifyQC_iff q).1 hq.1
  · exact absurd hz h0
  obtain ⟨hid, hparent, -, -, hhash⟩ := (validVote_iff _ _).1 hvalid
  obtain ⟨hord, hsig, hlen⟩ := (G.verifier.verifyCert_iff _ _).1 hcert
  refine ⟨(q.signatures.elems.map Signature.signer).toFinset, ⟨fun i hi => ?_, ?_⟩, fun i hi hhon => ?_⟩
  · obtain ⟨s, hs, rfl⟩ := List.mem_map.1 (List.mem_toFinset.1 hi)
    exact G.registered _ _ _ (hsig s hs)
  · rw [signers_card (fun s => s) hord]
    exact hlen
  · obtain ⟨s, hs, rfl⟩ := List.mem_map.1 (List.mem_toFinset.1 hi)
    obtain ⟨m, b, tc, hm, hml, hvouch⟩ := h.vote_of_verify hhon (hsig s hs) hcommit hhash
    have hmv : m.voteInfo = q.voteInfo := hvouch.info_eq hinfo hbind hid hparent
    refine hist_mem hm ?_
    rw [Signed.act, hmv, hml]

/-- Accepted certificates of one round above genesis have one content. -/
theorem content_unique {q q' : QuorumCert} (hq : G.AcceptsQC (some q)) (hq' : G.AcceptsQC (some q'))
    (hround : q.voteInfo.round = q'.voteInfo.round) (h0 : q.voteInfo.round ≠ 0) :
    q.voteInfo = q'.voteInfo ∧ q.ledgerCommitInfo = q'.ledgerCommitInfo := by
  have hc := h.certified hq h0
  have hc' := h.certified hq' (by rwa [← hround])
  rw [hround] at hc
  obtain ⟨-, heq⟩ := h.election.certified_unique hc hc'
  exact ⟨congrArg Prod.fst heq, congrArg Prod.snd heq⟩

/-- A certified content was voted for by an honest replica. -/
theorem vouched_of_certified {r q : Nat} {c : Content} (hc : h.election.Certified r q c) :
    r = c.1.round.toNat ∧ q = c.1.parentRound.toNat ∧ ∃ b tc, G.Vouched c.1 c.2 b tc := by
  obtain ⟨A, hA, hvote⟩ := hc
  obtain ⟨i, hi, hiA, -⟩ := h.election.meet A hA A hA
  obtain ⟨m, hm, hr, hq, rfl⟩ := mem_hist_vote (hvote i hiA hi)
  exact ⟨hr, hq, (h.sound i _ hm).2 m rfl⟩

theorem vouched {q : QuorumCert} (hq : G.AcceptsQC (some q)) (h0 : q.voteInfo.round ≠ 0) :
    ∃ b tc, G.Vouched q.voteInfo q.ledgerCommitInfo b tc := (h.vouched_of_certified (h.certified hq h0)).2.2

theorem timedOut {tc : TimeoutCert} (ht : G.AcceptsTC (some tc)) :
    h.election.TimedOut tc.round.toNat (maxHighQCRound tc).toNat := by
  obtain ⟨-, hord, hsig, hlen⟩ := (G.verifier.verifyTC_iff tc).1 ht.1
  refine ⟨(tc.votes.map (fun t => t.sig.signer)).toFinset, ⟨fun i hi => ?_, ?_⟩, fun i hi hhon => ?_⟩
  · obtain ⟨t, hmem, rfl⟩ := List.mem_map.1 (List.mem_toFinset.1 hi)
    exact G.registered _ _ _ (hsig t hmem)
  · rw [signers_card _ hord]
    exact hlen
  · obtain ⟨t, hmem, rfl⟩ := List.mem_map.1 (List.mem_toFinset.1 hi)
    obtain ⟨x, hx, hd⟩ := h.unforgeable _ hhon _ _ (hsig t hmem)
    obtain ⟨m, rfl, hr, hq⟩ := (h.sound _ x hx).timeout hd (ht.2 tc rfl t hmem)
    refine ⟨t.highQcRound.toNat, UInt64.le_iff_toNat_le.1 (le_maxHighQCRound tc t hmem), hist_mem hx ?_⟩
    rw [Signed.act, hr, hq]

theorem backed {qc : Option QuorumCert} (hq : G.AcceptsQC qc) :
    h.election.Backed (fun c => c.1.id) (genesisBlock G.crypto).id (qcRound qc).toNat (certifiedID qc) := by
  cases qc with
  | none => cases hq.1
  | some q =>
    by_cases h0 : q.voteInfo.round = 0
    · cases hq.eq_genesisQC h0
      exact .inl ⟨rfl, rfl⟩
    · exact .inr ⟨_, _, h.certified hq h0, rfl⟩

/-- **Honest votes obey the rule of two-chain voting.** -/
theorem justified : h.election.Justified (fun c => c.1.id) (fun c => c.1.parentId) (genesisBlock G.crypto).id := by
  intro i hi r q c hc
  obtain ⟨m, hm, rfl, rfl, rfl⟩ := mem_hist_vote hc
  obtain ⟨b, tc, hv⟩ := (h.sound i _ hm).2 m rfl
  have hback := h.backed hv.qc
  rw [← parentID_eq, ← hv.parentId_eq] at hback
  have hne : b.round ≠ 0 := fun h0 => absurd hv.above (by rw [h0]; simp)
  rw [hv.round_eq, hv.parentRound_eq]
  refine ⟨UInt64.lt_iff_toNat_lt.1 hv.above, hback, ?_⟩
  rcases hv.rule with hnext | ⟨t, rfl, htr, hmax⟩
  · exact .inl (round_succ hnext hne)
  · exact .inr ⟨_, _, (round_succ htr hne).symm, UInt64.le_iff_toNat_le.1 hmax, h.timedOut hv.gaveUp⟩

theorem parent_of_link {x y : Bytes} (hl : h.election.Link (fun c => c.1.id) (fun c => c.1.parentId) x y) :
    G.Parent x y := by
  obtain ⟨r, q, c, hc, rfl, rfl⟩ := hl
  obtain ⟨-, -, b, tc, hv⟩ := h.vouched_of_certified hc
  exact ⟨b, hv.block, hv.id_eq.symm, hv.parentId_eq.symm, hv.parentId_len⟩

/-! ## What certificates say is so -/

/-- **An accepted certificate is of a block**, whose round it states. -/
theorem exists_block {qc : Option QuorumCert} (hq : G.AcceptsQC qc) :
    ∃ b, G.IsBlock b ∧ b.id = certifiedID qc ∧ b.round = qcRound qc := by
  cases qc with
  | none => cases hq.1
  | some q =>
    by_cases h0 : q.voteInfo.round = 0
    · cases hq.eq_genesisQC h0
      exact ⟨genesisBlock G.crypto, isBlock_genesis G, rfl, rfl⟩
    · obtain ⟨b, tc, hv⟩ := h.vouched hq h0
      exact ⟨b, hv.block, hv.id_eq.symm, hv.round_eq.symm⟩

/-- Every block a certificate is of has the round it states. -/
theorem round_eq {qc : Option QuorumCert} (hq : G.AcceptsQC qc) {b : Block} (hb : G.IsBlock b)
    (hid : b.id = certifiedID qc) : b.round = qcRound qc := by
  obtain ⟨b', hb', hid', hr⟩ := h.exists_block hq
  rw [← hr]
  exact hb.round_eq hb' (hid.trans hid'.symm)

/-- **A certificate's parent fields are its block's**: the parent's id is the one in the block, the parent's round is
that of every block with this id, and lies below; a commit is of the round directly below. -/
theorem parent_truth {q : QuorumCert} (hq : G.AcceptsQC (some q)) (h0 : q.voteInfo.round ≠ 0) :
    (∀ b, G.IsBlock b → b.id = q.voteInfo.id → (parentID b).len = hashLen → q.voteInfo.parentId = parentID b) ∧
    (∀ p, G.IsBlock p → p.id = q.voteInfo.parentId → p.round = q.voteInfo.parentRound) ∧
    q.voteInfo.parentRound < q.voteInfo.round ∧
    (commits q.ledgerCommitInfo = true → q.voteInfo.round.toNat = q.voteInfo.parentRound.toNat + 1) := by
  obtain ⟨b, tc, hv⟩ := h.vouched hq h0
  rw [hv.round_eq, hv.parentRound_eq]
  refine ⟨fun b' hb' hid' hlen => ?_, fun p hp hpe => ?_, hv.above, fun hc => ?_⟩
  · have hpl := hv.parentId_len
    rw [hv.parentId_eq] at hpl ⊢
    exact hv.block.parent_eq hb' (hv.id_eq.symm.trans hid'.symm) (hpl.trans hlen.symm)
  · refine h.round_eq hv.qc hp ?_
    rw [hpe, hv.parentId_eq, parentID_eq]
  · exact (round_succ_iff hv.above).1 (hv.commit hc)

/-- A certificate of a block that is not of round 0 is not the genesis certificate. -/
theorem round_ne_zero {q : QuorumCert} (hq : G.AcceptsQC (some q)) {b : Block} (hb : G.IsBlock b)
    (hid : b.id = q.voteInfo.id) {n : Nat} (hr : b.round.toNat = n + 1) : q.voteInfo.round ≠ 0 := by
  intro h0
  have hround : b.round = q.voteInfo.round := h.round_eq hq hb hid
  rw [hround, h0] at hr
  cases hr

end Ballots

end Diem

import Diem.Reputation
import Diem.Returns
/-!
# Elections — when two replicas elect the same leader

A replica elects when a certificate's parent is its frontier, so it has kept just what any other has that elects on a
certificate of this round: the same end of one chain, whose ids cover the authors and the signers.  The one thing an
election reads that no id covers is who signed the certificate it is made on.  Certificates of one round have one
content, but the signers are whichever quorum their author chose to put in.
-/
namespace Diem

/-- Who signed, in the order of the certificate, which `VerifyQC` wants to be increasing. -/
def QuorumCert.signers (q : QuorumCert) : List UInt32 := q.signatures.elems.map Signature.signer

theorem alternate_map {α β : Type} (f : α → β) : ∀ as : List α, alternate (as.map f) = (alternate as).map f
  | []           => rfl
  | [_]          => rfl
  | a :: _ :: as => congrArg (f a :: ·) (alternate_map f as)

namespace LeaderElection

variable {window exclude : Int}

/-! ## What an election reads -/

/-- What a block shows the walk: its author, and who signed its certificate. -/
def face (b : Block) : UInt32 × Option (List UInt32) := (b.author, b.qc.map QuorumCert.signers)

theorem visit_congr {current current' : QuorumCert} {b b' : Block} (hs : current.signers = current'.signers)
    (ha : b.author = b'.author) (w : Walk) (i : Nat) :
    w.visit window exclude i current b = w.visit window exclude i current' b' := by
  have hfold : ∀ (q : QuorumCert) (a : List UInt32), q.signatures.elems.foldl (fun a s => a.insert s.signer) a =
      q.signers.foldl (fun a s => a.insert s) a := by
    intro q a
    rw [QuorumCert.signers, List.foldl_map]
  rw [Walk.visit, Walk.visit, hfold, hfold, hs, ha]

theorem survey_congr : ∀ {ds ds' : List Block} {i : Nat} {current current' : QuorumCert} {w : Walk},
    current.signers = current'.signers → ds.map face = ds'.map face →
    survey window exclude i current w ds = survey window exclude i current' w ds'
  | [],      [],        _, _,       _,        _, _,  _ => rfl
  | [],      _ :: _,    _, _,       _,        _, _,  h => by cases h
  | _ :: _,  [],        _, _,       _,        _, _,  h => by cases h
  | b :: ds, b' :: ds', i, current, current', w, hs, h => by
    obtain ⟨hface, hrest⟩ := List.cons.inj h
    obtain ⟨ha, hqc⟩ := Prod.mk.inj hface
    rw [survey, survey, visit_congr hs ha]
    split
    · cases hb : b.qc with
      | none =>
        rw [hb] at hqc
        rw [Option.map_eq_none_iff.1 hqc.symm]
      | some q =>
        rw [hb] at hqc
        obtain ⟨q', hq', hsig⟩ := Option.map_eq_some_iff.1 hqc.symm
        rw [hq']
        exact survey_congr hsig.symm hrest
    · rfl

/-- A walk that ends has gathered the survey of where it was led. -/
theorem survey_of_walk {l : MemLedger} : ∀ {ds : List Block} {n i : Nat} {current : QuorumCert} {w w' : Walk},
    Leads l current ds → walk window exclude l n i current w = .ok w' → w' = survey window exclude i current w ds
  | [],      n, i, current, w, w', h, hw => by
    rw [walk_eq_survey h (Nat.zero_le n)] at hw
    exact (Except.ok.inj hw).symm
  | b :: ds, n, i, current, w, w', h, hw => by
    obtain ⟨hb, qc, hqc, hlead⟩ := h
    rw [walk] at hw
    rw [survey]
    split at hw
    · rename_i hgo
      simp only [hb, hqc] at hw
      rw [if_pos hgo]
      simp only [hqc]
      cases n with
      | zero => cases hw
      | succ n => exact survey_of_walk hlead hw
    · rename_i hgo
      rw [if_neg hgo]
      exact (Except.ok.inj hw).symm

/-- A certificate whose parent is not committed here leads nowhere. -/
theorem walk_of_none {l : MemLedger} {current : QuorumCert} (h : l.committedBlock current.voteInfo.parentId = none)
    (n i : Nat) (w : Walk) : walk window exclude l n i current w = .ok w := by
  have hlead : Leads l current [] := h
  exact walk_eq_survey hlead (Nat.zero_le n)

end LeaderElection

/-- The leader that is picked from what was gathered. -/
def Walk.leader (cr : Crypto) (round : UInt64) (w : Walk) : Option UInt32 :=
  let candidates := (w.active.filter (fun id => !decide (id ∈ w.excluded))).insertionSort (· ≤ ·)
  candidates[pick cr round candidates.length]?

namespace LeaderElection

theorem electReputationLeader_eq {cr : Crypto} {cfg : Config} {fuel : Nat} {l : MemLedger} {qc : QuorumCert}
    {id : Option UInt32} (h : electReputationLeader cr cfg fuel l qc = .ok id) :
    ∃ w, walk cfg.window cfg.exclude l fuel 0 qc ⟨[], []⟩ = .ok w ∧ w.leader cr qc.voteInfo.round = id := by
  unfold electReputationLeader at h
  split at h
  · cases h
  · rename_i w hw
    exact ⟨w, hw, Except.ok.inj h⟩

/-- **What an update leaves**: entries from before, and the leader it elected. -/
theorem lookup_updateLeaders {cr : Crypto} {cfg : Config} {fuel : Nat} {l : MemLedger} {currentRound : UInt64}
    {e e' : LeaderElection} {qc : QuorumCert} (h : e.updateLeaders cr cfg fuel l currentRound qc = .ok e') {r : UInt64}
    {id : UInt32} (hr : e'.reputationLeaders.lookup r = some id) :
    e.reputationLeaders.lookup r = some id ∨ (qc.voteInfo.parentRound + 1 = qc.voteInfo.round ∧
      qc.voteInfo.round + 1 = currentRound ∧ r = currentRound + 1 ∧
      electReputationLeader cr cfg fuel l qc = .ok (some id)) := by
  rcases updateLeaders_ok h with ⟨-, rfl⟩ | ⟨hnext, hcur, elected, hel, rfl⟩
  · exact .inl hr
  dsimp only at hr
  rw [Table.lookup_filter, Option.filter_eq_some_iff] at hr
  rcases hel with ⟨-, rfl⟩ | ⟨a, hel, rfl⟩
  · exact .inl hr.1
  by_cases hk : r = currentRound + 1
  · subst hk
    obtain rfl : a = id := Option.some.inj ((AList.lookup_insert _).symm.trans hr.1)
    exact .inr ⟨hnext, hcur, rfl, hel⟩
  · exact .inl ((AList.lookup_insert_ne hk).symm.trans hr.1)

end LeaderElection

/-! ## The committed chain -/

/-- A valid certificate names the parent of the block it is of. -/
theorem Ballots.parent_named {G : Group} {log : List (UInt32 × Signed)} (hb : Ballots G log) {b p : Block}
    (hqc : G.AcceptsQC b.qc) (hp : G.IsBlock p) (hlen : (parentID p).len = hashLen) (hpar : parentID b = p.id) :
    ∃ q, b.qc = some q ∧ q.voteInfo.parentId = parentID p := by
  obtain ⟨q, hq⟩ := hqc.eq_some
  rw [parentID_eq, hq] at hpar
  rw [hq] at hqc
  refine ⟨q, hq, ?_⟩
  by_cases h0 : q.voteInfo.round = 0
  · rw [hqc.eq_genesisQC h0] at hpar ⊢
    exact G.isBlock_genesis.parent_eq hp hpar hlen.symm
  · exact (hb.parent_truth hqc h0).1 p hp hpar.symm hlen

/-- **A committed chain whose blocks all came under valid certificates**, and are certified themselves. -/
structure Vetted (G : Group) (history : Nat) (l : MemLedger) (bs : List Block) :
    Prop extends Archive G history l bs where
  vetted : ∀ b ∈ bs, G.Certificated b ∧ G.CertifiedID b.id

namespace Vetted

variable {G : Group} {log : List (UInt32 × Signed)} (hb : Ballots G log) {history : Nat} {l l' : MemLedger}
  {bs : List Block}

theorem init (G : Group) (history : Nat) : Vetted G history (newMemLedger G.crypto) [] :=
  ⟨Archive.init G history, fun _ hb => by cases hb⟩

theorem speculate (h : Vetted G history l bs) (execute : Bytes → Payload → Bytes) {b : Block} (hb : G.IsBlock b) :
    Vetted G history (l.speculate execute b).1 bs := ⟨h.toArchive.speculate execute hb, h.vetted⟩

include hb

theorem commit (h : Vetted G history l bs) (hl : LedgerInv G G.Certificated l) {fuel : Nat} {id : Bytes}
    {out : List Block} (hid : G.CertifiedID id) (hc : l.commit history fuel id = .ok (l', out)) :
    Vetted G history l' (bs ++ out) := by
  refine ⟨h.toArchive.commit hc, fun b hbs => ?_⟩
  rcases List.mem_append.1 hbs with hbs | hbs
  · exact h.vetted b hbs
  rcases MemLedger.commit_ok hc with ⟨-, rfl⟩ | ⟨chain, hr, rfl, -⟩
  · cases hbs
  · obtain ⟨s, hs, rfl⟩ := List.mem_map.1 hbs
    obtain ⟨hcert, hcid, -⟩ := hl.certified_path (fun _ hQ => hQ.1) hb hr hid s hs
    exact ⟨hcert, hcid⟩

omit hb in
/-- Each block of the chain, genesis too, is a block with a parent id of full length. -/
theorem isBlock (h : Vetted G history l bs) {p : Block} (hp : p ∈ genesisBlock G.crypto :: bs) :
    G.IsBlock p ∧ (parentID p).len = hashLen := by
  rcases List.mem_cons.1 hp with rfl | hp
  · exact ⟨G.isBlock_genesis, rfl⟩
  · obtain ⟨hcert, -⟩ := h.vetted p hp
    exact ⟨hcert.1, by rw [parentID_eq]; exact hcert.2.certifiedID_len⟩

omit hb in
/-- What holds of a certified block and its parent holds all along the chain. -/
theorem chain (h : Vetted G history l bs) {R : Block → Block → Prop}
    (hR : ∀ p b, G.IsBlock p → (parentID p).len = hashLen → G.Certificated b → G.CertifiedID b.id → parentID b = p.id →
      R p b) : (genesisBlock G.crypto :: bs).IsChain R := by
  rw [List.isChain_iff_getElem]
  intro k hk
  have hk' : k < bs.length := Nat.lt_of_succ_lt_succ hk
  have hpar := List.isChain_iff_getElem.1 (h.line.isChain rfl) k hk
  obtain ⟨hp, hlen⟩ := h.isBlock (List.getElem_mem (Nat.lt_of_succ_lt hk))
  obtain ⟨hcert, hcid⟩ := h.vetted bs[k] (List.getElem_mem hk')
  exact hR _ _ hp hlen hcert hcid hpar

/-- **The certificates of the chain tell the truth about it.** -/
theorem truthful (h : Vetted G history l bs) : LeaderElection.Truthful (genesisBlock G.crypto :: bs) :=
  h.chain (fun _ _ hp hlen hcert _ hpar => hb.parent_named hcert.2 hp hlen hpar)

/-- **Its rounds rise.** -/
theorem rises (h : Vetted G history l bs) : (genesisBlock G.crypto :: bs).Pairwise (fun p b => p.round < b.round) := by
  have : IsTrans Block (fun p b => p.round < b.round) := ⟨fun _ _ _ => UInt64.lt_trans⟩
  rw [← List.isChain_iff_pairwise]
  exact h.chain (fun _ _ hp _ hcert hcid hpar => parent_below hb hcert hcid hp hpar.symm)

/-- A committed block that is not below the frontier is the frontier. -/
theorem eq_front (h : Vetted G history l bs) {b : Block} (hbs : b ∈ genesisBlock G.crypto :: bs)
    (hround : ∀ F, G.IsBlock F → F.id = l.commitID → F.round ≤ b.round) : b.id = l.commitID := by
  have hlast := h.line.getLast?_passed
  rw [passed, show (genesisBlock G.crypto).id :: bs.map Block.id = (genesisBlock G.crypto :: bs).map Block.id from rfl,
    List.getLast?_map] at hlast
  obtain ⟨F, hF, hid⟩ := Option.map_eq_some_iff.1 hlast
  obtain ⟨pre, hpre⟩ := List.getLast?_eq_some_iff.1 hF
  have hle := hround F (h.isBlock (by rw [hpre]; simp)).1 hid
  have hrise := h.rises hb
  rw [hpre] at hbs hrise
  rcases List.mem_append.1 hbs with hbs | hbs
  · have hlt := (List.pairwise_append.1 hrise).2.2 b hbs F (List.mem_singleton.2 rfl)
    exact absurd hle (UInt64.not_le.2 hlt)
  · rw [List.mem_singleton.1 hbs]
    exact hid

end Vetted

/-! ## The frontier -/

/-- **The ledger and the tree over it**: a vetted chain, whose top is below the highest certificate. -/
structure Seated (G : Group) (history : Nat) (l : MemLedger) (t : BlockTree) : Prop where
  chain : ∃ bs, Vetted G history l bs
  below : ∀ F, G.IsBlock F → F.id = l.commitID → F.round.toNat ≤ t.highQC.voteInfo.round.toNat - 1

/-- **Who is elected for a round**, whichever replica elects: the leader of the survey that a certificate of two rounds
before begins, down the chain of its parent, as far as `history` blocks reach. -/
def Elected (G : Group) (window exclude : Int) (history : Nat) (signers : UInt64 → List UInt32) (round : UInt64)
    (id : UInt32) : Prop :=
  ∃ q bs, G.AcceptsQC (some q) ∧ q.voteInfo.round ≠ 0 ∧ q.voteInfo.round + 1 + 1 = round ∧
    q.signers = signers q.voteInfo.round ∧ Path G.Certificated (genesisBlock G.crypto).id bs q.voteInfo.parentId ∧
    (LeaderElection.survey window exclude 0 q ⟨[], []⟩
      (alternate ((genesisBlock G.crypto :: bs).reverse.take history))).leader G.crypto q.voteInfo.round = some id

section

variable {G : Group} {log : List (UInt32 × Signed)} (hb : Ballots G log)
include hb

theorem Seated.processQC {history fuel : Nat} {l l' : MemLedger} {t t' : BlockTree} {qc : QuorumCert} {out : List Block}
    (h : Seated G history l t) (hl : LedgerInv G G.Certificated l) (ht : TreeInv G t) (hq : G.AcceptsQC (some qc))
    (hp : BlockTree.processQC history fuel l t (some qc) = .ok (l', t', out)) : Seated G history l' t' := by
  obtain ⟨bs, hbs⟩ := h.chain
  obtain ⟨hhigh, hcases⟩ := BlockTree.processQC_ok hp
  have hr := higher_round qc t.highQC
  rw [← hhigh] at hr
  refine ⟨?_, fun F hF hid => ?_⟩
  · rcases hcases with ⟨hc, hcommit, -⟩ | ⟨-, rfl, -, -⟩
    · exact ⟨_, hbs.commit hb hl (hb.certifiedID_of_commits hq hc) hcommit⟩
    · exact ⟨bs, hbs⟩
  · obtain ⟨-, -, -, htop | ⟨hc, htop⟩⟩ := processQC_inv (fun _ hQ => hQ.1) hb ht hl hq hp
    · have hbelow := h.below F hF (hid.trans htop)
      omega
    · obtain ⟨-, hround, -, hnext⟩ := hb.parent_truth hq (hq.round_ne_zero hc)
      rw [hround F hF (hid.trans htop)]
      have hn := hnext hc
      omega

/-- **An election, told without the replica that makes it.** -/
theorem Seated.elected {cfg : Config} {fuel : Nat} {l : MemLedger} {t : BlockTree} {q : QuorumCert} {id : UInt32}
    {signers : UInt64 → List UInt32} (h : Seated G cfg.history l t) (hpos : 1 ≤ cfg.history) (hq : G.AcceptsQC (some q))
    (hsigners : q.signers = signers q.voteInfo.round) (hnext : q.voteInfo.parentRound + 1 = q.voteInfo.round)
    (hhigh : t.highQC.voteInfo.round.toNat ≤ q.voteInfo.round.toNat)
    (hel : LeaderElection.electReputationLeader G.crypto cfg fuel l q = .ok (some id)) :
    Elected G cfg.window cfg.exclude cfg.history signers (q.voteInfo.round + 1 + 1) id := by
  obtain ⟨bs, hbs⟩ := h.chain
  obtain ⟨w, hw, hleader⟩ := LeaderElection.electReputationLeader_eq hel
  have h0 : q.voteInfo.round ≠ 0 := by
    intro h0
    rw [hq.eq_genesisQC h0] at hnext
    exact absurd (show (0 : UInt64) + 1 = 0 from hnext) (by decide)
  obtain ⟨-, hround, hlt, -⟩ := hb.parent_truth hq h0
  have hsucc := (round_succ_iff hlt).1 hnext
  -- a leader was found, so the certificate's parent is committed here, and no block above it is
  have hfront : q.voteInfo.parentId = l.commitID := by
    cases hlook : l.committedBlock q.voteInfo.parentId with
    | none =>
      rw [LeaderElection.walk_of_none hlook] at hw
      cases hw
      cases hleader
    | some b =>
      obtain ⟨hmem, hid⟩ := hbs.retains.back _ _ hlook
      rw [← hid]
      refine hbs.eq_front hb hmem (fun F hF hFid => ?_)
      have hbelow := h.below F hF hFid
      rw [hround b (hbs.isBlock hmem).1 hid, UInt64.le_iff_toNat_le]
      omega
  rw [LeaderElection.survey_of_walk (LeaderElection.leads_archive hbs.toArchive hpos (hbs.truthful hb) hfront)
    hw] at hleader
  refine ⟨q, bs, hq, h0, rfl, hsigners, ?_, hleader⟩
  rw [hfront]
  exact hbs.line.imp (fun b hb => (hbs.vetted b hb).1)

omit hb in
/-- Certificated blocks of one id show the walk the same, and have one parent. -/
theorem Group.Certificated.face_eq {b b' : Block} (h : G.Certificated b) (h' : G.Certificated b') (hid : b.id = b'.id) :
    LeaderElection.face b = LeaderElection.face b' ∧ parentID b = parentID b' := by
  obtain ⟨ha, -, -, hpar, hsigs⟩ :=
    blockBytes_inj (h.2.certifiedID_len.trans h'.2.certifiedID_len.symm) (h.1.bytes_eq h'.1 hid)
  refine ⟨?_, by rw [parentID_eq, parentID_eq, hpar]⟩
  obtain ⟨q, hq⟩ := h.2.eq_some
  obtain ⟨q', hq'⟩ := h'.2.eq_some
  rw [hq, hq'] at hsigs
  have hsame : q.signatures = q'.signatures := hsigs
  rw [LeaderElection.face, LeaderElection.face, ha, hq, hq', Option.map_some, Option.map_some, QuorumCert.signers,
    QuorumCert.signers, hsame]

omit hb in
/-- No path leads back to genesis. -/
theorem Group.Certificated.ne_genesis {b : Block} {bs : List Block} (h : G.Certificated b)
    (hbs : Path G.Certificated (genesisBlock G.crypto).id bs (parentID b)) : b.id ≠ (genesisBlock G.crypto).id := by
  intro hid
  have hlen : (parentID b).len = hashLen := by rw [parentID_eq]; exact h.2.certifiedID_len
  have hzero : parentID b = zeroHash := h.1.parent_eq G.isBlock_genesis hid hlen
  obtain ⟨p, hp, hpid⟩ := Spine.isBlock_of_passed (fun b hb => (hbs.forall_mem b hb).1) hbs.top_mem
  exact hp.id_ne_zeroHash (hpid.trans hzero)

/-- **One leader a round.** -/
theorem Elected.unique {window exclude : Int} {history : Nat} {signers : UInt64 → List UInt32} {round : UInt64}
    {a b : UInt32} (ha : Elected G window exclude history signers round a)
    (hb' : Elected G window exclude history signers round b) : a = b := by
  obtain ⟨q, bs, hq, h0, hr, hs, hpath, hleader⟩ := ha
  obtain ⟨q', bs', hq', -, hr', hs', hpath', hleader'⟩ := hb'
  have hround : q.voteInfo.round = q'.voteInfo.round :=
    (UInt64.add_left_inj 1).1 ((UInt64.add_left_inj 1).1 (hr.trans hr'.symm))
  obtain ⟨hinfo, -⟩ := hb.content_unique hq hq' hround h0
  rw [← hinfo] at hpath'
  have hfaces := hpath.map_unique (fun _ _ hb hb' => hb.face_eq hb') (fun _ _ hbs hb => hb.ne_genesis hbs) hpath'
  have hread : (alternate ((genesisBlock G.crypto :: bs).reverse.take history)).map LeaderElection.face =
      (alternate ((genesisBlock G.crypto :: bs').reverse.take history)).map LeaderElection.face := by
    rw [← alternate_map, ← alternate_map, List.map_take, List.map_take, List.map_reverse, List.map_reverse,
      List.map_cons, List.map_cons, hfaces]
  have hsame : q.signers = q'.signers := by rw [hs, hs', hround]
  rw [← LeaderElection.survey_congr hsame hread, ← hround, hleader] at hleader'
  exact Option.some.inj hleader'

end

/-! ## Runs -/

/-- **The condition on a step**: the certificates it elects on, those that come with the event and the one its vote
completes, are signed by `signers` of their round. -/
def Uniform (N : Net) (signers : UInt64 → List UInt32) (i : UInt32) (c : Core) (e : Event) : Prop :=
  (∀ q ∈ e.qcs, q.signers = signers q.voteInfo.round) ∧
  ∀ m, e = .vote m → ∀ env l t bs q, BlockTree.processVote N.crypto (N.config i).history env (N.config i).id
    (N.config i).quorum c.ledger c.tree m = .ok (l, t, bs, some q) → q.signers = signers q.voteInfo.round

/-- A step puts a certificate together only as its vote completes it. -/
theorem Core.assembled_of_step {cr : Crypto} {cfg : Config} {env : Env} {c c' : Core} {e : Event} {eff : List Effect}
    {q : QuorumCert} (h : c.step cr cfg env e = .ok (c', eff)) (hq : .assembled q ∈ eff) :
    ∃ m l t bs, e = .vote m ∧
      BlockTree.processVote cr cfg.history env cfg.id cfg.quorum c.ledger c.tree m = .ok (l, t, bs, some q) := by
  cases e with
  | proposal p =>
    obtain ⟨c₁, eff₁, eff₂, h₁, -, -, rfl, hrest⟩ := processProposalMsg_ok h
    obtain ⟨bs, rfl⟩ := processCertificates_eff h₁
    rcases List.mem_append.1 hq with hq | hq
    · simp at hq
    · rcases hrest _ hq with ⟨id, hx⟩ | ⟨v, dest, hx⟩
      · cases hx
      · cases hx
  | vote m =>
    rcases processVoteMsg_ok h with ⟨-, -, rfl⟩ | ⟨-, l, t, bs, hp,
      ⟨t', -, -, rfl⟩ | ⟨t', q', moved, eff', hacc, hq', rfl⟩⟩
    · cases hq
    · simp at hq
    · obtain ⟨bs', rfl⟩ := processCertificateQC_eff hq'
      obtain rfl : q = q' := by
        rcases List.mem_append.1 hq with hq | hq
        · simpa using hq
        · split at hq
          · rcases List.mem_append.1 hq with hq | hq
            · simp at hq
            · obtain ⟨sig, -, hx⟩ := mem_processNewRoundEvent hq
              cases hx
          · simp at hq
      exact ⟨m, l, t', bs, rfl, processVote_of_accumulate hp hacc⟩
  | timeout m =>
    obtain ⟨c₁, eff₁, p, s, out, tc, h₁, -, hend⟩ := processTimeoutMsg_ok h
    obtain ⟨bs, rfl⟩ := processCertificates_eff h₁
    rcases hend with ⟨-, -, rfl⟩ | ⟨t, -, -, -, -, rfl⟩
    · simp at hq
    · rcases List.mem_append.1 hq with hq | hq
      · simp at hq
      · obtain ⟨sig, -, hx⟩ := mem_processNewRoundEvent hq
        cases hx
  | localTimeout epoch =>
    rw [step] at h
    split at h
    · cases h
      simp at hq
    · cases h
      cases hq
  | block b =>
    obtain ⟨-, rfl | ⟨id, rfl⟩⟩ := insert_ok h
    · cases hq
    · simp at hq
  | blockRequest id =>
    cases h
    simp at hq

/-- **What a replica keeps** of its elections, as long as the certificates it put together itself have the signers. -/
structure ElectionInv (N : Net) (signers : UInt64 → List UInt32) (i : UInt32) (tr : List Effect) (c : Core) : Prop where
  core    : CoreInv N.toGroup N.Certificated tr c
  rounds  : RoundInv c
  seated  : Seated N.toGroup (N.config i).history c.ledger c.tree
  elected : 1 ≤ (N.config i).history → (∀ q, .assembled q ∈ tr → q.signers = signers q.voteInfo.round) →
              ∀ r id, c.leaders.reputationLeaders.lookup r = some id →
                Elected N.toGroup (N.config i).window (N.config i).exclude (N.config i).history signers r id

section

variable {N : Net} {signers : UInt64 → List UInt32} {log : List (UInt32 × Signed)} (hb : Ballots N.toGroup log)
  {i : UInt32} {env : Env} {c₀ : Core} {e : Event} {tr eff : List Effect} {c c' : Core}

theorem Seated.congr {history : Nat} {l : MemLedger} {t t' : BlockTree} (h : Seated N.toGroup history l t)
    (ht : t'.highQC = t.highQC) : Seated N.toGroup history l t' := ⟨h.chain, by rw [ht]; exact h.below⟩

theorem electionInv_start (hnew : newCore N.crypto (N.config i) = some c) :
    ElectionInv N signers i (c.start N.crypto (N.config i) env).2 (c.start N.crypto (N.config i) env).1 := by
  refine ⟨coreInv_start hnew, roundInv_start hnew, ?_, ?_⟩
  · cases newCore_eq hnew
    refine ⟨⟨[], Vetted.init _ _⟩, fun F hF hid => ?_⟩
    rw [hF.round_eq N.isBlock_genesis hid]
    exact Nat.zero_le _
  · cases newCore_eq hnew
    exact fun _ _ r id hr => by cases hr

theorem ElectionInv.quiet (h : ElectionInv N signers i tr c) (hcore : CoreInv N.toGroup N.Certificated (tr ++ eff) c')
    (hrounds : RoundInv c') (hseated : Seated N.toGroup (N.config i).history c'.ledger c'.tree)
    (hleaders : c'.leaders = c.leaders) : ElectionInv N signers i (tr ++ eff) c' := by
  refine ⟨hcore, hrounds, hseated, fun hpos hsig => ?_⟩
  rw [hleaders]
  exact h.elected hpos (fun q hq => hsig q (List.mem_append_left _ hq))

include hb

variable (signers) in
/-- **A certificate, and the election on it.** -/
theorem processCertificateQC_elects {qc : QuorumCert} {moved : Bool} (hcore : CoreInv N.toGroup N.Certificated tr c)
    (hrounds : RoundInv c) (hseated : Seated N.toGroup (N.config i).history c.ledger c.tree)
    (hq : N.AcceptsQC (some qc))
    (hp : c.processCertificateQC N.crypto (N.config i) env (some qc) = .ok ((c', moved), eff)) :
    Seated N.toGroup (N.config i).history c'.ledger c'.tree ∧
      (1 ≤ (N.config i).history → qc.signers = signers qc.voteInfo.round → ∀ r id,
        c'.leaders.reputationLeaders.lookup r = some id → c.leaders.reputationLeaders.lookup r = some id ∨
          Elected N.toGroup (N.config i).window (N.config i).exclude (N.config i).history signers r id) := by
  obtain ⟨l, t, bs, le, hproc, hle, rfl, -, -⟩ := Core.processCertificateQC_ok hp
  have hseated' := hseated.processQC hb hcore.ledger hcore.tree hq hproc
  refine ⟨hseated', fun hpos hsig r id hr => ?_⟩
  refine (LeaderElection.lookup_updateLeaders hle hr).imp_right ?_
  rintro ⟨hnext, hcur, rfl, hel⟩
  have hhigh : t.highQC.voteInfo.round.toNat ≤ qc.voteInfo.round.toNat := by
    have hbelow := hrounds.below
    have hne : c.pacemaker.currentRound ≠ 0 := fun h0 => absurd hbelow (by rw [h0]; simp)
    have hsucc := round_succ hcur hne
    have hr := higher_round qc c.tree.highQC
    rw [(BlockTree.processQC_ok hproc).1, hr]
    rw [UInt64.lt_iff_toNat_lt] at hbelow
    omega
  rw [← hcur]
  exact hseated'.elected hb hpos hq hsig hnext hhigh hel

/-- **Every micro step keeps the invariant.** -/
theorem electionInv_micro (he : N.Admits e) (ht : Timely i c₀ e) (hblocks : BlocksCertified N i c₀ e)
    (hsigned : ∀ q ∈ e.qcs, q.signers = signers q.voteInfo.round) (h : ElectionInv N signers i tr c)
    (hm : N.Micro i env c₀ e c eff c') (hok : ∀ x ∈ eff, N.Legit i x) : ElectionInv N signers i (tr ++ eff) c' := by
  have hcore := coreInv_micro (fun _ hQ => hQ.1) hb he (certificated_of_admits he hblocks) h.core hm hok
  have hrounds := roundInv_micro hb he ht h.core h.rounds hm hok
  cases hm with
  | cert _ qc _ moved _ hsrc hp =>
    obtain ⟨hseated, hel⟩ := processCertificateQC_elects signers hb h.core h.rounds h.seated (he.qcs qc hsrc) hp
    refine ⟨hcore, hrounds, hseated, fun hpos hsig r id hr => ?_⟩
    rcases hel hpos (hsigned qc hsrc) r id hr with hr | hr
    · exact h.elected hpos (fun q hq => hsig q (List.mem_append_left _ hq)) r id hr
    · exact hr
  | insert _ b _ _ hsrc hp =>
    obtain ⟨rfl, -⟩ := Core.insert_ok hp
    refine h.quiet hcore hrounds ?_ rfl
    obtain ⟨bs, hbs⟩ := h.seated.chain
    refine ⟨⟨bs, hbs.speculate _ (he.isBlock hsrc)⟩, ?_⟩
    rw [(MemLedger.speculate_frame (N.config i).execute c.ledger b).2.1]
    exact h.seated.below
  | voteQC m qc l t bs hm hqc hwin hp =>
    subst hm
    exact h.quiet hcore hrounds (h.seated.processQC hb h.core.ledger h.core.tree (he.highCommitQc hqc) hp) rfl
  | gather _ m hm hnone => exact h.quiet hcore hrounds (h.seated.congr (accumulate_highQC ..)) rfl
  | aggregate _ m qc _ moved eff' hm hwin hqc hp =>
    subst hm
    obtain ⟨hq, -, hcore₁⟩ := h.core.assembled hb he hqc (hok _ List.mem_cons_self)
    have hhigh := accumulate_highQC N.crypto env i N.verifier.quorum c.tree m
    obtain ⟨hseated, hel⟩ := processCertificateQC_elects signers hb hcore₁ (h.rounds.gather hhigh)
      (h.seated.congr hhigh) hq hp
    refine ⟨hcore, hrounds, hseated, fun hpos hsig r id hr => ?_⟩
    rcases hel hpos (hsig qc (List.mem_append_right _ List.mem_cons_self)) r id hr with hr | hr
    · exact h.elected hpos (fun q hq => hsig q (List.mem_append_left _ hq)) r id hr
    · exact hr
  | complete _ m tc _ hm htc hlen hround hc' =>
    subst hc'
    exact h.quiet hcore hrounds h.seated rfl
  | tc => exact h.quiet hcore hrounds h.seated rfl
  | vote => exact h.quiet hcore hrounds h.seated rfl
  | stop => exact h.quiet hcore hrounds h.seated rfl
  | timeout => exact h.quiet hcore hrounds h.seated rfl
  | note => exact h.quiet hcore hrounds h.seated rfl
  | reply => exact h.quiet hcore hrounds h.seated rfl

end

/-- **The condition on a step** under which elections agree: no round is the last there is and no vote brings a commit
certificate of the current round or later, fetched blocks carry valid certificates, and the certificates elected on are
signed by `signers` of their round. -/
def Concordant (N : Net) (signers : UInt64 → List UInt32) (i : UInt32) (c : Core) (e : Event) : Prop :=
  Timely i c e ∧ BlocksCertified N i c e ∧ Uniform N signers i c e

/-- The certificates put together in such a run have their signers too. -/
theorem Concordant.assembled {N : Net} {signers : UInt64 → List UInt32} {σ : Sys} (h : N.Run (Concordant N signers) σ)
    {i : UInt32} {c : Core} (hc : σ.status i = .running c) :
    ∀ q, .assembled q ∈ σ.effects i → q.signers = signers q.voteInfo.round := by
  refine (Net.Run.running (J := fun _ tr _ => ∀ q, .assembled q ∈ tr → q.signers = signers q.voteInfo.round) ?_
    ?_ h i).2.1 c hc
  · intro i env c _ q hq
    obtain ⟨sig, -, hx⟩ := Core.mem_processNewRoundEvent hq
    cases hx
  · intro i env c e tr c' eff _ hP hJ hs q hq
    rcases List.mem_append.1 hq with hq | hq
    · exact hJ q hq
    · obtain ⟨m, l, t, bs, rfl, hv⟩ := Core.assembled_of_step hs hq
      exact hP.2.2.2 m rfl env l t bs q hv

/-- **Reputation leaders agree**, in every state of every such run: replicas of one window, one number of authors to
exclude and one history that have a leader for a round have the same. -/
theorem reputation_agreement {N : Net} {signers : UInt64 → List UInt32} {σ : Sys}
    (h : N.Reached (Concordant N signers) σ) {i j : UInt32} {c d : Core} (hc : σ.status i = .running c)
    (hd : σ.status j = .running d) (hwindow : (N.config i).window = (N.config j).window)
    (hexclude : (N.config i).exclude = (N.config j).exclude) (hhistory : (N.config i).history = (N.config j).history)
    (hpos : 1 ≤ (N.config i).history) {r : UInt64} {a b : UInt32} (ha : c.leaders.reputationLeaders.lookup r = some a)
    (hb : d.leaders.reputationLeaders.lookup r = some b) : a = b := by
  obtain ⟨log, hballots⟩ := h.ballots
  have hinv := Net.Run.invariant (J := ElectionInv N signers) (K := fun _ _ => True)
    (fun _ _ _ hnew _ => electionInv_start hnew)
    (fun _ _ _ _ _ _ _ _ _ he hP hJ hm hok => electionInv_micro hballots he hP.1 hP.2.1 hP.2.2.1 hJ hm hok)
    (fun _ _ _ _ _ _ _ _ _ _ _ _ _ => trivial) h.1
  have hEa := ((hinv i).2.1 c hc).elected hpos (Concordant.assembled h.1 hc) r a ha
  have hEb := ((hinv j).2.1 d hd).elected (hhistory ▸ hpos) (Concordant.assembled h.1 hd) r b hb
  rw [← hwindow, ← hexclude, ← hhistory] at hEb
  exact hEa.unique hballots hEb

namespace Chain

/-- Who signs the certificates of the chain. -/
def signers (r : UInt64) : List UInt32 := if r = 0 then [] else [1, 2, 4]

theorem concordant_opening : ∀ i e, .event i e ∈ opening → ∀ c, Concordant net signers i c e := by
  intro i e he c
  have hsigned : opening.all (fun m => match m with
      | .event _ (.proposal p) => (Event.proposal p).rounds.all (fun r => r + 1 != 0) &&
          (Event.proposal p).qcs.all (fun q => q.signers == signers q.voteInfo.round)
      | .event _ _             => false
      | .start _               => true) = true := by decide
  have hm := List.all_eq_true.1 hsigned _ he
  cases e with
  | proposal p =>
    obtain ⟨hrounds, hqcs⟩ := Bool.and_eq_true_iff.1 hm
    refine ⟨⟨fun r hr => bne_iff_ne.1 (List.all_eq_true.1 hrounds r hr), fun m hm => (by cases hm)⟩,
      fun b hb => (by cases hb), fun q hq => ?_, fun m hm => (by cases hm)⟩
    exact beq_iff_eq.1 (List.all_eq_true.1 hqcs q hq)
  | vote m => cases hm
  | timeout m => cases hm
  | localTimeout n => cases hm
  | block b => cases hm
  | blockRequest id => cases hm

end Chain

/-- Replicas 1 and 4 elect a leader for round 4 when block 3 brings the certificate of block 2 a second time. -/
theorem chain_reputation :
    ∃ σ c d a, Chain.net.Reached (Concordant Chain.net Chain.signers) σ ∧ σ.status 1 = .running c ∧
      σ.status 4 = .running d ∧ c.leaders.reputationLeaders.lookup 4 = some a ∧
      d.leaders.reputationLeaders.lookup 4 = some a := by
  have hplay : (Chain.book [(1, digest 16), (4, digest 16)]).plays 1 2 Chain.env Chain.opening Chain.closing
      (fun σ => σ.check 1 (fun c => (c.leaders.reputationLeaders.lookup 4).isSome) &&
        σ.check 4 (fun c => (c.leaders.reputationLeaders.lookup 4).isSome)) (fun _ => true) = true := by decide +kernel
  obtain ⟨σ, hσ, htest⟩ := (Book.reached hplay).1 _ Chain.concordant_opening
  rw [Bool.and_eq_true] at htest
  obtain ⟨c, hc, hsome⟩ := Sys.running_of_check htest.1
  obtain ⟨d, hd, hsome'⟩ := Sys.running_of_check htest.2
  obtain ⟨a, ha⟩ := Option.isSome_iff_exists.1 hsome
  obtain ⟨b, hb⟩ := Option.isSome_iff_exists.1 hsome'
  obtain rfl : a = b := reputation_agreement hσ hc hd rfl rfl rfl (by decide) ha hb
  exact ⟨σ, c, d, a, hσ, hc, hd, ha, hb⟩

namespace Chain

/-- The certificate of block 2 with the signatures of 1, of `i` and of `j`. -/
def resigned (i j : UInt32) : QuorumCert :=
  { cert 2 with signatures := ⟨[⟨1, default⟩, ⟨i, default⟩, ⟨j, default⟩], by simp⟩ }

/-- Replica 3 votes for the first two blocks as well, and nobody is asked about the fourth. -/
def threeVotes : Book :=
  { book [] with signed := (1, digest 4) :: [1, 3, 4].flatMap (fun i => [(i, digest 6), (i, digest 9)]) ++
                   [(1, digest 12), (4, digest 12)] }

end Chain

/-- **Replicas that elect different leaders**: the Byzantine leader of round 3 has the votes of all four for block 2.
To replicas 1 and 4 it sends one and the same block, over one certificate, but with commit certificates of block 2 that
1, 2 and 3 signed and that 1, 3 and 4 signed.  Both verify; the candidates for round 4 are 2 and 3 on the one, 3 and 4
on the other, and whichever place `pick` names, a different validator stands there. -/
theorem reputation_disagreement :
    ∃ (N : Net) (σ : Sys) (c d : Core), N.Reached Net.AnyEvent σ ∧ σ.status 1 = .running c ∧ σ.status 4 = .running d ∧
      (N.config 1).window = (N.config 4).window ∧ (N.config 1).exclude = (N.config 4).exclude ∧
      (N.config 1).history = (N.config 4).history ∧ c.leaders.reputationLeaders.lookup 4 = some 2 ∧
      d.leaders.reputationLeaders.lookup 4 = some 3 := by
  have hplay : Chain.threeVotes.plays 1 1 Chain.env
      [.start 1, .start 3, .start 4,
       .event 1 (.proposal (Chain.proposal 1 (some (Chain.cert 0)))),
       .event 3 (.proposal (Chain.proposal 1 (some (Chain.cert 0)))),
       .event 4 (.proposal (Chain.proposal 1 (some (Chain.cert 0)))),
       .event 1 (.proposal (Chain.proposal 2 none)), .event 3 (.proposal (Chain.proposal 2 none)),
       .event 4 (.proposal (Chain.proposal 2 none)),
       .event 1 (.proposal (Chain.proposal 3 (some (Chain.resigned 2 3)))),
       .event 4 (.proposal (Chain.proposal 3 (some (Chain.resigned 3 4))))] []
      (fun σ => σ.check 1 (fun c => c.leaders.reputationLeaders.lookup 4 == some 2) &&
        σ.check 4 (fun c => c.leaders.reputationLeaders.lookup 4 == some 3)) (fun _ => true) = true := by decide +kernel
  obtain ⟨σ, hσ, htest⟩ := (Book.reached hplay).1 Net.AnyEvent (fun _ _ _ _ => trivial)
  rw [Bool.and_eq_true] at htest
  obtain ⟨c, hc, htwo⟩ := Sys.running_of_check htest.1
  obtain ⟨d, hd, hthree⟩ := Sys.running_of_check htest.2
  exact ⟨_, σ, c, d, hσ, hc, hd, rfl, rfl, rfl, beq_iff_eq.1 htwo, beq_iff_eq.1 hthree⟩

end Diem

import Diem.Invariant
import Diem.Play
/-!
# Returns — when every step ends

Three loops of the core have no bound of their own, and each goes from a block to the one its certificate is of:
`Commit` and `Missing` by the certified id, the reputation walk by the parent id in the certificate.  Under certificates
every replica would accept, rounds fall with each turn.  A proposal's block carries such a certificate.  A fetched block
need not: `VerifyBlock` compares ids, and the id leaves the certificate's parent out, so a fetched block can name
itself.
-/
namespace Diem

/-- **The condition on a step**: a block that was fetched carries a certificate `VerifyQC` accepts. -/
def BlocksCertified (N : Net) (_ : UInt32) (_ : Core) (e : Event) : Prop := ∀ b, e = .block b → N.AcceptsQC b.qc

/-- A block under a valid certificate. -/
def Group.Certificated (G : Group) (b : Block) : Prop := G.IsBlock b ∧ G.AcceptsQC b.qc

/-- **A loop that goes down ends**: a turn stops or leads to a state of a lower bound, and there is fuel for the bound.
-/
theorem loop_ends {S R E : Type} (f : Nat → S → Except E R) (I : Nat → S → Prop)
    (turn : ∀ n k s, I k s → (∃ r, f n s = .ok r) ∨ ∃ k' s', k' < k ∧ I k' s' ∧ ∀ m, n = m + 1 → f n s = f m s') :
    ∀ n k s, I k s → k ≤ n → ∃ r, f n s = .ok r := by
  intro n
  induction n with
  | zero =>
    intro k s hs hk
    rcases turn 0 k s hs with hr | ⟨k', s', hlt, -⟩
    · exact hr
    · omega
  | succ n ih =>
    intro k s hs hk
    rcases turn (n + 1) k s hs with hr | ⟨k', s', hlt, hs', hf⟩
    · exact hr
    · rw [hf n rfl]
      exact ih k' s' hs' (by omega)

section Loops

variable {G : Group} {log : List (UInt32 × Signed)} (hb : Ballots G log) {l : MemLedger}
  (hl : LedgerInv G G.Certificated l)

include hb in
/-- **Below a certified block under a valid certificate rounds fall.** -/
theorem parent_below {b p : Block} (h : G.Certificated b) (hc : G.CertifiedID b.id) (hp : G.IsBlock p)
    (hid : p.id = parentID b) : p.round < b.round := by
  have hround : p.round = qcRound b.qc := hb.round_eq h.2 hp (by rw [hid, parentID_eq])
  have hlen : (parentID b).len = hashLen := by rw [← hid]; exact hp.id_len
  rcases hb.certifiedID_parent hc h.1 hlen with hzero | ⟨-, hlt⟩
  · exact absurd (hid.trans hzero) hp.id_ne_zeroHash
  · rw [hround]
    exact hlt h.2

theorem Group.Certificated.certifiedID {b : Block} (h : G.Certificated b) : G.CertifiedID (parentID b) :=
  ⟨b.qc, h.2, (parentID_eq b).symm⟩

include hb hl

theorem walkBack_ends {fuel : Nat} (hfuel : 2 ^ 64 ≤ fuel) {id : Bytes} (hid : G.CertifiedID id) :
    ∃ r, l.walkBack fuel id [] = .ok r := by
  refine loop_ends (fun n (s : Bytes × List Speculated) => l.walkBack n s.1 s.2)
    (fun k s => ∀ x, l.pending.lookup s.1 = some x → G.CertifiedID s.1 ∧ x.block.round.toNat < k) ?_ fuel (2 ^ 64)
    (id, []) (fun x _ => ⟨hid, x.block.round.toNat_lt⟩) hfuel
  rintro n k ⟨id, acc⟩ hs
  rcases l.walkBack_turn n id acc with hr | ⟨x, hx, hf⟩
  · exact .inl hr
  · obtain ⟨hc, hk⟩ := hs x hx
    obtain ⟨rfl, hcert, -⟩ := hl.pending _ x hx
    refine .inr ⟨x.block.round.toNat, (parentID x.block, x :: acc), hk, fun y hy => ?_, hf⟩
    obtain ⟨hyid, hy, -⟩ := hl.pending _ y hy
    exact ⟨hcert.certifiedID, UInt64.lt_iff_toNat_lt.1 (parent_below hb hcert hc hy.1 hyid)⟩

theorem missing_ends {fuel : Nat} (hfuel : 2 ^ 64 ≤ fuel) (id : Bytes) : ∃ r, l.missing fuel id = .ok r := by
  unfold MemLedger.missing
  cases hlook : l.held.lookup id with
  | none => exact ⟨_, rfl⟩
  | some b =>
    refine loop_ends (MemLedger.missingLoop l.held)
      (fun k b => G.Certificated b ∧ ∀ p, l.held.lookup (parentID b) = some p → p.round.toNat < k) ?_ fuel (2 ^ 64) b
      ⟨(hl.held _ b hlook).2, fun p _ => p.round.toNat_lt⟩ hfuel
    rintro n k b ⟨hcert, hk⟩
    rcases MemLedger.missingLoop_turn l.held n b with hr | ⟨p, hp, hf⟩
    · exact .inl hr
    · obtain ⟨hpid, hpc⟩ := hl.held _ p hp
      refine .inr ⟨p.round.toNat, p, hk p hp, ⟨hpc, fun p' hp' => ?_⟩, hf⟩
      obtain ⟨hpid', hpc'⟩ := hl.held _ p' hp'
      have hc : G.CertifiedID p.id := by rw [hpid]; exact hcert.certifiedID
      exact UInt64.lt_iff_toNat_lt.1 (parent_below hb hpc hc hpc'.1 hpid')

omit hb in
/-- No committed block goes by the id that stands for none. -/
theorem committed_ne_zeroHash {b : Block} : l.committedBlock zeroHash ≠ some b := by
  intro h
  obtain ⟨hid, rfl | ⟨⟨hblock, -⟩, -⟩⟩ := hl.committed _ b h
  · exact (Group.isBlock_genesis G).id_ne_zeroHash hid
  · exact hblock.id_ne_zeroHash hid

/-- **One turn of the reputation walk goes down**: the certificate of a committed block is genesis's own or a valid one,
of a lower round than the certificate that led to the block. -/
theorem walk_descends {cur qc : QuorumCert} {b : Block} (hcur : G.AcceptsQC (some cur))
    (hlook : l.committedBlock cur.voteInfo.parentId = some b) (hqc : b.qc = some qc) :
    (G.AcceptsQC (some qc) ∨ qc = genesisSeedQC) ∧ qc.voteInfo.round < cur.voteInfo.round := by
  have h0 : cur.voteInfo.round ≠ 0 := by
    intro h0
    rw [hcur.eq_genesisQC h0] at hlook
    exact committed_ne_zeroHash hl hlook
  obtain ⟨-, hround, hlt, -⟩ := hb.parent_truth hcur h0
  obtain ⟨hid, rfl | ⟨hcert, hc, -⟩⟩ := hl.committed _ b hlook
  · cases hqc
    refine ⟨.inr rfl, ?_⟩
    rw [← hround _ (Group.isBlock_genesis G) hid] at hlt
    exact hlt
  · rw [← hround b hcert.1 hid] at hlt
    have hq := hcert.2
    rw [hqc] at hq
    obtain ⟨p, hp, hpid, hpr⟩ := hb.exists_block hq
    refine ⟨.inl hq, ?_⟩
    have hbelow : p.round < b.round := parent_below hb hcert (by rw [hid]; exact hc) hp (by rw [hpid, parentID_eq, hqc])
    rw [hpr] at hbelow
    exact UInt64.lt_trans hbelow hlt

theorem walk_ends (window exclude : Int) {fuel : Nat} (hfuel : 2 ^ 64 ≤ fuel) {qc : QuorumCert}
    (hq : G.AcceptsQC (some qc)) (w : Walk) : ∃ r, LeaderElection.walk window exclude l fuel 0 qc w = .ok r := by
  refine loop_ends (fun n (s : Nat × QuorumCert × Walk) => LeaderElection.walk window exclude l n s.1 s.2.1 s.2.2)
    (fun k s => (G.AcceptsQC (some s.2.1) ∨ s.2.1 = genesisSeedQC) ∧ s.2.1.voteInfo.round.toNat ≤ k) ?_ fuel (2 ^ 64)
    (0, qc, w) ⟨.inl hq, Nat.le_of_lt qc.voteInfo.round.toNat_lt⟩ hfuel
  rintro n k ⟨i, cur, w⟩ ⟨hcur, hk⟩
  rcases LeaderElection.walk_turn window exclude l n i cur w with hr | ⟨b, qc, hlook, hqc, hf⟩
  · exact .inl hr
  · rcases hcur with hcur | rfl
    · obtain ⟨hnext, hlt⟩ := walk_descends hb hl hcur hlook hqc
      rw [UInt64.lt_iff_toNat_lt] at hlt
      exact .inr ⟨qc.voteInfo.round.toNat, (i + 1, qc, w.visit window exclude i cur b), by omega,
        ⟨hnext, Nat.le_refl _⟩, hf⟩
    · exact absurd hlook (committed_ne_zeroHash hl)

theorem processQC_ends (history : Nat) {fuel : Nat} (hfuel : 2 ^ 64 ≤ fuel) (t : BlockTree) {qc : QuorumCert}
    (hq : G.AcceptsQC (some qc)) : ∃ r, BlockTree.processQC history fuel l t (some qc) = .ok r := by
  rw [BlockTree.processQC]
  split
  · rename_i hc
    obtain ⟨r, hr⟩ := walkBack_ends hb hl hfuel (hb.certifiedID_of_commits hq hc)
    have hcommit : ∃ r, l.commit history fuel qc.voteInfo.parentId = .ok r := by
      rw [MemLedger.commit, hr]
      split
      · exact ⟨_, rfl⟩
      · cases r <;> exact ⟨_, rfl⟩
    obtain ⟨⟨l', bs⟩, hcommit⟩ := hcommit
    rw [hcommit]
    exact ⟨_, rfl⟩
  · exact ⟨_, rfl⟩

theorem updateLeaders_ends {cr : Crypto} {cfg : Config} {fuel : Nat} (hfuel : 2 ^ 64 ≤ fuel) (el : LeaderElection)
    (currentRound : UInt64) {qc : QuorumCert} (hq : G.AcceptsQC (some qc)) (loop : Loop) :
    el.updateLeaders cr cfg fuel l currentRound qc ≠ .error loop := by
  intro herr
  obtain ⟨w, hw⟩ := walk_ends hb hl cfg.window cfg.exclude hfuel hq ⟨[], []⟩
  rw [LeaderElection.updateLeaders_error herr] at hw
  cases hw

end Loops

/-- What an event brings in is a block under a valid certificate, by the edge's check or by the condition. -/
theorem certificated_of_admits {N : Net} {i : UInt32} {c₀ : Core} {e : Event} (he : N.Admits e)
    (hP : BlocksCertified N i c₀ e) (b : Block) (hsrc : e = .block b ∨ ∃ p, e = .proposal p ∧ p.block = some b) :
    N.Certificated b := by
  refine ⟨he.isBlock hsrc, ?_⟩
  rcases hsrc with hblock | ⟨p, rfl, hpb⟩
  · exact hP b hblock
  · exact (he.proposed hpb).2.1

/-- No micro step is cut short. -/
theorem not_cut {N : Net} {log : List (UInt32 × Signed)} (hb : Ballots N.toGroup log) {i : UInt32} {env : Env}
    {c₀ : Core} {e : Event} {tr eff : List Effect} {c : Core} (he : N.Admits e) (hP : BlocksCertified N i c₀ e)
    (h : CoreInv N.toGroup N.Certificated tr c) (hfuel : 2 ^ 64 ≤ env.fuel) (hok : ∀ x ∈ eff, N.Legit i x) :
    ¬ N.Cut i env e c eff := by
  have hQ : ∀ b, N.Certificated b → N.IsBlock b := fun _ hb => hb.1
  intro hc
  cases hc with
  | insert b loop hsrc hmiss =>
    obtain ⟨r, hr⟩ := missing_ends hb (h.ledger.speculate hQ (certificated_of_admits he hP b hsrc) _) hfuel b.id
    rw [hr] at hmiss
    cases hmiss
  | commit qc loop hsrc hp =>
    have hq : N.AcceptsQC (some qc) := by
      rcases hsrc with hsrc | ⟨m, rfl, hm⟩
      · exact he.qcs qc hsrc
      · exact he.highCommitQc hm
    obtain ⟨r, hr⟩ := processQC_ends hb h.ledger (N.config i).history hfuel c.tree hq
    rw [hr] at hp
    cases hp
  | cert qc l t bs loop hsrc hp hloop =>
    have hq := he.qcs qc hsrc
    exact updateLeaders_ends hb (processQC_inv hQ hb h.tree h.ledger hq hp).2.1 hfuel _ _ hq _ hloop
  | assembled m qc loop hm hqc hp =>
    subst hm
    obtain ⟨hq, -, h'⟩ := h.assembled hb he hqc (hok _ List.mem_cons_self)
    obtain ⟨r, hr⟩ := processQC_ends hb h'.ledger (N.config i).history hfuel
      (c.tree.accumulate N.crypto env i N.verifier.quorum m).1 hq
    rw [hr] at hp
    cases hp
  | aggregate m qc l t bs loop hm hqc hp hloop =>
    subst hm
    obtain ⟨hq, -, h'⟩ := h.assembled hb he hqc (hok _ List.mem_cons_self)
    exact updateLeaders_ends hb (processQC_inv hQ hb h'.tree h'.ledger hq hp).2.1 hfuel _ _ hq _ hloop

/-- **Every step returns**, and so does every election made in it, in a run whose fetched blocks carry valid
certificates: no loop of the core takes more turns than there are rounds. -/
theorem step_returns {N : Net} {σ : Sys} (h : N.Reached (BlocksCertified N) σ) {i : UInt32} {c : Core}
    (hc : σ.status i = .running c) {e : Event} (he : N.Admits e) (hP : BlocksCertified N i c e) {env : Env}
    (hfuel : 2 ^ 64 ≤ env.fuel) (hok : ∀ x ∈ Core.did (c.step N.crypto (N.config i) env e), N.Legit i x) :
    ∃ c' eff, c.step N.crypto (N.config i) env e = .ok (c', eff) := by
  obtain ⟨log, hb⟩ := h.ballots
  have hmicro : ∀ {i : UInt32} {env : Env} {c₀ : Core} {e : Event} (tr : List Effect) (c : Core) (eff : List Effect)
      (c' : Core), N.Admits e → BlocksCertified N i c₀ e → CoreInv N.toGroup N.Certificated tr c →
      N.Micro i env c₀ e c eff c' → (∀ x ∈ eff, N.Legit i x) → CoreInv N.toGroup N.Certificated (tr ++ eff) c' :=
    fun _ _ _ _ he hP hJ hm hok =>
      coreInv_micro (fun _ hb => hb.1) hb he (certificated_of_admits he hP) hJ hm hok
  have hinv := (Net.Run.invariant (J := fun _ tr c => CoreInv N.toGroup N.Certificated tr c) (K := fun _ _ => True)
    (fun _ _ _ hnew _ => coreInv_start hnew) (fun _ _ _ _ tr c eff c' _ => hmicro tr c eff c')
    (fun _ _ _ _ _ _ _ _ _ _ _ _ _ => trivial) h.1 i).2.1 c hc
  cases hs : c.step N.crypto (N.config i) env e with
  | ok r => exact ⟨r.1, r.2, rfl⟩
  | error s =>
    obtain ⟨c', eff, eff', hm, hcut, hd⟩ := Net.step_halts he hs
    rw [hs, Core.did, hd] at hok
    obtain ⟨hok, hok'⟩ := List.forall_mem_append.1 hok
    have hcore := hm.invariant (fun tr c eff c' => hmicro tr c eff c' he hP) hinv hok
    exact absurd hcut (not_cut hb he hP hcore hfuel hok')

/-! ## A fetched block, and one that names itself -/

namespace Chain

/-- Replica 3 fetches block 1, which blocks 2 and 3 wait on; block 3 brings it to round 3 and commits block 1. -/
def fetching (b : Block) : List Move :=
  opening ++ [.event 3 (.proposal (proposal 2 none)), .event 3 (.block b), .event 3 (.proposal (proposal 3 none))]

abbrev fetchedNet : Net := (book [(3, digest 12)]).net 1 2

/-- Fuel for every round there is. -/
def longEnv : Env := { env with fuel := 2 ^ 64 }

end Chain

/-- Block 3 a second time, to replica 3: the election of a leader for round 4 ends. -/
theorem chain_step_returns :
    ∃ σ c c' eff, Chain.fetchedNet.Reached (BlocksCertified Chain.fetchedNet) σ ∧ σ.status 3 = .running c ∧
      c.step Chain.fetchedNet.crypto (Chain.fetchedNet.config 3) Chain.longEnv
        (.proposal (Chain.proposal 3 none)) = .ok (c', eff) := by
  have hplay : (Chain.book [(3, digest 12)]).plays 1 2 Chain.env (Chain.fetching (Chain.block 1))
      [.event 4 (.proposal (Chain.proposal 4 none))]
      (fun σ => σ.check 3 (fun c => decide (∀ x ∈ Core.did (c.step Chain.fetchedNet.crypto (Chain.fetchedNet.config 3)
        Chain.longEnv (.proposal (Chain.proposal 3 none))), Chain.fetchedNet.Legit 3 x))) (fun _ => true) = true := by
    decide +kernel
  have hcert : Chain.fetchedNet.AcceptsQC (Chain.block 1).qc := by decide +kernel
  obtain ⟨σ, hσ, htest⟩ := (Book.reached hplay).1 (BlocksCertified Chain.fetchedNet) (by
    rintro i e he c b rfl
    simp only [Chain.fetching, Chain.opening, List.cons_append, List.nil_append, List.mem_cons, Move.event.injEq,
      reduceCtorEq, and_false, false_or, or_false, List.not_mem_nil, Event.block.injEq] at he
    rw [he.2]
    exact hcert)
  obtain ⟨c, hc, hok⟩ := Sys.running_of_check htest
  have he : Chain.fetchedNet.Admits (.proposal (Chain.proposal 3 none)) := by decide +kernel
  obtain ⟨c', eff, hs⟩ := step_returns hσ hc he (fun b hb => by cases hb) (Nat.le_refl _) (of_decide_eq_true hok)
  exact ⟨σ, c, c', eff, hσ, hc, hs⟩

/-- **A committed block whose certificate names the block itself as its parent keeps the walk going forever**, if one
author is not enough to exclude. -/
theorem walk_circles (window : Int) {exclude : Int} {l : MemLedger} {id : Bytes} {b : Block} {q : QuorumCert}
    (hlook : l.committedBlock id = some b) (hq : b.qc = some q) (hself : q.voteInfo.parentId = id)
    (hex : 1 < exclude) : ∀ (n i : Nat) (cur : QuorumCert) (w : Walk), cur.voteInfo.parentId = id →
      (w.excluded = [] ∨ w.excluded = [b.author]) →
      LeaderElection.walk window exclude l n i cur w = .error .reputation := by
  intro n
  induction n with
  | zero =>
    intro i cur w hcur hw
    have hgo : (w.excluded.length : Int) < exclude := by rcases hw with hw | hw <;> simp [hw] <;> omega
    rw [LeaderElection.walk, if_pos (.inr hgo), hcur, hlook]
    simp only [hq]
  | succ n ih =>
    intro i cur w hcur hw
    have hgo : (w.excluded.length : Int) < exclude := by rcases hw with hw | hw <;> simp [hw] <;> omega
    rw [LeaderElection.walk, if_pos (.inr hgo), hcur, hlook]
    simp only [hq]
    refine ih _ q _ hself (.inr ?_)
    simp only [Walk.visit, if_pos hgo]
    rcases hw with hw | hw <;> simp [hw]

/-- The election such a block keeps from ending, whatever the fuel. -/
theorem election_circles (cr : Crypto) (cfg : Config) {c : Core} (qc : QuorumCert) {q : QuorumCert} {b : Block}
    (htop : qc.voteInfo.parentId = c.ledger.commitID) (hlook : c.ledger.committedBlock qc.voteInfo.parentId = some b)
    (hq : b.qc = some q) (hself : q.voteInfo.parentId = qc.voteInfo.parentId) (hex : 1 < cfg.exclude)
    (hnext : qc.voteInfo.parentRound + 1 = qc.voteInfo.round)
    (hround : qc.voteInfo.round + 1 = c.pacemaker.currentRound) (env : Env) :
    c.processCertificateQC cr cfg env (some qc) = .error ⟨.reputation, []⟩ := by
  have hp : ∃ t, BlockTree.processQC cfg.history env.fuel c.ledger c.tree (some qc) = .ok (c.ledger, t, []) := by
    rw [BlockTree.processQC, MemLedger.commit, if_pos htop]
    split <;> exact ⟨_, rfl⟩
  obtain ⟨t, hp⟩ := hp
  have hw := walk_circles cfg.window hlook hq hself hex env.fuel 0 qc ⟨[], []⟩ rfl (.inl rfl)
  have hl : c.leaders.updateLeaders cr cfg env.fuel c.ledger c.pacemaker.currentRound qc = .error .reputation := by
    rw [LeaderElection.updateLeaders, if_neg (by simp [hnext, hround]), LeaderElection.electReputationLeader, hw]
  simp only [Core.processCertificateQC, hp, hl, List.map_nil]

/-- The genesis certificate with block 1 named as the parent. -/
def Chain.circularQC : QuorumCert :=
  { Chain.cert 0 with voteInfo := { (Chain.cert 0).voteInfo with parentId := (Chain.block 1).id } }

/-- Block 1 under that certificate, which `VerifyBlock` accepts for block 1. -/
def Chain.circular : Block := { Chain.block 1 with qc := some Chain.circularQC }

/-- **Not every election ends**: replica 3 fetched the block that names itself, and block 3, received a second time, is
an event it never returns from. -/
theorem election_never_returns :
    ∃ (N : Net) (σ : Sys) (i : UInt32) (c : Core) (e : Event), N.Reached Net.AnyEvent σ ∧ σ.status i = .running c ∧
      N.Admits e ∧ ∀ env, c.step N.crypto (N.config i) env e = .error ⟨.reputation, []⟩ := by
  have hplay : (Chain.book [(3, digest 12)]).plays 1 2 Chain.env (Chain.fetching Chain.circular)
      [.event 4 (.proposal (Chain.proposal 4 none))]
      (fun σ => σ.check 3 (fun c => decide ((Chain.block 1).id = c.ledger.commitID ∧
        c.ledger.committedBlock (Chain.block 1).id = some Chain.circular ∧ c.pacemaker.currentRound = 3)))
      (fun _ => true) = true := by decide +kernel
  obtain ⟨σ, hσ, htest⟩ := (Book.reached hplay).1 Net.AnyEvent (fun _ _ _ _ => trivial)
  obtain ⟨c, hc, hfacts⟩ := Sys.running_of_check htest
  obtain ⟨htop, hlook, hround⟩ := of_decide_eq_true hfacts
  refine ⟨_, σ, 3, c, .proposal (Chain.proposal 3 none), hσ, hc, by decide +kernel, fun env => ?_⟩
  have hcert := election_circles Chain.fetchedNet.crypto (Chain.fetchedNet.config 3) (Chain.cert 2) htop hlook
    (rfl : Chain.circular.qc = some Chain.circularQC) rfl (by decide) (by decide) (by rw [hround]; decide) env
  simp only [Core.step, Core.processProposalMsg, Core.processCertificates, Chain.proposal, Option.getD_some]
  have hqc : (Chain.block 3).qc = some (Chain.cert 2) := rfl
  rw [hqc, hcert]

end Diem

import Diem.Play
import Diem.Invariant
import Diem.Path
/-!
# Execution — the states replicas compute and certify

A block has one state: the payloads on its path from genesis, executed in order.  However blocks reach a ledger, the
state it holds for one is that state; so is the one a vote reports, and so, since a quorum holds an honest vote, is the
one a certificate commits.
-/
namespace Diem

/-- The state genesis is committed with. -/
def genesisState (cr : Crypto) : Bytes := executeHash cr zeroHash default

namespace Group

variable (G : Group)

/-- A block that hangs off another by a full id. -/
def Linked (b : Block) : Prop := G.IsBlock b ∧ (parentID b).len = hashLen

/-- **The state of a block**: what its path from genesis, which every such path agrees on, leads to. -/
def StateOf (execute : Bytes → Payload → Bytes) (id state : Bytes) : Prop :=
  (∃ bs, Path G.Linked (genesisBlock G.crypto).id bs id) ∧
    ∀ bs, Path G.Linked (genesisBlock G.crypto).id bs id → state = replay execute (genesisState G.crypto) bs

variable {G} {execute : Bytes → Payload → Bytes} {id state state' : Bytes}

/-- Nothing hangs below genesis. -/
theorem linked_ne_genesis {bs : List Block} {b : Block} (h : Path G.Linked (genesisBlock G.crypto).id bs (parentID b))
    (hb : G.Linked b) : b.id ≠ (genesisBlock G.crypto).id := by
  intro hid
  have hzero : parentID b = zeroHash := hb.1.parent_eq (isBlock_genesis G) hid hb.2
  generalize hp : parentID b = p at h
  rw [hzero] at hp
  cases h with
  | nil => exact (isBlock_genesis G).id_ne_zeroHash hp.symm
  | snoc _ hb' => exact hb'.1.id_ne_zeroHash hp.symm

theorem replay_unique {bs bs' : List Block} (h : Path G.Linked (genesisBlock G.crypto).id bs id)
    (h' : Path G.Linked (genesisBlock G.crypto).id bs' id) (state : Bytes) :
    replay execute state bs = replay execute state bs' := by
  refine replay_congr execute state (h.map_unique (f := Block.payload) (fun b b' hb hb' hid => ?_)
    (fun _ _ => linked_ne_genesis) h')
  exact ⟨(blockBytes_inj_head (hb.1.bytes_eq hb'.1 hid)).2.2.1, hb.1.parent_eq hb'.1 hid (hb.2.trans hb'.2.symm)⟩

theorem stateOf_genesis : G.StateOf execute (genesisBlock G.crypto).id (genesisState G.crypto) :=
  ⟨⟨[], .nil⟩, fun _ h => replay_unique .nil h (genesisState G.crypto)⟩

theorem StateOf.next {b : Block} (h : G.StateOf execute (parentID b) state) (hb : G.IsBlock b) :
    G.StateOf execute b.id (execute state b.payload) := by
  obtain ⟨⟨bs, hbs⟩, hstate⟩ := h
  have hlen : (parentID b).len = hashLen := by
    generalize parentID b = p at hbs
    cases hbs with
    | nil => exact (isBlock_genesis G).id_len
    | snoc _ hb' => exact hb'.1.id_len
  have hpath := hbs.snoc ⟨hb, hlen⟩
  refine ⟨⟨_, hpath⟩, fun bs' h' => ?_⟩
  rw [hstate bs hbs, ← replay_unique hpath h' _, replay_append]
  rfl

theorem StateOf.unique (h : G.StateOf execute id state) (h' : G.StateOf execute id state') : state = state' := by
  obtain ⟨⟨bs, hbs⟩, hstate⟩ := h
  rw [hstate bs hbs, h'.2 bs hbs]

end Group

/-! ## The ledger -/

/-- **Every state the ledger holds is that of its block.** -/
abbrev ExecInv (G : Group) (execute : Bytes → Payload → Bytes) (l : MemLedger) : Prop :=
  l.Records G.IsBlock (G.StateOf execute)

theorem ExecInv.newMemLedger (G : Group) (execute : Bytes → Payload → Bytes) :
    ExecInv G execute (newMemLedger G.crypto) :=
  ⟨Table.holds_empty _, Table.holds_empty _, Group.stateOf_genesis⟩

theorem ExecInv.processQC {G : Group} {execute : Bytes → Payload → Bytes} {l l' : MemLedger} (h : ExecInv G execute l)
    {history fuel : Nat} {t t' : BlockTree} {qc : QuorumCert} {bs : List Block}
    (hp : BlockTree.processQC history fuel l t (some qc) = .ok (l', t', bs)) :
    ExecInv G execute l' ∧
      (l'.commitID = l.commitID ∨ (commits qc.ledgerCommitInfo = true ∧ l'.commitID = qc.voteInfo.parentId)) := by
  obtain ⟨-, ⟨hc, hcommit, -⟩ | ⟨-, rfl, -, -⟩⟩ := BlockTree.processQC_ok hp
  · obtain ⟨hinv, htop⟩ := MemLedger.Records.commit h hcommit
    exact ⟨hinv, htop.imp_right (fun htop => ⟨hc, htop⟩)⟩
  · exact ⟨h, .inl rfl⟩

/-! ## Votes -/

/-- **A vote reports the states of its block and, if that is in the next round, of its parent.** -/
structure Reports (G : Group) (execute : Bytes → Payload → Bytes) (v : VoteMsg) : Prop where
  exec   : G.StateOf execute v.voteInfo.id v.voteInfo.execStateId
  commit : v.ledgerCommitInfo.commitStateId = zeroHash ∨
             (G.StateOf execute v.voteInfo.parentId v.ledgerCommitInfo.commitStateId ∧
               v.voteInfo.parentRound + 1 = v.voteInfo.round)

theorem ExecInv.reports {G : Group} {execute : Bytes → Payload → Bytes} {v : Verifier} {env : Env} {id : UInt32}
    {l : MemLedger} {t : BlockTree} {s s' : Safety} {b : Block} {lastTC : Option TimeoutCert} {m : VoteMsg}
    (h : ExecInv G execute l) (hv : Safety.Voted v env id l t s s' b lastTC m) : Reports G execute m := by
  constructor
  · have hid : m.voteInfo.id = b.id := by rw [hv.info]
    rw [hid]
    exact h.pendingState hv.exec
  · have hparent : m.voteInfo.parentId = certifiedID b.qc := by rw [hv.info, ← parentID_eq]
    have hround : m.voteInfo.parentRound = qcRound b.qc ∧ m.voteInfo.round = b.round := by
      rw [hv.info]
      exact ⟨rfl, rfl⟩
    rw [hv.commit, hparent, hround.1, hround.2]
    dsimp only
    rw [commitStateIDCandidate]
    cases hcons : consecutive b.round (qcRound b.qc) with
    | false => exact .inl rfl
    | true =>
      cases hs : l.pendingState (certifiedID b.qc) with
      | none => exact .inl rfl
      | some state => exact .inr ⟨h.pendingState hs, consecutive_iff.1 hcons⟩

/-- What a run keeps of a replica: the states in its ledger, and those in its votes. -/
structure ExecutesInv (G : Group) (execute : Bytes → Payload → Bytes) (tr : List Effect) (c : Core) : Prop where
  ledger : ExecInv G execute c.ledger
  votes  : ∀ v dest, .vote v dest ∈ tr → Reports G execute v

section Run

variable {N : Net} {execute : Bytes → Payload → Bytes} {P : UInt32 → Core → Event → Prop}

/-- Effects without a vote change nothing about the votes. -/
theorem ExecutesInv.quiet {tr eff : List Effect} {c c' : Core} (h : ExecutesInv N.toGroup execute tr c)
    (hl : ExecInv N.toGroup execute c'.ledger) (hv : ∀ v dest, .vote v dest ∉ eff) :
    ExecutesInv N.toGroup execute (tr ++ eff) c' := by
  refine ⟨hl, fun v dest hmem => ?_⟩
  rcases List.mem_append.1 hmem with hmem | hmem
  · exact h.votes v dest hmem
  · exact absurd hmem (hv v dest)

theorem not_vote_of_onCommit {bs : List Block} {v : VoteMsg} {dest : UInt32} :
    .vote v dest ∉ bs.map Effect.onCommit := by
  simp

theorem not_vote_of_newRound {cr : Crypto} {cfg : Config} {env : Env} {c : Core} {tc : Option TimeoutCert} {v : VoteMsg}
    {dest : UInt32} : .vote v dest ∉ c.processNewRoundEvent cr cfg env tc := by
  intro hmem
  obtain ⟨sig, -, heq⟩ := Core.mem_processNewRoundEvent hmem
  cases heq

/-- **Every micro step executes what it should.** -/
theorem executesInv_micro (hexec : ∀ i, N.Honest i → (N.config i).execute = execute) {i : UInt32} {env : Env}
    {c₀ : Core} {e : Event} {tr eff : List Effect} {c c' : Core} (hi : N.Honest i) (he : N.Admits e)
    (h : ExecutesInv N.toGroup execute tr c) (hm : N.Micro i env c₀ e c eff c') :
    ExecutesInv N.toGroup execute (tr ++ eff) c' := by
  cases hm with
  | cert _ qc _ moved _ hsrc hp =>
    obtain ⟨l, t, bs, le, hq, -, rfl, -, rfl⟩ := Core.processCertificateQC_ok hp
    exact h.quiet (ExecInv.processQC h.ledger hq).1 (fun _ _ => not_vote_of_onCommit)
  | tc _ t hsrc => exact h.quiet h.ledger (fun _ _ => List.not_mem_nil)
  | insert _ b _ _ hsrc hp =>
    obtain ⟨rfl, hreq⟩ := Core.insert_ok hp
    rw [hexec i hi]
    refine h.quiet (h.ledger.speculate (fun _ _ hb hp => hp.next hb) (he.isBlock hsrc)) (fun v dest hmem => ?_)
    rcases hreq with rfl | ⟨id, rfl⟩
    · cases hmem
    · cases List.mem_singleton.1 hmem
  | vote _ p b dest hp hb hround hqc =>
    refine ⟨h.ledger, fun v d hmem => ?_⟩
    rcases List.mem_append.1 hmem with hmem | hmem
    · exact h.votes v d hmem
    · obtain ⟨m, hmk, heq⟩ := List.mem_map.1 hmem
      cases heq
      exact ExecInv.reports h.ledger ((c.safety.makeVote_spec N.verifier env i c.ledger c.tree b p.lastRoundTc).2 v
        (Option.mem_toList.1 hmk))
  | stop => exact h.quiet h.ledger (fun _ _ => List.not_mem_nil)
  | timeout =>
    refine h.quiet h.ledger (fun v dest hmem => ?_)
    obtain ⟨m, -, heq⟩ := List.mem_map.1 hmem
    cases heq
  | note _ m hm hnew => exact h.quiet h.ledger (fun _ _ => List.not_mem_nil)
  | complete _ m tc _ hm htc hlen hround hc' =>
    subst hc'
    exact h.quiet h.ledger (fun _ _ => not_vote_of_newRound)
  | voteQC m qc l t bs hm hqc hwin hp =>
      exact h.quiet (ExecInv.processQC h.ledger hp).1 (fun _ _ => not_vote_of_onCommit)
  | gather _ m hm hnone => exact h.quiet h.ledger (fun _ _ => List.not_mem_nil)
  | aggregate _ m qc _ moved eff' hm hwin hqc hp =>
    obtain ⟨l, t, bs, le, hq, -, rfl, -, rfl⟩ := Core.processCertificateQC_ok hp
    refine h.quiet (ExecInv.processQC h.ledger hq).1 (fun v dest hmem => ?_)
    rcases List.mem_cons.1 hmem with heq | hmem
    · cases heq
    · split at hmem
      · rcases List.mem_append.1 hmem with hmem | hmem
        · exact not_vote_of_onCommit hmem
        · exact not_vote_of_newRound hmem
      · exact not_vote_of_onCommit hmem
  | reply _ b => exact h.quiet h.ledger (fun v dest hmem => by cases List.mem_singleton.1 hmem)

theorem executesInv_start {i : UInt32} {env : Env} {c : Core} (hnew : newCore N.crypto (N.config i) = some c) :
    ExecutesInv N.toGroup execute (c.start N.crypto (N.config i) env).2 (c.start N.crypto (N.config i) env).1 := by
  cases newCore_eq hnew
  exact ⟨ExecInv.newMemLedger _ _, fun v dest hmem => absurd hmem not_vote_of_newRound⟩

/-- A step caught in a loop cast no vote on the way. -/
theorem not_vote_of_cut {i : UInt32} {env : Env} {e : Event} {c : Core} {eff : List Effect} (h : N.Cut i env e c eff)
    {v : VoteMsg} {dest : UInt32} : .vote v dest ∉ eff := by
  intro hmem
  cases h with
  | insert => cases hmem
  | commit => cases hmem
  | cert => exact not_vote_of_onCommit hmem
  | assembled => cases List.mem_singleton.1 hmem
  | aggregate =>
    rcases List.mem_cons.1 hmem with heq | hmem
    · cases heq
    · exact not_vote_of_onCommit hmem

theorem executesInv_run (hexec : ∀ i, N.Honest i → (N.config i).execute = execute) {σ : Sys} (h : N.Run P σ) :
    (∀ i c, σ.status i = .running c → ExecutesInv N.toGroup execute (σ.effects i) c) ∧
    ∀ i v dest, (i, .vote v dest) ∈ σ.trace → Reports N.toGroup execute v := by
  have hinv := Net.Run.invariant (J := fun _ tr c => ExecutesInv N.toGroup execute tr c)
    (K := fun _ tr => ∀ v dest, .vote v dest ∈ tr → Reports N.toGroup execute v)
    (fun _ _ _ hnew _ => executesInv_start hnew)
    (fun _ _ _ _ _ _ _ _ hi he _ hJ hm _ => executesInv_micro hexec hi he hJ hm)
    (fun _ _ _ _ _ _ _ _ _ _ hJ hc _ v dest hmem => (List.mem_append.1 hmem).elim (hJ.votes v dest)
      (fun hmem => absurd hmem (not_vote_of_cut hc))) h
  refine ⟨fun i => (hinv i).2.1, fun i v dest hmem => ?_⟩
  rw [← Sys.mem_effects] at hmem
  obtain ⟨hfresh, hrun, hstuck⟩ := hinv i
  cases hs : σ.status i with
  | fresh => rw [hfresh hs] at hmem; cases hmem
  | running c => exact (hrun c hs).votes v dest hmem
  | stuck => exact hstuck hs v dest hmem

end Run

/-- A quorum holds an honest vote. -/
theorem Ballots.honest_vote {G : Group} {log : List (UInt32 × Signed)} (h : Ballots G log) {q : QuorumCert}
    (hq : G.AcceptsQC (some q)) (h0 : q.voteInfo.round ≠ 0) :
    ∃ i m, (i, Signed.vote m) ∈ log ∧ m.voteInfo = q.voteInfo ∧ m.ledgerCommitInfo = q.ledgerCommitInfo := by
  obtain ⟨A, hA, hvote⟩ := h.certified hq h0
  obtain ⟨i, hi, hiA, -⟩ := h.election.meet A hA A hA
  obtain ⟨m, hm, -, -, hc⟩ := mem_hist_vote (hvote i hiA hi)
  exact ⟨i, m, hm, (congrArg Prod.fst hc).symm, (congrArg Prod.snd hc).symm⟩

/-- **Execution agreement**: wherever a replica is in a step, the states it holds are those of their blocks; its votes
report the state of their block, and of its parent only if the block is in the round after; and a certificate that moves
the frontier moves it to the state it commits. -/
theorem execution_agreement {N : Net} {σ : Sys} (h : N.Reached Net.AnyEvent σ) {execute : Bytes → Payload → Bytes}
    (hexec : ∀ i, N.Honest i → (N.config i).execute = execute) :
    (∀ i c, N.Midway Net.AnyEvent σ i c → ∀ id state, c.ledger.pendingState id = some state →
      N.StateOf execute id state) ∧
    (∀ i v dest, (i, .vote v dest) ∈ σ.trace → ∃ b, N.IsBlock b ∧ b.id = v.voteInfo.id ∧
      parentID b = v.voteInfo.parentId ∧ N.StateOf execute b.id v.voteInfo.execStateId ∧
      (v.ledgerCommitInfo.commitStateId = zeroHash ∨
        (N.StateOf execute (parentID b) v.ledgerCommitInfo.commitStateId ∧
          ∀ p, N.IsBlock p → p.id = parentID b → b.round.toNat = p.round.toNat + 1))) ∧
    ∀ i c, N.Midway Net.AnyEvent σ i c → ∀ history fuel t q l' t' bs, N.AcceptsQC (some q) →
      BlockTree.processQC history fuel c.ledger t (some q) = .ok (l', t', bs) → l'.commitID ≠ c.ledger.commitID →
      l'.commitID = q.voteInfo.parentId ∧ l'.commitState = q.ledgerCommitInfo.commitStateId := by
  obtain ⟨hinv, hvotes⟩ := executesInv_run hexec h.1
  have hmid : ∀ i c, N.Midway Net.AnyEvent σ i c → ExecInv N.toGroup execute c.ledger := by
    intro i c hc
    obtain ⟨tr, hJ⟩ := hc.invariant (J := fun _ tr c => ExecutesInv N.toGroup execute tr c)
      (fun _ _ _ _ _ _ _ _ hi he _ hJ hm _ => executesInv_micro hexec hi he hJ hm) (hinv i)
    exact hJ.ledger
  obtain ⟨σ', hrun', hb⟩ := h.later
  refine ⟨fun i c hc id state hs => (hmid i c hc).pendingState hs, fun i v dest hmem => ?_,
    fun i c hc history fuel t q l' t' bs hq hp hmoved => ?_⟩
  · obtain ⟨hexecutes, hcommit⟩ := hvotes i v dest hmem
    obtain ⟨-, hsound⟩ := h.1.sound i (.vote v) (mem_signedLog.2 ⟨_, _, hmem, rfl⟩)
    obtain ⟨b, tc, hv⟩ := hsound v rfl
    rw [hv.id_eq] at hexecutes
    rw [hv.parentId_eq, hv.parentRound_eq, hv.round_eq] at hcommit
    refine ⟨b, hv.block, hv.id_eq.symm, hv.parentId_eq.symm, hexecutes, hcommit.imp_right ?_⟩
    rintro ⟨hstate, hnext⟩
    refine ⟨hstate, fun p hpb hpid => ?_⟩
    rw [hb.round_eq hv.qc hpb (by rw [hpid, parentID_eq])]
    exact (round_succ_iff hv.above).1 hnext
  · obtain ⟨hl', htop⟩ := ExecInv.processQC (hmid i c hc) hp
    obtain ⟨hc', htop⟩ := htop.resolve_left hmoved
    obtain ⟨j, m, hm, hinfo, hcinfo⟩ := hb.honest_vote hq (hq.round_ne_zero hc')
    obtain ⟨dest, hmem⟩ := vote_sent hm
    have hrep := ((executesInv_run hexec hrun').2 j m dest hmem).commit
    rw [hcinfo, hinfo] at hrep
    refine ⟨htop, ?_⟩
    rcases hrep with hzero | ⟨hstate, -⟩
    · have hbottom : commits q.ledgerCommitInfo = false := by
        rw [commits, hzero]
        rfl
      rw [hbottom] at hc'
      cases hc'
    · have hfront := hl'.top
      rw [htop] at hfront
      exact hfront.unique hstate

/-- The validator on its own votes for its second block: the vote reports the state of that block, and commits to that
of the first, which is another. -/
theorem solo_execution :
    ∃ σ b, Solo.net.Reached Net.AnyEvent σ ∧ (1, .vote (Solo.vote 2) 1) ∈ σ.trace ∧ b.id = (Solo.block 2).id ∧
      Solo.net.StateOf Solo.book.execute b.id (Solo.state 2) ∧
      Solo.net.StateOf Solo.book.execute (parentID b) (Solo.state 1) ∧ Solo.state 1 ≠ Solo.state 2 := by
  have hplay : Solo.book.playsIf 1 2 (fun _ _ => true) Solo.moves [] (fun _ => true)
      (fun σ => decide ((1, .vote (Solo.vote 2) 1) ∈ σ.trace)) = true := by decide +kernel
  obtain ⟨σ, hσ, htest⟩ := (Book.reachedIf hplay).2
  have hvote := of_decide_eq_true htest
  obtain ⟨-, hvotes, -⟩ := execution_agreement hσ (fun _ _ => rfl : ∀ i, Solo.net.Honest i → _ = Solo.book.execute)
  obtain ⟨b, -, hid, -, hexec, hcommit⟩ := hvotes 1 _ 1 hvote
  exact ⟨σ, b, hσ, hvote, hid, hexec, (hcommit.resolve_left (by decide)).1, by decide⟩

end Diem

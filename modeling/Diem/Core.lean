import Diem.Leader
/-!
# Core — the event loop (`core.go`, `events.go`)

A step takes an event to the next state and the list of everything it did outside: what it sent, what it committed, and
the signatures it made.  The only calls of `Sign` are in the four effects `vote`, `timeout`, `proposal` and `assembled`,
one each.  The observer and its snapshot are left out; nothing reads them back.
-/
namespace Diem

inductive Event where
  | proposal (m : ProposalMsg)
  | vote (m : VoteMsg)
  | timeout (m : TimeoutMsg)
  | localTimeout (epoch : UInt64)
  | block (b : Block)
  | blockRequest (id : Bytes)

/-- **What a step does outside the core**: the four transport calls, the answer to a block request, the `OnCommit`
callback, and a certificate put together from votes, whose signature set its author signs. -/
inductive Effect where
  | proposal (p : ProposalMsg)
  | vote (v : VoteMsg) (dest : UInt32)
  | timeout (m : TimeoutMsg)
  | requestBlock (id : Bytes)
  | reply (b : Option Block)
  | onCommit (b : Block)
  | assembled (qc : QuorumCert)
deriving DecidableEq

/-- **A step that is caught in a loop**, and what it had done outside by then. -/
structure Stuck where
  loop : Loop
  done : List Effect

structure Core where
  ledger    : MemLedger
  tree      : BlockTree
  safety    : Safety
  pacemaker : Pacemaker
  leaders   : LeaderElection
deriving DecidableEq

/-- `New`; none is its panic, on a ledger that forgets before the reputation walk is done. -/
def newCore (cr : Crypto) (cfg : Config) : Option Core :=
  if (cfg.history : Int) < cfg.window + cfg.exclude then none
  else some
    { ledger    := newMemLedger cr
      tree      := newBlockTree cr
      safety    := newSafety
      pacemaker := newPacemaker
      leaders   := newLeaderElection cfg }

theorem newCore_eq {cr : Crypto} {cfg : Config} {c : Core} (h : newCore cr cfg = some c) :
    c = { ledger := newMemLedger cr, tree := newBlockTree cr, safety := newSafety, pacemaker := newPacemaker
          leaders := newLeaderElection cfg } := by
  unfold newCore at h
  split at h
  · cases h
  · cases h; rfl

def maxRoundLead : UInt64 := 4

namespace Core

variable (cr : Crypto) (cfg : Config) (env : Env)

/-- The verifier Safety checks with; the edge of every replica of the group has the same one. -/
def verifier (cr : Crypto) (cfg : Config) : Verifier := ⟨cr, cfg.quorum⟩

def serveBlock (c : Core) (id : Bytes) : Option Block :=
  match c.tree.block id with
  | some b => some b
  | none   => c.ledger.committedBlock id

/-- `eff` happened before `r`. -/
def after {α : Type} (eff : List Effect) : Except Stuck (α × List Effect) → Except Stuck (α × List Effect)
  | .error s      => .error { s with done := eff ++ s.done }
  | .ok (a, eff') => .ok (a, eff ++ eff')

/-- What a step did outside, whether or not it returned. -/
def did : Except Stuck (Core × List Effect) → List Effect
  | .error s    => s.done
  | .ok (_, eff) => eff

/-- The core, whether the round moved, and what was committed.  The order matters: the election reads the round the
certificate arrived in. -/
def processCertificateQC (c : Core) : Option QuorumCert → Except Stuck ((Core × Bool) × List Effect)
  | none    => .ok ((c, false), [])
  | some qc =>
    match BlockTree.processQC cfg.history env.fuel c.ledger c.tree (some qc) with
    | .error e           => .error ⟨e, []⟩
    | .ok (l, t, blocks) =>
      match c.leaders.updateLeaders cr cfg env.fuel l c.pacemaker.currentRound qc with
      | .error e => .error ⟨e, blocks.map Effect.onCommit⟩
      | .ok e    =>
        let r := c.pacemaker.advanceRoundQC (some qc)
        .ok (({ c with ledger := l, tree := t, leaders := e, pacemaker := r.1 }, r.2), blocks.map Effect.onCommit)

/-- Proposes, if this replica leads the round it just entered. -/
def processNewRoundEvent (c : Core) (lastTC : Option TimeoutCert) : List Effect :=
  let round := c.pacemaker.currentRound
  if c.leaders.getLeader round ≠ cfg.id then []
  else
    let b := c.tree.generateBlock cr cfg.id env.txns round
    match sign env cfg.id b.id with
    | none     => []
    | some sig =>
      [.proposal
        { block        := some b
          lastRoundTc  := justifyingTC (qcRound b.qc) round lastTC
          highCommitQc := some c.tree.highCommitQC
          sender       := cfg.id
          sig          := sig }]

/-- Executes `b` and adds it to the tree; a block held for a parent asks every peer for the oldest one missing. -/
def insert (c : Core) (b : Block) : Except Stuck (Core × List Effect) :=
  let r := BlockTree.executeAndInsert cfg.execute c.ledger c.tree b
  match r.1.missing env.fuel b.id with
  | .error e => .error ⟨e, []⟩
  | .ok id   => .ok ({ c with ledger := r.1, tree := r.2 }, if id = default then [] else [.requestBlock id])

/-- The certificates every proposal and every timeout carries: its own, the commit certificate, and the TC. -/
def processCertificates (c : Core) (qc highCommitQc : Option QuorumCert) (tc : Option TimeoutCert) :
    Except Stuck (Core × List Effect) :=
  match processCertificateQC cr cfg env c qc with
  | .error s          => .error s
  | .ok ((c, _), eff) =>
    after eff (match processCertificateQC cr cfg env c highCommitQc with
      | .error s          => .error s
      | .ok ((c, _), eff) => .ok ({ c with pacemaker := (c.pacemaker.advanceRoundTC tc).1 }, eff))

/-- The half of `processProposalMsg` behind the leader check: insert the block, then vote. -/
def voteOn (c : Core) (block : Block) (lastTC : Option TimeoutCert) (round : UInt64) :
    Except Stuck (Core × List Effect) :=
  match insert cfg env c block with
  | .error s     => .error s
  | .ok (c, eff) =>
    let r := c.safety.makeVote (verifier cr cfg) env cfg.id c.ledger c.tree block lastTC
    .ok ({ c with safety := r.1 },
      eff ++ r.2.toList.map (fun vote => .vote vote (c.leaders.getLeader (round + 1))))

def processProposalMsg (c : Core) (p : ProposalMsg) : Except Stuck (Core × List Effect) :=
  let block := p.block.getD default
  match processCertificates cr cfg env c block.qc p.highCommitQc p.lastRoundTc with
  | .error s     => .error s
  | .ok (c, eff) =>
    let round  := c.pacemaker.currentRound
    let leader := c.leaders.getLeader round
    if block.round ≠ round ∨ p.sender ≠ leader ∨ block.author ≠ leader then .ok (c, eff)
    else after eff (voteOn cr cfg env c block p.lastRoundTc round)

def processTimeoutMsg (c : Core) (m : TimeoutMsg) : Except Stuck (Core × List Effect) :=
  match processCertificates cr cfg env c m.tmoInfo.highQc m.highCommitQc m.lastRoundTc with
  | .error s     => .error s
  | .ok (c, eff) =>
    let r := c.pacemaker.processRemoteTimeout (verifier cr cfg) env cfg.id cfg.faulty c.tree c.safety m
    let c := { c with pacemaker := r.1, safety := r.2.1 }
    let eff := eff ++ r.2.2.1.toList.map Effect.timeout
    match r.2.2.2 with
    | none    => .ok (c, eff)
    | some tc =>
      let c := { c with pacemaker := (c.pacemaker.advanceRoundTC (some tc)).1 }
      .ok (c, eff ++ processNewRoundEvent cr cfg env c (some tc))

def processVoteMsg (c : Core) (m : VoteMsg) : Except Stuck (Core × List Effect) :=
  let round   := m.voteInfo.round
  let current := c.pacemaker.currentRound
  if current + maxRoundLead < round ∨ round + 1 < current then .ok (c, [])
  else match BlockTree.processVote cr cfg.history env cfg.id cfg.quorum c.ledger c.tree m with
    | .error e               => .error ⟨e, []⟩
    | .ok (l, t, blocks, qc) =>
      let c := { c with ledger := l, tree := t }
      let eff := blocks.map Effect.onCommit
      match qc with
      | none    => .ok (c, eff)
      | some qc =>
        after (eff ++ [.assembled qc]) (match processCertificateQC cr cfg env c (some qc) with
          | .error s              => .error s
          -- a late certificate for a round already left on a TC fires no new-round event
          | .ok ((c, moved), eff) => .ok (c, if moved then eff ++ processNewRoundEvent cr cfg env c none else eff))

def localTimeoutRound (c : Core) : Core × List Effect :=
  let r := c.pacemaker.localTimeoutRound (verifier cr cfg) env cfg.id c.tree c.safety
  ({ c with pacemaker := r.1, safety := r.2.1 }, r.2.2.toList.map Effect.timeout)

/-- Enters round 1 on the genesis certificate and arms the round timer. -/
def start (c : Core) : Core × List Effect :=
  let c := { c with pacemaker := (c.pacemaker.advanceRoundQC (some (genesisQC cr))).1 }
  (c, processNewRoundEvent cr cfg env c none)

def stop (c : Core) : Core := { c with pacemaker := c.pacemaker.stop }

def step (c : Core) : Event → Except Stuck (Core × List Effect)
  | .proposal m         => processProposalMsg cr cfg env c m
  | .vote m             => processVoteMsg cr cfg env c m
  | .timeout m          => processTimeoutMsg cr cfg env c m
  | .localTimeout epoch => if epoch = c.pacemaker.epoch then .ok (localTimeoutRound cr cfg env c) else .ok (c, [])
  | .block b            => insert cfg env c b
  | .blockRequest id    => .ok (c, [.reply (c.serveBlock id)])

/-! ## Steps taken apart -/

variable {cr cfg env}

theorem after_ok {α : Type} {eff eff' : List Effect} {r : Except Stuck (α × List Effect)} {a : α}
    (h : after eff r = .ok (a, eff')) : ∃ eff'', r = .ok (a, eff'') ∧ eff' = eff ++ eff'' := by
  cases r with
  | error s => cases h
  | ok r => cases h; exact ⟨_, rfl, rfl⟩

theorem after_error {α : Type} {eff : List Effect} {r : Except Stuck (α × List Effect)} {s : Stuck}
    (h : after eff r = .error s) : ∃ s', r = .error s' ∧ s.done = eff ++ s'.done := by
  cases r with
  | error s' => cases h; exact ⟨s', rfl, rfl⟩
  | ok r => cases h

/-- **A certificate that arrived**: tree and ledger, then the election, then the round. -/
theorem processCertificateQC_ok {c c' : Core} {qc : QuorumCert} {moved : Bool} {eff : List Effect}
    (h : processCertificateQC cr cfg env c (some qc) = .ok ((c', moved), eff)) :
    ∃ l t bs e, BlockTree.processQC cfg.history env.fuel c.ledger c.tree (some qc) = .ok (l, t, bs) ∧
      c.leaders.updateLeaders cr cfg env.fuel l c.pacemaker.currentRound qc = .ok e ∧
      c' = { c with ledger := l, tree := t, leaders := e, pacemaker := (c.pacemaker.advanceRoundQC (some qc)).1 } ∧
      moved = (c.pacemaker.advanceRoundQC (some qc)).2 ∧ eff = bs.map Effect.onCommit := by
  rw [processCertificateQC] at h
  split at h
  · cases h
  · rename_i l t bs hq
    split at h
    · cases h
    · rename_i e he
      cases h
      exact ⟨l, t, bs, e, hq, he, rfl, rfl, rfl⟩

/-- **A certificate that got stuck**: in `Commit`, before anything was done, or in the election, after its commits. -/
theorem processCertificateQC_error {c : Core} {qc : Option QuorumCert} {s : Stuck}
    (h : processCertificateQC cr cfg env c qc = .error s) :
    ∃ q, qc = some q ∧
      ((BlockTree.processQC cfg.history env.fuel c.ledger c.tree (some q) = .error s.loop ∧ s.done = []) ∨ ∃ l t bs,
        BlockTree.processQC cfg.history env.fuel c.ledger c.tree (some q) = .ok (l, t, bs) ∧
        c.leaders.updateLeaders cr cfg env.fuel l c.pacemaker.currentRound q = .error s.loop ∧
        s.done = bs.map Effect.onCommit) := by
  cases qc with
  | none => cases h
  | some q =>
    refine ⟨q, rfl, ?_⟩
    rw [processCertificateQC] at h
    split at h
    · rename_i e hq
      cases h
      exact .inl ⟨hq, rfl⟩
    · rename_i l t bs hq
      split at h
      · rename_i e he
        cases h
        exact .inr ⟨l, t, bs, hq, he, rfl⟩
      · cases h

/-- **The certificates of a message**: one after the other, then the TC. -/
theorem processCertificates_ok {c c' : Core} {qc highCommitQc : Option QuorumCert} {tc : Option TimeoutCert}
    {eff : List Effect} (h : processCertificates cr cfg env c qc highCommitQc tc = .ok (c', eff)) :
    ∃ c₁ moved₁ eff₁ c₂ moved₂ eff₂, processCertificateQC cr cfg env c qc = .ok ((c₁, moved₁), eff₁) ∧
      processCertificateQC cr cfg env c₁ highCommitQc = .ok ((c₂, moved₂), eff₂) ∧
      c' = { c₂ with pacemaker := (c₂.pacemaker.advanceRoundTC tc).1 } ∧ eff = eff₁ ++ eff₂ := by
  rw [processCertificates] at h
  split at h
  · cases h
  · rename_i c₁ moved₁ eff₁ h₁
    obtain ⟨eff₂, h₂, rfl⟩ := after_ok h
    split at h₂
    · cases h₂
    · rename_i c₂ moved₂ eff₂ h₃
      cases h₂
      exact ⟨c₁, moved₁, eff₁, c₂, moved₂, _, h₁, h₃, rfl, rfl⟩

theorem insert_ok {c c' : Core} {b : Block} {eff : List Effect} (h : insert cfg env c b = .ok (c', eff)) :
    c' = { c with ledger := (c.ledger.speculate cfg.execute b).1,
                  tree := { c.tree with pending := c.tree.pending.insert b.id b } } ∧
    (eff = [] ∨ ∃ id, eff = [.requestBlock id]) := by
  rw [insert] at h
  split at h
  · cases h
  · rename_i id hid
    cases h
    refine ⟨rfl, ?_⟩
    split
    · exact .inl rfl
    · exact .inr ⟨id, rfl⟩

/-- **A proposal, if there is one, is for the round just entered, over the highest certificate.** -/
theorem mem_processNewRoundEvent {c : Core} {tc : Option TimeoutCert} {x : Effect}
    (h : x ∈ processNewRoundEvent cr cfg env c tc) :
    ∃ sig, sign env cfg.id (c.tree.generateBlock cr cfg.id env.txns c.pacemaker.currentRound).id = some sig ∧
      x = .proposal
        { block        := some (c.tree.generateBlock cr cfg.id env.txns c.pacemaker.currentRound)
          lastRoundTc  := justifyingTC c.tree.highQC.voteInfo.round c.pacemaker.currentRound tc
          highCommitQc := some c.tree.highCommitQC
          sender       := cfg.id
          sig          := sig } := by
  simp only [processNewRoundEvent] at h
  split at h
  · cases h
  · split at h
    · cases h
    · rename_i sig hs
      rw [List.mem_singleton] at h
      exact ⟨sig, hs, h⟩

end Core

end Diem

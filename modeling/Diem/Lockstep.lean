import Diem.Lapse
import Diem.Replica
/-!
# Lockstep — rounds that succeed and rounds that lapse

What safety rules out says nothing of what happens.  Here the replicas that are up go through the rounds together.  In a
round that succeeds all hear the proposal, and the leader of the next round hears the votes of some quorum first, in any
order; in a round that lapses every timer fires, and each replica hears the timeouts of some quorum, its own choice, in
any order.  Successes and lapses may come as they will.  Then every proposal is voted for by all that are up, every
quorum is answered, and what each has committed is told by which rounds succeeded: a certified block is committed once
it, or one above it, is certified in two successive rounds.

Within a round the replicas do not agree: the one that put the certificate together has processed it and the others have
not.  They agree again when all have stepped on the proposal that carries it.
-/
namespace Diem

/-! ## The commit rule -/

/-- Two successive rounds from the block's on are certified. -/
def settles (certs : List Block) (b : Block) : Bool :=
  certs.any (fun x => decide (b.round.toNat ≤ x.round.toNat) && certs.any (fun y => y.round.toNat == x.round.toNat + 1))

/-- **What is committed of the certified blocks.** -/
def settledBlocks (certs : List Block) : List Block := certs.filter (settles certs)

theorem settles_iff {certs : List Block} {b : Block} : settles certs b = true ↔
    ∃ x ∈ certs, b.round.toNat ≤ x.round.toNat ∧ ∃ y ∈ certs, y.round.toNat = x.round.toNat + 1 := by
  simp [settles, List.any_eq_true]

section

variable {certs : List Block} {b : Block} {n : Nat}

/-- Nothing above the last block is certified. -/
theorem settles_last (hle : ∀ x ∈ certs, x.round.toNat ≤ n) (hb : n < b.round.toNat) :
    settles (certs ++ [b]) b = false := by
  have hle' : ∀ x ∈ certs ++ [b], x.round.toNat ≤ b.round.toNat := by
    intro x hx
    rcases List.mem_append.1 hx with hx | hx
    · exact Nat.le_of_lt (Nat.lt_of_le_of_lt (hle x hx) hb)
    · rw [List.mem_singleton.1 hx]
  rw [← Bool.not_eq_true, settles_iff]
  rintro ⟨x, hx, hlow, y, hy, hnext⟩
  have hyle := hle' y hy
  omega

/-- **A block right above the last one** settles all below it. -/
theorem settledBlocks_next (hle : ∀ x ∈ certs, x.round.toNat ≤ n) (htop : certs ≠ [] → ∃ x ∈ certs, x.round.toNat = n)
    (hb : b.round.toNat = n + 1) : settledBlocks (certs ++ [b]) = certs := by
  have hall : certs.filter (settles (certs ++ [b])) = certs := by
    rw [List.filter_eq_self]
    intro z hz
    obtain ⟨x, hx, hround⟩ := htop (List.ne_nil_of_mem hz)
    exact settles_iff.2 ⟨x, List.mem_append_left _ hx, by rw [hround]; exact hle z hz, b,
      List.mem_append_right _ List.mem_cons_self, by rw [hround]; exact hb⟩
  rw [settledBlocks, List.filter_append, hall, List.filter_singleton, settles_last hle (by omega)]
  exact List.append_nil _

/-- **A block over a gap** settles nothing. -/
theorem settledBlocks_gap (hle : ∀ x ∈ certs, x.round.toNat ≤ n) (hb : n + 1 < b.round.toNat) :
    settledBlocks (certs ++ [b]) = settledBlocks certs := by
  have hsame : certs.filter (settles (certs ++ [b])) = certs.filter (settles certs) := by
    refine List.filter_congr (fun z _ => ?_)
    rw [Bool.eq_iff_iff, settles_iff, settles_iff]
    constructor
    · rintro ⟨x, hx, hlow, y, hy, hnext⟩
      -- neither of the two successive rounds is that of the new block
      rcases List.mem_append.1 hx with hx | hx
      · rcases List.mem_append.1 hy with hy | hy
        · exact ⟨x, hx, hlow, y, hy, hnext⟩
        · rw [List.mem_singleton.1 hy] at hnext
          have hxle := hle x hx
          omega
      · rw [List.mem_singleton.1 hx] at hnext
        rcases List.mem_append.1 hy with hy | hy
        · have hyle := hle y hy
          omega
        · rw [List.mem_singleton.1 hy] at hnext
          omega
    · rintro ⟨x, hx, hlow, y, hy, hnext⟩
      exact ⟨x, List.mem_append_left _ hx, hlow, y, List.mem_append_left _ hy, hnext⟩
  rw [settledBlocks, List.filter_append, hsame, List.filter_singleton, settles_last hle (by omega)]
  exact List.append_nil _

end

/-- **Certified blocks are committed or on the pending path**, and the last of them is that of the highest certificate.
-/
structure Accounts (certs : List Block) (chain : List Speculated) (q : QuorumCert) : Prop where
  split : settledBlocks certs ++ chain.map Speculated.block = certs
  le    : ∀ b ∈ certs, b.round.toNat ≤ q.voteInfo.round.toNat
  top   : certs ≠ [] → ∃ b ∈ certs, b.round.toNat = q.voteInfo.round.toNat

/-- A certificate more: the rule settles what the ledger commits. -/
theorem Accounts.certify {certs : List Block} {chain : List Speculated} {q q' : QuorumCert} {k : UInt64}
    {x : Speculated} (h : Accounts certs chain q) (hlt : q.voteInfo.round < k) (hx : x.block.round = k)
    (hq' : q'.voteInfo.round = k) (history : Nat) (l : MemLedger) :
    Accounts (certs ++ [x.block]) (nextChain k q chain x) q' ∧
      settledBlocks (certs ++ [x.block]) = settledBlocks certs ++ (l.certified history k q chain).2 := by
  have hlt' := UInt64.lt_iff_toNat_lt.1 hlt
  have hkey : settledBlocks (certs ++ [x.block]) = settledBlocks certs ++ (l.certified history k q chain).2 ∧
      settledBlocks (certs ++ [x.block]) ++ (nextChain k q chain x).map Speculated.block = certs ++ [x.block] := by
    unfold MemLedger.certified nextChain
    by_cases hnext : q.voteInfo.round + 1 = k
    · have hround : x.block.round.toNat = q.voteInfo.round.toNat + 1 := by
        rw [hx, ← hnext, UInt64.toNat_add]
        rw [← hnext, UInt64.toNat_add] at hlt'
        have hmod : (q.voteInfo.round.toNat + 1) % 2 ^ 64 = q.voteInfo.round.toNat + 1 := by
          have hbig : q.voteInfo.round.toNat < (q.voteInfo.round.toNat + 1) % 2 ^ 64 := hlt'
          omega
        exact hmod
      have hpath : (l.settle history chain).2 = chain.map Speculated.block := by
        unfold MemLedger.settle
        split
        · rename_i hempty
          rw [List.isEmpty_iff.1 hempty]
          rfl
        · rfl
      rw [if_pos hnext, if_pos hnext, settledBlocks_next h.le h.top hround, hpath]
      exact ⟨h.split.symm, rfl⟩
    · have hround : q.voteInfo.round.toNat + 1 < x.block.round.toNat := by
        have hne : q.voteInfo.round.toNat + 1 ≠ k.toNat := fun heq => hnext (UInt64.toNat_inj.1 (by
          rw [UInt64.toNat_add]
          have hbig := k.toNat_lt
          exact (by omega : (q.voteInfo.round.toNat + 1) % 2 ^ 64 = k.toNat)))
        rw [hx]
        omega
      rw [if_neg hnext, if_neg hnext, settledBlocks_gap h.le hround, List.map_append, ← List.append_assoc, h.split]
      exact ⟨(List.append_nil _).symm, rfl⟩
  refine ⟨⟨hkey.2, fun b hb => ?_, fun _ => ⟨x.block, List.mem_append_right _ List.mem_cons_self, by rw [hx, hq']⟩⟩,
    hkey.1⟩
  rw [hq']
  rcases List.mem_append.1 hb with hb | hb
  · have hble := h.le b hb
    omega
  · rw [List.mem_singleton.1 hb, hx]

/-! ## Runs -/

/-- **What the replicas have in common**: their configuration, in which no state is the bottom that marks a vote that
commits nothing. -/
structure Net.Uniform (N : Net) (cfg : Config) (live : List UInt32) : Prop where
  config  : ∀ i ∈ live, N.config i = { cfg with id := i }
  execute : ∀ prev payload, cfg.execute prev payload ≠ zeroHash
  genesis : executeHash N.crypto zeroHash default ≠ zeroHash

/-- **A run in lockstep**, in round `r`, with the blocks certified so far; once its block was voted for the round has
one. A live leader's proposal is heard by all; a quorum of the votes that were sent to it makes the next leader propose,
and all hear that; or every timer fires, and each replica hears a quorum of the timeouts sent. -/
inductive Net.Lockstep (N : Net) (live : List UInt32) :
    UInt64 → Option Block → List Block → (UInt32 → Core) → (UInt32 → List Effect) → Prop
  | start (env : UInt32 → Env) (new : UInt32 → Core)
      (hnew : ∀ i ∈ live, newCore N.crypto (N.config i) = some (new i) ∧ ∀ d, ((env i).sign d).isSome = true) :
      Lockstep N live 1 none [] (fun i => ((new i).start N.crypto (N.config i) (env i)).1)
        (fun i => ((new i).start N.crypto (N.config i) (env i)).2)
  | propose {r : UInt64} {certs : List Block} {core : UInt32 → Core} {tr : UInt32 → List Effect}
      (leader : UInt32) (p : ProposalMsg) (b : Block) (core' : UInt32 → Core) (eff : UInt32 → List Effect)
      (h : Lockstep N live r none certs core tr) (hroom : r.toNat + 4 < 2 ^ 64) (hleader : leader ∈ live)
      (hp : .proposal p ∈ tr leader) (hb : p.block = some b) (hround : b.round = r)
      (hheard : ∀ i ∈ live, N.Turned i (.proposal p) (core i) (core' i) (eff i)) :
      Lockstep N live r (some b) certs core' (fun i => tr i ++ eff i)
  | certify {r : UInt64} {b : Block} {certs : List Block} {core : UInt32 → Core} {tr : UInt32 → List Effect}
      (leader : UInt32) (votes : List VoteMsg) (c : Core) (out : List Effect) (p : ProposalMsg) (b' : Block)
      (core' : UInt32 → Core) (eff : UInt32 → List Effect)
      (h : Lockstep N live r (some b) certs core tr) (hroom : r.toNat + 4 < 2 ^ 64) (hleader : leader ∈ live)
      (hvotes : ∀ v ∈ votes, v.voteInfo.round = r ∧ ∃ i ∈ live, .vote v leader ∈ tr i)
      (hnodup : (votes.map VoteMsg.sender).Nodup) (hquorum : votes.length = N.verifier.quorum)
      (hears : N.Hears leader (votes.map Event.vote) (core leader) c out)
      (hp : .proposal p ∈ out) (hb : p.block = some b')
      (hheard : ∀ i ∈ live, N.Turned i (.proposal p) (Function.update core leader c i) (core' i) (eff i)) :
      Lockstep N live (r + 1) (some b') (certs ++ [b]) core'
      (fun i => (tr i ++ if i = leader then out else []) ++ eff i)
  | lapse {r : UInt64} {b : Option Block} {certs : List Block} {core : UInt32 → Core} {tr : UInt32 → List Effect}
      (fired : UInt32 → Core) (out : UInt32 → List Effect) (ms : UInt32 → List TimeoutMsg) (core' : UInt32 → Core)
      (eff : UInt32 → List Effect) (h : Lockstep N live r b certs core tr) (hroom : r.toNat + 4 < 2 ^ 64)
      (hfired : ∀ i ∈ live, N.Turned i (.localTimeout (core i).pacemaker.epoch) (core i) (fired i) (out i))
      (hms : ∀ i ∈ live, (∀ m ∈ ms i, ∃ j ∈ live, .timeout m ∈ out j) ∧
        ((ms i).map (fun m => m.tmoInfo.sender)).Nodup ∧ (ms i).length = N.verifier.quorum)
      (hears : ∀ i ∈ live, N.Hears i ((ms i).map Event.timeout) (fired i) (core' i) (eff i)) :
      Lockstep N live (r + 1) none certs core' (fun i => tr i ++ (out i ++ eff i))

/-- **What the replicas agree on** in round `r`. -/
structure Net.InStep (N : Net) (cfg : Config) (live : List UInt32) (r : UInt64) (certs : List Block)
    (core : UInt32 → Core) (tr : UInt32 → List Effect) (q hc : QuorumCert) (chain : List Speculated) (l : MemLedger)
    (roll : UInt64 → Option UInt32) : Prop where
  ready     : N.Ready r q hc chain l
  level     : ∀ i ∈ live, N.Level r q hc l roll [] (core i)
  poised    : ∀ i ∈ live, N.Poised r q [] (core i).pacemaker (core i).safety
  verified  : N.verifier.verifyQC (some q) = true
  elected   : N.Elected cfg l r q roll
  commits   : ∀ i ∈ live, committedBlocks (tr i) = settledBlocks certs
  accounts  : Accounts certs chain q
  proposals : ∀ i ∈ live, ∀ p b, .proposal p ∈ tr i → p.block = some b → b.round ≤ r
  votes     : ∀ i ∈ live, ∀ v d, .vote v d ∈ tr i → v.voteInfo.round ≤ r

/-- The round has just been entered: its leader, if it is up, has proposed, and nobody has voted. -/
structure Net.Waits (N : Net) (live : List UInt32) (r : UInt64) (core : UInt32 → Core) (tr : UInt32 → List Effect)
    (q hc : QuorumCert) (roll : UInt64 → Option UInt32) : Prop where
  voted    : ∀ i ∈ live, (core i).safety.highestVoteRound < r
  votes    : ∀ i ∈ live, ∀ v d, .vote v d ∈ tr i → v.voteInfo.round < r
  led      : ∀ i ∈ live, ∀ p b, .proposal p ∈ tr i → p.block = some b → b.round = r →
               N.leads roll r = i ∧ p.Over r q hc i b
  proposed : ∀ i ∈ live, N.leads roll r = i → ∃ p b, .proposal p ∈ tr i ∧ p.Over r q hc i b

/-- Its block has been executed and voted for by all, for the leader of the next round to count. -/
structure Net.Balloted (N : Net) (live : List UInt32) (r : UInt64) (tr : UInt32 → List Effect) (q hc : QuorumCert)
    (chain : List Speculated) (l : MemLedger) (roll : UInt64 → Option UInt32) (b : Block) : Prop where
  executed : ∃ s, N.Executed r q hc chain ⟨b, s⟩ l
  voted    : ∀ i ∈ live, ∃ v, v.For (l.content N.crypto b) hc i ∧ .vote v (N.leads roll (r + 1)) ∈ tr i
  votes    : ∀ i ∈ live, ∀ v d, .vote v d ∈ tr i → v.voteInfo.round < r ∨
               v.For (l.content N.crypto b) hc i ∧ d = N.leads roll (r + 1)

/-- **What the proposal of the round does to a replica**: the election is held, the block is executed, and it is voted
for. `bs` are the blocks committed before. -/
def Net.Voted (N : Net) (cfg : Config) (k : UInt64) (q hc : QuorumCert) (l : MemLedger) (roll : UInt64 → Option UInt32)
    (b : Block) (i : UInt32) (bs : List Block) (c : Core) (eff : List Effect) : Prop :=
  ∃ roll', LeaderElection.Elects N.crypto cfg l k q roll roll' ∧
    N.Level k q hc (l.speculate cfg.execute b).1 roll' [] c ∧ N.Poised k q [] c.pacemaker c.safety ∧
    ∃ v, v.For ((l.speculate cfg.execute b).1.content N.crypto b) hc i ∧
      eff = bs.map Effect.onCommit ++ [.vote v (N.leads roll' (k + 1))]

section

variable {N : Net} {cfg : Config} {live : List UInt32} {k : UInt64} {q hc : QuorumCert} {l : MemLedger}
  {roll : UInt64 → Option UInt32} {leader i : UInt32} {b : Block} {p : ProposalMsg} {c c' c₁ : Core}
  {eff out : List Effect} {chain : List Speculated} {x : Speculated} {env : Env}

theorem succ_ne_of_room (hroom : k.toNat + 4 < 2 ^ 64) : k + 1 ≠ k + 1 + 1 := by
  refine UInt64.ne_of_lt (UInt64.lt_iff_toNat_lt.2 ?_)
  rw [UInt64.toNat_add, UInt64.toNat_add]
  exact (by omega : (k.toNat + 1) % 2 ^ 64 < ((k.toNat + 1) % 2 ^ 64 + 1) % 2 ^ 64)

/-- The block is voted for once the certificates of its proposal are processed. -/
theorem Net.Level.cast (hu : N.Uniform cfg live) (hi : i ∈ live) {roll' : UInt64 → Option UInt32}
    (h₁ : c.processCertificates N.crypto (N.config i) env (some q) (some hc) p.lastRoundTc = .ok (c₁, out))
    (hlevel : N.Level k q hc l roll' [] c₁) (hpoised : N.Poised k q [] c₁.pacemaker c₁.safety)
    (hready : N.Ready k q hc chain l) (helects : LeaderElection.Elects N.crypto (N.config i) l k q roll roll')
    (hk : k ≠ k + 1) (hlead : N.leads roll k = leader) (hvoted : c₁.safety.highestVoteRound < k)
    (hp : p.Over k q hc leader b) (he : N.Admits (.proposal p)) (hsign : ∀ d, (env.sign d).isSome = true)
    (hs : c.step N.crypto (N.config i) env (.proposal p) = .ok (c', eff)) {bs : List Block}
    (hout : out = bs.map Effect.onCommit) : N.Voted cfg k q hc l roll b i bs c' eff := by
  have hexec : ∀ prev payload, (N.config i).execute prev payload ≠ zeroHash := by
    rw [hu.config i hi]
    exact hu.execute
  obtain ⟨hlevel', hpace, hvoted', hqcs, v, hv, heff⟩ :=
    hlevel.votes h₁ hready hvoted hexec hp he ((helects.leader_eq hk _).trans hlead) hsign hs
  have hpoised' : N.Poised k q [] c'.pacemaker c'.safety := by
    rw [hpace]
    refine hpoised.congr rfl rfl (fun _ _ => rfl) (by rw [hvoted']; exact UInt64.le_rfl) ?_
    rw [hqcs, UInt64.le_iff_toNat_le, UInt64.toNat_max]
    exact Nat.max_le.2 ⟨Nat.le_refl _, UInt64.le_iff_toNat_le.1 hpoised.qcs⟩
  rw [hout] at heff
  rw [hu.config i hi] at helects hlevel' hv
  exact ⟨roll', helects, hlevel', hpoised', v, hv, heff⟩

/-- A proposal after its certificate. -/
theorem Net.Level.hear (hu : N.Uniform cfg live) (hi : i ∈ live) (h : N.Level k q hc l roll [] c)
    (hpoised : N.Poised k q [] c.pacemaker c.safety) (hready : N.Ready k q hc chain l) (hk : k ≠ k + 1)
    (hlead : N.leads roll k = leader) (hvoted : c.safety.highestVoteRound < k) (hp : p.Over k q hc leader b)
    (ht : N.Turned i (.proposal p) c c' eff) : N.Voted cfg k q hc l roll b i [] c' eff := by
  obtain ⟨he, env, hsign, hs⟩ := ht
  obtain ⟨c₁, out, h₁⟩ := certificates hp hs
  obtain ⟨roll', helects, hlevel, hkept, rfl⟩ := h.certificates_again hready hp.lastRoundTc.late h₁
  exact cast hu hi h₁ hlevel (hkept.poised hpoised) hready helects hk hlead
    (by rw [hkept.1]; exact hvoted) hp he hsign hs rfl

/-- A proposal that brings the certificate. -/
theorem Net.Level.hear_enter (hu : N.Uniform cfg live) (hi : i ∈ live) (h : N.Level k q hc l roll [] c)
    (hpoised : N.Poised k q [] c.pacemaker c.safety) (hexec : N.Executed k q hc chain x l)
    {q' : QuorumCert} {b' : Block} (hq' : q'.Certifies k q x.block) (hroom : k.toNat + 4 < 2 ^ 64)
    (hlead : N.leads roll (k + 1) = leader) (hp : p.Over (k + 1) q' (nextCommitQC k q hc q') leader b')
    (ht : N.Turned i (.proposal p) c c' eff) :
    N.Voted cfg (k + 1) q' (nextCommitQC k q hc q') (l.certified cfg.history k q chain).1 roll b' i
      (l.certified cfg.history k q chain).2 c' eff := by
  obtain ⟨he, env, hsign, hs⟩ := ht
  obtain ⟨c₁, out, h₁⟩ := certificates hp hs
  have hk := lt_succ_of_room hroom
  have hhistory : (N.config i).history = cfg.history := by rw [hu.config i hi]
  obtain ⟨roll', helects, hlevel, hmoved, hout⟩ := h.certificates_enter hexec hq' hk hp.lastRoundTc.late h₁
  rw [hhistory] at helects hlevel hout
  have hvoted : c₁.safety.highestVoteRound < k + 1 := by
    rw [hmoved.1]
    exact UInt64.lt_of_le_of_lt hpoised.voted hk
  exact cast hu hi h₁ hlevel (hmoved.poised hpoised hk hexec.highQC.lt hq'.round)
    (hexec.certified cfg.history hk hq') helects
    (succ_ne_of_room hroom) hlead hvoted hp he hsign hs hout

/-- The steps on the proposal return. -/
theorem Net.Level.hear_returns (h : N.Level k q hc l roll [] c) (hready : N.Ready k q hc chain l)
    (hp : p.Over k q hc leader b) (hfuel : k.toNat ≤ env.fuel) :
    ∃ c' eff, c.step N.crypto (N.config i) env (.proposal p) = .ok (c', eff) := by
  obtain ⟨⟨c₁, out⟩, h₁⟩ := h.certificates_again_returns (i := i) hready p.lastRoundTc hfuel
  obtain ⟨roll', -, hlevel, -⟩ := h.certificates_again hready hp.lastRoundTc.late h₁
  obtain ⟨⟨c', eff⟩, hs⟩ := hlevel.proposal_returns h₁ hready hp
  exact ⟨c', eff, hs⟩

theorem Net.Level.hear_enter_returns (h : N.Level k q hc l roll [] c) (hexec : N.Executed k q hc chain x l)
    {q' : QuorumCert} {b' : Block} (hq' : q'.Certifies k q x.block) (hk : k < k + 1)
    (hp : p.Over (k + 1) q' (nextCommitQC k q hc q') leader b') (hfuel : (k + 1).toNat ≤ env.fuel) :
    ∃ c' eff, c.step N.crypto (N.config i) env (.proposal p) = .ok (c', eff) := by
  obtain ⟨⟨c₁, out⟩, h₁⟩ := h.certificates_enter_returns (i := i) hexec hq' hk p.lastRoundTc hfuel
  obtain ⟨roll', -, hlevel, -⟩ := h.certificates_enter hexec hq' hk hp.lastRoundTc.late h₁
  obtain ⟨⟨c', eff⟩, hs⟩ := hlevel.proposal_returns h₁ (hexec.certified _ hk hq') hp
  exact ⟨c', eff, hs⟩

end

/-! ## What a run keeps -/

section

variable {N : Net} {cfg : Config} {live : List UInt32} {k r : UInt64} {q hc : QuorumCert} {l : MemLedger}
  {roll : UInt64 → Option UInt32} {leader i : UInt32} {b : Block} {p : ProposalMsg} {c : Core} {out : List Effect}
  {chain : List Speculated} {certs : List Block} {core core' : UInt32 → Core} {tr eff : UInt32 → List Effect}

theorem committedBlocks_append (x y : List Effect) :
    committedBlocks (x ++ y) = committedBlocks x ++ committedBlocks y :=
  List.filterMap_append

theorem committedBlocks_onCommit (bs : List Block) : committedBlocks (bs.map Effect.onCommit) = bs := by
  rw [committedBlocks, List.filterMap_map]
  exact List.filterMap_some

/-- **When all have heard the proposal, they agree.** -/
theorem Net.InStep.of_voted (hu : N.Uniform cfg live) (hlive : leader ∈ live) (hready : N.Ready k q hc chain l)
    (hp : p.Over k q hc leader b) (he : N.Admits (.proposal p)) {bs : UInt32 → List Block}
    (hvoted : ∀ i ∈ live, N.Voted cfg k q hc l roll b i (bs i) (core i) (eff i))
    (hvotes : ∀ i ∈ live, ∀ v d, .vote v d ∈ tr i → v.voteInfo.round < k)
    (hproposals : ∀ i ∈ live, ∀ p b, .proposal p ∈ tr i → p.block = some b → b.round ≤ k)
    (hlog : ∀ i ∈ live, committedBlocks (tr i) ++ bs i = settledBlocks certs) (haccounts : Accounts certs chain q) :
    ∃ l' roll', N.InStep cfg live k certs core (fun i => tr i ++ eff i) q hc chain l' roll' ∧
      N.Balloted live k (fun i => tr i ++ eff i) q hc chain l' roll' b := by
  obtain ⟨roll', helects, -⟩ := hvoted leader hlive
  -- the election is the same at each
  have hvoted' : ∀ i ∈ live, N.Level k q hc (l.speculate cfg.execute b).1 roll' [] (core i) ∧
      N.Poised k q [] (core i).pacemaker (core i).safety ∧
      ∃ v, v.For ((l.speculate cfg.execute b).1.content N.crypto b) hc i ∧
        eff i = (bs i).map Effect.onCommit ++ [.vote v (N.leads roll' (k + 1))] := by
    intro i hi
    obtain ⟨roll'', helects', hrest⟩ := hvoted i hi
    rw [helects.unique helects']
    exact hrest
  have hsent : ∀ i ∈ live, ∀ y ∈ eff i, (∃ b, y = .onCommit b) ∨
      ∃ v, v.For ((l.speculate cfg.execute b).1.content N.crypto b) hc i ∧ y = .vote v (N.leads roll' (k + 1)) := by
    intro i hi y hy
    obtain ⟨-, -, v, hv, heff⟩ := hvoted' i hi
    rw [heff] at hy
    rcases List.mem_append.1 hy with hy | hy
    · obtain ⟨b, -, rfl⟩ := List.mem_map.1 hy
      exact .inl ⟨b, rfl⟩
    · exact .inr ⟨v, hv, List.mem_singleton.1 hy⟩
  have hcast : ∀ i ∈ live, ∀ v d, .vote v d ∈ tr i ++ eff i → v.voteInfo.round < k ∨
      v.For ((l.speculate cfg.execute b).1.content N.crypto b) hc i ∧ d = N.leads roll' (k + 1) := by
    intro i hi v d hv
    rcases List.mem_append.1 hv with hv | hv
    · exact .inl (hvotes i hi v d hv)
    · obtain ⟨_, hcontra⟩ | ⟨v', hv', heq⟩ := hsent i hi _ hv
      · cases hcontra
      · cases heq
        exact .inr ⟨hv', rfl⟩
  obtain ⟨s, hexec⟩ := hready.insert (he.isBlock (.inr ⟨p, rfl, hp.block⟩)) hp.round hp.qc hu.execute
  have hverified : N.verifier.verifyQC (some q) = true := by
    rw [← hp.qc]
    exact (he.proposed hp.block).2.1.1
  have hcommitted : (l.speculate cfg.execute b).1.committed = l.committed := by
    obtain ⟨prev, hprev, -⟩ := hready.state
    rw [← Group.Ready.parentID_eq hp.qc] at hprev
    rw [MemLedger.speculate_bare cfg.execute hready.held hprev]
  refine ⟨_, roll', ⟨hexec.toReady, fun i hi => (hvoted' i hi).1, fun i hi => (hvoted' i hi).2.1, hverified,
    fun roll'' h => helects.again (h.congr hcommitted), fun i hi => ?_, haccounts, fun i hi p' b' hp' hb' => ?_,
    fun i hi v d hv => ?_⟩, ⟨⟨s, hexec⟩, fun i hi => ?_, hcast⟩⟩
  · obtain ⟨-, -, v, -, heff⟩ := hvoted' i hi
    rw [heff, committedBlocks_append, committedBlocks_append, committedBlocks_onCommit, ← hlog i hi]
    exact congrArg _ (List.append_nil _)
  · rcases List.mem_append.1 hp' with hp' | hp'
    · exact hproposals i hi p' b' hp' hb'
    · obtain ⟨_, hcontra⟩ | ⟨_, -, hcontra⟩ := hsent i hi _ hp'
      · cases hcontra
      · cases hcontra
  · rcases hcast i hi v d hv with hlt | ⟨hfor, -⟩
    · exact UInt64.le_of_lt hlt
    · exact UInt64.le_of_eq (hfor.round.trans hp.round)
  · obtain ⟨-, -, v, hv, heff⟩ := hvoted' i hi
    exact ⟨v, hv, by rw [heff]; simp⟩

theorem Net.level_start (env : Env) (hnew : newCore N.crypto (N.config i) = some c) :
    N.Level 1 (genesisQC N.crypto) (genesisQC N.crypto) (newMemLedger N.crypto) (fun _ => none) []
      (c.start N.crypto (N.config i) env).1 := by
  cases newCore_eq hnew
  refine ⟨rfl, ?_, rfl, ?_, rfl, rfl, Table.holds_empty _, fun vk hvk => (by cases hvk)⟩
  · change ((N.config i).validators).insertionSort (· ≤ ·) = ((N.config 0).validators).insertionSort (· ≤ ·)
    rw [N.members, N.members]
  · change ((newPacemaker.advanceRoundQC (some (genesisQC N.crypto))).1).currentRound = 1
    rw [Pacemaker.currentRound_advanceRoundQC]
    rfl

theorem Net.poised_start (env : Env) (hnew : newCore N.crypto (N.config i) = some c) :
    N.Poised 1 (genesisQC N.crypto) [] (c.start N.crypto (N.config i) env).1.pacemaker
      (c.start N.crypto (N.config i) env).1.safety := by
  cases newCore_eq hnew
  exact ⟨rfl, .inl rfl, fun t ht => (by cases ht), rfl, UInt64.zero_le, UInt64.zero_le, rfl, fun _ _ => rfl,
    fun m hm => (by cases hm), List.nodup_nil⟩

theorem Net.stands_genesis : N.Stands 1 (genesisQC N.crypto) (genesisQC N.crypto) (newMemLedger N.crypto)
    (genesisQC N.crypto) :=
  ⟨fun hcommits => (by cases hcommits), higher_self _, (by decide : (0 : UInt64) < 1), (by decide : (0 : UInt64) < 1),
    fun _ hx hid => absurd hid hx.id_ne_zeroHash⟩

theorem Net.ready_genesis (hgenesis : executeHash N.crypto zeroHash default ≠ zeroHash) :
    N.Ready 1 (genesisQC N.crypto) (genesisQC N.crypto) [] (newMemLedger N.crypto) where
  held _       := rfl
  hung _ _ hs  := by cases hs
  top          := rfl
  filed        := Table.holds_empty _
  rises        := .nil
  path s hs    := by cases hs
  front        := ⟨genesisBlock N.crypto, Group.isBlock_genesis _, rfl, (by decide : (0 : UInt64) < 1)⟩
  state        := ⟨_, if_pos rfl, hgenesis⟩
  highQC       := N.stands_genesis
  highCommitQC := N.stands_genesis
  order        := .inl rfl
  short        := Nat.zero_lt_one
  falls        := by
    have hgenesis : (newMemLedger N.crypto).committed = (∅ : Table Bytes Block).insert _ (genesisBlock N.crypto) := rfl
    rw [hgenesis]
    refine Table.holds_insert (Table.holds_empty _) ⟨rfl, Group.isBlock_genesis _, fun q hq y hy hid => ?_⟩
    cases hq
    exact absurd hid hy.id_ne_zeroHash

/-- **The start**: the replicas have genesis in common. -/
theorem Net.InStep.start (hu : N.Uniform cfg live) {env : UInt32 → Env} {new : UInt32 → Core}
    (hnew : ∀ i ∈ live, newCore N.crypto (N.config i) = some (new i) ∧ ∀ d, ((env i).sign d).isSome = true) :
    N.InStep cfg live 1 [] (fun i => ((new i).start N.crypto (N.config i) (env i)).1)
        (fun i => ((new i).start N.crypto (N.config i) (env i)).2) (genesisQC N.crypto) (genesisQC N.crypto) []
        (newMemLedger N.crypto) (fun _ => none) ∧
      N.Waits live 1 (fun i => ((new i).start N.crypto (N.config i) (env i)).1)
        (fun i => ((new i).start N.crypto (N.config i) (env i)).2) (genesisQC N.crypto) (genesisQC N.crypto)
        (fun _ => none) := by
  have hlevel := fun i hi => level_start (env i) (hnew i hi).1
  -- a leader's proposal, and nothing else
  have hsent : ∀ i ∈ live, (N.leads (fun _ => none) 1 ≠ i ∧ ((new i).start N.crypto (N.config i) (env i)).2 = []) ∨
      (N.leads (fun _ => none) 1 = i ∧ ∃ b p, p.Over 1 (genesisQC N.crypto) (genesisQC N.crypto) i b ∧
        ((new i).start N.crypto (N.config i) (env i)).2 = [.proposal p]) :=
    fun i hi => (hlevel i hi).proposes (.inl ⟨rfl, rfl⟩) (hnew i hi).2
  have hover : ∀ i ∈ live, ∀ y ∈ ((new i).start N.crypto (N.config i) (env i)).2, N.leads (fun _ => none) 1 = i ∧
      ∃ b p, p.Over 1 (genesisQC N.crypto) (genesisQC N.crypto) i b ∧ y = .proposal p := by
    intro i hi y hy
    rcases hsent i hi with ⟨-, hnone⟩ | ⟨hlead, b, p, hp, hone⟩
    · rw [hnone] at hy
      cases hy
    · rw [hone, List.mem_singleton] at hy
      exact ⟨hlead, b, p, hp, hy⟩
  have hled : ∀ i ∈ live, ∀ p b, .proposal p ∈ ((new i).start N.crypto (N.config i) (env i)).2 → p.block = some b →
      N.leads (fun _ => none) 1 = i ∧ p.Over 1 (genesisQC N.crypto) (genesisQC N.crypto) i b := by
    intro i hi p b hp hb
    obtain ⟨hlead, b', p', hp', heq⟩ := hover i hi _ hp
    cases heq
    cases hp'.block.symm.trans hb
    exact ⟨hlead, hp'⟩
  have hsilent : ∀ i ∈ live, ∀ v d, .vote v d ∉ ((new i).start N.crypto (N.config i) (env i)).2 := by
    intro i hi v d hv
    obtain ⟨-, _, _, -, hcontra⟩ := hover i hi _ hv
    cases hcontra
  refine ⟨⟨ready_genesis hu.genesis, hlevel, fun i hi => poised_start (env i) (hnew i hi).1,
    (acceptsQC_genesisQC N.toGroup).1, fun roll' h => ?_, fun i hi => ?_, ?_, fun i hi p b hp hb => ?_,
    fun i hi v d hv => absurd hv (hsilent i hi v d)⟩,
    ⟨fun i hi => ?_, fun i hi v d hv => absurd hv (hsilent i hi v d), fun i hi p b hp hb _ => hled i hi p b hp hb,
    fun i hi hlead => ?_⟩⟩
  · -- genesis elects nobody
    rcases h with ⟨-, hroll⟩ | ⟨hnext, -⟩
    · exact hroll
    · cases hnext
  · rw [committedBlocks, List.filterMap_eq_nil_iff.2 (fun y hy => ?_)]
    · rfl
    · obtain ⟨-, _, p, -, rfl⟩ := hover i hi y hy
      rfl
  · exact ⟨rfl, fun b hb => (by cases hb), fun hne => absurd rfl hne⟩
  · rw [(hled i hi p b hp hb).2.round]
    exact UInt64.le_rfl
  · rw [newCore_eq (hnew i hi).1]
    exact (by decide : (0 : UInt64) < 1)
  · rcases hsent i hi with ⟨hno, -⟩ | ⟨-, b, p, hp, hone⟩
    · exact absurd hlead hno
    · exact ⟨p, b, by rw [hone]; exact List.mem_cons_self, hp⟩

/-- **The leader's proposal is heard.** -/
theorem Net.InStep.propose (hu : N.Uniform cfg live) (h : N.InStep cfg live r certs core tr q hc chain l roll)
    (hw : N.Waits live r core tr q hc roll) (hroom : r.toNat + 4 < 2 ^ 64) (hleader : leader ∈ live)
    (hp : .proposal p ∈ tr leader) (hb : p.block = some b) (hround : b.round = r)
    (hheard : ∀ i ∈ live, N.Turned i (.proposal p) (core i) (core' i) (eff i)) :
    ∃ l' roll', N.InStep cfg live r certs core' (fun i => tr i ++ eff i) q hc chain l' roll' ∧
      N.Balloted live r (fun i => tr i ++ eff i) q hc chain l' roll' b := by
  obtain ⟨hlead, hover⟩ := hw.led leader hleader p b hp hb hround
  have hk : r ≠ r + 1 := UInt64.ne_of_lt (lt_succ_of_room hroom)
  have hvoted : ∀ i ∈ live, N.Voted cfg r q hc l roll b i [] (core' i) (eff i) := fun i hi =>
    (h.level i hi).hear hu hi (h.poised i hi) h.ready hk hlead (hw.voted i hi) hover (hheard i hi)
  exact of_voted hu hleader h.ready hover (hheard leader hleader).admits hvoted hw.votes h.proposals
    (fun i hi => (List.append_nil _).trans (h.commits i hi)) h.accounts

theorem Net.Hears.admits {es : List Event} {c' : Core} {out : List Effect} (h : N.Hears i es c c' out) :
    ∀ e ∈ es, N.Admits e := by
  induction h with
  | nil => exact fun e he => by cases he
  | cons ht _ ih => exact List.forall_mem_cons.2 ⟨ht.admits, ih⟩

theorem Net.quorum_pos (N : Net) : 0 < N.verifier.quorum :=
  Nat.lt_of_le_of_lt (Nat.zero_le _) (faulty_lt_quorumSize N.validators.length)

/-- Votes of the round that were sent to somebody are to be counted by the leader of the next one. -/
theorem Net.Balloted.due (h : N.InStep cfg live r certs core tr q hc chain l roll)
    (hb : N.Balloted live r tr q hc chain l roll b) (hleader : leader ∈ live) {votes : List VoteMsg}
    (hvotes : ∀ v ∈ votes, v.voteInfo.round = r ∧ ∃ i ∈ live, .vote v leader ∈ tr i)
    (hnodup : (votes.map VoteMsg.sender).Nodup) (hquorum : votes.length = N.verifier.quorum)
    (hadmits : ∀ v ∈ votes, N.Admits (.vote v)) :
    votes ≠ [] ∧ N.leads roll (r + 1) = leader ∧ N.Due (l.content N.crypto b) hc [] (core leader).tree votes := by
  have hfor : ∀ v ∈ votes, v.For (l.content N.crypto b) hc v.sender ∧ leader = N.leads roll (r + 1) := by
    intro v hv
    obtain ⟨hround, i, hi, hsent⟩ := hvotes v hv
    rcases hb.votes i hi v leader hsent with hlt | ⟨hfor, heq⟩
    · exact absurd (hround ▸ hlt) (UInt64.lt_irrefl _)
    · exact ⟨hfor.sender.symm ▸ hfor, heq⟩
  have hne : votes ≠ [] := List.ne_nil_of_length_pos (hquorum ▸ N.quorum_pos)
  obtain ⟨v, hv⟩ := List.exists_mem_of_ne_nil votes hne
  exact ⟨hne, (hfor v hv).2.symm, fun u hu => ⟨(hfor u hu).1, List.not_mem_nil,
    (h.level leader hleader).bucketOf_empty (hadmits u hu) (hvotes u hu).1⟩, hnodup⟩

/-- **A round that succeeds.** -/
theorem Net.InStep.certify (hu : N.Uniform cfg live) (h : N.InStep cfg live r certs core tr q hc chain l roll)
    (hb : N.Balloted live r tr q hc chain l roll b) (hroom : r.toNat + 4 < 2 ^ 64) (hleader : leader ∈ live)
    {votes : List VoteMsg} (hvotes : ∀ v ∈ votes, v.voteInfo.round = r ∧ ∃ i ∈ live, .vote v leader ∈ tr i)
    (hnodup : (votes.map VoteMsg.sender).Nodup) (hquorum : votes.length = N.verifier.quorum)
    (hears : N.Hears leader (votes.map Event.vote) (core leader) c out) (hp : .proposal p ∈ out) {b' : Block}
    (hb' : p.block = some b')
    (hheard : ∀ i ∈ live, N.Turned i (.proposal p) (Function.update core leader c i) (core' i) (eff i)) :
    ∃ q' hc' chain' l' roll', N.InStep cfg live (r + 1) (certs ++ [b]) core'
        (fun i => (tr i ++ if i = leader then out else []) ++ eff i) q' hc' chain' l' roll' ∧
      N.Balloted live (r + 1) (fun i => (tr i ++ if i = leader then out else []) ++ eff i) q' hc' chain' l'
      roll' b' := by
  obtain ⟨s, hexec⟩ := hb.executed
  have hk := lt_succ_of_room hroom
  obtain ⟨hne, hlead, hdue⟩ := hb.due h hleader hvotes hnodup hquorum
    (fun v hv => hears.admits _ (List.mem_map_of_mem hv))
  obtain ⟨q', b'', p', hq', hlevel, hmoved, hover, hout⟩ :=
    Level.gather hexec hroom hlead (h.level leader hleader) hdue hne ((Nat.zero_add _).trans hquorum) hears
  have hhistory : (N.config leader).history = cfg.history := by rw [hu.config leader hleader]
  rw [hhistory] at hlevel hout
  have hsent : ∀ y ∈ out, y = .assembled q' ∨ (∃ b, y = .onCommit b) ∨ y = .proposal p' := by
    intro y hy
    rw [hout] at hy
    simp only [List.mem_cons, List.mem_append, List.mem_map, List.not_mem_nil, or_false] at hy
    rcases hy with rfl | ⟨b, -, rfl⟩ | rfl
    · exact .inl rfl
    · exact .inr (.inl ⟨b, rfl⟩)
    · exact .inr (.inr rfl)
  obtain rfl : p = p' := by
    obtain hcontra | ⟨_, hcontra⟩ | heq := hsent _ hp
    · cases hcontra
    · cases hcontra
    · cases heq
      rfl
  cases hover.block.symm.trans hb'
  have hready := hexec.certified cfg.history hk hq'
  obtain ⟨haccounts, hsettled⟩ := h.accounts.certify h.ready.highQC.lt hexec.round hq'.round cfg.history l
  -- the leader has committed already, the others do now
  have hvoted : ∀ i ∈ live, N.Voted cfg (r + 1) q' (nextCommitQC r q hc q')
      (l.certified cfg.history r q chain).1 roll b' i
      (if i = leader then [] else (l.certified cfg.history r q chain).2) (core' i) (eff i) := by
    intro i hi
    have ht := hheard i hi
    by_cases heq : i = leader
    · subst heq
      rw [Function.update_self] at ht
      rw [if_pos rfl]
      have hpoised := hmoved.poised (h.poised i hi) hk hexec.highQC.lt hq'.round
      have hbelow : c.safety.highestVoteRound < r + 1 := by
        rw [hmoved.1]
        exact UInt64.lt_of_le_of_lt (h.poised i hi).voted hk
      exact hlevel.hear hu hi hpoised hready (succ_ne_of_room hroom) hlead hbelow hover ht
    · rw [Function.update_of_ne heq] at ht
      rw [if_neg heq]
      exact (h.level i hi).hear_enter hu hi (h.poised i hi) hexec hq' hroom hlead hover ht
  have hold : ∀ i y, y ∈ tr i ++ (if i = leader then out else []) → y ∈ tr i ∨ y ∈ out := by
    intro i y hy
    rcases List.mem_append.1 hy with hy | hy
    · exact .inl hy
    · split at hy
      · exact .inr hy
      · cases hy
  have hvotes' : ∀ i ∈ live, ∀ v d, .vote v d ∈ tr i ++ (if i = leader then out else []) →
      v.voteInfo.round < r + 1 := by
    intro i hi v d hv
    rcases hold i _ hv with hv | hv
    · rcases hb.votes i hi v d hv with hlt | ⟨hfor, -⟩
      · exact UInt64.lt_trans hlt hk
      · exact lt_of_eq_of_lt (hfor.round.trans hexec.round) hk
    · obtain hcontra | ⟨_, hcontra⟩ | hcontra := hsent _ hv <;> cases hcontra
  have hproposals : ∀ i ∈ live, ∀ p b, .proposal p ∈ tr i ++ (if i = leader then out else []) → p.block = some b →
      b.round ≤ r + 1 := by
    intro i hi p₀ b₀ hp₀ hb₀
    rcases hold i _ hp₀ with hp₀ | hp₀
    · exact UInt64.le_trans (h.proposals i hi p₀ b₀ hp₀ hb₀) (UInt64.le_of_lt hk)
    · obtain hcontra | ⟨_, hcontra⟩ | heq := hsent _ hp₀
      · cases hcontra
      · cases hcontra
      · cases heq
        cases hb'.symm.trans hb₀
        rw [hover.round]
        exact UInt64.le_rfl
  have hlog : ∀ i ∈ live, committedBlocks (tr i ++ if i = leader then out else []) ++
      (if i = leader then [] else (l.certified cfg.history r q chain).2) = settledBlocks (certs ++ [b]) := by
    intro i hi
    rw [committedBlocks_append, h.commits i hi, hsettled]
    by_cases heq : i = leader
    · rw [if_pos heq, if_pos heq, hout, List.append_nil]
      refine congrArg _ ((committedBlocks_append _ _).trans ?_)
      rw [committedBlocks_onCommit]
      exact List.append_nil _
    · rw [if_neg heq, if_neg heq]
      exact congrArg (· ++ _) (List.append_nil _)
  exact ⟨q', _, _, of_voted hu hleader hready hover (hheard leader hleader).admits hvoted hvotes' hproposals
    hlog haccounts⟩

/-- The timers fire: each replica sends one timeout. -/
theorem Net.InStep.fires (h : N.InStep cfg live r certs core tr q hc chain l roll) {fired : UInt32 → Core}
    {out : UInt32 → List Effect}
    (hfired : ∀ i ∈ live, N.Turned i (.localTimeout (core i).pacemaker.epoch) (core i) (fired i) (out i)) :
    ∀ i ∈ live, N.Level r q hc l roll [] (fired i) ∧ N.Poised r q [] (fired i).pacemaker (fired i).safety ∧
      ∃ m, m.For r q hc i ∧ out i = [.timeout m] := by
  intro i hi
  obtain ⟨-, env, hsign, hs⟩ := hfired i hi
  exact (h.level i hi).fire (h.poised i hi) h.ready h.verified hsign hs

theorem Net.InStep.timeouts_for (h : N.InStep cfg live r certs core tr q hc chain l roll) {fired : UInt32 → Core}
    {out : UInt32 → List Effect}
    (hfired : ∀ i ∈ live, N.Turned i (.localTimeout (core i).pacemaker.epoch) (core i) (fired i) (out i))
    {ms : List TimeoutMsg} (hms : ∀ m ∈ ms, ∃ j ∈ live, .timeout m ∈ out j) :
    ∀ m ∈ ms, m.For r q hc m.tmoInfo.sender := by
  intro m hm
  obtain ⟨j, hj, hsent⟩ := hms m hm
  obtain ⟨-, -, m', hfor, hout⟩ := h.fires hfired j hj
  rw [hout, List.mem_singleton] at hsent
  cases hsent
  exact hfor.sender.symm ▸ hfor

/-- **A round that lapses.** -/
theorem Net.InStep.lapse (hu : N.Uniform cfg live) (h : N.InStep cfg live r certs core tr q hc chain l roll)
    (hroom : r.toNat + 4 < 2 ^ 64) {fired : UInt32 → Core} {out : UInt32 → List Effect} {ms : UInt32 → List TimeoutMsg}
    (hfired : ∀ i ∈ live, N.Turned i (.localTimeout (core i).pacemaker.epoch) (core i) (fired i) (out i))
    (hms : ∀ i ∈ live, (∀ m ∈ ms i, ∃ j ∈ live, .timeout m ∈ out j) ∧
      ((ms i).map (fun m => m.tmoInfo.sender)).Nodup ∧ (ms i).length = N.verifier.quorum)
    (hears : ∀ i ∈ live, N.Hears i ((ms i).map Event.timeout) (fired i) (core' i) (eff i)) :
    N.InStep cfg live (r + 1) certs core' (fun i => tr i ++ (out i ++ eff i)) q hc chain l roll ∧
      N.Waits live (r + 1) core' (fun i => tr i ++ (out i ++ eff i)) q hc roll := by
  have hk := lt_succ_of_room hroom
  have hfire := h.fires hfired
  have hlapse : ∀ i ∈ live, N.Level (r + 1) q hc l roll [] (core' i) ∧
      N.Poised (r + 1) q [] (core' i).pacemaker (core' i).safety ∧ (core' i).safety.highestVoteRound < r + 1 ∧
      ∃ (outs : List TimeoutMsg) (ps : List ProposalMsg),
        (∀ p ∈ ps, N.leads roll (r + 1) = i ∧ ∃ b, p.Over (r + 1) q hc i b) ∧ (N.leads roll (r + 1) = i → ps ≠ []) ∧
        out i ++ eff i = outs.map Effect.timeout ++ ps.map Effect.proposal := by
    intro i hi
    obtain ⟨hlevel, hpoised, m, -, hout⟩ := hfire i hi
    obtain ⟨hsent, hnodup, hlen⟩ := hms i hi
    have hne : ms i ≠ [] := List.ne_nil_of_length_pos (hlen ▸ N.quorum_pos)
    have helected : N.Elected (N.config i) l r q roll := by
      rw [hu.config i hi]
      exact h.elected
    obtain ⟨hlevel', hpoised', hvoted, outs, ps, -, hps, hlead, heff⟩ :=
      Level.lapse h.ready helected h.verified hk hlevel
      hpoised (h.timeouts_for hfired hsent) hnodup hne ((Nat.zero_add _).trans hlen) (hears i hi)
    exact ⟨hlevel', hpoised', hvoted, m :: outs, ps, hps, hlead, by rw [hout, heff]; rfl⟩
  have hsent : ∀ i ∈ live, ∀ y ∈ out i ++ eff i, (∃ m, y = .timeout m) ∨
      ∃ p b, y = .proposal p ∧ N.leads roll (r + 1) = i ∧ p.Over (r + 1) q hc i b := by
    intro i hi y hy
    obtain ⟨-, -, -, outs, ps, hps, -, heff⟩ := hlapse i hi
    rw [heff] at hy
    rcases List.mem_append.1 hy with hy | hy
    · obtain ⟨m, -, rfl⟩ := List.mem_map.1 hy
      exact .inl ⟨m, rfl⟩
    · obtain ⟨p, hp, rfl⟩ := List.mem_map.1 hy
      obtain ⟨hlead, b, hover⟩ := hps p hp
      exact .inr ⟨p, b, rfl, hlead, hover⟩
  have hvotes : ∀ i ∈ live, ∀ v d, .vote v d ∈ tr i ++ (out i ++ eff i) → v.voteInfo.round < r + 1 := by
    intro i hi v d hv
    rcases List.mem_append.1 hv with hv | hv
    · exact UInt64.lt_of_le_of_lt (h.votes i hi v d hv) hk
    · obtain ⟨_, hcontra⟩ | ⟨_, _, hcontra, -⟩ := hsent i hi _ hv <;> cases hcontra
  have hled : ∀ i ∈ live, ∀ p b, .proposal p ∈ tr i ++ (out i ++ eff i) → p.block = some b →
      b.round ≤ r ∨ N.leads roll (r + 1) = i ∧ p.Over (r + 1) q hc i b := by
    intro i hi p b hp hb
    rcases List.mem_append.1 hp with hp | hp
    · exact .inl (h.proposals i hi p b hp hb)
    · obtain ⟨_, hcontra⟩ | ⟨p', b', heq, hlead, hover⟩ := hsent i hi _ hp
      · cases hcontra
      · cases heq
        cases hover.block.symm.trans hb
        exact .inr ⟨hlead, hover⟩
  refine ⟨⟨h.ready.mono hk, fun i hi => (hlapse i hi).1, fun i hi => (hlapse i hi).2.1, h.verified,
    fun roll' h' => h'.still (succ_ne_succ h.ready.highQC.lt), fun i hi => ?_, h.accounts, fun i hi p b hp hb => ?_,
    fun i hi v d hv => UInt64.le_of_lt (hvotes i hi v d hv)⟩, ⟨fun i hi => (hlapse i hi).2.2.1, hvotes,
    fun i hi p b hp hb hround => ?_, fun i hi hlead => ?_⟩⟩
  · -- neither timeouts nor proposals are commits
    have hnone : committedBlocks (out i ++ eff i) = [] := List.filterMap_eq_nil_iff.2 (fun y hy => by
      obtain ⟨m, rfl⟩ | ⟨p, b, rfl, -⟩ := hsent i hi y hy <;> rfl)
    rw [committedBlocks_append, hnone, List.append_nil]
    exact h.commits i hi
  · rcases hled i hi p b hp hb with hle | ⟨-, hover⟩
    · exact UInt64.le_trans hle (UInt64.le_of_lt hk)
    · rw [hover.round]
      exact UInt64.le_rfl
  · rcases hled i hi p b hp hb with hle | hover
    · rw [hround] at hle
      exact absurd hk (UInt64.not_lt.2 hle)
    · exact hover
  · obtain ⟨-, -, -, outs, ps, hps, hne, heff⟩ := hlapse i hi
    obtain ⟨p, hp⟩ := List.exists_mem_of_ne_nil ps (hne hlead)
    obtain ⟨-, b, hover⟩ := hps p hp
    refine ⟨p, b, List.mem_append_right _ ?_, hover⟩
    rw [heff]
    exact List.mem_append_right _ (List.mem_map_of_mem hp)

/-- **What a run keeps.** -/
theorem Net.Lockstep.inStep (hu : N.Uniform cfg live) {phase : Option Block}
    (h : N.Lockstep live r phase certs core tr) :
    ∃ q hc chain l roll, N.InStep cfg live r certs core tr q hc chain l roll ∧
      (phase = none → N.Waits live r core tr q hc roll) ∧
      ∀ b, phase = some b → N.Balloted live r tr q hc chain l roll b := by
  induction h with
  | start env new hnew =>
    obtain ⟨hin, hw⟩ := InStep.start hu hnew
    exact ⟨_, _, _, _, _, hin, fun _ => hw, fun b hb => by cases hb⟩
  | propose leader p b core' eff _ hroom hleader hp hb hround hheard ih =>
    obtain ⟨q, hc, chain, l, roll, hin, hw, -⟩ := ih
    obtain ⟨l', roll', hin', hballoted⟩ := hin.propose hu (hw rfl) hroom hleader hp hb hround hheard
    refine ⟨q, hc, chain, l', roll', hin', fun hno => (by cases hno), fun b' hb' => ?_⟩
    cases hb'
    exact hballoted
  | certify leader votes c out p b' core' eff _ hroom hleader hvotes hnodup hquorum hears hp hb hheard ih =>
    obtain ⟨q, hc, chain, l, roll, hin, -, hballoted⟩ := ih
    obtain ⟨q', hc', chain', l', roll', hin', hballoted'⟩ :=
      hin.certify hu (hballoted _ rfl) hroom hleader hvotes hnodup hquorum hears hp hb hheard
    refine ⟨q', hc', chain', l', roll', hin', fun hno => (by cases hno), fun b hb => ?_⟩
    cases hb
    exact hballoted'
  | lapse fired out ms core' eff _ hroom hfired hms hears ih =>
    obtain ⟨q, hc, chain, l, roll, hin, -⟩ := ih
    obtain ⟨hin', hw⟩ := hin.lapse hu hroom hfired hms hears
    exact ⟨q, hc, chain, l, roll, hin', fun _ => hw, fun b hb => by cases hb⟩

end

end Diem

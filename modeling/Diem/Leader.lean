import Mathlib.Data.List.Sort
import Diem.Pacemaker
/-!
# Leader — who leads a round (`leader.go`)

The reputation walk follows `parent_id` of the certificate a committed block carries.  Its loop ends when it has seen
`windowSize` blocks and `excludeSize` authors, or a block the ledger does not hold; it has no bound of its own.
-/
namespace Diem

/-- **What a replica is configured with** (`core.go`): `Config`, with the VM and the retention bound of its ledger.
Window and exclude sizes are Go `int`s. -/
structure Config where
  id          : UInt32
  validators  : List UInt32
  windowSize  : Int
  excludeSize : Int
  history     : Nat
  execute     : Bytes → Payload → Bytes

def defaultWindowSize : Int := 10

namespace Config

def quorum (cfg : Config) : Nat := quorumSize cfg.validators.length

def faulty (cfg : Config) : Nat := Diem.faulty cfg.validators.length

def window (cfg : Config) : Int := if cfg.windowSize = 0 then defaultWindowSize else cfg.windowSize

def exclude (cfg : Config) : Int := if cfg.excludeSize = 0 then max (cfg.faulty : Int) 1 else cfg.excludeSize

end Config

structure LeaderElection where
  validators        : List UInt32
  reputationLeaders : Table UInt64 UInt32
deriving DecidableEq

def newLeaderElection (cfg : Config) : LeaderElection where
  validators        := cfg.validators.insertionSort (· ≤ ·)
  reputationLeaders := ∅

/-- The paper's pick_one(seed): an index that depends on the seed alone. -/
def pick (cr : Crypto) (seed : UInt64) (n : Nat) : Nat :=
  Encode.beNat ((cr.sha256 (writeUint64 seed)).elems.take 8) % n

/-- What the walk has gathered: the signers of the first `windowSize` certificates, and up to `excludeSize` authors. -/
structure Walk where
  active   : List UInt32
  excluded : List UInt32
deriving DecidableEq

/-- What one turn adds: its certificate's signers, and its block's author. -/
def Walk.visit (w : Walk) (window exclude : Int) (i : Nat) (current : QuorumCert) (block : Block) : Walk where
  active   := if (i : Int) < window then current.signatures.elems.foldl (fun a s => a.insert s.signer) w.active
              else w.active
  excluded := if (w.excluded.length : Int) < exclude then w.excluded.insert block.author else w.excluded

namespace LeaderElection

def getLeader (e : LeaderElection) (round : UInt64) : UInt32 :=
  match e.reputationLeaders.lookup round with
  | some id => id
  | none    => e.validators.getD ((round.toNat / 2) % e.validators.length) 0

/-- The loop of `electReputationLeader` from its `i`-th turn on. -/
def walk (window exclude : Int) (l : MemLedger) : Nat → Nat → QuorumCert → Walk → Except Loop Walk
  | n, i, current, w =>
    if (i : Int) < window ∨ (w.excluded.length : Int) < exclude then
      match l.committedBlock current.voteInfo.parentId with
      | none       => .ok w
      | some block =>
        let w := w.visit window exclude i current block
        match block.qc with
        | none    => .ok w
        | some qc =>
          match n with
          | 0     => .error .reputation
          | n + 1 => walk window exclude l n (i + 1) qc w
    else .ok w

def electReputationLeader (cr : Crypto) (cfg : Config) (fuel : Nat) (l : MemLedger) (qc : QuorumCert) :
    Except Loop (Option UInt32) :=
  match walk cfg.window cfg.exclude l fuel 0 qc ⟨[], []⟩ with
  | .error e => .error e
  | .ok w    =>
    let candidates := (w.active.filter (fun id => !decide (id ∈ w.excluded))).insertionSort (· ≤ ·)
    .ok candidates[pick cr qc.voteInfo.round candidates.length]?

/-- Elects the leader of the round after next, when `qc` certifies a contiguous 2-chain that this replica is exactly
one round past. -/
def updateLeaders (cr : Crypto) (cfg : Config) (fuel : Nat) (l : MemLedger) (currentRound : UInt64)
    (e : LeaderElection) (qc : QuorumCert) : Except Loop LeaderElection :=
  if qc.voteInfo.parentRound + 1 ≠ qc.voteInfo.round ∨ qc.voteInfo.round + 1 ≠ currentRound then .ok e
  else match electReputationLeader cr cfg fuel l qc with
    | .error err => .error err
    | .ok id     =>
      let elected := match id with
        | none    => e.reputationLeaders
        | some id => e.reputationLeaders.insert (currentRound + 1) id
      .ok { e with reputationLeaders := elected.filter (fun r _ => !decide (r < currentRound)) }

/-- One turn of the walk: it stops, or it goes on from the certificate of the committed block that the current one
names as its parent. -/
theorem walk_turn (window exclude : Int) (l : MemLedger) (n i : Nat) (cur : QuorumCert) (w : Walk) :
    (∃ w', walk window exclude l n i cur w = .ok w') ∨
    ∃ b qc, l.committedBlock cur.voteInfo.parentId = some b ∧ b.qc = some qc ∧ ∀ m, n = m + 1 →
      walk window exclude l n i cur w = walk window exclude l m (i + 1) qc (w.visit window exclude i cur b) := by
  rw [walk]
  by_cases hgo : (i : Int) < window ∨ (w.excluded.length : Int) < exclude
  · rw [if_pos hgo]
    cases hlook : l.committedBlock cur.voteInfo.parentId with
    | none => exact .inl ⟨w, rfl⟩
    | some b =>
      cases hqc : b.qc with
      | none => simp only [hqc]; exact .inl ⟨_, rfl⟩
      | some qc =>
        refine .inr ⟨b, qc, rfl, hqc, fun m hm => ?_⟩
        subst hm
        simp only [hqc]
  · rw [if_neg hgo]
    exact .inl ⟨w, rfl⟩

/-- **What `UpdateLeaders` does**: nothing when no election is due; else it enters whom it elects for the round after
the current one, and drops the rounds gone by. -/
theorem updateLeaders_ok {cr : Crypto} {cfg : Config} {fuel : Nat} {l : MemLedger} {currentRound : UInt64}
    {e e' : LeaderElection} {qc : QuorumCert} (h : e.updateLeaders cr cfg fuel l currentRound qc = .ok e') :
    ((qc.voteInfo.parentRound + 1 ≠ qc.voteInfo.round ∨ qc.voteInfo.round + 1 ≠ currentRound) ∧ e' = e) ∨
    (qc.voteInfo.parentRound + 1 = qc.voteInfo.round ∧ qc.voteInfo.round + 1 = currentRound ∧
      ∃ elected : Table UInt64 UInt32,
        ((electReputationLeader cr cfg fuel l qc = .ok none ∧ elected = e.reputationLeaders) ∨
          ∃ id, electReputationLeader cr cfg fuel l qc = .ok (some id) ∧
            elected = e.reputationLeaders.insert (currentRound + 1) id) ∧
        e' = { e with reputationLeaders := elected.filter (fun r _ => !decide (r < currentRound)) }) := by
  unfold updateLeaders at h
  split at h
  · rename_i hguard
    cases h
    exact .inl ⟨hguard, rfl⟩
  · rename_i hdue
    obtain ⟨hnext, hcur⟩ := not_or.1 hdue
    split at h
    · cases h
    · rename_i el hel
      cases h
      refine .inr ⟨not_not.1 hnext, not_not.1 hcur, _, ?_, rfl⟩
      cases el with
      | none => exact .inl ⟨hel, rfl⟩
      | some id => exact .inr ⟨id, hel, rfl⟩

/-- Only the walk can keep an election from ending. -/
theorem updateLeaders_error {cr : Crypto} {cfg : Config} {fuel : Nat} {l : MemLedger} {currentRound : UInt64}
    {e : LeaderElection} {qc : QuorumCert} {loop : Loop}
    (h : e.updateLeaders cr cfg fuel l currentRound qc = .error loop) :
    walk cfg.window cfg.exclude l fuel 0 qc ⟨[], []⟩ = .error loop := by
  unfold updateLeaders at h
  split at h
  · cases h
  · split at h
    · rename_i err he
      cases h
      unfold electReputationLeader at he
      split at he
      · rename_i hw
        cases he
        exact hw
      · cases he
    · cases h

end LeaderElection

end Diem

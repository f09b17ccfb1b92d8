import Mathlib.Data.List.Sort
import Diem.Ledger
/-!
# Tree — the pending tree, its votes and its two highest certificates (`blocktree.go`)

The tree and the ledger under it are passed together.  `processVote` runs the vote's commit certificate through
`processQC`, which raises `highQC`; no pacemaker is told of it.
-/
namespace Diem

/-- **What one step takes from outside**: `Crypto.Sign`, the payload `Transactions` supplies, and the fuel of the
loops. -/
structure Env where
  sign : Bytes → Option Bytes
  txns : Payload
  fuel : Nat

/-- Signs `digest` and names `id` as the signer (`quorum.go`). -/
def sign (env : Env) (id : UInt32) (digest : Bytes) : Option Signature :=
  (env.sign digest).map (fun s => { signer := id, sig := s })

structure VoteBucket where
  voteInfo : VoteInfo
  commit   : LedgerCommitInfo
  sigs     : Slice Signature
deriving DecidableEq

structure VoterKey where
  round  : UInt64
  signer : UInt32
deriving DecidableEq

structure BlockTree where
  pending      : Table Bytes Block
  votes        : Table Bytes VoteBucket
  voters       : Table VoterKey Unit
  highQC       : QuorumCert
  highCommitQC : QuorumCert
deriving DecidableEq

def newBlockTree (cr : Crypto) : BlockTree where
  pending      := ∅
  votes        := ∅
  voters       := ∅
  highQC       := genesisQC cr
  highCommitQC := genesisQC cr

def canonical (sigs : Slice Signature) : Slice Signature :=
  sigs.reorder (List.insertionSort (fun a b => a.signer ≤ b.signer)) (List.length_insertionSort _)

/-- Sorted by signers that all differ, the signers strictly increase: the order every certificate must be in. -/
theorem pairwise_lt_insertionSort {α : Type} (f : α → UInt32) {l : List α} (h : (l.map f).Nodup) :
    (l.insertionSort (fun a b => f a ≤ f b)).Pairwise (fun a b => f a < f b) := by
  have hle : (l.insertionSort (fun a b => f a ≤ f b)).Pairwise (fun a b => f a ≤ f b) := by
    have : Std.Total (fun a b : α => f a ≤ f b) := ⟨fun a b => UInt32.le_total _ _⟩
    have : IsTrans α (fun a b : α => f a ≤ f b) := ⟨fun a b c hab hbc => UInt32.le_trans hab hbc⟩
    exact List.pairwise_insertionSort _ l
  have hne : (l.insertionSort (fun a b => f a ≤ f b)).Pairwise (fun a b => f a ≠ f b) := by
    rw [← List.pairwise_map]
    exact ((List.perm_insertionSort _ l).map f).nodup_iff.2 h
  exact hle.imp₂ (fun a b h1 h2 => UInt32.lt_of_le_of_ne h1 h2) hne

namespace BlockTree

def block (t : BlockTree) (id : Bytes) : Option Block := t.pending.lookup id

def prune (t : BlockTree) (rootID : Bytes) (rootRound : UInt64) : BlockTree :=
  { t with
    pending := (t.pending.filter (fun id b => !(decide (b.round ≤ rootRound) && id != rootID))).dropOrphans
      (fun id b => id == rootID || parentID b == rootID) parentID
    votes   := t.votes.filter (fun _ b => !decide (b.voteInfo.round ≤ rootRound))
    voters  := t.voters.filter (fun vk _ => !decide (vk.round ≤ rootRound)) }

/-- The ledger, the tree, and the blocks passed to `OnCommit`. -/
def processQC (history fuel : Nat) (l : MemLedger) (t : BlockTree) :
    Option QuorumCert → Except Loop (MemLedger × BlockTree × List Block)
  | none    => .ok (l, t, [])
  | some qc =>
    if commits qc.ledgerCommitInfo then
      match l.commit history fuel qc.voteInfo.parentId with
      | .error e     => .error e
      | .ok (l', bs) =>
        let t := t.prune qc.voteInfo.parentId qc.voteInfo.parentRound
        .ok (l', { t with highCommitQC := higher qc t.highCommitQC, highQC := higher qc t.highQC }, bs)
    else .ok (l, { t with highQC := higher qc t.highQC }, [])

def executeAndInsert (execute : Bytes → Payload → Bytes) (l : MemLedger) (t : BlockTree) (b : Block) :
    MemLedger × BlockTree :=
  ((l.speculate execute b).1, { t with pending := t.pending.insert b.id b })

/-- The vote's own half of `ProcessVote`, once its commit certificate is processed: the tree, and the certificate the
vote completed. -/
def accumulate (cr : Crypto) (env : Env) (id : UInt32) (quorum : Nat) (t : BlockTree) (v : VoteMsg) :
    BlockTree × Option QuorumCert :=
  let vk : VoterKey := { round := v.voteInfo.round, signer := v.sender }
  if (t.voters.lookup vk).isSome then (t, none)
  else
    let idx := ledgerCommitDigest cr v.ledgerCommitInfo
    let b   := (t.votes.lookup idx).getD { voteInfo := v.voteInfo, commit := v.ledgerCommitInfo, sigs := default }
    let b   := { b with sigs := b.sigs.push v.sig }
    let t   := { t with votes := t.votes.insert idx b, voters := t.voters.insert vk () }
    if b.sigs.len < quorum then (t, none)
    else
      let sigs := canonical b.sigs
      match sign env id (qcSigsDigest cr sigs) with
      | none           => (t, none)
      | some authorSig =>
        ({ t with votes := t.votes.erase idx },
          some { voteInfo := b.voteInfo, ledgerCommitInfo := b.commit, signatures := sigs, author := id,
                 authorSig := some authorSig })

def processVote (cr : Crypto) (history : Nat) (env : Env) (id : UInt32) (quorum : Nat) (l : MemLedger) (t : BlockTree)
    (v : VoteMsg) : Except Loop (MemLedger × BlockTree × List Block × Option QuorumCert) :=
  match processQC history env.fuel l t v.highCommitQc with
  | .error e        => .error e
  | .ok (l, t, bs) =>
    let r := accumulate cr env id quorum t v
    .ok (l, r.1, bs, r.2)

def generateBlock (cr : Crypto) (id : UInt32) (t : BlockTree) (txns : Payload) (round : UInt64) : Block :=
  newBlock cr id round txns (some t.highQC)

/-- Counting a vote leaves the blocks alone. -/
theorem accumulate_pending (cr : Crypto) (env : Env) (id : UInt32) (quorum : Nat) (t : BlockTree) (m : VoteMsg) :
    (t.accumulate cr env id quorum m).1.pending = t.pending := by
  simp only [accumulate]
  split
  · rfl
  · split
    · rfl
    · split <;> rfl

/-! ## A certificate processed -/

/-- **What `ProcessQC` does**: a certificate that commits moves the ledger to the parent of its block and prunes the
tree to it; either way the higher certificate is kept. -/
theorem processQC_ok {history fuel : Nat} {l l' : MemLedger} {t t' : BlockTree} {qc : QuorumCert} {bs : List Block}
    (h : processQC history fuel l t (some qc) = .ok (l', t', bs)) :
    t'.highQC = higher qc t.highQC ∧
    ((commits qc.ledgerCommitInfo = true ∧ l.commit history fuel qc.voteInfo.parentId = .ok (l', bs) ∧
        t' = { t.prune qc.voteInfo.parentId qc.voteInfo.parentRound with
               highCommitQC := higher qc t.highCommitQC, highQC := higher qc t.highQC }) ∨
     (commits qc.ledgerCommitInfo = false ∧ l' = l ∧ bs = [] ∧ t' = { t with highQC := higher qc t.highQC })) := by
  rw [processQC] at h
  split at h
  · rename_i hc
    split at h
    · cases h
    · rename_i hcommit
      cases h
      exact ⟨rfl, .inl ⟨hc, hcommit, rfl⟩⟩
  · rename_i hc
    cases h
    exact ⟨rfl, .inr ⟨by simpa using hc, rfl, rfl, rfl⟩⟩

/-- `ProcessQC` only takes blocks away. -/
theorem processQC_sub {history fuel : Nat} {l l' : MemLedger} {t t' : BlockTree} {qc : QuorumCert} {bs : List Block}
    (h : processQC history fuel l t (some qc) = .ok (l', t', bs)) : Table.Sub t'.pending t.pending := by
  rcases (processQC_ok h).2 with ⟨-, -, rfl⟩ | ⟨-, -, -, rfl⟩
  · exact (Table.sub_dropOrphans _ _ _).trans (Table.sub_filter _ _)
  · exact Table.Sub.refl _

end BlockTree

/-- `higher` keeps the later round. -/
theorem higher_round (a b : QuorumCert) :
    (higher a b).voteInfo.round.toNat = max a.voteInfo.round.toNat b.voteInfo.round.toNat := by
  unfold higher
  split
  · rename_i h
    rw [UInt64.lt_iff_toNat_lt] at h
    omega
  · rename_i h
    rw [UInt64.lt_iff_toNat_lt] at h
    omega

theorem higher_left (a b : QuorumCert) : a.voteInfo.round ≤ (higher a b).voteInfo.round := by
  rw [UInt64.le_iff_toNat_le, higher_round]
  exact Nat.le_max_left _ _

theorem higher_right (a b : QuorumCert) : b.voteInfo.round ≤ (higher a b).voteInfo.round := by
  rw [UInt64.le_iff_toNat_le, higher_round]
  exact Nat.le_max_right _ _

theorem higher_mono (a : QuorumCert) {b b' : QuorumCert} (h : b.voteInfo.round ≤ b'.voteInfo.round) :
    (higher a b).voteInfo.round ≤ (higher a b').voteInfo.round := by
  rw [UInt64.le_iff_toNat_le] at h ⊢
  rw [higher_round, higher_round]
  exact Nat.max_le.2 ⟨Nat.le_max_left _ _, Nat.le_trans h (Nat.le_max_right _ _)⟩

theorem higher_eq (a b : QuorumCert) : higher a b = a ∨ higher a b = b := by
  unfold higher
  split
  · exact .inl rfl
  · exact .inr rfl

end Diem

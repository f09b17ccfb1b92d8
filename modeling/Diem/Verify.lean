import Mathlib.Data.Set.Function
import Diem.Digest
/-!
# Verify — what the edge lets in (`quorum.go`, `verify.go`)

A `Verifier` checks an inbound message against the replica set alone.  `verifyQC` and `verifyTC` are unpacked once
(`verifyQC_iff`, `verifyTC_iff`), and nothing after this module unfolds them.  `verifyBlock`, the check on a fetched
block, recomputes the id and nothing else: it never looks at the certificate the block carries, most of which the id
does not cover (`verifyBlock_agrees_iff`).
-/
namespace Diem

def faulty (n : Nat) : Nat := (n - 1) / 3

/-- ceil((n+f+1)/2): the smallest size at which any two quorums still share f+1. -/
def quorumSize (n : Nat) : Nat := (n + faulty n + 2) / 2

def consecutive (blockRound round : UInt64) : Bool := round + 1 == blockRound

theorem consecutive_iff {blockRound round : UInt64} : consecutive blockRound round = true ↔ round + 1 = blockRound := by
  simp [consecutive]

def verifySig (cr : Crypto) (digest : Bytes) (sig : Signature) : Bool := cr.verify sig.signer digest sig.sig

def validHashes (hs : List Bytes) : Bool := hs.all (fun h => h.len == hashLen)

def validVote (v : VoteInfo) (l : LedgerCommitInfo) : Bool :=
  validHashes [v.id, v.parentId, v.execStateId, l.commitStateId, l.voteInfoHash]

theorem validVote_iff (v : VoteInfo) (l : LedgerCommitInfo) :
    validVote v l = true ↔ v.id.len = hashLen ∧ v.parentId.len = hashLen ∧ v.execStateId.len = hashLen ∧
      l.commitStateId.len = hashLen ∧ l.voteInfoHash.len = hashLen := by
  simp [validVote, validHashes]

structure Verifier where
  crypto : Crypto
  quorum : Nat

/-- The loop of `verifyCert` and of `VerifyTC`: signers strictly increase, and each signature verifies over the digest
its own entry names. -/
def certLoop {α : Type} (cr : Crypto) (sigOf : α → Signature) (digestOf : α → Bytes) : Option α → List α → Bool
  | _,    []      => true
  | prev, x :: xs =>
    if prev.any (fun p => decide ((sigOf x).signer ≤ (sigOf p).signer)) then false
    else if !verifySig cr (digestOf x) (sigOf x) then false
    else certLoop cr sigOf digestOf (some x) xs

namespace Verifier

variable (v : Verifier)

def verifyCert (digest : Bytes) (sigs : List Signature) : Bool :=
  certLoop v.crypto (fun s => s) (fun _ => digest) none sigs && decide (v.quorum ≤ sigs.length)

def verifyQC : Option QuorumCert → Bool
  | none    => false
  | some qc =>
    if !validVote qc.voteInfo qc.ledgerCommitInfo then false
    else if qcRound (some qc) == 0 then
      -- nothing vouches for a round-0 certificate but equality with the one every replica hardcodes
      decide (qc = genesisQC v.crypto)
    else if voteInfoHash v.crypto qc.voteInfo != qc.ledgerCommitInfo.voteInfoHash then false
    else if commits qc.ledgerCommitInfo && !consecutive qc.voteInfo.round qc.voteInfo.parentRound then false
    else if !v.verifyCert (ledgerCommitDigest v.crypto qc.ledgerCommitInfo) qc.signatures.elems then false
    else (qc.authorSig.getD default).signer == qc.author &&
      verifySig v.crypto (qcSigsDigest v.crypto qc.signatures) (qc.authorSig.getD default)

/-- A nil TC is valid: whether one was required is a well-formedness question. -/
def verifyTC : Option TimeoutCert → Bool
  | none    => true
  | some tc =>
    if tc.round == 0 then false
    else certLoop v.crypto TimeoutVote.sig (fun t => timeoutDigest v.crypto tc.round t.highQcRound) none tc.votes &&
      decide (v.quorum ≤ tc.votes.length)

/-- An absent commit certificate is a catch-up hint nobody sent. -/
def verifyCommitQC : Option QuorumCert → Bool
  | none    => true
  | some qc => v.verifyQC (some qc)

def verifyProposal (p : ProposalMsg) : Bool :=
  if !wellFormedProposal p then false
  else
    let b := p.block.getD default
    if b.round ≤ qcRound b.qc then false
    else if blockID v.crypto b.author b.round b.payload b.qc != b.id then false
    else if p.sig.signer != p.sender || !verifySig v.crypto b.id p.sig then false
    else v.verifyQC b.qc && v.verifyCommitQC p.highCommitQc && v.verifyTC p.lastRoundTc

def verifyTimeout (m : TimeoutMsg) : Bool :=
  if !wellFormedTimeout m then false
  else
    let t := m.tmoInfo
    if t.sig.signer != t.sender || !verifySig v.crypto (timeoutDigest v.crypto t.round (qcRound t.highQc)) t.sig then
      false
    else v.verifyQC t.highQc && v.verifyCommitQC m.highCommitQc && v.verifyTC m.lastRoundTc

def verifyVote (m : VoteMsg) : Bool :=
  if m.sig.signer != m.sender || !validVote m.voteInfo m.ledgerCommitInfo then false
  else if voteInfoHash v.crypto m.voteInfo != m.ledgerCommitInfo.voteInfoHash then false
  else if !verifySig v.crypto (ledgerCommitDigest v.crypto m.ledgerCommitInfo) m.sig then false
  else v.verifyCommitQC m.highCommitQc

end Verifier

/-- `validBlockID` (`safety.go`): the id is the one its fields hash to. -/
def validBlockID (cr : Crypto) (b : Block) : Bool := blockID cr b.author b.round b.payload b.qc == b.id

def Verifier.verifyBlock (v : Verifier) (b : Block) (id : Bytes) : Bool := b.id == id && validBlockID v.crypto b

theorem validBlockID_iff (cr : Crypto) (b : Block) : validBlockID cr b = true ↔ cr.sha256 b.bytes = b.id := by
  simp [validBlockID, blockID, Block.bytes]

theorem validBlockID_newBlock (cr : Crypto) (a : UInt32) (r : UInt64) (p : Payload) (qc : Option QuorumCert) :
    validBlockID cr (newBlock cr a r p qc) = true := by
  simp [validBlockID, newBlock]

/-! ## The checks, unpacked -/

theorem certLoop_iff {α : Type} (cr : Crypto) (sigOf : α → Signature) (digestOf : α → Bytes) :
    ∀ (xs : List α) (prev : Option α), certLoop cr sigOf digestOf prev xs = true ↔
      (∀ p ∈ prev, ∀ x ∈ xs, (sigOf p).signer < (sigOf x).signer) ∧
      xs.Pairwise (fun x y => (sigOf x).signer < (sigOf y).signer) ∧
      ∀ x ∈ xs, verifySig cr (digestOf x) (sigOf x) = true
  | [],      prev => by simp [certLoop]
  | x :: xs, prev => by
    rw [certLoop]
    have hany : prev.any (fun p => decide ((sigOf x).signer ≤ (sigOf p).signer)) = true ↔
        ¬ ∀ p ∈ prev, (sigOf p).signer < (sigOf x).signer := by
      cases prev <;> simp
    by_cases hprev : ∀ p ∈ prev, (sigOf p).signer < (sigOf x).signer
    · rw [if_neg (fun h => hany.1 h hprev)]
      by_cases hv : verifySig cr (digestOf x) (sigOf x) = true
      · have ih := certLoop_iff cr sigOf digestOf xs (some x)
        rw [if_neg (by simp [hv]), ih]
        constructor
        · rintro ⟨h1, h2, h3⟩
          have hx : ∀ y ∈ xs, (sigOf x).signer < (sigOf y).signer := h1 x rfl
          refine ⟨fun p hpm y hy => ?_, List.Pairwise.cons hx h2, fun y hy => ?_⟩
          · rcases List.mem_cons.1 hy with rfl | hy
            · exact hprev p hpm
            · exact UInt32.lt_trans (hprev p hpm) (hx y hy)
          · rcases List.mem_cons.1 hy with rfl | hy
            · exact hv
            · exact h3 y hy
        · rintro ⟨-, h2, h3⟩
          refine ⟨fun p hpm => ?_, h2.of_cons, fun y hy => h3 y (List.mem_cons_of_mem _ hy)⟩
          cases hpm
          exact fun y hy => List.rel_of_pairwise_cons h2 hy
      · rw [if_pos (by simpa using hv)]
        simp only [Bool.false_eq_true, false_iff]
        rintro ⟨-, -, h3⟩
        exact hv (h3 x List.mem_cons_self)
    · rw [if_pos (hany.2 hprev)]
      simp only [Bool.false_eq_true, false_iff]
      rintro ⟨h1, -⟩
      exact hprev (fun p hp => h1 p hp x List.mem_cons_self)

/-- Signatures in the order of their signers, all different, are determined by which they are. -/
theorem increasing_ext {xs ys : List Signature} (hx : xs.Pairwise (fun x y => x.signer < y.signer))
    (hy : ys.Pairwise (fun x y => x.signer < y.signer)) (h : ∀ s, s ∈ xs ↔ s ∈ ys) : xs = ys := by
  have hne : ∀ {x y : Signature}, x.signer < y.signer → x ≠ y := by
    rintro x y hlt rfl
    exact UInt32.lt_irrefl _ hlt
  have hperm : xs.Perm ys := (List.perm_ext_iff_of_nodup (hx.imp hne) (hy.imp hne)).2 h
  refine hperm.eq_of_pairwise (fun a b _ _ hab hba => ?_) hx hy
  exact absurd (UInt32.lt_trans hab hba) (UInt32.lt_irrefl _)

namespace Verifier

variable (v : Verifier)

theorem verifyCert_iff (digest : Bytes) (sigs : List Signature) :
    v.verifyCert digest sigs = true ↔ sigs.Pairwise (fun x y => x.signer < y.signer) ∧
      (∀ s ∈ sigs, verifySig v.crypto digest s = true) ∧ v.quorum ≤ sigs.length := by
  unfold verifyCert
  rw [Bool.and_eq_true, certLoop_iff, decide_eq_true_eq]
  simp [and_assoc]

/-- **An accepted certificate is the genesis one, or carries a quorum over its commit info**, which binds its vote info;
it commits only over consecutive rounds, and its author signed its signatures. -/
theorem verifyQC_iff (qc : QuorumCert) :
    v.verifyQC (some qc) = true ↔ validVote qc.voteInfo qc.ledgerCommitInfo = true ∧
      ((qc.voteInfo.round = 0 ∧ qc = genesisQC v.crypto) ∨
       (qc.voteInfo.round ≠ 0 ∧ voteInfoHash v.crypto qc.voteInfo = qc.ledgerCommitInfo.voteInfoHash ∧
        (commits qc.ledgerCommitInfo = true → consecutive qc.voteInfo.round qc.voteInfo.parentRound = true) ∧
        v.verifyCert (ledgerCommitDigest v.crypto qc.ledgerCommitInfo) qc.signatures.elems = true ∧
        (qc.authorSig.getD default).signer = qc.author ∧
        verifySig v.crypto (qcSigsDigest v.crypto qc.signatures) (qc.authorSig.getD default) = true)) := by
  simp only [verifyQC, qcRound]
  by_cases h1 : validVote qc.voteInfo qc.ledgerCommitInfo = true
  · by_cases h2 : qc.voteInfo.round = 0
    · simp [h1, h2]
    · by_cases h3 : voteInfoHash v.crypto qc.voteInfo = qc.ledgerCommitInfo.voteInfoHash
      · by_cases h4 : commits qc.ledgerCommitInfo = true → consecutive qc.voteInfo.round qc.voteInfo.parentRound = true
        · have h4' : (commits qc.ledgerCommitInfo && !consecutive qc.voteInfo.round qc.voteInfo.parentRound) =
            false := by
            cases hc : commits qc.ledgerCommitInfo
            · rfl
            · simp [h4 hc]
          by_cases h5 : v.verifyCert (ledgerCommitDigest v.crypto qc.ledgerCommitInfo) qc.signatures.elems = true
          · simp [h1, h2, h3, h4', h5]
            tauto
          · simp [h1, h2, h3, h4', h5]
        · have h4' : (commits qc.ledgerCommitInfo && !consecutive qc.voteInfo.round qc.voteInfo.parentRound) =
            true := by
            push Not at h4
            simpa using h4
          simp [h1, h2, h3, h4', h4]
      · simp [h1, h2, h3]
  · simp [h1]

theorem verifyTC_iff (tc : TimeoutCert) :
    v.verifyTC (some tc) = true ↔ tc.round ≠ 0 ∧
      tc.votes.Pairwise (fun x y => x.sig.signer < y.sig.signer) ∧
      (∀ t ∈ tc.votes, verifySig v.crypto (timeoutDigest v.crypto tc.round t.highQcRound) t.sig = true) ∧
      v.quorum ≤ tc.votes.length := by
  simp only [verifyTC]
  by_cases h0 : tc.round = 0
  · simp [h0]
  · rw [if_neg (by simpa using h0), Bool.and_eq_true, certLoop_iff, decide_eq_true_eq]
    simp [h0, and_assoc]

theorem verifyProposal_iff (p : ProposalMsg) (b : Block) (hb : p.block = some b) :
    v.verifyProposal p = true ↔ wellFormedProposal p = true ∧ qcRound b.qc < b.round ∧
      validBlockID v.crypto b = true ∧ p.sig.signer = p.sender ∧ verifySig v.crypto b.id p.sig = true ∧
      v.verifyQC b.qc = true ∧ v.verifyCommitQC p.highCommitQc = true ∧ v.verifyTC p.lastRoundTc = true := by
  simp only [verifyProposal, validBlockID, hb, Option.getD_some]
  by_cases h1 : wellFormedProposal p = true
  · by_cases h2 : b.round ≤ qcRound b.qc
    · simp [h1, h2, UInt64.not_lt.2 h2]
    · by_cases h3 : blockID v.crypto b.author b.round b.payload b.qc = b.id
      · by_cases h4 : p.sig.signer = p.sender
        · by_cases h5 : verifySig v.crypto b.id p.sig = true
          · simp [h1, h2, h3, h4, h5, and_assoc, UInt64.not_le.1 h2]
          · simp [h1, h2, h3, h4, h5]
        · simp [h1, h2, h3, h4]
      · simp [h1, h2, h3]
  · simp [h1]

theorem verifyTimeout_iff (m : TimeoutMsg) :
    v.verifyTimeout m = true ↔ wellFormedTimeout m = true ∧ m.tmoInfo.sig.signer = m.tmoInfo.sender ∧
      verifySig v.crypto (timeoutDigest v.crypto m.tmoInfo.round (qcRound m.tmoInfo.highQc)) m.tmoInfo.sig = true ∧
      v.verifyQC m.tmoInfo.highQc = true ∧ v.verifyCommitQC m.highCommitQc = true ∧
      v.verifyTC m.lastRoundTc = true := by
  simp only [verifyTimeout]
  by_cases h1 : wellFormedTimeout m = true
  · by_cases h2 : m.tmoInfo.sig.signer = m.tmoInfo.sender
    · by_cases h3 : verifySig v.crypto (timeoutDigest v.crypto m.tmoInfo.round (qcRound m.tmoInfo.highQc))
          m.tmoInfo.sig = true
      · simp [h1, h2, h3, and_assoc]
      · simp [h1, h2, h3]
    · simp [h1, h2]
  · simp [h1]

theorem verifyVote_iff (m : VoteMsg) :
    v.verifyVote m = true ↔ m.sig.signer = m.sender ∧ validVote m.voteInfo m.ledgerCommitInfo = true ∧
      voteInfoHash v.crypto m.voteInfo = m.ledgerCommitInfo.voteInfoHash ∧
      verifySig v.crypto (ledgerCommitDigest v.crypto m.ledgerCommitInfo) m.sig = true ∧
      v.verifyCommitQC m.highCommitQc = true := by
  simp only [verifyVote]
  by_cases h1 : m.sig.signer = m.sender
  · by_cases h2 : validVote m.voteInfo m.ledgerCommitInfo = true
    · by_cases h3 : voteInfoHash v.crypto m.voteInfo = m.ledgerCommitInfo.voteInfoHash
      · by_cases h4 : verifySig v.crypto (ledgerCommitDigest v.crypto m.ledgerCommitInfo) m.sig = true
        · simp [h1, h2, h3, h4]
        · simp [h1, h2, h3, h4]
      · simp [h1, h2, h3]
    · simp [h1, h2]
  · simp [h1]

theorem verifyBlock_iff (b : Block) (id : Bytes) :
    v.verifyBlock b id = true ↔ b.id = id ∧ v.crypto.sha256 b.bytes = id := by
  rw [verifyBlock, Bool.and_eq_true, beq_iff_eq, validBlockID_iff]
  constructor
  · rintro ⟨rfl, h⟩; exact ⟨rfl, h⟩
  · rintro ⟨rfl, h⟩; exact ⟨rfl, h⟩

/-! ## A fetched block -/

/-- The fields of a block the core reads after it is fetched. -/
def SameBlock (b₁ b₂ : Block) : Prop :=
  b₁.author = b₂.author ∧ b₁.round = b₂.round ∧ b₁.payload = b₂.payload ∧ b₁.qc = b₂.qc

/-- Two certificates agree on what no block id covers: whether there is one, how long the certified id is, the rest of
the vote info, the commit info, and the author with its signature. -/
def SameOutsideID : Option QuorumCert → Option QuorumCert → Prop
  | none,    none    => True
  | some q₁, some q₂ =>
    q₁.voteInfo.id.len = q₂.voteInfo.id.len ∧ q₁.voteInfo.round = q₂.voteInfo.round ∧
    q₁.voteInfo.parentId = q₂.voteInfo.parentId ∧ q₁.voteInfo.parentRound = q₂.voteInfo.parentRound ∧
    q₁.voteInfo.execStateId = q₂.voteInfo.execStateId ∧ q₁.ledgerCommitInfo = q₂.ledgerCommitInfo ∧
    q₁.author = q₂.author ∧ q₁.authorSig = q₂.authorSig
  | _,       _       => False

theorem sameOutsideID_of_eq (q : Option QuorumCert) : SameOutsideID q q := by
  cases q <;> simp [SameOutsideID]

/-- Another certificate that goes by the same id and signatures. -/
def forge (qc : Option QuorumCert) : QuorumCert :=
  match qc with
  | none    => default
  | some qc => { qc with voteInfo := { qc.voteInfo with round := qc.voteInfo.round + 1 } }

theorem forge_ne (qc : Option QuorumCert) : some (forge qc) ≠ qc := by
  cases qc with
  | none => simp
  | some qc =>
    intro h
    have hr : qc.voteInfo.round + 1 = qc.voteInfo.round :=
      congrArg (fun q : Option QuorumCert => qcRound q) h
    simp at hr

theorem bytes_forge (b : Block) : ({ b with qc := some (forge b.qc) } : Block).bytes = b.bytes := by
  unfold Block.bytes blockBytes
  cases b.qc <;> rfl

/-- **What a fetched block is pinned to.**  Two blocks accepted for one id are the same to the core exactly when their
certificates agree outside the id; so an id pins its block only if no block has it. -/
theorem verifyBlock_agrees_iff (hashed : Set (List UInt8)) (hcf : Set.InjOn v.crypto.sha256 hashed) (id : Bytes) :
    (∀ b₁ b₂ : Block, b₁.bytes ∈ hashed → b₂.bytes ∈ hashed → v.verifyBlock b₁ id = true → v.verifyBlock b₂ id = true →
      (SameBlock b₁ b₂ ↔ SameOutsideID b₁.qc b₂.qc)) ∧
    ((∀ b₁ b₂ : Block, b₁.bytes ∈ hashed → b₂.bytes ∈ hashed → v.verifyBlock b₁ id = true →
        v.verifyBlock b₂ id = true → SameBlock b₁ b₂) ↔
      ¬ ∃ b : Block, b.bytes ∈ hashed ∧ v.verifyBlock b id = true) := by
  refine ⟨fun b₁ b₂ hb₁ hb₂ h₁ h₂ => ⟨?_, fun hout => ?_⟩, fun h => ?_, fun h b₁ _ hb₁ _ h₁ _ => ?_⟩
  · rintro ⟨-, -, -, hqc⟩
    rw [hqc]
    exact sameOutsideID_of_eq b₂.qc
  · obtain ⟨-, h₁⟩ := (v.verifyBlock_iff b₁ id).1 h₁
    obtain ⟨-, h₂⟩ := (v.verifyBlock_iff b₂ id).1 h₂
    have hbytes : b₁.bytes = b₂.bytes := hcf hb₁ hb₂ (h₁.trans h₂.symm)
    have hlen : (certifiedID b₁.qc).len = (certifiedID b₂.qc).len := by
      cases hq₁ : b₁.qc <;> cases hq₂ : b₂.qc <;> simp only [hq₁, hq₂, SameOutsideID] at hout
      · rfl
      · exact hout.1
    obtain ⟨ha, hr, hp, hid, hs⟩ := blockBytes_inj hlen hbytes
    refine ⟨ha, hr, hp, ?_⟩
    cases hq₁ : b₁.qc with
    | none =>
      cases hq₂ : b₂.qc with
      | none => rfl
      | some q₂ => simp [hq₁, hq₂, SameOutsideID] at hout
    | some q₁ =>
      cases hq₂ : b₂.qc with
      | none => simp [hq₁, hq₂, SameOutsideID] at hout
      | some q₂ =>
        simp only [hq₁, hq₂, SameOutsideID, certifiedID, certSigs] at hout hid hs
        obtain ⟨-, h1, h2, h3, h4, h5, h6, h7⟩ := hout
        rcases q₁ with ⟨⟨_, _, _, _, _⟩, _, _, _, _⟩
        rcases q₂ with ⟨⟨_, _, _, _, _⟩, _, _, _, _⟩
        simp_all
  · rintro ⟨b, hb, hv⟩
    -- the block with its certificate's round raised goes by the same id
    have hv' : v.verifyBlock { b with qc := some (forge b.qc) } id = true := by
      rw [verifyBlock_iff, bytes_forge]
      exact (v.verifyBlock_iff b id).1 hv
    obtain ⟨-, -, -, hqc⟩ := h b { b with qc := some (forge b.qc) } hb (by rw [bytes_forge]; exact hb) hv hv'
    exact forge_ne b.qc hqc.symm
  · exact absurd ⟨b₁, hb₁, h₁⟩ h

/-- A hash with one digest, which is collision-free on one string. -/
def oneDigest : Crypto := ⟨fun _ => ⟨List.replicate 32 1, by decide⟩, fun _ => rfl, fun _ _ _ => true⟩

/-- The first block after genesis. -/
def firstBlock : Block := newBlock oneDigest 1 1 default (some (genesisQC oneDigest))

def forgedBlock : Block := { firstBlock with qc := some (forge firstBlock.qc) }

/-- **A fetched block is not the block**: the first block with another certificate is accepted in its place. -/
theorem verifyBlock_accepts_forged :
    ∃ (v : Verifier) (hashed : Set (List UInt8)) (id : Bytes) (b₁ b₂ : Block), Set.InjOn v.crypto.sha256 hashed ∧
      b₁.bytes ∈ hashed ∧ b₂.bytes ∈ hashed ∧ v.verifyBlock b₁ id = true ∧ v.verifyBlock b₂ id = true ∧
      qcRound b₁.qc ≠ qcRound b₂.qc ∧ ¬ SameBlock b₁ b₂ := by
  refine ⟨⟨oneDigest, 1⟩, {firstBlock.bytes}, firstBlock.id, firstBlock, forgedBlock, Set.injOn_singleton _ _, rfl,
    bytes_forge firstBlock, by decide, by decide, by decide, ?_⟩
  rintro ⟨-, -, -, hqc⟩
  exact forge_ne firstBlock.qc hqc.symm

/-- The first block, and the first block with another certificate. -/
theorem firstBlock_agrees_iff :
    Set.InjOn oneDigest.sha256 {firstBlock.bytes} ∧
      (SameBlock firstBlock forgedBlock ↔ SameOutsideID firstBlock.qc forgedBlock.qc) := by
  refine ⟨Set.injOn_singleton _ _, ?_⟩
  exact ((⟨oneDigest, 1⟩ : Verifier).verifyBlock_agrees_iff {firstBlock.bytes}
    (Set.injOn_singleton _ _) firstBlock.id).1
    firstBlock forgedBlock rfl (bytes_forge firstBlock) (by decide) (by decide)

end Verifier

end Diem

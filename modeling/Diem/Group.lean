import Mathlib.Data.Finset.Basic
import Mathlib.Data.Finset.Card
import Diem.Quorum
import Diem.Safety
/-!
# Group — validators, adversary, and what cryptography is taken to give

A `Group` is a validator set with its Byzantine members and the strings anybody hashes.  Nothing else is assumed of the
adversary: a message is whatever `Verify` accepts.  Two assumptions stand for the cryptography.
- `CollisionFree`: no two of the hashed strings have one digest, and none has the all-zero one, which stands for no
  string at all.  (SHA-256 has collisions, since it maps to 32 bytes; the hashed strings are the ones that must have
  none.)
- `Unforgeable`: a signature that verifies under an honest key is over a digest its owner signed.
-/
namespace Diem

/-! ## What is signed, and what is hashed on the way -/

/-- **What a replica's key signs**: a vote and a timeout inside Safety, a proposal's block and a certificate's signature
set outside it. -/
inductive Signed where
  | vote (m : VoteMsg)
  | timeout (m : TimeoutInfo)
  | block (b : Block)
  | sigs (s : Slice Signature)

/-- The string whose digest the signature covers. -/
def Signed.bytes : Signed → List UInt8
  | .vote m    => ledgerCommitBytes m.ledgerCommitInfo
  | .timeout m => timeoutBytes m.round (qcRound m.highQc)
  | .block b   => b.bytes
  | .sigs s    => qcSigsBytes s

theorem Signed.eq_vote_of_bytes {x : Signed} {l : LedgerCommitInfo} (h : x.bytes = ledgerCommitBytes l) :
    ∃ m, x = .vote m ∧ ledgerCommitBytes m.ledgerCommitInfo = ledgerCommitBytes l := by
  cases x with
  | vote m => exact ⟨m, rfl, h⟩
  | timeout m => exact absurd (List.cons.inj h).1 (by decide)
  | block b => exact absurd (List.cons.inj h).1 (by decide)
  | sigs s => exact absurd (List.cons.inj h).1 (by decide)

theorem Signed.eq_timeout_of_bytes {x : Signed} {r q : UInt64} (h : x.bytes = timeoutBytes r q) :
    ∃ m, x = .timeout m ∧ m.round = r ∧ qcRound m.highQc = q := by
  cases x with
  | vote m => exact absurd (List.cons.inj h).1 (by decide)
  | timeout m => exact ⟨m, rfl, timeoutBytes_inj h⟩
  | block b => exact absurd (List.cons.inj h).1 (by decide)
  | sigs s => exact absurd (List.cons.inj h).1 (by decide)

structure CollisionFree (cr : Crypto) (hashed : Set (List UInt8)) : Prop where
  inj    : Set.InjOn cr.sha256 hashed
  bottom : ∀ s ∈ hashed, cr.sha256 s ≠ zeroHash

/-- **A validator group.**  `Verify` knows the keys of its validators and no others. -/
structure Group where
  crypto        : Crypto
  validators    : List UInt32
  distinct      : validators.Nodup
  registered    : ∀ i d s, crypto.verify i d s = true → i ∈ validators
  byzantine     : Finset UInt32
  few           : byzantine.card ≤ faulty validators.length
  hashed        : Set (List UInt8)
  collisionFree : CollisionFree crypto hashed
  genesis       : (genesisBlock crypto).bytes ∈ hashed

namespace Group

variable (G : Group)

def Honest (i : UInt32) : Prop := i ∈ G.validators ∧ i ∉ G.byzantine

def verifier : Verifier := ⟨G.crypto, quorumSize G.validators.length⟩

/-- The strings `VerifyQC` hashes to bind a vote are among the hashed ones; a round-0 certificate is not hashed. -/
def KnownQC (qc : Option QuorumCert) : Prop :=
  ∀ q ∈ qc, q.voteInfo.round ≠ 0 →
    voteInfoBytes q.voteInfo ∈ G.hashed ∧ ledgerCommitBytes q.ledgerCommitInfo ∈ G.hashed

def KnownTC (tc : Option TimeoutCert) : Prop :=
  ∀ t ∈ tc, ∀ w ∈ t.votes, timeoutBytes t.round w.highQcRound ∈ G.hashed

/-- **A certificate `VerifyQC` accepts**, its strings hashed. -/
def AcceptsQC (qc : Option QuorumCert) : Prop := G.verifier.verifyQC qc = true ∧ G.KnownQC qc

/-- **A TC `VerifyTC` accepts**, likewise; an absent one is accepted. -/
def AcceptsTC (tc : Option TimeoutCert) : Prop := G.verifier.verifyTC tc = true ∧ G.KnownTC tc

/-- **A validly identified block.** -/
def IsBlock (b : Block) : Prop := validBlockID G.crypto b = true ∧ b.bytes ∈ G.hashed

/-- One step down the parent chain, on ids: some validly identified block has the first id and names the second, a
full-length one, as its parent's. -/
def Parent (x y : Bytes) : Prop := ∃ b, G.IsBlock b ∧ b.id = x ∧ parentID b = y ∧ y.len = hashLen

/-- **Unforgeable signatures**: `log` holds who signed what. -/
def Unforgeable (log : List (UInt32 × Signed)) : Prop :=
  ∀ i, G.Honest i → ∀ d s, G.crypto.verify i d s = true → ∃ x, (i, x) ∈ log ∧ G.crypto.sha256 x.bytes = d

/-! ## Blocks and their ids -/

variable {G}

theorem IsBlock.bytes_eq {b b' : Block} (h : G.IsBlock b) (h' : G.IsBlock b') (hid : b.id = b'.id) :
    b.bytes = b'.bytes := by
  refine G.collisionFree.inj h.2 h'.2 ?_
  rw [(validBlockID_iff _ _).1 h.1, (validBlockID_iff _ _).1 h'.1, hid]

theorem IsBlock.id_len {b : Block} (h : G.IsBlock b) : b.id.len = hashLen := by
  rw [← (validBlockID_iff _ _).1 h.1]
  exact G.crypto.sha256_len _

theorem IsBlock.id_ne_zeroHash {b : Block} (h : G.IsBlock b) : b.id ≠ zeroHash := by
  rw [← (validBlockID_iff _ _).1 h.1]
  exact G.collisionFree.bottom _ h.2

/-- Blocks of one id have one round. -/
theorem IsBlock.round_eq {b b' : Block} (h : G.IsBlock b) (h' : G.IsBlock b') (hid : b.id = b'.id) :
    b.round = b'.round := (blockBytes_inj_head (h.bytes_eq h' hid)).2.1

/-- Blocks of one id whose certified ids are as long have one parent. -/
theorem IsBlock.parent_eq {b b' : Block} (h : G.IsBlock b) (h' : G.IsBlock b') (hid : b.id = b'.id)
    (hlen : (parentID b).len = (parentID b').len) : parentID b = parentID b' := by
  rw [parentID_eq, parentID_eq] at hlen ⊢
  exact (blockBytes_inj hlen (h.bytes_eq h' hid)).2.2.2.1

theorem isBlock_genesis (G : Group) : G.IsBlock (genesisBlock G.crypto) :=
  ⟨validBlockID_newBlock _ _ _ _ _, G.genesis⟩

theorem acceptsTC_none (G : Group) : G.AcceptsTC none := ⟨rfl, by simp [KnownTC]⟩

/-- **The parent chain of an id is one chain.** -/
theorem Parent.unique {x y z : Bytes} (hy : G.Parent x y) (hz : G.Parent x z) : y = z := by
  obtain ⟨b, hb, hbx, rfl, hby⟩ := hy
  obtain ⟨b', hb', hbx', rfl, hbz⟩ := hz
  exact hb.parent_eq hb' (hbx.trans hbx'.symm) (hby.trans hbz.symm)

/-- **A vote's digest determines its content**, the vote info too, which the commit info binds by its hash. -/
theorem content_of_digest {v v' : VoteInfo} {l l' : LedgerCommitInfo} (hvalid : validVote v l = true)
    (hvalid' : validVote v' l' = true) (hbound : voteInfoHash G.crypto v = l.voteInfoHash)
    (hbound' : voteInfoHash G.crypto v' = l'.voteInfoHash)
    (hknown : voteInfoBytes v ∈ G.hashed ∧ ledgerCommitBytes l ∈ G.hashed)
    (hknown' : voteInfoBytes v' ∈ G.hashed ∧ ledgerCommitBytes l' ∈ G.hashed)
    (h : ledgerCommitDigest G.crypto l = ledgerCommitDigest G.crypto l') : v = v' ∧ l = l' := by
  obtain ⟨hid, hp, -, -, hh⟩ := (validVote_iff _ _).1 hvalid
  obtain ⟨hid', hp', -, -, hh'⟩ := (validVote_iff _ _).1 hvalid'
  have hl : l = l' := ledgerCommitBytes_inj (hh.trans hh'.symm) (G.collisionFree.inj hknown.2 hknown'.2 h)
  refine ⟨voteInfoBytes_inj (hid.trans hid'.symm) (hp.trans hp'.symm) (G.collisionFree.inj hknown.1 hknown'.1 ?_), hl⟩
  exact hbound.trans (hl ▸ hbound'.symm)

/-! ## Quorums -/

theorem quorum_meet {A B : Finset UInt32} (hA : ∀ i ∈ A, i ∈ G.validators)
    (hqA : quorumSize G.validators.length ≤ A.card) (hB : ∀ i ∈ B, i ∈ G.validators)
    (hqB : quorumSize G.validators.length ≤ B.card) : ∃ i, G.Honest i ∧ i ∈ A ∧ i ∈ B := by
  have hcard : G.validators.toFinset.card = G.validators.length := List.toFinset_card_of_nodup G.distinct
  have hlt : faulty G.validators.length < (A ∩ B).card :=
    Ballot.lt_card_inter (S := G.validators.toFinset) (fun i hi => List.mem_toFinset.2 (hA i hi))
      (fun i hi => List.mem_toFinset.2 (hB i hi)) hqA hqB (by rw [hcard]; exact lt_two_quorumSize _)
  obtain ⟨i, hi, hb⟩ := Ballot.exists_notMem_of_card_lt (Nat.lt_of_le_of_lt G.few hlt)
  rw [Finset.mem_inter] at hi
  exact ⟨i, ⟨hA i hi.1, hb⟩, hi.1, hi.2⟩

/-- Strictly increasing signers are different. -/
theorem signers_nodup {α : Type} {xs : List α} (sigOf : α → Signature)
    (hord : xs.Pairwise (fun x y => (sigOf x).signer < (sigOf y).signer)) :
    (xs.map (fun x => (sigOf x).signer)).Nodup := by
  refine List.Pairwise.map _ (fun a b hab heq => ?_) hord
  rw [heq] at hab
  exact absurd hab (by simp)

theorem signers_card {α : Type} {xs : List α} (sigOf : α → Signature)
    (hord : xs.Pairwise (fun x y => (sigOf x).signer < (sigOf y).signer)) :
    (xs.map (fun x => (sigOf x).signer)).toFinset.card = xs.length := by
  rw [List.toFinset_card_of_nodup (signers_nodup sigOf hord), List.length_map]

end Group

end Diem

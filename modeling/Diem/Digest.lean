import Diem.Encode
import Diem.Wire
/-!
# Digest — what a replica hashes and signs (`hash.go`, `genesis.go`)

Each digest is SHA-256 of a byte string, and the string is a definition of its own (`blockBytes` and its siblings), so
that "two digests are equal" can be told from "two strings are equal".  SHA-256 maps to 32 bytes and cannot be injective
on all strings; collision-freeness is assumed later, for the strings somebody hashed.  `blockID` writes only the id and
the signatures of the block's certificate (`blockBytes_inj`): its round, parent and commit info are outside the hash.
-/
namespace Diem

open Encode (beBytes beNat frame frames)

/-- **The primitives a replica is built on**: SHA-256, and the check half of `Crypto` (`seams.go`).  The signing half
is randomised, so it is an input of each step (`Env`). -/
structure Crypto where
  sha256     : List UInt8 → Bytes
  sha256_len : ∀ s, (sha256 s).len = hashLen
  verify     : UInt32 → Bytes → Bytes → Bool

def domainBlock        : UInt8 := 0x01
def domainVoteInfo     : UInt8 := 0x02
def domainLedgerCommit : UInt8 := 0x03
def domainTimeout      : UInt8 := 0x04
def domainQCSigs       : UInt8 := 0x05
def domainState        : UInt8 := 0x06

def writeUint64 (v : UInt64) : List UInt8 := beBytes 8 v.toNat

def writeUint32 (v : UInt32) : List UInt8 := beBytes 4 v.toNat

def writeBytes (b : Bytes) : List UInt8 := frame b.elems

def writeSig (s : Signature) : List UInt8 := writeUint32 s.signer ++ writeBytes s.sig

def writeSigs (sigs : Slice Signature) : List UInt8 := frames writeSig sigs.elems

def writePayload (payload : Payload) : List UInt8 := frames writeBytes payload.elems

/-- `qc.GetVoteInfo().GetId()`. -/
def certifiedID : Option QuorumCert → Bytes
  | none    => default
  | some qc => qc.voteInfo.id

/-- `qc.GetSignatures()`. -/
def certSigs : Option QuorumCert → Slice Signature
  | none    => default
  | some qc => qc.signatures

theorem parentID_eq (b : Block) : parentID b = certifiedID b.qc := by
  unfold parentID certifiedID; cases b.qc <;> rfl

/-! ## The strings -/

def blockBytes (author : UInt32) (round : UInt64) (payload : Payload) (qc : Option QuorumCert) : List UInt8 :=
  domainBlock :: (writeUint32 author ++ (writeUint64 round ++ (writePayload payload ++
    ((certifiedID qc).elems ++ writeSigs (certSigs qc)))))

def voteInfoBytes (v : VoteInfo) : List UInt8 :=
  domainVoteInfo :: (v.id.elems ++ (writeUint64 v.round ++ (v.parentId.elems ++
    (writeUint64 v.parentRound ++ v.execStateId.elems))))

def ledgerCommitBytes (l : LedgerCommitInfo) : List UInt8 :=
  domainLedgerCommit :: (l.commitStateId.elems ++ l.voteInfoHash.elems)

def timeoutBytes (round highQCRound : UInt64) : List UInt8 :=
  domainTimeout :: (writeUint64 round ++ writeUint64 highQCRound)

def qcSigsBytes (sigs : Slice Signature) : List UInt8 := domainQCSigs :: writeSigs sigs

def executeBytes (prev : Bytes) (payload : Payload) : List UInt8 :=
  domainState :: (prev.elems ++ writePayload payload)

/-- The string a block's id is the hash of. -/
def Block.bytes (b : Block) : List UInt8 := blockBytes b.author b.round b.payload b.qc

/-! ## The digests -/

section

variable (cr : Crypto)

/-- The paper's hash(author || round || payload || qc.vote_info.id || qc.signatures). -/
def blockID (author : UInt32) (round : UInt64) (payload : Payload) (qc : Option QuorumCert) : Bytes :=
  cr.sha256 (blockBytes author round payload qc)

def voteInfoHash (v : VoteInfo) : Bytes := cr.sha256 (voteInfoBytes v)

/-- What a vote signature covers. -/
def ledgerCommitDigest (l : LedgerCommitInfo) : Bytes := cr.sha256 (ledgerCommitBytes l)

/-- What a timeout signature covers: the round abandoned, and the signer's own highest certified round. -/
def timeoutDigest (round highQCRound : UInt64) : Bytes := cr.sha256 (timeoutBytes round highQCRound)

/-- What a certificate's author signature covers. -/
def qcSigsDigest (sigs : Slice Signature) : Bytes := cr.sha256 (qcSigsBytes sigs)

/-- The default speculative execution: a hash chain over the previous state and the payload. -/
def executeHash (prev : Bytes) (payload : Payload) : Bytes := cr.sha256 (executeBytes prev payload)

/-- `NewBlock` (`types.go`). -/
def newBlock (author : UInt32) (round : UInt64) (payload : Payload) (qc : Option QuorumCert) : Block :=
  { author, round, payload, qc, id := blockID cr author round payload qc }

/-! ## Genesis (`genesis.go`) -/

def zeroQC (id : Bytes) : QuorumCert where
  voteInfo         := { id, round := 0, parentId := zeroHash, parentRound := 0, execStateId := zeroHash }
  ledgerCommitInfo := { commitStateId := zeroHash, voteInfoHash := zeroHash }
  signatures       := default
  author           := 0
  authorSig        := none

/-- The certificate the genesis block carries; it certifies nothing. -/
def genesisSeedQC : QuorumCert := zeroQC zeroHash

def genesisBlock : Block := newBlock cr 0 0 default (some genesisSeedQC)

/-- The certificate a round-1 proposal extends. -/
def genesisQC : QuorumCert := zeroQC (genesisBlock cr).id

end

/-! ## What a string determines -/

theorem writeUint64_append_inj {a b : UInt64} {r s : List UInt8} (h : writeUint64 a ++ r = writeUint64 b ++ s) :
    a = b ∧ r = s := by
  obtain ⟨h1, h2⟩ := Encode.be_append_inj (by simpa using a.toNat_lt) (by simpa using b.toNat_lt) h
  exact ⟨UInt64.toNat_inj.1 h1, h2⟩

theorem writeUint32_append_inj {a b : UInt32} {r s : List UInt8} (h : writeUint32 a ++ r = writeUint32 b ++ s) :
    a = b ∧ r = s := by
  obtain ⟨h1, h2⟩ := Encode.be_append_inj (by simpa using a.toNat_lt) (by simpa using b.toNat_lt) h
  exact ⟨UInt32.toNat_inj.1 h1, h2⟩

theorem Slice.lt_two_pow {α : Type} (s : Slice α) : s.elems.length < 2 ^ 64 :=
  Nat.lt_trans s.fits (by decide)

theorem writeBytes_append_inj {a b : Bytes} {r s : List UInt8} (h : writeBytes a ++ r = writeBytes b ++ s) :
    a = b ∧ r = s := by
  obtain ⟨h1, h2⟩ := Encode.frame_append_inj a.lt_two_pow b.lt_two_pow h
  exact ⟨Slice.ext' h1, h2⟩

theorem writeSig_append_inj {a b : Signature} {r s : List UInt8} (h : writeSig a ++ r = writeSig b ++ s) :
    a = b ∧ r = s := by
  unfold writeSig at h
  rw [List.append_assoc, List.append_assoc] at h
  obtain ⟨h1, h⟩ := writeUint32_append_inj h
  obtain ⟨h2, h⟩ := writeBytes_append_inj h
  refine ⟨?_, h⟩
  cases a; cases b
  cases h1; cases h2; rfl

theorem writePayload_append_inj {a b : Payload} {r s : List UInt8} (h : writePayload a ++ r = writePayload b ++ s) :
    a = b ∧ r = s := by
  obtain ⟨h1, h2⟩ := Encode.frames_append_inj writeBytes (fun _ _ _ _ => writeBytes_append_inj)
    a.lt_two_pow b.lt_two_pow h
  exact ⟨Slice.ext' h1, h2⟩

theorem writeSigs_inj {a b : Slice Signature} (h : writeSigs a = writeSigs b) : a = b := by
  have h' : writeSigs a ++ [] = writeSigs b ++ [] := by rw [h]
  exact Slice.ext' (Encode.frames_append_inj writeSig (fun _ _ _ _ => writeSig_append_inj)
    a.lt_two_pow b.lt_two_pow h').1

/-- **What a block's string determines for certain**: author, round and payload.  The certified id has no length of
its own in the string. -/
theorem blockBytes_inj_head {a a' : UInt32} {r r' : UInt64} {p p' : Payload} {qc qc' : Option QuorumCert}
    (h : blockBytes a r p qc = blockBytes a' r' p' qc') :
    a = a' ∧ r = r' ∧ p = p' ∧
      (certifiedID qc).elems ++ writeSigs (certSigs qc) = (certifiedID qc').elems ++ writeSigs (certSigs qc') := by
  unfold blockBytes at h
  obtain ⟨-, h⟩ := List.cons.inj h
  obtain ⟨h1, h⟩ := writeUint32_append_inj h
  obtain ⟨h2, h⟩ := writeUint64_append_inj h
  obtain ⟨h3, h⟩ := writePayload_append_inj h
  exact ⟨h1, h2, h3, h⟩

/-- **Once the certified ids are of one length, the string determines them and the signatures too.** -/
theorem blockBytes_inj {a a' : UInt32} {r r' : UInt64} {p p' : Payload} {qc qc' : Option QuorumCert}
    (hl : (certifiedID qc).len = (certifiedID qc').len) (h : blockBytes a r p qc = blockBytes a' r' p' qc') :
    a = a' ∧ r = r' ∧ p = p' ∧ certifiedID qc = certifiedID qc' ∧ certSigs qc = certSigs qc' := by
  obtain ⟨h1, h2, h3, h⟩ := blockBytes_inj_head h
  obtain ⟨h4, h5⟩ := List.append_inj h hl
  exact ⟨h1, h2, h3, Slice.ext' h4, writeSigs_inj h5⟩

theorem voteInfoBytes_inj {v w : VoteInfo} (hid : v.id.len = w.id.len) (hp : v.parentId.len = w.parentId.len)
    (h : voteInfoBytes v = voteInfoBytes w) : v = w := by
  unfold voteInfoBytes at h
  obtain ⟨-, h⟩ := List.cons.inj h
  obtain ⟨h1, h⟩ := List.append_inj h hid
  obtain ⟨h2, h⟩ := writeUint64_append_inj h
  obtain ⟨h3, h⟩ := List.append_inj h hp
  obtain ⟨h4, h⟩ := writeUint64_append_inj h
  cases v; cases w
  cases Slice.ext' h1; cases h2; cases Slice.ext' h3; cases h4; cases Slice.ext' h; rfl

/-- The vote info hash ends the string, so its length alone settles where it begins. -/
theorem ledgerCommitBytes_inj {l m : LedgerCommitInfo} (hh : l.voteInfoHash.len = m.voteInfoHash.len)
    (h : ledgerCommitBytes l = ledgerCommitBytes m) : l = m := by
  unfold ledgerCommitBytes at h
  obtain ⟨-, h⟩ := List.cons.inj h
  obtain ⟨h1, h2⟩ := List.append_inj' h hh
  cases l; cases m
  cases Slice.ext' h1; cases Slice.ext' h2; rfl

theorem timeoutBytes_inj {r h r' h' : UInt64} (e : timeoutBytes r h = timeoutBytes r' h') : r = r' ∧ h = h' := by
  unfold timeoutBytes at e
  obtain ⟨-, e⟩ := List.cons.inj e
  obtain ⟨h1, e⟩ := writeUint64_append_inj e
  refine ⟨h1, ?_⟩
  have e' : writeUint64 h ++ [] = writeUint64 h' ++ [] := by rw [e]
  exact (writeUint64_append_inj e').1

theorem qcSigsBytes_inj {a b : Slice Signature} (h : qcSigsBytes a = qcSigsBytes b) : a = b :=
  writeSigs_inj (List.cons.inj h).2

theorem executeBytes_inj {prev prev' : Bytes} {p p' : Payload} (hl : prev.len = prev'.len)
    (h : executeBytes prev p = executeBytes prev' p') : prev = prev' ∧ p = p' := by
  unfold executeBytes at h
  obtain ⟨-, h⟩ := List.cons.inj h
  obtain ⟨h1, h⟩ := List.append_inj h hl
  have h' : writePayload p ++ [] = writePayload p' ++ [] := by rw [h]
  exact ⟨Slice.ext' h1, (writePayload_append_inj h').1⟩

/-! ## The six kinds of string together -/

/-- **What is hashed**: a call of one of the six digest functions. -/
inductive Preimage where
  | block (author : UInt32) (round : UInt64) (payload : Payload) (qc : Option QuorumCert)
  | voteInfo (v : VoteInfo)
  | ledgerCommit (l : LedgerCommitInfo)
  | timeout (round highQCRound : UInt64)
  | qcSigs (sigs : Slice Signature)
  | execute (prev : Bytes) (payload : Payload)

namespace Preimage

/-- What the call returns. -/
def digest (cr : Crypto) : Preimage → Bytes
  | block author round payload qc => blockID cr author round payload qc
  | voteInfo v                    => voteInfoHash cr v
  | ledgerCommit l                => ledgerCommitDigest cr l
  | timeout round highQCRound     => timeoutDigest cr round highQCRound
  | qcSigs sigs                   => qcSigsDigest cr sigs
  | execute prev payload          => executeHash cr prev payload

/-- What the call feeds to SHA-256. -/
def bytes : Preimage → List UInt8
  | block author round payload qc => blockBytes author round payload qc
  | voteInfo v                    => voteInfoBytes v
  | ledgerCommit l                => ledgerCommitBytes l
  | timeout round highQCRound     => timeoutBytes round highQCRound
  | qcSigs sigs                   => qcSigsBytes sigs
  | execute prev payload          => executeBytes prev payload

/-- The hashes that go in without a length are hashes. -/
def Fixed : Preimage → Prop
  | block _ _ _ qc => (certifiedID qc).len = hashLen
  | voteInfo v     => v.id.len = hashLen ∧ v.parentId.len = hashLen ∧ v.execStateId.len = hashLen
  | ledgerCommit l => l.commitStateId.len = hashLen ∧ l.voteInfoHash.len = hashLen
  | timeout _ _    => True
  | qcSigs _       => True
  | execute prev _ => prev.len = hashLen

/-- The same function, called on the same: of a block's certificate, on the same certified id and signatures. -/
def Same : Preimage → Preimage → Prop
  | block a r p qc, block a' r' p' qc' =>
    a = a' ∧ r = r' ∧ p = p' ∧ certifiedID qc = certifiedID qc' ∧ certSigs qc = certSigs qc'
  | x, y => x = y

/-- The byte each string starts with. -/
def domain : Preimage → UInt8
  | block _ _ _ _  => domainBlock
  | voteInfo _     => domainVoteInfo
  | ledgerCommit _ => domainLedgerCommit
  | timeout _ _    => domainTimeout
  | qcSigs _       => domainQCSigs
  | execute _ _    => domainState

theorem digest_eq (cr : Crypto) (x : Preimage) : x.digest cr = cr.sha256 x.bytes := by
  cases x <;> rfl

theorem head_bytes (x : Preimage) : x.bytes.head? = some x.domain := by
  cases x <;> rfl

theorem Same.bytes_eq {x y : Preimage} (h : x.Same y) : x.bytes = y.bytes := by
  cases x with
  | block a r p qc =>
    cases y with
    | block a' r' p' qc' =>
      obtain ⟨rfl, rfl, rfl, hid, hsigs⟩ := h
      simp only [bytes, blockBytes, hid, hsigs]
    | _ => cases h
  | _ => cases h; rfl

/-- **The digest functions are injective, and apart from each other**: each hashes a string of its own, and two calls
feed the same string to SHA-256 only if they are of one function on the same arguments. -/
theorem digests_separate (cr : Crypto) (x y : Preimage) (hx : x.Fixed) (hy : y.Fixed) :
    x.digest cr = cr.sha256 x.bytes ∧ y.digest cr = cr.sha256 y.bytes ∧ (x.bytes = y.bytes ↔ x.Same y) := by
  refine ⟨x.digest_eq cr, y.digest_eq cr, fun h => ?_, Same.bytes_eq⟩
  have hdomain : x.domain = y.domain := by
    have hhead := x.head_bytes
    rw [h, y.head_bytes] at hhead
    exact (Option.some.inj hhead).symm
  -- the strings of two functions differ in their first byte; those of one are taken apart
  cases x with
  | block a r p qc =>
    cases y with
    | block a' r' p' qc' => exact blockBytes_inj (hx.trans hy.symm) h
    | _ => cases hdomain
  | voteInfo v =>
    cases y with
    | voteInfo w => exact congrArg voteInfo (voteInfoBytes_inj (hx.1.trans hy.1.symm) (hx.2.1.trans hy.2.1.symm) h)
    | _ => cases hdomain
  | ledgerCommit l =>
    cases y with
    | ledgerCommit m => exact congrArg ledgerCommit (ledgerCommitBytes_inj (hx.2.trans hy.2.symm) h)
    | _ => cases hdomain
  | timeout r q =>
    cases y with
    | timeout r' q' =>
      obtain ⟨rfl, rfl⟩ := timeoutBytes_inj h
      rfl
    | _ => cases hdomain
  | qcSigs sigs =>
    cases y with
    | qcSigs sigs' => exact congrArg qcSigs (qcSigsBytes_inj h)
    | _ => cases hdomain
  | execute prev payload =>
    cases y with
    | execute prev' payload' =>
      obtain ⟨rfl, rfl⟩ := executeBytes_inj (hx.trans hy.symm) h
      rfl
    | _ => cases hdomain

/-- Two payloads, `[ab]` and `[a, b]`, give two ids, and the first is no state either. -/
theorem payloads_separate :
    ∃ p p' : Payload, (block 1 1 p (some genesisSeedQC)).bytes ≠ (block 1 1 p' (some genesisSeedQC)).bytes ∧
      (block 1 1 p (some genesisSeedQC)).bytes ≠ (execute zeroHash p).bytes := by
  let cr : Crypto := ⟨fun _ => zeroHash, fun _ => rfl, fun _ _ _ => true⟩
  have hblock (p : Payload) : (block 1 1 p (some genesisSeedQC)).Fixed := rfl
  refine ⟨⟨[⟨[97, 98], by decide⟩], by decide⟩, ⟨[⟨[97], by decide⟩, ⟨[98], by decide⟩], by decide⟩,
    fun h => ?_, fun h => ?_⟩
  · obtain ⟨-, -, hpayload, -⟩ := (digests_separate cr _ _ (hblock _) (hblock _)).2.2.1 h
    exact absurd hpayload (by decide)
  · cases (digests_separate cr _ (execute zeroHash _) (hblock _) rfl).2.2.1 h

end Preimage

end Diem

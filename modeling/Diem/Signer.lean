import Diem.Der
import Diem.Play
/-!
# Signer — one wire form for a signature (`crypto/ecdsa.go`)

ECDSA takes `(r, s)` and `(r, N - s)` for the same signature, and a block's id hashes the signatures of its parent's
certificate byte for byte.  `Signer` signs and accepts the lower of the two only.  `VerifyASN1` insists on the
distinguished encoding and the certificate check on the order of the signers, so a quorum has one wire form, and over it
a block has one id.
-/
namespace Diem

/-- The order of P-256. -/
def curveOrder : Int := 0xffffffff00000000ffffffffffffffffbce6faada7179e84f3b9cac2fc632551

def halfOrder : Int := curveOrder >>> (1 : Nat)

/-- **Go's `crypto/ecdsa`**, and what is assumed of it: `VerifyASN1` accepts distinguished encodings only, of an `s` in
range, and `(r, s)` exactly if it accepts `(r, N - s)`.  `SignASN1` is also given what its random source yields. -/
structure Ecdsa (PublicKey PrivateKey : Type) where
  signASN1   : PrivateKey → Nat → Bytes → Option Bytes
  verifyASN1 : PublicKey → Bytes → Bytes → Bool
  strict     : ∀ pub digest sig, verifyASN1 pub digest sig = true →
                 ∃ r s, sig.elems = Der.marshal (r, s) ∧ 1 ≤ s ∧ s < curveOrder
  twin       : ∀ pub digest (sig sig' : Bytes) r s, sig.elems = Der.marshal (r, s) →
                 sig'.elems = Der.marshal (r, curveOrder - s) →
                 (verifyASN1 pub digest sig = true ↔ verifyASN1 pub digest sig' = true)

structure Signer (PublicKey PrivateKey : Type) where
  key  : PrivateKey
  keys : Table UInt32 PublicKey

/-- `asn1.Marshal`; a string longer than an `int` does not exist. -/
def marshalSig (r s : Int) : Option Bytes :=
  if h : (Der.marshal (r, s)).length < 2 ^ 63 then some ⟨Der.marshal (r, s), h⟩ else none

namespace Signer

variable {PublicKey PrivateKey : Type} (E : Ecdsa PublicKey PrivateKey)

def sign (S : Signer PublicKey PrivateKey) (rand : Nat) (digest : Bytes) : Option Bytes :=
  match E.signASN1 S.key rand digest with
  | none     => none
  | some der =>
    match Der.unmarshal der.elems with
    | none        => none
    | some (r, s) => if s ≤ halfOrder then some der else marshalSig r (curveOrder - s)

def verify (S : Signer PublicKey PrivateKey) (signer : UInt32) (digest sig : Bytes) : Bool :=
  match S.keys.lookup signer with
  | none     => false
  | some pub =>
    match Der.unmarshal sig.elems with
    | none        => false
    | some (_, s) => if halfOrder < s then false else E.verifyASN1 pub digest sig

/-- The signer in a replica's `Crypto`. -/
def crypto (S : Signer PublicKey PrivateKey) (cr : Crypto) : Crypto := { cr with verify := S.verify E }

end Signer

/-- **The same signature, as ECDSA has it**: of one signer, with the same `r` and the same `s` or its twin. -/
def Signature.Alike (x y : Signature) : Prop :=
  x.signer = y.signer ∧ ∃ r s s', Der.unmarshal x.sig.elems = some (r, s) ∧ Der.unmarshal y.sig.elems = some (r, s') ∧
    (s' = s ∨ s' = curveOrder - s)

/-- **One quorum**: each list has the signatures of the other. -/
def OneQuorum (xs ys : List Signature) : Prop :=
  (∀ x ∈ xs, ∃ y ∈ ys, x.Alike y) ∧ ∀ y ∈ ys, ∃ x ∈ xs, x.Alike y

theorem OneQuorum.nil : OneQuorum [] [] :=
  ⟨fun _ hx => absurd hx List.not_mem_nil, fun _ hy => absurd hy List.not_mem_nil⟩

theorem OneQuorum.cons {x y : Signature} {xs ys : List Signature} (h : x.Alike y) (hs : OneQuorum xs ys) :
    OneQuorum (x :: xs) (y :: ys) := by
  constructor
  · intro z hz
    rcases List.mem_cons.1 hz with rfl | hz
    · exact ⟨y, List.mem_cons_self, h⟩
    · obtain ⟨z', hz', halike⟩ := hs.1 z hz
      exact ⟨z', List.mem_cons_of_mem _ hz', halike⟩
  · intro z hz
    rcases List.mem_cons.1 hz with rfl | hz
    · exact ⟨x, List.mem_cons_self, h⟩
    · obtain ⟨z', hz', halike⟩ := hs.2 z hz
      exact ⟨z', List.mem_cons_of_mem _ hz', halike⟩

/-! ## The lower of the two -/

theorem two_halfOrder : 2 * halfOrder + 1 = curveOrder := by decide

/-- The order is odd: no `s` is its own twin, and of two twins one is above the half. -/
theorem eq_of_low {s s' : Int} (h : s ≤ halfOrder) (h' : s' ≤ halfOrder) (htwin : s' = s ∨ s' = curveOrder - s) :
    s' = s := by
  have := two_halfOrder
  omega

/-- The twin of an `s` above the half is no longer. -/
theorem twin_body {r s : Int} (hhigh : ¬ s ≤ halfOrder) (hlt : s < curveOrder) (h : (Der.body (r, s)).length < 2 ^ 31) :
    (Der.body (r, curveOrder - s)).length < 2 ^ 31 := by
  have hhalf := two_halfOrder
  have hpos : 0 ≤ curveOrder - s := by omega
  have hle : curveOrder - s ≤ s := by omega
  exact Nat.lt_of_le_of_lt (Der.length_body_mono r hpos hle) h

section

variable {PublicKey PrivateKey : Type} {E : Ecdsa PublicKey PrivateKey} {S : Signer PublicKey PrivateKey} {cr : Crypto}

/-- What `VerifyASN1` accepts is what is read from it, in the distinguished encoding. -/
theorem Ecdsa.strict_eq {pub : PublicKey} {digest sig : Bytes} (h : E.verifyASN1 pub digest sig = true) {r s : Int}
    (hrs : Der.unmarshal sig.elems = some (r, s)) :
    sig.elems = Der.marshal (r, s) ∧ (Der.body (r, s)).length < 2 ^ 31 ∧ 1 ≤ s ∧ s < curveOrder := by
  obtain ⟨r', s', hsig, hs⟩ := E.strict pub digest sig h
  have hfits := sig.fits
  rw [hsig] at hfits hrs
  obtain ⟨heq, hbody⟩ := Der.eq_of_unmarshal_marshal hfits hrs
  cases heq
  exact ⟨hsig, hbody, hs⟩

/-- **What `Verify` accepts**: a registered signer's signature, in the lower form and the distinguished encoding. -/
theorem Signer.verify_spec {i : UInt32} {digest sig : Bytes} (h : S.verify E i digest sig = true) :
    ∃ pub r s, S.keys.lookup i = some pub ∧ Der.unmarshal sig.elems = some (r, s) ∧ sig.elems = Der.marshal (r, s) ∧
      1 ≤ s ∧ s ≤ halfOrder := by
  unfold verify at h
  split at h
  · cases h
  rename_i pub hpub
  split at h
  · cases h
  rename_i r s hrs
  split at h
  · cases h
  rename_i hlow
  obtain ⟨hsig, -, hpos, -⟩ := Ecdsa.strict_eq h hrs
  exact ⟨pub, r, s, hpub, hrs, hsig, hpos, Int.not_lt.1 hlow⟩

/-- `Verify` knows the registered signers and no others. -/
theorem Signer.registered {i : UInt32} {digest sig : Bytes} (h : S.verify E i digest sig = true) : i ∈ S.keys.keys := by
  obtain ⟨pub, -, -, hpub, -⟩ := verify_spec h
  exact List.mem_keys_of_mem (AList.mem_lookup_iff.1 hpub)

/-- **A signature is accepted in one form.** -/
theorem Signer.accepted_eq {digest : Bytes} {x y : Signature} (hx : verifySig (S.crypto E cr) digest x = true)
    (hy : verifySig (S.crypto E cr) digest y = true) (h : x.Alike y) : x = y := by
  obtain ⟨hsigner, r, s, s', hrs, hrs', htwin⟩ := h
  obtain ⟨-, r₁, s₁, -, hread, hder, -, hlow⟩ := verify_spec hx
  obtain ⟨-, r₂, s₂, -, hread', hder', -, hlow'⟩ := verify_spec hy
  rw [hrs] at hread
  rw [hrs'] at hread'
  cases hread
  cases hread'
  obtain rfl := eq_of_low hlow hlow' htwin
  have hsig : x.sig = y.sig := Slice.ext' (hder.trans hder'.symm)
  cases x
  cases y
  cases hsigner
  cases hsig
  rfl

/-- **A certificate is accepted in one form**: no other order, no repetition and no other encoding of its signatures. -/
theorem Signer.verifyCert_eq {quorum : Nat} {digest : Bytes} {xs ys : List Signature}
    (hx : (Verifier.mk (S.crypto E cr) quorum).verifyCert digest xs = true)
    (hy : (Verifier.mk (S.crypto E cr) quorum).verifyCert digest ys = true) (h : OneQuorum xs ys) : xs = ys := by
  obtain ⟨hordx, hvx, -⟩ := (Verifier.verifyCert_iff _ _ _).1 hx
  obtain ⟨hordy, hvy, -⟩ := (Verifier.verifyCert_iff _ _ _).1 hy
  refine increasing_ext hordx hordy (fun z => ⟨fun hz => ?_, fun hz => ?_⟩)
  · obtain ⟨y, hy, halike⟩ := h.1 z hz
    rw [accepted_eq (hvx z hz) (hvy y hy) halike]
    exact hy
  · obtain ⟨x, hx, halike⟩ := h.2 z hz
    rw [← accepted_eq (hvx x hx) (hvy z hz) halike]
    exact hx

theorem Signer.verify_of_low {i : UInt32} {digest sig : Bytes} {pub : PublicKey} {r s : Int}
    (hpub : S.keys.lookup i = some pub) (hrs : Der.unmarshal sig.elems = some (r, s)) (hlow : s ≤ halfOrder)
    (hv : E.verifyASN1 pub digest sig = true) : S.verify E i digest sig = true := by
  simp only [verify, hpub, hrs, if_neg (Int.not_lt.2 hlow), hv]

section

variable {rand : Nat} {digest der : Bytes} {pub : PublicKey} (hder : E.signASN1 S.key rand digest = some der)
  (hv : E.verifyASN1 pub digest der = true)
include hder hv

/-- **What `Sign` returns, `Verify` accepts**, if `VerifyASN1` accepts what `SignASN1` returned. -/
theorem Signer.verify_sign {i : UInt32} {sig : Bytes} (hpub : S.keys.lookup i = some pub)
    (h : S.sign E rand digest = some sig) : S.verify E i digest sig = true := by
  unfold sign at h
  rw [hder] at h
  dsimp only at h
  split at h
  · cases h
  rename_i r s hrs
  split at h
  · rename_i hlow
    cases h
    exact verify_of_low hpub hrs hlow hv
  · -- above the half: the twin is below it, and accepted as well
    rename_i hhigh
    obtain ⟨hform, hbody, -, hlt⟩ := Ecdsa.strict_eq hv hrs
    have hhalf := two_halfOrder
    unfold marshalSig at h
    split at h
    · rename_i hfits
      cases h
      have hread : Der.unmarshal (Der.marshal (r, curveOrder - s)) = some (r, curveOrder - s) := by
        rw [Der.unmarshal_marshal hfits, if_pos (twin_body hhigh hlt hbody)]
      exact verify_of_low hpub hread (by omega) ((E.twin pub digest der _ r s hform rfl).1 hv)
    · cases h

/-- `Sign` returns where `SignASN1` does, unless a signature is of two gigabytes. -/
theorem Signer.sign_returns (hlen : der.len < 2 ^ 31) : ∃ sig, S.sign E rand digest = some sig := by
  obtain ⟨r, s, hform, hpos, hlt⟩ := E.strict pub digest der hv
  have hbody : (Der.body (r, s)).length < 2 ^ 31 := by
    have hless := Der.length_element Der.sequenceTag (Der.body (r, s))
    have hsame : der.len = (Der.element Der.sequenceTag (Der.body (r, s))).length := congrArg List.length hform
    omega
  have hfits := der.fits
  rw [hform] at hfits
  have hread : Der.unmarshal der.elems = some (r, s) := by rw [hform, Der.unmarshal_marshal hfits, if_pos hbody]
  simp only [sign, hder, hread]
  split
  · exact ⟨der, rfl⟩
  · rename_i hhigh
    rw [marshalSig, dif_pos (Der.length_marshal_lt (twin_body hhigh hlt hbody))]
    exact ⟨_, rfl⟩

end

/-! ## Block ids -/

/-- A block id reads a certificate's block and signatures, and nothing else of it. -/
theorem blockID_congr {q q' : QuorumCert} (hid : q.voteInfo.id = q'.voteInfo.id) (hsigs : q.signatures = q'.signatures)
    (author : UInt32) (round : UInt64) (payload : Payload) :
    blockID cr author round payload (some q) = blockID cr author round payload (some q') := by
  rw [blockID, blockID, blockBytes, blockBytes, certifiedID, certifiedID, certSigs, certSigs, hid, hsigs]

theorem OneQuorum.eq_nil {xs ys : List Signature} (h : OneQuorum xs ys) : xs = [] ↔ ys = [] := by
  constructor
  · rintro rfl
    refine List.eq_nil_iff_forall_not_mem.2 (fun y hy => ?_)
    obtain ⟨x, hx, -⟩ := h.2 y hy
    cases hx
  · rintro rfl
    refine List.eq_nil_iff_forall_not_mem.2 (fun x hx => ?_)
    obtain ⟨y, hy, -⟩ := h.1 x hx
    cases hy

/-- An accepted certificate without signatures is the genesis one. -/
theorem Group.AcceptsQC.signatures_nil_iff {G : Group} {q : QuorumCert} (h : G.AcceptsQC (some q)) :
    q.signatures.elems = [] ↔ q.voteInfo.round = 0 := by
  constructor
  · intro hnil
    rcases ((G.verifier.verifyQC_iff q).1 h.1).2 with ⟨h0, -⟩ | ⟨-, -, -, hcert, -⟩
    · exact h0
    · have hquorum := ((G.verifier.verifyCert_iff _ _).1 hcert).2.2
      rw [hnil] at hquorum
      exact absurd hquorum (Nat.not_le.2 (Nat.zero_lt_of_lt (faulty_lt_quorumSize _)))
  · intro h0
    rw [h.eq_genesisQC h0]
    rfl

/-- **Accepted certificates over one digest, of one quorum, give one block id.** -/
theorem Signer.blockID_eq {G : Group} (hG : G.crypto = S.crypto E cr) {q q' : QuorumCert} (hq : G.AcceptsQC (some q))
    (hq' : G.AcceptsQC (some q'))
    (hdigest : ledgerCommitDigest G.crypto q.ledgerCommitInfo = ledgerCommitDigest G.crypto q'.ledgerCommitInfo)
    (h : OneQuorum q.signatures.elems q'.signatures.elems) (author : UInt32) (round : UInt64) (payload : Payload) :
    blockID G.crypto author round payload (some q) = blockID G.crypto author round payload (some q') := by
  have hzero : q.voteInfo.round = 0 ↔ q'.voteInfo.round = 0 := by
    rw [← hq.signatures_nil_iff, ← hq'.signatures_nil_iff]
    exact h.eq_nil
  obtain ⟨hvalid, hcase⟩ := (G.verifier.verifyQC_iff q).1 hq.1
  obtain ⟨hvalid', hcase'⟩ := (G.verifier.verifyQC_iff q').1 hq'.1
  by_cases h0 : q.voteInfo.round = 0
  · rw [hq.eq_genesisQC h0, hq'.eq_genesisQC (hzero.1 h0)]
  · have h0' : q'.voteInfo.round ≠ 0 := fun h0' => h0 (hzero.2 h0')
    obtain ⟨-, hbound, -, hcert, -⟩ := hcase.resolve_left (fun hc => h0 hc.1)
    obtain ⟨-, hbound', -, hcert', -⟩ := hcase'.resolve_left (fun hc => h0' hc.1)
    obtain ⟨hinfo, -⟩ := Group.content_of_digest hvalid hvalid' hbound hbound' (hq.2 q rfl h0)
      (hq'.2 q' rfl h0') hdigest
    have hv : G.verifier = ⟨S.crypto E cr, quorumSize G.validators.length⟩ := by rw [Group.verifier, hG]
    rw [show ledgerCommitDigest G.verifier.crypto q.ledgerCommitInfo =
      ledgerCommitDigest G.verifier.crypto q'.ledgerCommitInfo from hdigest, hv] at hcert
    rw [hv] at hcert'
    exact blockID_congr (by rw [hinfo]) (Slice.ext' (verifyCert_eq hcert hcert' h)) author round payload

end

/-- **One quorum, one wire form.**  Over any digest, lists of signatures that the certificate check accepts and that are
one quorum are one list.  What `Sign` returns is in the form that is accepted.  So over one quorum, author, round and
payload give one block id; and where digests do not collide, over one quorum on one digest. -/
theorem one_wire_form {PublicKey PrivateKey : Type} (E : Ecdsa PublicKey PrivateKey) (S : Signer PublicKey PrivateKey)
    (cr : Crypto) :
    (∀ quorum digest xs ys, (Verifier.mk (S.crypto E cr) quorum).verifyCert digest xs = true →
      (Verifier.mk (S.crypto E cr) quorum).verifyCert digest ys = true → OneQuorum xs ys → xs = ys) ∧
    (∀ i pub rand digest der, S.keys.lookup i = some pub → E.signASN1 S.key rand digest = some der →
      E.verifyASN1 pub digest der = true →
      (∀ sig, S.sign E rand digest = some sig → (S.crypto E cr).verify i digest sig = true ∧
        ∃ r s, sig.elems = Der.marshal (r, s) ∧ 1 ≤ s ∧ s ≤ halfOrder) ∧
      (der.len < 2 ^ 31 → ∃ sig, S.sign E rand digest = some sig)) ∧
    (∀ quorum digest q q', (Verifier.mk (S.crypto E cr) quorum).verifyCert digest q.signatures.elems = true →
      (Verifier.mk (S.crypto E cr) quorum).verifyCert digest q'.signatures.elems = true →
      OneQuorum q.signatures.elems q'.signatures.elems → q.voteInfo.id = q'.voteInfo.id → ∀ author round payload,
      blockID (S.crypto E cr) author round payload (some q) = blockID (S.crypto E cr) author round payload (some q')) ∧
    ∀ G : Group, G.crypto = S.crypto E cr → ∀ q q', G.AcceptsQC (some q) → G.AcceptsQC (some q') →
      ledgerCommitDigest G.crypto q.ledgerCommitInfo = ledgerCommitDigest G.crypto q'.ledgerCommitInfo →
      OneQuorum q.signatures.elems q'.signatures.elems → ∀ author round payload,
      blockID G.crypto author round payload (some q) = blockID G.crypto author round payload (some q') := by
  refine ⟨fun _ _ _ _ hx hy h => Signer.verifyCert_eq hx hy h, fun i pub rand digest der hpub hder hv =>
    ⟨fun sig hsig => ?_,
    fun hlen => Signer.sign_returns hder hv hlen⟩, fun _ _ q q' hx hy h hid author round payload => ?_,
    fun G hG q q' hq hq' hdigest h => Signer.blockID_eq hG hq hq' hdigest h⟩
  · have haccepted := Signer.verify_sign hder hv hpub hsig
    obtain ⟨-, r, s, -, -, hform, hrange⟩ := Signer.verify_spec haccepted
    exact ⟨haccepted, r, s, hform, hrange⟩
  · exact blockID_congr hid (Slice.ext' (Signer.verifyCert_eq hx hy h)) author round payload

namespace Chain

/-- The signature with `r` and `s` both one, and its twin. -/
def low : Bytes := ⟨Der.marshal (1, 1), by decide⟩

def high : Bytes := ⟨Der.marshal (1, curveOrder - 1), by decide +kernel⟩

theorem unmarshal_low : Der.unmarshal low.elems = some (1, 1) := by decide +kernel

theorem unmarshal_high : Der.unmarshal high.elems = some (1, curveOrder - 1) := by decide +kernel

theorem twin_of_twin {sig sig' : Bytes} {r s : Int} (hsig : sig.elems = Der.marshal (r, s))
    (hsig' : sig'.elems = Der.marshal (r, curveOrder - s)) (h : sig = low ∨ sig = high) : sig' = low ∨ sig' = high := by
  have hfits := sig.fits
  rw [hsig] at hfits
  rcases h with rfl | rfl
  · obtain ⟨heq, -⟩ := Der.eq_of_unmarshal_marshal hfits (hsig ▸ unmarshal_low)
    cases heq
    exact .inr (Slice.ext' hsig')
  · obtain ⟨heq, -⟩ := Der.eq_of_unmarshal_marshal hfits (hsig ▸ unmarshal_high)
    cases heq
    exact .inl (Slice.ext' hsig')

/-- Under every key, over every digest, these two verify and no others; `SignASN1` makes the higher one. -/
def ecdsa : Ecdsa Unit Unit where
  signASN1 _ _ _     := some high
  verifyASN1 _ _ sig := decide (sig = low ∨ sig = high)
  strict _ _ sig h   := by
    rcases of_decide_eq_true h with rfl | rfl
    · exact ⟨1, 1, rfl, by decide, by decide⟩
    · exact ⟨1, curveOrder - 1, rfl, by decide, by decide⟩
  twin _ _ sig sig' r s hsig hsig' := by
    rw [decide_eq_true_iff, decide_eq_true_iff]
    refine ⟨twin_of_twin hsig hsig', twin_of_twin hsig' ?_⟩
    rw [hsig, Int.sub_sub_self]

/-- The signer of a replica of the chain. -/
def signer : Signer Unit Unit := ⟨(), ((((∅ : Table UInt32 Unit).insert 1 ()).insert 2 ()).insert 3 ()).insert 4 ()⟩

/-- The validators of the chain, with that signer. -/
def signing : Group :=
  { net.toGroup with
    crypto        := signer.crypto ecdsa net.crypto
    registered    := fun i d s h => by
      have hi : i ∈ signer.keys.keys := Signer.registered h
      have hkeys : signer.keys.keys = [4, 3, 2, 1] := by decide
      rw [hkeys] at hi
      exact List.mem_reverse.1 hi
    collisionFree := ⟨net.collisionFree.inj, net.collisionFree.bottom⟩ }

/-- Three signatures in the lower form, and the same with the twin of the first. -/
def lows : Slice Signature := ⟨[⟨1, low⟩, ⟨2, low⟩, ⟨4, low⟩], by decide⟩

def mixed : List Signature := [⟨1, high⟩, ⟨2, low⟩, ⟨4, low⟩]

theorem alike_low (i : UInt32) : (⟨i, low⟩ : Signature).Alike ⟨i, low⟩ :=
  ⟨rfl, 1, 1, 1, unmarshal_low, unmarshal_low, .inl rfl⟩

theorem alike_high (i : UInt32) : (⟨i, low⟩ : Signature).Alike ⟨i, high⟩ :=
  ⟨rfl, 1, 1, curveOrder - 1, unmarshal_low, unmarshal_high, .inr rfl⟩

theorem oneQuorum_lows : OneQuorum lows.elems lows.elems :=
  .cons (alike_low 1) (.cons (alike_low 2) (.cons (alike_low 4) .nil))

theorem oneQuorum_mixed : OneQuorum lows.elems mixed :=
  .cons (alike_high 1) (.cons (alike_low 2) (.cons (alike_low 4) .nil))

/-- The certificate of block 1 with these signatures, put together by `i`. -/
def sealed (i : UInt32) : QuorumCert := { cert 1 with signatures := lows, author := i, authorSig := some ⟨i, low⟩ }

theorem accepts_sealed {i : UInt32} (hverified : signing.verifier.verifyQC (some (sealed i)) = true) :
    signing.AcceptsQC (some (sealed i)) := by
  refine ⟨hverified, fun q hq _ => ?_⟩
  cases hq
  show voteInfoBytes (info 1) ∈ strings ∧ ledgerCommitBytes (commit 1) ∈ strings
  decide +kernel

end Chain

/-- The three signatures are accepted, and not with the twin of one of them; the higher signature that `SignASN1` makes
is signed as the lower; and two certificates over the quorum, by different authors, give one block id. -/
theorem chain_one_form :
    (Verifier.mk (Chain.signer.crypto Chain.ecdsa Chain.net.crypto) 3).verifyCert (digest 6) Chain.lows.elems = true ∧
    OneQuorum Chain.lows.elems Chain.mixed ∧
    (Verifier.mk (Chain.signer.crypto Chain.ecdsa Chain.net.crypto) 3).verifyCert (digest 6) Chain.mixed = false ∧
    (∃ sig, Chain.signer.sign Chain.ecdsa 0 (digest 6) = some sig ∧
      (Chain.signer.crypto Chain.ecdsa Chain.net.crypto).verify 1 (digest 6) sig = true) ∧
    ∀ author round payload, blockID Chain.signing.crypto author round payload (some (Chain.sealed 1)) =
      blockID Chain.signing.crypto author round payload (some (Chain.sealed 2)) := by
  obtain ⟨hlists, hsign, -, hids⟩ := one_wire_form Chain.ecdsa Chain.signer Chain.net.crypto
  have hlows : (Verifier.mk (Chain.signer.crypto Chain.ecdsa Chain.net.crypto) 3).verifyCert
      (digest 6) Chain.lows.elems =
      true := by decide +kernel
  obtain ⟨haccepts, hreturns⟩ := hsign 1 () 0 (digest 6) Chain.high (by decide) rfl (by decide)
  obtain ⟨sig, hsig⟩ := hreturns (by decide +kernel)
  refine ⟨hlows, Chain.oneQuorum_mixed, Bool.eq_false_iff.2 (fun hmixed => ?_), ⟨sig, hsig, (haccepts sig hsig).1⟩, ?_⟩
  · have heq := hlists 3 (digest 6) _ _ hlows hmixed Chain.oneQuorum_mixed
    exact absurd heq (by decide +kernel)
  · exact hids Chain.signing rfl _ _ (Chain.accepts_sealed (by decide +kernel))
      (Chain.accepts_sealed (by decide +kernel)) rfl
      Chain.oneQuorum_lows

end Diem

import Diem.Tree
/-!
# Safety — the two counters that guard the key (`safety.go`)

Everything but the counters arrives as an argument: the certificates are verified again, the block's id is recomputed,
and the ledger is only asked for states.  `makeVote_spec` and `makeTimeout_spec` say all there is to know about a call:
how the counters moved, and, of a call that returned something, everything it checked.
-/
namespace Diem

structure Safety where
  highestVoteRound        : UInt64
  highestQCRound          : UInt64
  declinedMissingAncestor : UInt64
deriving DecidableEq

def newSafety : Safety := ⟨0, 0, 0⟩

namespace Safety

def increaseHighestVoteRound (s : Safety) (round : UInt64) : Safety :=
  { s with highestVoteRound := max round s.highestVoteRound }

def updateHighestQCRound (s : Safety) (qcR : UInt64) : Safety :=
  { s with highestQCRound := max qcR s.highestQCRound }

def safeToExtend (blockRound qcR : UInt64) : Option TimeoutCert → Bool
  | none    => false
  | some tc => consecutive blockRound tc.round && decide (maxHighQCRound tc ≤ qcR)

def safeToVote (s : Safety) (blockRound qcR : UInt64) (tc : Option TimeoutCert) : Bool :=
  if blockRound ≤ max s.highestVoteRound qcR then false
  else consecutive blockRound qcR || safeToExtend blockRound qcR tc

def safeToTimeout (s : Safety) (round qcR : UInt64) (tc : Option TimeoutCert) : Bool :=
  if qcR < s.highestQCRound then false
  else
    -- rounds are unsigned, so round 0 is subtracted explicitly rather than wrapping
    let voted : UInt64 := if 0 < s.highestVoteRound then s.highestVoteRound - 1 else 0
    if round ≤ max voted qcR then false
    else consecutive round qcR || tc.any (fun tc => consecutive round tc.round)

end Safety

/-- The 2-chain commit rule: the parent's speculated state, or the bottom over a gap in rounds. -/
def commitStateIDCandidate (l : MemLedger) (blockRound : UInt64) (qc : Option QuorumCert) : Bytes :=
  if !consecutive blockRound (qcRound qc) then zeroHash
  else (l.pendingState (certifiedID qc)).getD zeroHash

def validSignatures (v : Verifier) (qc : Option QuorumCert) (tc : Option TimeoutCert) : Bool :=
  v.verifyQC qc && v.verifyTC tc

namespace Safety

def makeVote (v : Verifier) (env : Env) (id : UInt32) (l : MemLedger) (t : BlockTree) (s : Safety) (b : Block)
    (lastTC : Option TimeoutCert) : Safety × Option VoteMsg :=
  if !validBlockID v.crypto b || !validSignatures v b.qc lastTC || !s.safeToVote b.round (qcRound b.qc) lastTC then
    (s, none)
  else match l.pendingState b.id with
    | none      => ({ s with declinedMissingAncestor := s.declinedMissingAncestor + 1 }, none)
    | some exec =>
      let s := (s.updateHighestQCRound (qcRound b.qc)).increaseHighestVoteRound b.round
      let voteInfo : VoteInfo :=
        { id := b.id, round := b.round, parentId := parentID b, parentRound := qcRound b.qc, execStateId := exec }
      let commit : LedgerCommitInfo :=
        { commitStateId := commitStateIDCandidate l b.round b.qc, voteInfoHash := voteInfoHash v.crypto voteInfo }
      match sign env id (ledgerCommitDigest v.crypto commit) with
      | none     => (s, none)
      | some sig =>
        (s, some { voteInfo, ledgerCommitInfo := commit, highCommitQc := some t.highCommitQC, sender := id, sig })

def makeTimeout (v : Verifier) (env : Env) (id : UInt32) (s : Safety) (round : UInt64) (highQC : Option QuorumCert)
    (lastTC : Option TimeoutCert) : Safety × Option TimeoutInfo :=
  if !validSignatures v highQC lastTC || !s.safeToTimeout round (qcRound highQC) lastTC then (s, none)
  else
    let s := s.increaseHighestVoteRound round
    match sign env id (timeoutDigest v.crypto round (qcRound highQC)) with
    | none     => (s, none)
    | some sig => (s, some { round, highQc := highQC, sender := id, sig })

/-! ## The rules, unpacked -/

/-- **When a vote is safe**: the round is above every round signed for and above its certificate's, and directly follows
the certificate's, or directly follows a TC's whose signers reported nothing above the certificate. -/
theorem safeToVote_iff (s : Safety) (blockRound qcR : UInt64) (tc : Option TimeoutCert) :
    s.safeToVote blockRound qcR tc = true ↔ s.highestVoteRound < blockRound ∧ qcR < blockRound ∧
      (qcR + 1 = blockRound ∨ ∃ t, tc = some t ∧ t.round + 1 = blockRound ∧ maxHighQCRound t ≤ qcR) := by
  unfold safeToVote
  by_cases h : blockRound ≤ max s.highestVoteRound qcR
  · rw [if_pos h]
    simp only [Bool.false_eq_true, false_iff]
    rintro ⟨h1, h2, -⟩
    exact not_le_max_iff.2 ⟨h1, h2⟩ h
  · rw [if_neg h, Bool.or_eq_true, consecutive_iff]
    obtain ⟨h1, h2⟩ := not_le_max_iff.1 h
    cases tc with
    | none => simp [safeToExtend, h1, h2]
    | some t => simp [safeToExtend, consecutive_iff, h1, h2]

/-- **When a timeout is safe**: it reports no less than was voted over, its round is no lower than any signed for and
above its certificate's, and directly follows the certificate's or a TC's. -/
theorem safeToTimeout_iff (s : Safety) (round qcR : UInt64) (tc : Option TimeoutCert) :
    s.safeToTimeout round qcR tc = true ↔ s.highestQCRound ≤ qcR ∧ s.highestVoteRound ≤ round ∧ qcR < round ∧
      (qcR + 1 = round ∨ ∃ t, tc = some t ∧ t.round + 1 = round) := by
  unfold safeToTimeout
  by_cases h0 : qcR < s.highestQCRound
  · rw [if_pos h0]
    simp only [Bool.false_eq_true, false_iff]
    rintro ⟨h1, -⟩
    exact absurd h0 (by simpa using h1)
  · rw [if_neg h0]
    have h0' : s.highestQCRound ≤ qcR := by simpa using h0
    have hv : (if 0 < s.highestVoteRound then s.highestVoteRound - 1 else 0) < round ∧ qcR < round ↔
        s.highestVoteRound ≤ round ∧ qcR < round := by
      by_cases hp : 0 < s.highestVoteRound
      · rw [if_pos hp]; grind
      · rw [if_neg hp]; grind
    dsimp only
    by_cases h : round ≤ max (if 0 < s.highestVoteRound then s.highestVoteRound - 1 else 0) qcR
    · rw [if_pos h]
      simp only [Bool.false_eq_true, false_iff]
      rintro ⟨-, h2, h3, -⟩
      exact not_le_max_iff.2 (hv.2 ⟨h2, h3⟩) h
    · rw [if_neg h, Bool.or_eq_true, consecutive_iff]
      obtain ⟨h1, h2⟩ := hv.1 (not_le_max_iff.1 h)
      cases tc with
      | none => simp [h0', h1, h2]
      | some t => simp [consecutive_iff, h0', h1, h2]

theorem sign_eq_some {env : Env} {id : UInt32} {d : Bytes} {sig : Signature} (h : sign env id d = some sig) :
    sig.signer = id ∧ env.sign d = some sig.sig := by
  unfold sign at h
  rw [Option.map_eq_some_iff] at h
  obtain ⟨s, hs, rfl⟩ := h
  exact ⟨rfl, hs⟩

/-- The counters never fall. -/
structure Grows (s s' : Safety) : Prop where
  vote : s.highestVoteRound ≤ s'.highestVoteRound
  qc   : s.highestQCRound ≤ s'.highestQCRound

theorem Grows.refl (s : Safety) : Grows s s := ⟨by simp, by simp⟩

/-- What a returned vote says, and what was checked before it was signed. -/
structure Voted (v : Verifier) (env : Env) (id : UInt32) (l : MemLedger) (t : BlockTree) (s s' : Safety) (b : Block)
    (lastTC : Option TimeoutCert) (m : VoteMsg) : Prop where
  blockID   : validBlockID v.crypto b = true
  certified : v.verifyQC b.qc = true
  tc        : v.verifyTC lastTC = true
  safe      : s.safeToVote b.round (qcRound b.qc) lastTC = true
  voted     : s'.highestVoteRound = b.round
  qc        : s'.highestQCRound = max (qcRound b.qc) s.highestQCRound
  exec      : l.pendingState b.id = some m.voteInfo.execStateId
  info      : m.voteInfo = { id := b.id, round := b.round, parentId := parentID b, parentRound := qcRound b.qc,
                             execStateId := m.voteInfo.execStateId }
  commit    : m.ledgerCommitInfo = { commitStateId := commitStateIDCandidate l b.round b.qc,
                                     voteInfoHash := voteInfoHash v.crypto m.voteInfo }
  highest   : m.highCommitQc = some t.highCommitQC
  sender    : m.sender = id ∧ m.sig.signer = id
  signed    : env.sign (ledgerCommitDigest v.crypto m.ledgerCommitInfo) = some m.sig.sig

/-- **A call of `MakeVote`**: the counters grow, and a returned vote passed every check. -/
theorem makeVote_spec (v : Verifier) (env : Env) (id : UInt32) (l : MemLedger) (t : BlockTree) (s : Safety) (b : Block)
    (lastTC : Option TimeoutCert) :
    Grows s (s.makeVote v env id l t b lastTC).1 ∧
    ∀ m, (s.makeVote v env id l t b lastTC).2 = some m →
      Voted v env id l t s (s.makeVote v env id l t b lastTC).1 b lastTC m := by
  unfold makeVote
  split
  · exact ⟨Grows.refl s, fun m hm => by cases hm⟩
  · rename_i hc
    simp only [Bool.not_eq_true, Bool.or_eq_false_iff, Bool.not_eq_false'] at hc
    obtain ⟨⟨hid, hsig⟩, hsafe⟩ := hc
    rw [validSignatures, Bool.and_eq_true] at hsig
    have hround := ((s.safeToVote_iff _ _ _).1 hsafe).1
    split
    · exact ⟨⟨by simp, by simp⟩, fun m hm => by cases hm⟩
    · rename_i exec hexec
      have hvr : max b.round s.highestVoteRound = b.round := by
        apply UInt64.toNat_inj.1
        rw [UInt64.toNat_max]
        rw [UInt64.lt_iff_toNat_lt] at hround
        omega
      have hgrow : Grows s ((s.updateHighestQCRound (qcRound b.qc)).increaseHighestVoteRound b.round) := by
        refine ⟨?_, ?_⟩
        · simp only [increaseHighestVoteRound, updateHighestQCRound, hvr]; grind
        · simp only [increaseHighestVoteRound, updateHighestQCRound]
          rw [UInt64.le_iff_toNat_le, UInt64.toNat_max]; omega
      dsimp only
      split
      · exact ⟨hgrow, fun m hm => by cases hm⟩
      · rename_i sig hs
        refine ⟨hgrow, fun m hm => ?_⟩
        obtain ⟨hsigner, hsigned⟩ := sign_eq_some hs
        cases hm
        exact ⟨hid, hsig.1, hsig.2, hsafe, hvr, rfl, hexec, rfl, rfl, rfl, ⟨rfl, hsigner⟩, hsigned⟩

/-- What a returned timeout says, and what was checked before it was signed. -/
structure TimedOut (v : Verifier) (env : Env) (id : UInt32) (s s' : Safety) (round : UInt64)
    (highQC : Option QuorumCert) (lastTC : Option TimeoutCert) (m : TimeoutInfo) : Prop where
  certified : v.verifyQC highQC = true
  tc        : v.verifyTC lastTC = true
  safe      : s.safeToTimeout round (qcRound highQC) lastTC = true
  voted     : s'.highestVoteRound = round
  qc        : s'.highestQCRound = s.highestQCRound
  info      : m.round = round ∧ m.highQc = highQC
  sender    : m.sender = id ∧ m.sig.signer = id
  signed    : env.sign (timeoutDigest v.crypto m.round (qcRound m.highQc)) = some m.sig.sig

/-- **A call of `MakeTimeout`**, likewise. -/
theorem makeTimeout_spec (v : Verifier) (env : Env) (id : UInt32) (s : Safety) (round : UInt64)
    (highQC : Option QuorumCert) (lastTC : Option TimeoutCert) :
    Grows s (s.makeTimeout v env id round highQC lastTC).1 ∧
    ∀ m, (s.makeTimeout v env id round highQC lastTC).2 = some m →
      TimedOut v env id s (s.makeTimeout v env id round highQC lastTC).1 round highQC lastTC m := by
  unfold makeTimeout
  split
  · exact ⟨Grows.refl s, fun m hm => by cases hm⟩
  · rename_i hc
    simp only [Bool.not_eq_true, Bool.or_eq_false_iff, Bool.not_eq_false'] at hc
    obtain ⟨hsig, hsafe⟩ := hc
    rw [validSignatures, Bool.and_eq_true] at hsig
    have hround := ((s.safeToTimeout_iff _ _ _).1 hsafe).2.1
    have hvr : max round s.highestVoteRound = round := by
      apply UInt64.toNat_inj.1
      rw [UInt64.toNat_max]
      rw [UInt64.le_iff_toNat_le] at hround
      omega
    have hgrow : Grows s (s.increaseHighestVoteRound round) := by
      refine ⟨?_, by simp [increaseHighestVoteRound]⟩
      simp only [increaseHighestVoteRound, hvr]
      exact hround
    dsimp only
    split
    · exact ⟨hgrow, fun m hm => by cases hm⟩
    · rename_i sig hs
      refine ⟨hgrow, fun m hm => ?_⟩
      obtain ⟨hsigner, hsigned⟩ := sign_eq_some hs
      cases hm
      exact ⟨hsig.1, hsig.2, hsafe, hvr, rfl, ⟨rfl, rfl⟩, ⟨rfl, hsigner⟩, hsigned⟩

/-- A call leaves the counters or raises them to its own rounds, whether or not it returns anything. -/
theorem makeVote_counters (v : Verifier) (env : Env) (id : UInt32) (l : MemLedger) (t : BlockTree) (s : Safety)
    (b : Block) (lastTC : Option TimeoutCert) :
    ((s.makeVote v env id l t b lastTC).1.highestVoteRound = s.highestVoteRound ∧
      (s.makeVote v env id l t b lastTC).1.highestQCRound = s.highestQCRound) ∨
    ((s.makeVote v env id l t b lastTC).1.highestVoteRound = max b.round s.highestVoteRound ∧
      (s.makeVote v env id l t b lastTC).1.highestQCRound = max (qcRound b.qc) s.highestQCRound) := by
  unfold makeVote
  split
  · exact .inl ⟨rfl, rfl⟩
  · split
    · exact .inl ⟨rfl, rfl⟩
    · dsimp only
      split
      · exact .inr ⟨rfl, rfl⟩
      · exact .inr ⟨rfl, rfl⟩

theorem makeTimeout_counters (v : Verifier) (env : Env) (id : UInt32) (s : Safety) (round : UInt64)
    (highQC : Option QuorumCert) (lastTC : Option TimeoutCert) :
    (s.makeTimeout v env id round highQC lastTC).1 = s ∨
      (s.makeTimeout v env id round highQC lastTC).1 = s.increaseHighestVoteRound round := by
  unfold makeTimeout
  split
  · exact .inl rfl
  · dsimp only
    split
    · exact .inr rfl
    · exact .inr rfl

/-- A timeout that is safe, over certificates that verify, goes out unless `Sign` fails. -/
theorem makeTimeout_isSome {v : Verifier} {env : Env} (id : UInt32) {s : Safety} {round : UInt64}
    {highQC : Option QuorumCert} {lastTC : Option TimeoutCert} (hsign : ∀ d, (env.sign d).isSome = true)
    (hqc : v.verifyQC highQC = true) (htc : v.verifyTC lastTC = true)
    (hsafe : s.safeToTimeout round (qcRound highQC) lastTC = true) :
    ∃ m, (s.makeTimeout v env id round highQC lastTC).2 = some m := by
  obtain ⟨sig, hsig⟩ := Option.isSome_iff_exists.1 (hsign (timeoutDigest v.crypto round (qcRound highQC)))
  simp [makeTimeout, validSignatures, hqc, htc, hsafe, sign, hsig]

end Safety

end Diem

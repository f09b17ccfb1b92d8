import Diem.Play
import Diem.Refine
/-!
# Certificates — what the certificates of a group say together

Three statements about Safety objects that are called with anything at all (`SafetyRun`), whoever assembles the
certificates: a round has one certified content, a timeout certificate knows of every commit below it, and what is
certified from a committed block's round on extends that block.
-/
namespace Diem

/-- **One certificate content a round.** -/
theorem certificate_content_unique {G : Group} {σ : SafetySys} (hrun : G.SafetyRun σ) (hu : G.Unforgeable σ.log)
    {q₁ q₂ : QuorumCert} (h₁ : G.AcceptsQC (some q₁)) (h₂ : G.AcceptsQC (some q₂))
    (hround : q₁.voteInfo.round = q₂.voteInfo.round) (hpos : 1 ≤ q₁.voteInfo.round) :
    q₁.voteInfo = q₂.voteInfo ∧ q₁.ledgerCommitInfo = q₂.ledgerCommitInfo := by
  have hb := Ballots.of_run hrun hu
  exact hb.content_unique h₁ h₂ hround (fun h0 => absurd hpos (by rw [h0]; decide))

/-- Block 2 with a second certificate, signed anew by its Byzantine author. -/
theorem chain_content_unique :
    ∃ S q, Chain.net.SafetyRun S ∧ Chain.net.Unforgeable S.log ∧ Chain.net.AcceptsQC (some q) ∧ q ≠ Chain.cert 2 ∧
      q.voteInfo = (Chain.cert 2).voteInfo ∧ q.ledgerCommitInfo = (Chain.cert 2).ledgerCommitInfo := by
  obtain ⟨σ, hσ, -⟩ := Chain.opening_reached Net.AnyEvent (fun _ _ _ _ => trivial)
  obtain ⟨S, hS, hu⟩ := hσ.safetyRun
  have hq : Chain.net.AcceptsQC (some { Chain.cert 2 with authorSig := some ⟨2, zeroHash⟩ }) := by decide +kernel
  exact ⟨S, _, hS, hu, hq, by decide, certificate_content_unique hS hu hq (by decide +kernel) rfl (by decide)⟩

/-- **Timeout certificates remember commits**: once a block in the round after its certificate's is certified, every
TC of a later round than the certificate's, whenever assembled, reports that round at least. -/
theorem timeout_remembers {G : Group} {σ : SafetySys} (hrun : G.SafetyRun σ) (hu : G.Unforgeable σ.log)
    {q : QuorumCert} (hq : G.AcceptsQC (some q)) {B' : Block} (hB' : G.IsBlock B') (hcert : B'.id = q.voteInfo.id)
    (hqc : G.AcceptsQC B'.qc) (hnext : B'.round.toNat = (qcRound B'.qc).toNat + 1)
    {tc : TimeoutCert} (htc : G.AcceptsTC (some tc)) (hlater : qcRound B'.qc < tc.round) :
    qcRound B'.qc ≤ maxHighQCRound tc := by
  have hb := Ballots.of_run hrun hu
  have h0 := hb.round_ne_zero hq hB' hcert hnext
  obtain ⟨hparent, hpround, -⟩ := hb.parent_truth hq h0
  have hround : B'.round = q.voteInfo.round := hb.round_eq hq hB' hcert
  obtain ⟨p, hp, hpid, hpr⟩ := hb.exists_block hqc
  have hpq : q.voteInfo.parentRound = qcRound B'.qc := by
    rw [← hpr]
    refine (hpround p hp ?_).symm
    rw [hpid, hparent B' hB' hcert (by rw [parentID_eq]; exact hqc.certifiedID_len), parentID_eq]
  have hc := hb.certified hq h0
  rw [← hround, hnext, hpq] at hc
  rw [UInt64.le_iff_toNat_le]
  exact hb.election.timedOut_remembers hc (hb.timedOut htc) (UInt64.lt_iff_toNat_lt.1 hlater)

/-- Block 2 is certified over block 1, and the replicas that give up on round 4 report block 3. -/
theorem chain_timeout_remembers :
    ∃ S, Chain.net.SafetyRun S ∧ Chain.net.Unforgeable S.log ∧
      qcRound (Chain.block 2).qc ≤ maxHighQCRound Chain.tc := by
  obtain ⟨σ, hσ, -⟩ := Chain.opening_reached Net.AnyEvent (fun _ _ _ _ => trivial)
  obtain ⟨S, hS, hu⟩ := hσ.safetyRun
  have hq : Chain.net.AcceptsQC (some (Chain.cert 2)) := by decide +kernel
  have hblock : Chain.net.IsBlock (Chain.block 2) := by decide +kernel
  have hqc : Chain.net.AcceptsQC (Chain.block 2).qc := by decide +kernel
  have htc : Chain.net.AcceptsTC (some Chain.tc) := by decide +kernel
  exact ⟨S, hS, hu, timeout_remembers hS hu hq hblock rfl hqc rfl htc (by decide)⟩

/-- **Certified blocks never fork off a directly committed one**: once `B'`, in the round after its parent `B`, is
certified, every block certified from `B`'s round on is `B` or has `B` on its parent chain. -/
theorem certified_on_chain {G : Group} {σ : SafetySys} (hrun : G.SafetyRun σ) (hu : G.Unforgeable σ.log)
    {q : QuorumCert} (hq : G.AcceptsQC (some q)) {B' B : Block} (hB' : G.IsBlock B') (hB : G.IsBlock B)
    (hcert : B'.id = q.voteInfo.id) (hparent : parentID B' = B.id) (hnext : B'.round.toNat = B.round.toNat + 1)
    {q₁ : QuorumCert} (hq₁ : G.AcceptsQC (some q₁)) (hlater : B.round ≤ q₁.voteInfo.round)
    {X : Block} (hXcert : X.id = q₁.voteInfo.id) :
    Relation.ReflTransGen G.Parent X.id B.id := by
  have hb := Ballots.of_run hrun hu
  have h0 := hb.round_ne_zero hq hB' hcert hnext
  obtain ⟨hpid, hpround, -⟩ := hb.parent_truth hq h0
  have hround : B'.round = q.voteInfo.round := hb.round_eq hq hB' hcert
  have hqB : q.voteInfo.parentId = B.id := by
    rw [hpid B' hB' hcert (by rw [hparent]; exact hB.id_len), hparent]
  have hc := hb.certified hq h0
  rw [← hround, hnext, ← hpround B hB hqB.symm] at hc
  by_cases h1 : q₁.voteInfo.round = 0
  · -- only the genesis certificate is of round 0, and then `B` is the genesis block
    have hB0 : B.round.toNat = 0 := by
      rw [h1, UInt64.le_iff_toNat_le] at hlater
      exact Nat.le_zero.1 hlater
    have hX0 : X.id = (genesisBlock G.crypto).id := by rw [hXcert, hq₁.eq_genesisQC h1]; rfl
    obtain ⟨-, hback, -⟩ := hb.justified.of_certified _ hc
    rcases hback with ⟨-, hroot⟩ | ⟨q', w, hw, -⟩
    · rw [hX0, ← hroot, ← hqB]
    · have := (hb.justified.of_certified _ hw).1
      omega
  · have hchain := hb.election.certified_extends hb.justified hc _ _ _ (UInt64.le_iff_toNat_le.1 hlater)
      (hb.certified hq₁ h1)
    rw [hXcert, ← hqB]
    exact Relation.ReflTransGen.mono (fun _ _ hl => hb.parent_of_link hl) _ _ hchain

/-- Block 2 commits block 1, and block 4 is certified. -/
theorem chain_certified_on_chain :
    ∃ S, Chain.net.SafetyRun S ∧ Chain.net.Unforgeable S.log ∧
      Relation.ReflTransGen Chain.net.Parent (Chain.block 4).id (Chain.block 1).id := by
  obtain ⟨σ, hσ, -⟩ := Chain.opening_reached Net.AnyEvent (fun _ _ _ _ => trivial)
  obtain ⟨S, hS, hu⟩ := hσ.safetyRun
  have hq : ∀ r ∈ [2, 4], Chain.net.AcceptsQC (some (Chain.cert r)) := by decide +kernel
  have hblock : ∀ r ∈ [1, 2], Chain.net.IsBlock (Chain.block r) := by decide +kernel
  exact ⟨S, hS, hu, certified_on_chain hS hu (hq 2 (by simp)) (hblock 2 (by simp)) (hblock 1 (by simp)) rfl rfl rfl
    (hq 4 (by simp)) (by decide) rfl⟩

end Diem

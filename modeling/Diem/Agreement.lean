import Diem.Invariant
import Diem.Play
/-!
# Agreement — one committed chain, and certificates that describe it truly

Each honest replica's commits climb from genesis to a block that some certificate commits directly (`coreInv_run`).  Of
two such blocks the one of the lower round lies on the parent chain of the other (`commits_comparable`), and a parent
chain is one chain, so one replica's commits are an initial part of the other's.
-/
namespace Diem

open Relation (Climb)

/-- Nothing lies below genesis but the id no block has. -/
theorem genesis_not_below (G : Group) :
    ¬ Relation.TransGen G.Parent (genesisBlock G.crypto).id (genesisBlock G.crypto).id := by
  intro h
  obtain ⟨y, hy, hrest⟩ := Relation.TransGen.head'_iff.1 h
  have hzero : y = zeroHash := by
    refine Group.Parent.unique hy ⟨genesisBlock G.crypto, Group.isBlock_genesis G, rfl, rfl, rfl⟩
  rcases Relation.ReflTransGen.cases_head hrest with heq | ⟨z, ⟨b, hb, hbid, -⟩, -⟩
  · exact (Group.isBlock_genesis G).id_ne_zeroHash (heq.symm.trans hzero)
  · exact hb.id_ne_zeroHash (hbid.trans hzero)

namespace Ballots

variable {G : Group} {log : List (UInt32 × Signed)} (h : Ballots G log)
include h

/-- **Of two directly committed blocks the lower lies on the parent chain of the other.** -/
theorem commits_comparable {q₁ q₂ : QuorumCert} (h₁ : G.AcceptsQC (some q₁)) (hc₁ : commits q₁.ledgerCommitInfo = true)
    (h₂ : G.AcceptsQC (some q₂)) (hc₂ : commits q₂.ledgerCommitInfo = true)
    (hle : q₁.voteInfo.parentRound ≤ q₂.voteInfo.parentRound) :
    Relation.ReflTransGen G.Parent q₂.voteInfo.parentId q₁.voteInfo.parentId := by
  have hcert : ∀ {q : QuorumCert}, G.AcceptsQC (some q) → commits q.ledgerCommitInfo = true →
      h.election.Certified (q.voteInfo.parentRound.toNat + 1) q.voteInfo.parentRound.toNat
        (q.voteInfo, q.ledgerCommitInfo) := by
    intro q hq hc
    have h0 := hq.round_ne_zero hc
    have hcert := h.certified hq h0
    rwa [(h.parent_truth hq h0).2.2.2 hc] at hcert
  have hcert₁ := hcert h₁ hc₁
  rw [UInt64.le_iff_toNat_le] at hle
  obtain ⟨-, hback, -⟩ := h.justified.of_certified _ (hcert h₂ hc₂)
  rcases hback with ⟨h0, hroot⟩ | ⟨q', w, hw, hid⟩
  · -- both are genesis
    obtain ⟨-, hback₁, -⟩ := h.justified.of_certified _ hcert₁
    rcases hback₁ with ⟨-, hroot₁⟩ | ⟨q', w, hw, -⟩
    · rw [show q₂.voteInfo.parentId = _ from hroot, show q₁.voteInfo.parentId = _ from hroot₁]
    · have := (h.justified.of_certified _ hw).1
      omega
  · have hchain := h.election.certified_extends h.justified hcert₁ _ _ w hle hw
    rw [show w.1.id = q₂.voteInfo.parentId from hid] at hchain
    exact Relation.ReflTransGen.mono (fun _ _ hl => h.parent_of_link hl) _ _ hchain

/-- Two replicas' commits, each climbing to its frontier, are comparable. -/
theorem committed_comparable {eff₁ eff₂ : List Effect} {x y : Bytes} (hx : Committed G eff₁ x)
    (hy : Committed G eff₂ y) :
    committedIDs eff₁ <+: committedIDs eff₂ ∨ committedIDs eff₂ <+: committedIDs eff₁ := by
  have hfun : ∀ x y z, G.Parent x y → G.Parent x z → y = z := fun _ _ _ h1 h2 => h1.unique h2
  have hroot := genesis_not_below G
  obtain ⟨hcx, hfx⟩ := hx
  obtain ⟨hcy, hfy⟩ := hy
  rcases hfx with rfl | ⟨q₁, h₁, hc₁, rfl⟩
  · exact .inl (hcx.initial_of_below hfun hroot hcy hcy.down)
  rcases hfy with rfl | ⟨q₂, h₂, hc₂, rfl⟩
  · exact .inr (hcy.initial_of_below hfun hroot hcx hcx.down)
  rcases UInt64.le_total q₁.voteInfo.parentRound q₂.voteInfo.parentRound with hle | hle
  · exact .inl (hcx.initial_of_below hfun hroot hcy (h.commits_comparable h₁ hc₁ h₂ hc₂ hle))
  · exact .inr (hcy.initial_of_below hfun hroot hcx (h.commits_comparable h₂ hc₂ h₁ hc₁ hle))

end Ballots

theorem exists_committed {N : Net} {log : List (UInt32 × Signed)} (hb : Ballots N.toGroup log)
    {P : UInt32 → Core → Event → Prop} {σ : Sys} (h : N.Run P σ) (i : UInt32) :
    ∃ top, Committed N.toGroup (σ.effects i) top := by
  obtain ⟨hfresh, hrun, hstuck⟩ := coreInv_run hb h i
  cases hs : σ.status i with
  | fresh => rw [hfresh hs]; exact ⟨_, .nil, .inl rfl⟩
  | running c => exact ⟨_, (hrun c hs).chain⟩
  | stuck => exact hstuck hs

/-- **Agreement**: in every state of every run, of what two replicas have passed to `OnCommit` one is an initial part of
the other, block by block. -/
theorem agreement {N : Net} {σ : Sys} (h : N.Reached Net.AnyEvent σ) (i j : UInt32) :
    committedIDs (σ.effects i) <+: committedIDs (σ.effects j) ∨
      committedIDs (σ.effects j) <+: committedIDs (σ.effects i) := by
  obtain ⟨log, hb⟩ := h.ballots
  obtain ⟨x, hx⟩ := exists_committed hb h.1 i
  obtain ⟨y, hy⟩ := exists_committed hb h.1 j
  exact hb.committed_comparable hx hy

/-- Replica 1 has committed block 2, and replica 4 not yet. -/
theorem chain_agreement :
    ∃ σ, Chain.net.Reached Net.AnyEvent σ ∧ (1, .onCommit (Chain.block 2)) ∈ σ.trace ∧
      (4, .onCommit (Chain.block 2)) ∉ σ.trace ∧
      (committedIDs (σ.effects 1) <+: committedIDs (σ.effects 4) ∨
        committedIDs (σ.effects 4) <+: committedIDs (σ.effects 1)) := by
  obtain ⟨σ, hσ, -, -, h1, -, h4, -⟩ := Chain.opening_reached Net.AnyEvent (fun _ _ _ _ => trivial)
  exact ⟨σ, hσ, h1, h4, agreement hσ 1 4⟩

/-- Some accepted certificate is of a child of `id`, in the round directly after that of every block with this id. -/
def CertifiedChild (G : Group) (id : Bytes) : Prop :=
  ∃ q b, G.AcceptsQC (some q) ∧ G.IsBlock b ∧ b.id = q.voteInfo.id ∧ parentID b = id ∧
    ∀ p, G.IsBlock p → p.id = id → b.round.toNat = p.round.toNat + 1

theorem Ballots.certifiedChild {G : Group} {log : List (UInt32 × Signed)} (h : Ballots G log) {q : QuorumCert}
    (hq : G.AcceptsQC (some q)) (hc : commits q.ledgerCommitInfo = true) : CertifiedChild G q.voteInfo.parentId := by
  have h0 := hq.round_ne_zero hc
  obtain ⟨b, tc, hv⟩ := h.vouched hq h0
  obtain ⟨-, hround, -, hnext⟩ := h.parent_truth hq h0
  refine ⟨q, b, hq, hv.block, hv.id_eq.symm, hv.parentId_eq.symm, fun p hp hpid => ?_⟩
  rw [hround p hp hpid, ← hv.round_eq]
  exact hnext hc

/-- **Certificates tell the truth about the chain**, of every block they are of; so the frontier of a ledger is genesis
or a block with a certified child in the next round. -/
theorem certificates_truthful {N : Net} {σ : Sys} (h : N.Reached Net.AnyEvent σ) :
    (∀ q b, N.AcceptsQC (some q) → 1 ≤ q.voteInfo.round → N.IsBlock b → b.id = q.voteInfo.id →
      (parentID b).len = hashLen →
      q.voteInfo.round = b.round ∧ q.voteInfo.parentId = parentID b ∧
      (∀ p, N.IsBlock p → p.id = q.voteInfo.parentId → q.voteInfo.parentRound = p.round) ∧
      q.voteInfo.parentRound < b.round ∧
      (commits q.ledgerCommitInfo = true → b.round.toNat = q.voteInfo.parentRound.toNat + 1)) ∧
    (∀ i c, σ.status i = .running c →
      c.ledger.commitID = (genesisBlock N.crypto).id ∨ CertifiedChild N.toGroup c.ledger.commitID) := by
  obtain ⟨log, hb⟩ := h.ballots
  refine ⟨fun q b hq hpos hblock hid hlen => ?_, fun i c hc => ?_⟩
  · have h0 : q.voteInfo.round ≠ 0 := fun h0 => absurd hpos (by rw [h0]; decide)
    have hround : b.round = q.voteInfo.round := hb.round_eq hq hblock hid
    obtain ⟨hparent, hpround, hlt, hcommit⟩ := hb.parent_truth hq h0
    rw [hround]
    exact ⟨rfl, hparent b hblock hid hlen, fun p hp hpid => (hpround p hp hpid).symm, hlt, hcommit⟩
  · rcases ((coreInv_run hb h.1 i).2.1 c hc).chain.2 with hg | ⟨q, hq, hcommit, hid⟩
    · exact .inl hg
    · rw [← hid]
      exact .inr (hb.certifiedChild hq hcommit)

/-- Block 3 and its certificate, and the frontier of replica 1. -/
theorem chain_truthful :
    ∃ σ c, Chain.net.Reached Net.AnyEvent σ ∧ σ.status 1 = .running c ∧
      (Chain.cert 3).voteInfo.parentId = parentID (Chain.block 3) ∧
      (Chain.cert 3).voteInfo.parentRound < (Chain.block 3).round ∧
      (c.ledger.commitID = (genesisBlock Chain.net.crypto).id ∨
        CertifiedChild Chain.net.toGroup c.ledger.commitID) := by
  obtain ⟨σ, hσ, -, -, -, -, -, hrun⟩ := Chain.opening_reached Net.AnyEvent (fun _ _ _ _ => trivial)
  obtain ⟨c, hc, -⟩ := Sys.running_of_check hrun
  have hq : Chain.net.AcceptsQC (some (Chain.cert 3)) := by decide +kernel
  have hblock : Chain.net.IsBlock (Chain.block 3) := by decide +kernel
  obtain ⟨htruth, htop⟩ := certificates_truthful hσ
  obtain ⟨-, hparent, -, hlt, -⟩ := htruth (Chain.cert 3) (Chain.block 3) hq (by decide) hblock rfl (len_digest 7)
  exact ⟨σ, c, hσ, hc, hparent, hlt, htop 1 c hc⟩

end Diem

import Diem.Deploy
import Diem.Proposals
import Diem.Stores
/-!
# Authors — who proposed what is committed (`core.go`)

A block comes to be voted for only under the signature of its author: `VerifyProposal` checks the sender's signature
over the block's id, and `processProposalMsg` that the sender and the author are both the leader.  A committed block is
certified, so an honest replica voted for it; and if its author is honest, the author proposed it, in the round and with
the payload that it was committed with.
-/
namespace Diem

open Relation (Climb)

/-- The blocks a replica proposed, in order. -/
def proposedBlocks (eff : List Effect) : List Block :=
  eff.filterMap (fun x => match x with
    | .proposal p => some (p.block.getD default)
    | _           => none)

theorem mem_proposedBlocks {eff : List Effect} {b : Block} :
    b ∈ proposedBlocks eff ↔ ∃ p, .proposal p ∈ eff ∧ p.block.getD default = b := by
  simp only [proposedBlocks, List.mem_filterMap]
  constructor
  · rintro ⟨x, hx, hb⟩
    cases x with
    | proposal p => exact ⟨p, hx, Option.some.inj hb⟩
    | _ => cases hb
  · rintro ⟨p, hp, rfl⟩
    exact ⟨.proposal p, hp, rfl⟩

theorem mem_committedBlocks {eff : List Effect} {b : Block} : b ∈ committedBlocks eff ↔ .onCommit b ∈ eff := by
  simp only [committedBlocks, List.mem_filterMap]
  constructor
  · rintro ⟨x, hx, hb⟩
    cases x with
    | onCommit b' =>
      cases hb
      exact hx
    | _ => cases hb
  · exact fun h => ⟨.onCommit b, h, rfl⟩

/-! ## Where effects come from -/

/-- Nothing but commits and assembled certificates. -/
def Settling (eff : List Effect) : Prop := ∀ x ∈ eff, (∃ b, x = .onCommit b) ∨ ∃ q, x = .assembled q

theorem settling_onCommit (bs : List Block) : Settling (bs.map Effect.onCommit) := by
  intro x hx
  obtain ⟨b, -, rfl⟩ := List.mem_map.1 hx
  exact .inl ⟨b, rfl⟩

theorem Settling.append {eff eff' : List Effect} (h : Settling eff) (h' : Settling eff') : Settling (eff ++ eff') :=
  fun x hx => (List.mem_append.1 hx).elim (h x) (h' x)

namespace Core

variable {cr : Crypto} {cfg : Config} {env : Env} {c : Core} {s : Stuck}

theorem processCertificateQC_settling {qc : Option QuorumCert} (h : processCertificateQC cr cfg env c qc = .error s) :
    Settling s.done := by
  obtain ⟨q, -, ⟨-, hd⟩ | ⟨l, t, bs, -, -, hd⟩⟩ := processCertificateQC_error h
  · rw [hd]
    exact fun x hx => absurd hx List.not_mem_nil
  · rw [hd]
    exact settling_onCommit bs

theorem processCertificates_settling {qc highCommitQc : Option QuorumCert} {tc : Option TimeoutCert}
    (h : processCertificates cr cfg env c qc highCommitQc tc = .error s) : Settling s.done := by
  unfold processCertificates at h
  split at h
  · rename_i h₁
    cases h
    exact processCertificateQC_settling h₁
  · rename_i h₁
    obtain ⟨s', h', hd⟩ := after_error h
    obtain ⟨bs, rfl⟩ := processCertificateQC_eff h₁
    rw [hd]
    refine (settling_onCommit bs).append ?_
    split at h'
    · rename_i h₂
      cases h'
      exact processCertificateQC_settling h₂
    · cases h'

theorem insert_settling {b : Block} (h : insert cfg env c b = .error s) : Settling s.done := by
  unfold insert at h
  dsimp only at h
  split at h
  · cases h
    exact fun x hx => absurd hx List.not_mem_nil
  · cases h

/-- **A step that never returns** has committed, or put a certificate together, and done nothing else. -/
theorem step_settling {e : Event} (h : c.step cr cfg env e = .error s) : Settling s.done := by
  cases e with
  | proposal p =>
    rw [step, processProposalMsg] at h
    split at h
    · rename_i h₁
      cases h
      exact processCertificates_settling h₁
    · rename_i h₁
      obtain ⟨bs, rfl⟩ := processCertificates_eff h₁
      dsimp only at h
      split at h
      · cases h
      · obtain ⟨s', h', hd⟩ := after_error h
        rw [hd]
        refine (settling_onCommit bs).append ?_
        rw [voteOn] at h'
        split at h'
        · rename_i h₂
          cases h'
          exact insert_settling h₂
        · cases h'
  | vote m =>
    rw [step, processVoteMsg] at h
    dsimp only at h
    split at h
    · cases h
    split at h
    · cases h
      exact fun x hx => absurd hx List.not_mem_nil
    · rename_i l t bs qc hv
      split at h
      · cases h
      · rename_i q
        obtain ⟨s', h', hd⟩ := after_error h
        have hq : Settling [.assembled q] := fun x hx => .inr ⟨q, List.mem_singleton.1 hx⟩
        rw [hd]
        refine ((settling_onCommit bs).append hq).append ?_
        split at h'
        · rename_i h₂
          cases h'
          exact processCertificateQC_settling h₂
        · cases h'
  | timeout m =>
    rw [step, processTimeoutMsg] at h
    split at h
    · rename_i h₁
      cases h
      exact processCertificates_settling h₁
    · dsimp only at h
      split at h <;> cases h
  | localTimeout epoch =>
    rw [step] at h
    split at h <;> cases h
  | block b => exact insert_settling h
  | blockRequest id => cases h

/-- **A step votes only for a block of the proposal it handles**, whose sender is its author. -/
theorem voted_of_step {c' : Core} {e : Event} {eff : List Effect} {m : VoteMsg} {dest : UInt32}
    (h : c.step cr cfg env e = .ok (c', eff)) (hm : .vote m dest ∈ eff) :
    ∃ p, e = .proposal p ∧ p.sender = (p.block.getD default).author ∧ m.voteInfo.id = (p.block.getD default).id := by
  have hcommit : ∀ bs : List Block, .vote m dest ∉ bs.map Effect.onCommit := by
    intro bs hx
    obtain ⟨b, -, hb⟩ := List.mem_map.1 hx
    cases hb
  have hpropose : ∀ {c₁ : Core} {tc : Option TimeoutCert}, .vote m dest ∉ c₁.processNewRoundEvent cr cfg env tc := by
    intro c₁ tc hx
    obtain ⟨sig, -, hp⟩ := mem_processNewRoundEvent hx
    cases hp
  cases e with
  | proposal p =>
    refine ⟨p, rfl, ?_⟩
    obtain ⟨c₁, eff₁, h₁, ⟨-, -, rfl⟩ | ⟨-, hsender, hauthor, c₂, eff₂, hins, -, rfl⟩⟩ := processProposalMsg_cases h
    · obtain ⟨bs, rfl⟩ := processCertificates_eff h₁
      exact absurd hm (hcommit bs)
    · refine ⟨hsender.trans hauthor.symm, ?_⟩
      obtain ⟨bs, rfl⟩ := processCertificates_eff h₁
      have hm := (List.mem_append.1 ((List.mem_append.1 hm).resolve_left (hcommit bs))).resolve_left (fun hx => by
        obtain ⟨-, rfl | ⟨id, rfl⟩⟩ := insert_ok hins
        · cases hx
        · cases List.mem_singleton.1 hx)
      obtain ⟨v, hv, hx⟩ := List.mem_map.1 hm
      cases hx
      have hvoted := (c₂.safety.makeVote_spec (verifier cr cfg) env cfg.id c₂.ledger c₂.tree (p.block.getD default)
        p.lastRoundTc).2 m (Option.mem_toList.1 hv)
      rw [hvoted.info]
  | vote v =>
    rcases processVoteMsg_ok h with ⟨-, -, rfl⟩ | ⟨-, l, t, bs, -, ⟨t', -, -, rfl⟩ | ⟨t', q, moved, eff', -, hq, rfl⟩⟩
    · cases hm
    · exact absurd hm (hcommit bs)
    · obtain ⟨bs', rfl⟩ := processCertificateQC_eff hq
      simp only [List.mem_append, List.mem_singleton, reduceCtorEq, or_false] at hm
      rcases hm with hm | hm
      · exact absurd hm (hcommit bs)
      · split at hm
        · exact ((List.mem_append.1 hm).elim (hcommit bs') hpropose).elim
        · exact absurd hm (hcommit bs')
  | timeout t =>
    obtain ⟨c₁, eff₁, p, s, out, tc, h₁, -, hend⟩ := processTimeoutMsg_ok h
    obtain ⟨bs, rfl⟩ := processCertificates_eff h₁
    have hout : .vote m dest ∉ bs.map Effect.onCommit ++ out.toList.map Effect.timeout := by
      intro hx
      rcases List.mem_append.1 hx with hx | hx
      · exact hcommit bs hx
      · obtain ⟨x, -, hx⟩ := List.mem_map.1 hx
        cases hx
    rcases hend with ⟨-, -, rfl⟩ | ⟨t', -, -, -, -, rfl⟩
    · exact absurd hm hout
    · exact ((List.mem_append.1 hm).elim hout hpropose).elim
  | localTimeout epoch =>
    rw [step] at h
    split at h
    · cases h
      obtain ⟨x, -, hx⟩ := List.mem_map.1 hm
      cases hx
    · cases h
      cases hm
  | block b =>
    obtain ⟨-, rfl | ⟨id, rfl⟩⟩ := insert_ok h
    · cases hm
    · cases List.mem_singleton.1 hm
  | blockRequest id =>
    cases h
    cases List.mem_singleton.1 hm

end Core

namespace Net

variable {N : Net} {P : UInt32 → Core → Event → Prop} {σ : Sys} {i : UInt32} {x : Effect}

/-- **When a replica did something**: when it was started, in a step, or in one that it is caught in. -/
inductive Origin (N : Net) (P : UInt32 → Core → Event → Prop) (i : UInt32) (x : Effect) : Prop
  | start (env : Env) (c : Core) (hnew : newCore N.crypto (N.config i) = some c)
      (hx : x ∈ (c.start N.crypto (N.config i) env).2)
  | event (env : Env) (c : Core) (e : Event) (c' : Core) (eff : List Effect) (he : N.Admits e) (hP : P i c e)
      (hs : c.step N.crypto (N.config i) env e = .ok (c', eff)) (hx : x ∈ eff)
  | stick (env : Env) (c : Core) (e : Event) (s : Stuck) (he : N.Admits e) (hP : P i c e)
      (hs : c.step N.crypto (N.config i) env e = .error s) (hx : x ∈ s.done)

/-- Everything in the trace was legitimately done at some time. -/
theorem Run.origin (h : N.Run P σ) (hx : (i, x) ∈ σ.trace) : N.Legit i x ∧ N.Origin P i x := by
  induction h with
  | refl => cases hx
  | tail _ hs ih =>
    have hlast : ∀ {τ : Sys} {j : UInt32} {st : Status} {eff : List Effect}, (i, x) ∈ (τ.set j st eff).trace →
        (i, x) ∈ τ.trace ∨ j = i ∧ x ∈ eff := by
      intro τ j st eff hmem
      refine (List.mem_append.1 hmem).imp_right (fun hmem => ?_)
      obtain ⟨y, hy, heq⟩ := List.mem_map.1 hmem
      cases heq
      exact ⟨rfl, hy⟩
    cases hs with
    | start j env c hi hσ hnew hok =>
      rcases hlast hx with hx | ⟨rfl, hnow⟩
      · exact ih hx
      · exact ⟨hok x hnow, .start env c hnew hnow⟩
    | event j env c e c' eff hi hσ he hP hs hok =>
      rcases hlast hx with hx | ⟨rfl, hnow⟩
      · exact ih hx
      · exact ⟨hok x hnow, .event env c e c' eff he hP hs hnow⟩
    | stick j env c e s hi hσ he hP hs hok =>
      rcases hlast hx with hx | ⟨rfl, hnow⟩
      · exact ih hx
      · exact ⟨hok x hnow, .stick env c e s he hP hs hnow⟩

/-- **An honest vote is for a block that was proposed**, by its author and under the author's signature. -/
theorem Run.voted (h : N.Run P σ) {m : VoteMsg} {dest : UInt32} (hm : (i, .vote m dest) ∈ σ.trace) :
    ∃ p b, N.Admits (.proposal p) ∧ p.block = some b ∧ p.sender = b.author ∧ m.voteInfo.id = b.id := by
  obtain ⟨-, ⟨env, c, hnew, hx⟩ | ⟨env, c, e, c', eff, he, -, hs, hx⟩ | ⟨env, c, e, s, he, -, hs, hx⟩⟩ := h.origin hm
  · obtain ⟨sig, -, hp⟩ := Core.mem_processNewRoundEvent hx
    cases hp
  · obtain ⟨p, rfl, hsender, hid⟩ := Core.voted_of_step hs hx
    exact ⟨p, _, he, he.proposal_block, hsender, hid⟩
  · rcases Core.step_settling hs _ hx with ⟨b, hb⟩ | ⟨q, hq⟩
    · cases hb
    · cases hq

/-- **What a replica proposes is a block of its own.** -/
theorem Run.proposed (h : N.Run P σ) {b : Block} (hb : b ∈ proposedBlocks (σ.effects i)) :
    N.IsBlock b ∧ b.author = i := by
  obtain ⟨p, hp, rfl⟩ := mem_proposedBlocks.1 hb
  have hnew : ∀ {env : Env} {c : Core} {tc : Option TimeoutCert},
      .proposal p ∈ c.processNewRoundEvent N.crypto (N.config i) env tc →
      validBlockID N.crypto (p.block.getD default) = true ∧ (p.block.getD default).author = i := by
    intro env c tc hx
    obtain ⟨sig, -, heq⟩ := Core.mem_processNewRoundEvent hx
    cases heq
    exact ⟨validBlockID_newBlock _ _ _ _ _, N.id_eq i⟩
  obtain ⟨hlegit, horigin⟩ := h.origin (Sys.mem_effects.1 hp)
  have hvalid : validBlockID N.crypto (p.block.getD default) = true ∧ (p.block.getD default).author = i := by
    rcases horigin with ⟨env, c, -, hx⟩ | ⟨env, c, e, c', eff, -, -, hs, hx⟩ | ⟨env, c, e, s, -, -, hs, hx⟩
    · exact hnew hx
    · obtain ⟨eff₀, hno, ⟨-, rfl⟩ | ⟨tc, -, rfl⟩⟩ := Core.step_newRound hs
      · exact absurd hx (hno p)
      · exact hnew ((List.mem_append.1 hx).resolve_left (hno p))
    · rcases Core.step_settling hs _ hx with ⟨b, hb⟩ | ⟨q, hq⟩
      · cases hb
      · cases hq
  exact ⟨⟨hvalid.1, (hlegit _ _ rfl).2.1⟩, hvalid.2⟩

end Net

/-! ## From a certificate to a proposal -/

/-- What bears the bytes of a block is a block. -/
theorem Signed.eq_block_of_bytes {x : Signed} {b : Block} (h : x.bytes = b.bytes) :
    ∃ b', x = .block b' ∧ b'.bytes = b.bytes := by
  cases x with
  | vote m => exact absurd (List.cons.inj h).1 (by decide)
  | timeout m => exact absurd (List.cons.inj h).1 (by decide)
  | block b' => exact ⟨b', rfl, h⟩
  | sigs s => exact absurd (List.cons.inj h).1 (by decide)

/-- What an id settles of its block, the certificate apart. -/
def Block.entry (b : Block) : Bytes × UInt32 × UInt64 × Payload := (b.id, b.author, b.round, b.payload)

theorem Group.IsBlock.entry_eq {G : Group} {b b' : Block} (h : G.IsBlock b) (h' : G.IsBlock b') (hid : b.id = b'.id) :
    b.entry = b'.entry := by
  obtain ⟨ha, hr, hp, -⟩ := blockBytes_inj_head (h.bytes_eq h' hid)
  rw [Block.entry, Block.entry, hid, ha, hr, hp]

section

variable {N : Net} {P : UInt32 → Core → Event → Prop} {σ : Sys} (h : N.Run P σ) (hu : N.Unforgeable (signedLog σ.trace))
include h hu

theorem Net.Run.ballots : Ballots N.toGroup (signedLog σ.trace) := by
  obtain ⟨S, hS, hlog, -⟩ := Net.refines h
  rw [← hlog] at hu ⊢
  exact Ballots.of_run hS hu

/-- **A certified block above genesis was proposed**, and signed by its author. -/
theorem Net.Run.certified_proposed {id : Bytes} (hid : N.CertifiedID id) (hne : id ≠ (genesisBlock N.crypto).id) :
    ∃ p b, N.Admits (.proposal p) ∧ p.block = some b ∧ p.sender = b.author ∧ b.id = id := by
  have hb := h.ballots hu
  obtain ⟨qc, hqc, rfl⟩ := hid
  obtain ⟨q, rfl⟩ := hqc.eq_some
  by_cases h0 : q.voteInfo.round = 0
  · rw [hqc.eq_genesisQC h0] at hne
    exact absurd rfl hne
  · -- a quorum holds an honest signer, whose vote was for this id
    obtain ⟨A, hA, hvotes⟩ := hb.certified hqc h0
    obtain ⟨i, hi, hiA, -⟩ := hb.election.meet A hA A hA
    obtain ⟨m, hm, -, -, hc⟩ := mem_hist_vote (hvotes i hiA hi)
    obtain ⟨dest, hsent⟩ := vote_sent hm
    obtain ⟨p, b, hp, hblock, hsender, hmid⟩ := h.voted hsent
    refine ⟨p, b, hp, hblock, hsender, ?_⟩
    rw [← hmid, ← (Prod.mk.inj hc).1]
    rfl

/-- **A certified block of an honest author is one the author proposed.** -/
theorem Net.Run.certified_authored {b : Block} (hb : N.IsBlock b) (hid : N.CertifiedID b.id)
    (hne : b.id ≠ (genesisBlock N.crypto).id) (hi : N.Honest b.author) :
    ∃ b' ∈ proposedBlocks (σ.effects b.author), b'.entry = b.entry := by
  obtain ⟨p, b₁, hp, hblock, hsender, hid₁⟩ := h.certified_proposed hu hid hne
  have hb₁ := (hp.proposed hblock).1
  have hentry := hb₁.entry_eq hb hid₁
  have hauthor : b₁.author = b.author := congrArg (fun e => e.2.1) hentry
  obtain ⟨-, -, -, hsigner, hsig, -⟩ := (N.verifier.verifyProposal_iff p b₁ hblock).1 hp.1
  rw [verifySig, hsigner, hsender, hauthor] at hsig
  obtain ⟨x, hx, hd⟩ := hu _ hi _ _ hsig
  rw [← (validBlockID_iff _ _).1 hb₁.1] at hd
  -- the author signed these bytes, and only blocks have them
  obtain ⟨b', rfl, hbytes⟩ := Signed.eq_block_of_bytes (N.collisionFree.inj (h.sound _ _ hx).1 hb₁.2 hd)
  obtain ⟨y, sig, hy, hysig⟩ := mem_signedLog.1 hx
  cases y with
  | proposal p' =>
    cases hysig
    have hmem : p'.block.getD default ∈ proposedBlocks (σ.effects b.author) :=
      mem_proposedBlocks.2 ⟨p', Sys.mem_effects.2 hy, rfl⟩
    refine ⟨_, hmem, (Group.IsBlock.entry_eq (h.proposed hmem).1 hb₁ ?_).trans hentry⟩
    rw [← (validBlockID_iff _ _).1 (h.proposed hmem).1.1, hbytes, (validBlockID_iff _ _).1 hb₁.1]
  | _ => cases hysig

end

/-! ## What is committed -/

/-- Every block committed is a certified one. -/
def Sealed (G : Group) (eff : List Effect) : Prop := ∀ b, .onCommit b ∈ eff → G.IsBlock b ∧ G.CertifiedID b.id

theorem Sealed.append {G : Group} {eff eff' : List Effect} (h : Sealed G eff) (h' : Sealed G eff') :
    Sealed G (eff ++ eff') := fun b hb => (List.mem_append.1 hb).elim (h b) (h' b)

theorem sealed_of_none {G : Group} {eff : List Effect} (h : ∀ b, .onCommit b ∉ eff) : Sealed G eff :=
  fun b hb => absurd hb (h b)

section

variable {N : Net} {log : List (UInt32 × Signed)} (hb : Ballots N.toGroup log) {i : UInt32} {env : Env} {c₀ c c' : Core}
  {e : Event} {tr eff : List Effect}
include hb

/-- A certificate commits certified blocks. -/
theorem sealed_processQC {history fuel : Nat} {l l' : MemLedger} {t t' : BlockTree} {qc : QuorumCert} {bs : List Block}
    (hl : LedgerInv N.toGroup N.IsBlock l) (hq : N.AcceptsQC (some qc))
    (h : BlockTree.processQC history fuel l t (some qc) = .ok (l', t', bs)) :
    Sealed N.toGroup (bs.map Effect.onCommit) := by
  intro b hmem
  obtain ⟨b', hbs, heq⟩ := List.mem_map.1 hmem
  cases heq
  obtain ⟨-, ⟨hc, hcommit, -⟩ | ⟨-, -, rfl, -⟩⟩ := BlockTree.processQC_ok h
  · rcases MemLedger.commit_ok hcommit with ⟨-, rfl⟩ | ⟨chain, hr, rfl, -⟩
    · cases hbs
    · obtain ⟨s, hs, rfl⟩ := List.mem_map.1 hbs
      obtain ⟨hblock, hcert, -⟩ :=
        hl.certified_path (fun _ h => h) hb hr (hb.certifiedID_of_commits hq hc) s hs
      exact ⟨hblock, hcert⟩
  · cases hbs

omit hb in
theorem sealed_propose {tc : Option TimeoutCert} :
    Sealed N.toGroup (c.processNewRoundEvent N.crypto (N.config i) env tc) := by
  refine sealed_of_none (fun b hx => ?_)
  obtain ⟨sig, -, hp⟩ := Core.mem_processNewRoundEvent hx
  cases hp

theorem sealed_certificateQC {qc : QuorumCert} {moved : Bool} (h : CoreInv N.toGroup N.IsBlock tr c)
    (hq : N.AcceptsQC (some qc))
    (hp : c.processCertificateQC N.crypto (N.config i) env (some qc) = .ok ((c', moved), eff)) :
    Sealed N.toGroup eff := by
  obtain ⟨l, t, bs, le, hqc, -, -, -, rfl⟩ := Core.processCertificateQC_ok hp
  exact sealed_processQC hb h.ledger hq hqc

/-- **A micro step commits certified blocks.** -/
theorem Net.Micro.sealed (he : N.Admits e) (h : CoreInv N.toGroup N.IsBlock tr c) (hm : N.Micro i env c₀ e c eff c')
    (hok : ∀ x ∈ eff, N.Legit i x) : Sealed N.toGroup eff := by
  cases hm with
  | cert _ qc _ moved _ hsrc hp => exact sealed_certificateQC hb h (he.qcs qc hsrc) hp
  | insert _ b _ _ hsrc hp =>
    obtain ⟨-, rfl | ⟨id, rfl⟩⟩ := Core.insert_ok hp
    · exact sealed_of_none (fun b hx => by cases hx)
    · exact sealed_of_none (fun b hx => by cases List.mem_singleton.1 hx)
  | vote _ p b dest hp hb hround hqc =>
    refine sealed_of_none (fun b hx => ?_)
    obtain ⟨v, -, hx⟩ := List.mem_map.1 hx
    cases hx
  | timeout =>
    refine sealed_of_none (fun b hx => ?_)
    obtain ⟨v, -, hx⟩ := List.mem_map.1 hx
    cases hx
  | complete => exact sealed_propose
  | voteQC m qc l t bs hm hqc hwin hp =>
    subst hm
    exact sealed_processQC hb h.ledger (he.highCommitQc hqc) hp
  | aggregate _ m qc _ moved eff' hm hwin hqc hp =>
    subst hm
    obtain ⟨hq, -, h1⟩ := h.assembled hb he hqc (hok _ List.mem_cons_self)
    have hcert := sealed_certificateQC hb h1 hq hp
    have hone : Sealed N.toGroup [.assembled qc] := sealed_of_none (fun b hx => by cases List.mem_singleton.1 hx)
    rw [← List.singleton_append]
    refine hone.append ?_
    split
    · exact hcert.append sealed_propose
    · exact hcert
  | reply _ b => exact sealed_of_none (fun b hx => by cases List.mem_singleton.1 hx)
  | _ => exact sealed_of_none (fun b hx => by cases hx)

theorem Net.Cut.sealed (he : N.Admits e) (h : CoreInv N.toGroup N.IsBlock tr c) (hc : N.Cut i env e c eff)
    (hok : ∀ x ∈ eff, N.Legit i x) : Sealed N.toGroup eff := by
  cases hc with
  | cert qc l t bs loop hsrc hp hloop => exact sealed_processQC hb h.ledger (he.qcs qc hsrc) hp
  | aggregate m qc l t bs loop hm hqc hp hloop =>
    subst hm
    obtain ⟨hq, -, h1⟩ := h.assembled hb he hqc (hok _ List.mem_cons_self)
    have hone : Sealed N.toGroup [.assembled qc] := sealed_of_none (fun b hx => by cases List.mem_singleton.1 hx)
    exact hone.append (sealed_processQC hb h1.ledger hq hp)
  | assembled => exact sealed_of_none (fun b hx => by cases List.mem_singleton.1 hx)
  | _ => exact sealed_of_none (fun b hx => by cases hx)

theorem Net.Run.sealed {P : UInt32 → Core → Event → Prop} {σ : Sys} (h : N.Run P σ) (i : UInt32) :
    Sealed N.toGroup (σ.effects i) := by
  obtain ⟨hfresh, hrun, hstuck⟩ := Net.Run.invariant
    (J := fun _ tr c => CoreInv N.toGroup N.IsBlock tr c ∧ Sealed N.toGroup tr)
    (K := fun _ tr => Sealed N.toGroup tr)
    (fun _ _ _ hnew _ => ⟨coreInv_start hnew, sealed_propose⟩)
    (fun _ _ _ _ _ _ _ _ _ he _ hJ hm hok =>
      ⟨coreInv_micro (fun _ h => h) hb he (fun _ hsrc => he.isBlock hsrc) hJ.1 hm hok,
        hJ.2.append (hm.sealed hb he hJ.1 hok)⟩)
    (fun _ _ _ _ _ _ _ _ he _ hJ hc hok => hJ.2.append (hc.sealed hb he hJ.1 hok)) h i
  cases hs : σ.status i with
  | fresh =>
    rw [hfresh hs]
    exact sealed_of_none (fun b hx => by cases hx)
  | running c => exact (hrun c hs).2
  | stuck => exact hstuck hs

end

/-- Climbing by parents, certified blocks rise in rounds. -/
theorem Ballots.climb_rises {G : Group} {log : List (UInt32 × Signed)} (hb : Ballots G log)
    {bs : List Block} {top : Bytes} (hclimb : Climb G.Parent (genesisBlock G.crypto).id (bs.map Block.id) top)
    (hbs : ∀ b ∈ bs, G.IsBlock b ∧ G.CertifiedID b.id) :
    ∃ t, G.IsBlock t ∧ t.id = top ∧ (∀ b ∈ genesisBlock G.crypto :: bs, b.round ≤ t.round) ∧
      (genesisBlock G.crypto :: bs).Pairwise (fun p b => p.round < b.round) := by
  generalize hxs : bs.map Block.id = xs at hclimb
  induction hclimb generalizing bs with
  | nil =>
    rw [List.map_eq_nil_iff.1 hxs]
    refine ⟨_, G.isBlock_genesis, rfl, fun b hbm => ?_, List.pairwise_singleton _ _⟩
    rw [List.mem_singleton.1 hbm]
    exact UInt64.le_refl _
  | @snoc xs x y hc hy ih =>
    obtain ⟨bs', l, rfl, hmap, hl⟩ := List.map_eq_append_iff.1 hxs
    obtain ⟨b, rfl, rfl⟩ := List.map_eq_singleton_iff.1 hl
    obtain ⟨p, hp, hpid, hle, hpair⟩ := ih (fun b hb => hbs b (List.mem_append_left _ hb)) hmap
    obtain ⟨hblock, hcert⟩ := hbs b (List.mem_append_right _ (List.mem_singleton.2 rfl))
    -- the block that shows the link has the round of the block that was committed
    obtain ⟨b', hb', hid', hpar, -⟩ := hy
    have hlt : p.round < b.round := by
      rw [← hb'.round_eq hblock hid']
      exact hb.round_lt_of_parent (hid' ▸ hcert) hb' hp (hpid.trans hpar.symm)
    refine ⟨b, hblock, rfl, fun a ha => ?_, ?_⟩
    · rw [← List.cons_append] at ha
      rcases List.mem_append.1 ha with ha | ha
      · exact UInt64.le_of_lt (UInt64.lt_of_le_of_lt (hle a ha) hlt)
      · rw [List.mem_singleton.1 ha]
        exact UInt64.le_refl _
    · rw [← List.cons_append, List.pairwise_append]
      refine ⟨hpair, List.pairwise_singleton _ _, fun a ha z hz => ?_⟩
      rw [List.mem_singleton.1 hz]
      exact UInt64.lt_of_le_of_lt (hle a ha) hlt

section

variable {N : Net} {P : UInt32 → Core → Event → Prop} {σ : Sys} (h : N.Run P σ) (hu : N.Unforgeable (signedLog σ.trace))
include h hu

/-- **A log rises in rounds**, from genesis, which is not in it. -/
theorem Net.Run.log_rises (j : UInt32) :
    (genesisBlock N.crypto :: committedBlocks (σ.effects j)).Pairwise (fun p b => p.round < b.round) := by
  have hb := h.ballots hu
  obtain ⟨top, hclimb, -⟩ := exists_committed hb h j
  rw [← map_id_committedBlocks] at hclimb
  obtain ⟨-, -, -, -, hpair⟩ := hb.climb_rises hclimb (fun b hmem => h.sealed hb j b (mem_committedBlocks.1 hmem))
  exact hpair

/-- **A block in a log whose author is honest was proposed by its author.** -/
theorem Net.Run.log_authored {j : UInt32} {b : Block} (hb : b ∈ committedBlocks (σ.effects j))
    (hi : N.Honest b.author) : ∃ b' ∈ proposedBlocks (σ.effects b.author), b'.entry = b.entry := by
  obtain ⟨hblock, hcert⟩ := h.sealed (h.ballots hu) j b (mem_committedBlocks.1 hb)
  refine h.certified_authored hu hblock hcert (fun hid => ?_) hi
  have hlt := (List.pairwise_cons.1 (h.log_rises hu j)).1 b hb
  rw [hblock.round_eq N.isBlock_genesis hid] at hlt
  exact UInt64.lt_irrefl _ hlt

end

end Diem

import Diem.Invariant
import Diem.Play
/-!
# Rounds — the round, the highest certificate, and what follows from them

A replica's round directly follows its highest certificate's, or that of the TC it holds (`RoundInv`).  Every path that
raises the highest certificate also advances the round, but one: `ProcessVote` runs the commit certificate of a vote
through the tree and tells no pacemaker.  So the invariant holds in the runs in which no vote brings a certificate of
the current round or later (`Timely`), and there every timeout goes out.  A proposal is made when a round is entered,
over a certificate or a TC of the round before or later: it is acceptable as long as no vote brings a certificate of a
later round (`Prompt`).
-/
namespace Diem

/-- The rounds a proposal or a timeout names: its certificates' and, of a timeout, the one given up. -/
def Event.rounds (e : Event) : List UInt64 :=
  e.qcs.map (fun q => q.voteInfo.round) ++ e.tc.toList.map TimeoutCert.round ++
    match e with
    | .timeout m => [m.tmoInfo.round]
    | _          => []

/-- **The condition on a step**: no round is the last there is, and a vote that is counted brings no commit certificate
of the current round or later. -/
def Timely (_ : UInt32) (c : Core) (e : Event) : Prop :=
  (∀ r ∈ e.rounds, r + 1 ≠ 0) ∧
  ∀ m, e = .vote m → InWindow c m → m.voteInfo.round + 1 ≠ 0 ∧
    ∀ q, m.highCommitQc = some q → q.voteInfo.round < c.pacemaker.currentRound

/-- The same, but the certificate may be of the current round. -/
def Prompt (_ : UInt32) (c : Core) (e : Event) : Prop :=
  (∀ r ∈ e.rounds, r + 1 ≠ 0) ∧
  ∀ m, e = .vote m → InWindow c m → m.voteInfo.round + 1 ≠ 0 ∧
    ∀ q, m.highCommitQc = some q → q.voteInfo.round ≤ c.pacemaker.currentRound

theorem Timely.prompt {i : UInt32} {c : Core} {e : Event} (h : Timely i c e) : Prompt i c e :=
  ⟨h.1, fun m hm hwin => ⟨(h.2 m hm hwin).1, fun q hq => UInt64.le_of_lt ((h.2 m hm hwin).2 q hq)⟩⟩

/-- A replica is abreast of its highest certificate: in its round, or a later one. -/
def Abreast (c : Core) : Prop := c.tree.highQC.voteInfo.round ≤ c.pacemaker.currentRound

namespace Abreast

variable {c : Core} {qc : QuorumCert} {t : BlockTree}

/-- A certificate of the current round or later is as high as any. -/
theorem higher_round_eq (h : Abreast c) (hlt : ¬ qc.voteInfo.round < c.pacemaker.currentRound) :
    (higher qc c.tree.highQC).voteInfo.round = qc.voteInfo.round := by
  have hr := higher_round qc c.tree.highQC
  rw [Abreast, UInt64.le_iff_toNat_le] at h
  rw [UInt64.lt_iff_toNat_lt] at hlt
  exact UInt64.toNat_inj.1 (by omega)

theorem late (h : Abreast c) (hle : qc.voteInfo.round ≤ c.pacemaker.currentRound) {l : MemLedger} {e : LeaderElection}
    (ht : t.highQC = higher qc c.tree.highQC) : Abreast { c with ledger := l, tree := t, leaders := e } := by
  have hr := higher_round qc c.tree.highQC
  rw [Abreast, UInt64.le_iff_toNat_le] at h
  rw [UInt64.le_iff_toNat_le] at hle
  simp only [Abreast, ht, UInt64.le_iff_toNat_le]
  omega

theorem cert (h : Abreast c) (hwrap : qc.voteInfo.round + 1 ≠ 0) {l : MemLedger} {e : LeaderElection}
    (ht : t.highQC = higher qc c.tree.highQC) :
    Abreast { c with ledger := l, tree := t, leaders := e, pacemaker := (c.pacemaker.advanceRoundQC (some qc)).1 } := by
  rw [Pacemaker.advanceRoundQC_eq]
  by_cases hlt : qc.voteInfo.round < c.pacemaker.currentRound
  · rw [if_pos hlt]
    exact h.late (UInt64.le_of_lt hlt) ht
  · rw [if_neg hlt]
    have hsucc := round_succ rfl hwrap
    simp only [Abreast, ht, h.higher_round_eq hlt, Pacemaker.startTimer, UInt64.le_iff_toNat_le]
    omega

theorem tc (h : Abreast c) {tc : TimeoutCert} (hwrap : tc.round + 1 ≠ 0) :
    Abreast { c with pacemaker := (c.pacemaker.advanceRoundTC (some tc)).1 } := by
  rw [Pacemaker.advanceRoundTC_eq]
  by_cases hlt : tc.round < c.pacemaker.currentRound
  · rw [if_pos hlt]
    exact h
  · rw [if_neg hlt]
    have hsucc := round_succ rfl hwrap
    rw [Abreast, UInt64.le_iff_toNat_le] at h
    rw [UInt64.lt_iff_toNat_lt] at hlt
    simp only [Abreast, Pacemaker.startTimer, UInt64.le_iff_toNat_le]
    omega

theorem gather (h : Abreast c) (ht : t.highQC = c.tree.highQC) : Abreast { c with tree := t } := by
  simp only [Abreast, ht]
  exact h

/-- **Every micro step of a prompt step leaves the replica abreast.** -/
theorem micro {N : Net} {Q : Block → Prop} {log : List (UInt32 × Signed)} (hb : Ballots N.toGroup log) {i : UInt32}
    {env : Env} {c₀ : Core} {e : Event} {tr eff : List Effect} {c' : Core} (he : N.Admits e) (hp : Prompt i c₀ e)
    (hinv : CoreInv N.toGroup Q tr c) (h : Abreast c) (hm : N.Micro i env c₀ e c eff c')
    (hok : ∀ x ∈ eff, N.Legit i x) : Abreast c' := by
  cases hm with
  | cert _ qc _ moved _ hsrc hcert =>
    obtain ⟨l, t, bs, le, hq, -, rfl, -, -⟩ := Core.processCertificateQC_ok hcert
    refine h.cert (hp.1 _ ?_) (BlockTree.processQC_ok hq).1
    exact List.mem_append_left _ (List.mem_append_left _ (List.mem_map.2 ⟨qc, hsrc, rfl⟩))
  | tc _ t hsrc =>
    refine h.tc (hp.1 _ ?_)
    exact List.mem_append_left _ (List.mem_append_right _ (by simp [hsrc]))
  | insert _ b _ _ hsrc hins =>
    obtain ⟨rfl, -⟩ := Core.insert_ok hins
    exact h
  | vote => exact h
  | stop => exact h
  | timeout => exact h
  | note => exact h
  | complete _ m tc _ hm htc hlen hround hc' =>
    subst hc' hm
    refine h.tc (hp.1 _ (List.mem_append_right _ ?_))
    rw [htc]
    exact List.mem_singleton.2 rfl
  | voteQC m qc l t bs hm hqc hwin hproc => exact h.late ((hp.2 m hm hwin).2 qc hqc) (BlockTree.processQC_ok hproc).1
  | gather _ m hm hnone => exact h.gather (accumulate_highQC ..)
  | aggregate _ m qc _ moved eff' hm hwin hqc hcert =>
    subst hm
    obtain ⟨-, hvi, -⟩ := hinv.assembled hb he hqc (hok _ List.mem_cons_self)
    obtain ⟨l, t, bs, le, hq, -, rfl, -, -⟩ := Core.processCertificateQC_ok hcert
    have h' := h.gather (accumulate_highQC N.crypto env i N.verifier.quorum c.tree m)
    refine h'.cert ?_ (BlockTree.processQC_ok hq).1
    rw [hvi]
    exact (hp.2 m rfl hwin).1
  | reply _ b => exact h

end Abreast

structure RoundInv (c : Core) : Prop where
  below : c.tree.highQC.voteInfo.round < c.pacemaker.currentRound
  entry : c.tree.highQC.voteInfo.round + 1 = c.pacemaker.currentRound ∨
            ∃ tc, c.pacemaker.lastRoundTC = some tc ∧ tc.round + 1 = c.pacemaker.currentRound
  voted : c.safety.highestVoteRound ≤ c.pacemaker.currentRound
  seen  : c.safety.highestQCRound ≤ c.tree.highQC.voteInfo.round

/-- A certificate below the current round changes nothing that matters: it is no higher than the highest. -/
theorem RoundInv.late {c : Core} (h : RoundInv c) {qc : QuorumCert}
    (hlt : qc.voteInfo.round < c.pacemaker.currentRound) {l : MemLedger} {t : BlockTree} {e : LeaderElection}
    (ht : t.highQC = higher qc c.tree.highQC) : RoundInv { c with ledger := l, tree := t, leaders := e } := by
  have hr := higher_round qc c.tree.highQC
  have hb := h.below
  have hs := h.seen
  rw [UInt64.lt_iff_toNat_lt] at hb hlt
  rw [UInt64.le_iff_toNat_le] at hs
  refine ⟨?_, ?_, h.voted, ?_⟩
  · simp only [ht, UInt64.lt_iff_toNat_lt]
    omega
  · rcases h.entry with hnext | htc
    · refine .inl ?_
      have hn := (round_succ_iff h.below).1 hnext
      have heq : (higher qc c.tree.highQC).voteInfo.round = c.tree.highQC.voteInfo.round :=
        UInt64.toNat_inj.1 (by omega)
      simp only [ht, heq]
      exact hnext
    · exact .inr htc
  · simp only [ht, UInt64.le_iff_toNat_le]
    omega

/-- A certificate of the current round or later becomes the highest, and the round follows it. -/
theorem RoundInv.cert {c : Core} (h : RoundInv c) {qc : QuorumCert} (hwrap : qc.voteInfo.round + 1 ≠ 0)
    {l : MemLedger} {t : BlockTree} {e : LeaderElection} (ht : t.highQC = higher qc c.tree.highQC) :
    RoundInv { c with
      ledger := l, tree := t, leaders := e, pacemaker := (c.pacemaker.advanceRoundQC (some qc)).1 } := by
  rw [Pacemaker.advanceRoundQC_eq]
  by_cases hlt : qc.voteInfo.round < c.pacemaker.currentRound
  · rw [if_pos hlt]
    exact h.late hlt ht
  · rw [if_neg hlt]
    have heq := Abreast.higher_round_eq (UInt64.le_of_lt h.below) hlt
    have hb := h.below
    have hv := h.voted
    have hs := h.seen
    have hsucc := round_succ rfl hwrap
    rw [UInt64.lt_iff_toNat_lt] at hb hlt
    rw [UInt64.le_iff_toNat_le] at hv hs
    refine ⟨?_, .inl ?_, ?_, ?_⟩
    · simp only [ht, heq, Pacemaker.startTimer, UInt64.lt_iff_toNat_lt]
      omega
    · simp only [ht, heq, Pacemaker.startTimer]
    · simp only [Pacemaker.startTimer, UInt64.le_iff_toNat_le]
      omega
    · simp only [ht, heq, UInt64.le_iff_toNat_le]
      omega

theorem RoundInv.tc {c : Core} (h : RoundInv c) {tc : TimeoutCert} (hwrap : tc.round + 1 ≠ 0) :
    RoundInv { c with pacemaker := (c.pacemaker.advanceRoundTC (some tc)).1 } := by
  rw [Pacemaker.advanceRoundTC_eq]
  by_cases hlt : tc.round < c.pacemaker.currentRound
  · rw [if_pos hlt]
    exact h
  · rw [if_neg hlt]
    have hb := h.below
    have hv := h.voted
    have hsucc := round_succ rfl hwrap
    rw [UInt64.lt_iff_toNat_lt] at hb hlt
    rw [UInt64.le_iff_toNat_le] at hv
    refine ⟨?_, .inr ⟨tc, rfl, rfl⟩, ?_, h.seen⟩
    · simp only [Pacemaker.startTimer, UInt64.lt_iff_toNat_lt]
      omega
    · simp only [Pacemaker.startTimer, UInt64.le_iff_toNat_le]
      omega

theorem RoundInv.gather {c : Core} (h : RoundInv c) {t : BlockTree} (ht : t.highQC = c.tree.highQC) :
    RoundInv { c with tree := t } := by
  refine ⟨?_, ?_, h.voted, ?_⟩
  · simp only [ht]; exact h.below
  · simp only [ht]; exact h.entry
  · simp only [ht]; exact h.seen

theorem roundInv_start {N : Net} {i : UInt32} {env : Env} {c : Core} (hnew : newCore N.crypto (N.config i) = some c) :
    RoundInv (c.start N.crypto (N.config i) env).1 := by
  cases newCore_eq hnew
  exact ⟨(by decide : (0 : UInt64) < 0 + 1), .inl rfl, (by decide : (0 : UInt64) ≤ 0 + 1),
    (by decide : (0 : UInt64) ≤ 0)⟩

/-- **Every micro step of a timely step keeps the rounds in step.** -/
theorem roundInv_micro {N : Net} {Q : Block → Prop} {log : List (UInt32 × Signed)} (hb : Ballots N.toGroup log)
    {i : UInt32} {env : Env} {c₀ : Core} {e : Event} {tr eff : List Effect} {c c' : Core} (he : N.Admits e)
    (ht : Timely i c₀ e) (hinv : CoreInv N.toGroup Q tr c) (h : RoundInv c) (hm : N.Micro i env c₀ e c eff c')
    (hok : ∀ x ∈ eff, N.Legit i x) : RoundInv c' := by
  cases hm with
  | cert _ qc _ moved _ hsrc hp =>
    obtain ⟨l, t, bs, le, hq, -, rfl, -, -⟩ := Core.processCertificateQC_ok hp
    refine h.cert (ht.1 _ ?_) (BlockTree.processQC_ok hq).1
    exact List.mem_append_left _ (List.mem_append_left _ (List.mem_map.2 ⟨qc, hsrc, rfl⟩))
  | tc _ t hsrc =>
    refine h.tc (ht.1 _ ?_)
    exact List.mem_append_left _ (List.mem_append_right _ (by simp [hsrc]))
  | insert _ b _ _ hsrc hp =>
    obtain ⟨rfl, -⟩ := Core.insert_ok hp
    exact ⟨h.below, h.entry, h.voted, h.seen⟩
  | vote _ p b dest hp hb hround hqc =>
    have hv := h.voted
    have hs := h.seen
    rw [UInt64.le_iff_toNat_le] at hv hs hqc
    rcases Safety.makeVote_counters N.verifier env i c.ledger c.tree c.safety b p.lastRoundTc with ⟨h1, h2⟩ | ⟨h1, h2⟩
    · exact ⟨h.below, h.entry, by rw [h1]; exact h.voted, by rw [h2]; exact h.seen⟩
    · refine ⟨h.below, h.entry, ?_, ?_⟩
      · rw [h1, hround, UInt64.le_iff_toNat_le, UInt64.toNat_max]
        exact Nat.max_le.2 ⟨Nat.le_refl _, hv⟩
      · rw [h2, UInt64.le_iff_toNat_le, UInt64.toNat_max]
        exact Nat.max_le.2 ⟨hqc, hs⟩
  | stop => exact ⟨h.below, h.entry, h.voted, h.seen⟩
  | timeout =>
    have hv := h.voted
    rw [UInt64.le_iff_toNat_le] at hv
    have hcount := Safety.makeTimeout_counters N.verifier env i c.safety c.pacemaker.currentRound (some c.tree.highQC)
      c.pacemaker.lastRoundTC
    simp only [Core.localTimeoutRound, Pacemaker.localTimeoutRound, N.verifier_eq, N.id_eq]
    refine ⟨h.below, h.entry, ?_, ?_⟩
    · rcases hcount with hc | hc
      · exact (congrArg Safety.highestVoteRound hc).trans_le h.voted
      · refine (congrArg Safety.highestVoteRound hc).trans_le ?_
        simp only [Safety.increaseHighestVoteRound]
        rw [UInt64.le_iff_toNat_le, UInt64.toNat_max]
        exact Nat.max_le.2 ⟨Nat.le_refl _, hv⟩
    · rcases hcount with hc | hc
      · exact (congrArg Safety.highestQCRound hc).trans_le h.seen
      · exact (congrArg Safety.highestQCRound hc).trans_le h.seen
  | note _ m hm hnew => exact ⟨h.below, h.entry, h.voted, h.seen⟩
  | complete _ m tc _ hm htc hlen hround hc' =>
    subst hc' hm
    refine h.tc (ht.1 _ (List.mem_append_right _ ?_))
    rw [htc]
    exact List.mem_singleton.2 rfl
  | voteQC m qc l t bs hm hqc hwin hp => exact h.late ((ht.2 m hm hwin).2 qc hqc) (BlockTree.processQC_ok hp).1
  | gather _ m hm hnone => exact h.gather (accumulate_highQC ..)
  | aggregate _ m qc _ moved eff' hm hwin hqc hp =>
    subst hm
    obtain ⟨-, hvi, -⟩ := hinv.assembled hb he hqc (hok _ List.mem_cons_self)
    obtain ⟨l, t, bs, le, hq, -, rfl, -, -⟩ := Core.processCertificateQC_ok hp
    have h' := h.gather (accumulate_highQC N.crypto env i N.verifier.quorum c.tree m)
    refine h'.cert ?_ (BlockTree.processQC_ok hq).1
    rw [hvi]
    exact (ht.2 m rfl hwin).1
  | reply _ b => exact h

/-- **A replica can always give up on its round**, if certificates verify and the rounds are in step. -/
theorem RoundInv.gives_up {N : Net} {Q : Block → Prop} {i : UInt32} {tr : List Effect} {c : Core} (h : RoundInv c)
    (hinv : CoreInv N.toGroup Q tr c) {env : Env} (hsign : ∀ d, (env.sign d).isSome = true) :
    ∃ c' m, c.step N.crypto (N.config i) env (.localTimeout c.pacemaker.epoch) = .ok (c', [.timeout m]) ∧
      m.tmoInfo.round = c.pacemaker.currentRound := by
  have hsafe : c.safety.safeToTimeout c.pacemaker.currentRound (qcRound (some c.tree.highQC))
      c.pacemaker.lastRoundTC = true :=
    (Safety.safeToTimeout_iff _ _ _ _).2 ⟨h.seen, h.voted, h.below, h.entry⟩
  obtain ⟨m, hm⟩ := Safety.makeTimeout_isSome i hsign hinv.tree.highQC.1 hinv.pacemaker.tc.1 hsafe
  have ht := (c.safety.makeTimeout_spec N.verifier env i c.pacemaker.currentRound (some c.tree.highQC)
    c.pacemaker.lastRoundTC).2 m hm
  refine ⟨(c.localTimeoutRound N.crypto (N.config i) env).1, Pacemaker.timeoutMsg c.tree c.pacemaker.lastRoundTC m, ?_,
    ht.info.1⟩
  have hout : (c.localTimeoutRound N.crypto (N.config i) env).2 =
      [.timeout (Pacemaker.timeoutMsg c.tree c.pacemaker.lastRoundTC m)] := by
    have hm' : (c.safety.makeTimeout N.verifier env i (c.pacemaker.startTimer c.pacemaker.currentRound).currentRound
      (some c.tree.highQC) (c.pacemaker.startTimer c.pacemaker.currentRound).lastRoundTC).2 = some m := hm
    simp only [Core.localTimeoutRound, Pacemaker.localTimeoutRound, N.verifier_eq, N.id_eq, hm', Option.map_some,
      Option.toList_some, List.map_cons, List.map_nil]
    rfl
  rw [Core.step, if_pos rfl, ← hout]

/-! ## Proposals -/

/-- A proposal every replica accepts, over a lower round, with a TC exactly when its certificate is not of the round
directly below. -/
def Acceptable (G : Group) (p : ProposalMsg) : Prop :=
  G.verifier.verifyProposal p = true ∧ ∃ b, p.block = some b ∧ qcRound b.qc < b.round ∧
    (p.lastRoundTc.isSome = true ↔ qcRound b.qc + 1 ≠ b.round)

/-- **A proposal over certificates that verify, in a round that one of them explains, is acceptable.** -/
theorem acceptable_propose {N : Net} {Q : Block → Prop} {i : UInt32} {env : Env} {tr : List Effect} {c : Core}
    {tc : Option TimeoutCert} (hinv : CoreInv N.toGroup Q tr c)
    (hbelow : c.tree.highQC.voteInfo.round < c.pacemaker.currentRound) (htc : N.AcceptsTC tc)
    (hwhy : c.tree.highQC.voteInfo.round + 1 = c.pacemaker.currentRound ∨
      ∃ t, tc = some t ∧ t.round + 1 = c.pacemaker.currentRound)
    {p : ProposalMsg} (hx : .proposal p ∈ c.processNewRoundEvent N.crypto (N.config i) env tc)
    (hok : N.Legit i (.proposal p)) : Acceptable N.toGroup p := by
  obtain ⟨sig, hsig, heq⟩ := Core.mem_processNewRoundEvent hx
  obtain ⟨hsigner, -⟩ := Safety.sign_eq_some hsig
  rw [N.id_eq] at hsigner heq
  have hlegit := (hok _ _ rfl).1
  cases heq
  let b := c.tree.generateBlock N.crypto i env.txns c.pacemaker.currentRound
  have hne : c.pacemaker.currentRound ≠ 0 := fun h0 => absurd hbelow (by rw [h0]; simp)
  by_cases hnext : c.tree.highQC.voteInfo.round + 1 = c.pacemaker.currentRound
  · have hj : justifyingTC c.tree.highQC.voteInfo.round c.pacemaker.currentRound tc = none := if_pos hnext
    refine ⟨(N.verifier.verifyProposal_iff _ b rfl).2 ⟨?_, hbelow, validBlockID_newBlock .., hsigner, ?_,
      hinv.tree.highQC.1, hinv.tree.highCommitQC.1, ?_⟩, b, rfl, hbelow, ?_⟩
    · exact (wellFormed_iff _ _ _).2 ⟨hne, .inl ⟨hnext, hj⟩⟩
    · rw [verifySig, hsigner]
      exact hlegit
    · simp only [hj]
      rfl
    · simp only [hj]
      exact iff_of_false (by simp) (not_not.2 hnext)
  · have hj : justifyingTC c.tree.highQC.voteInfo.round c.pacemaker.currentRound tc = tc := if_neg hnext
    obtain ⟨t, rfl, ht⟩ := hwhy.resolve_left hnext
    refine ⟨(N.verifier.verifyProposal_iff _ b rfl).2 ⟨?_, hbelow, validBlockID_newBlock .., hsigner, ?_,
      hinv.tree.highQC.1, hinv.tree.highCommitQC.1, ?_⟩, b, rfl, hbelow, ?_⟩
    · exact (wellFormed_iff _ _ _).2 ⟨hne, .inr ⟨hnext, t, hj, ht⟩⟩
    · rw [verifySig, hsigner]
      exact hlegit
    · simp only [hj]
      exact htc.1
    · simp only [hj]
      exact iff_of_true rfl hnext

theorem not_proposal_of_onCommit {bs : List Block} {p : ProposalMsg} : .proposal p ∉ bs.map Effect.onCommit := by
  simp

/-- A certificate that moves the round is as high as any, and the round entered follows it. -/
theorem Abreast.moved {c c' : Core} {t : BlockTree} {cr : Crypto} {cfg : Config} {env : Env} {qc : QuorumCert}
    {eff : List Effect} (h : Abreast c) (ht : t.highQC = c.tree.highQC)
    (hcert : { c with tree := t }.processCertificateQC cr cfg env (some qc) = .ok ((c', true), eff)) :
    c'.pacemaker.currentRound = qc.voteInfo.round + 1 ∧ c'.tree.highQC.voteInfo.round = qc.voteInfo.round := by
  obtain ⟨l, t', bs, le, hq, -, hc', hmoved, -⟩ := Core.processCertificateQC_ok hcert
  have hlt : ¬ qc.voteInfo.round < c.pacemaker.currentRound := by
    intro hlt
    rw [Pacemaker.advanceRoundQC_eq, if_pos hlt] at hmoved
    cases hmoved
  constructor
  · rw [hc', Pacemaker.advanceRoundQC_eq, if_neg hlt]
    rfl
  · rw [hc', ← h.higher_round_eq hlt, ← ht]
    exact congrArg (fun q => q.voteInfo.round) (BlockTree.processQC_ok hq).1

/-- **What a micro step proposes is acceptable**: the round was just entered, on a certificate or a TC that is as high
as any. -/
theorem acceptable_micro {N : Net} {Q : Block → Prop} {log : List (UInt32 × Signed)} (hb : Ballots N.toGroup log)
    {i : UInt32} {env : Env} {c₀ : Core} {e : Event} {tr tr' eff : List Effect} {c c' : Core} (he : N.Admits e)
    (hprompt : Prompt i c₀ e) (hinv : CoreInv N.toGroup Q tr c) (hinv' : CoreInv N.toGroup Q tr' c') (h : Abreast c)
    (hm : N.Micro i env c₀ e c eff c') (hok : ∀ x ∈ eff, N.Legit i x) :
    ∀ p, .proposal p ∈ eff → Acceptable N.toGroup p := by
  intro p hp
  cases hm with
  | cert _ qc _ moved _ hsrc hcert =>
    obtain ⟨l, t, bs, le, -, -, -, -, rfl⟩ := Core.processCertificateQC_ok hcert
    exact absurd hp not_proposal_of_onCommit
  | tc _ t hsrc => cases hp
  | insert _ b _ _ hsrc hins =>
    obtain ⟨-, rfl | ⟨id, rfl⟩⟩ := Core.insert_ok hins
    · cases hp
    · simp at hp
  | vote _ p b dest => simp at hp
  | stop => cases hp
  | timeout => simp [Core.localTimeoutRound] at hp
  | note _ m hm hnew => cases hp
  | complete _ m tc _ hm htc hlen hround hc' =>
    -- the TC is for the current round or later, so the round just entered follows it
    subst hm
    have htcRound : tc.round = m.tmoInfo.round := by rw [htc]; rfl
    have hr : ¬ tc.round < c.pacemaker.currentRound := by
      rw [htcRound]
      exact UInt64.not_lt.2 hround
    have hwrap : tc.round + 1 ≠ 0 := by
      rw [htcRound]
      exact hprompt.1 _ (List.mem_append_right _ (List.mem_singleton.2 rfl))
    have hp' : c'.pacemaker = { c.pacemaker with lastRoundTC := some tc }.startTimer (tc.round + 1) := by
      rw [hc', Pacemaker.advanceRoundTC_eq, if_neg hr]
    have htree : c'.tree = c.tree := by rw [hc']
    have htc' := hinv'.pacemaker.tc
    rw [hp'] at htc'
    refine acceptable_propose hinv' ?_ htc' (.inr ⟨tc, rfl, by rw [hp']; rfl⟩) hp (hok _ hp)
    rw [hp', htree]
    exact lt_round_succ (UInt64.not_lt.2 (UInt64.le_trans h (UInt64.not_lt.1 hr))) hwrap
  | voteQC m qc l t bs hm hqc hwin hproc => exact absurd hp not_proposal_of_onCommit
  | gather _ m hm hnone => cases hp
  | aggregate _ m qc _ moved eff' hm hwin hqc hcert =>
    subst hm
    obtain ⟨-, hvi, -⟩ := hinv.assembled hb he hqc (hok _ List.mem_cons_self)
    have hcommits : .proposal p ∉ eff' := by
      obtain ⟨-, -, bs, -, -, -, -, -, rfl⟩ := Core.processCertificateQC_ok hcert
      exact not_proposal_of_onCommit
    rcases List.mem_cons.1 hp with hp' | hp'
    · cases hp'
    · split at hp'
      · rename_i hmoved
        subst hmoved
        rcases List.mem_append.1 hp' with hp'' | hp''
        · exact absurd hp'' hcommits
        · obtain ⟨hround, hhigh⟩ := h.moved (accumulate_highQC N.crypto env i N.verifier.quorum c.tree m) hcert
          have hwrap : qc.voteInfo.round + 1 ≠ 0 := by
            rw [hvi]
            exact (hprompt.2 m rfl hwin).1
          refine acceptable_propose hinv' ?_ N.acceptsTC_none (.inl ?_) hp'' (hok _ hp)
          · rw [hhigh, hround]
            exact lt_round_succ (UInt64.lt_irrefl _) hwrap
          · rw [hhigh, hround]
      · exact absurd hp' hcommits
  | reply _ b => simp at hp

/-! ## Prompt and timely runs -/

/-- What a prompt run keeps of a running replica. -/
structure PromptInv (N : Net) (tr : List Effect) (c : Core) : Prop where
  core     : CoreInv N.toGroup N.IsBlock tr c
  abreast  : Abreast c
  proposed : ∀ p, .proposal p ∈ tr → Acceptable N.toGroup p

theorem promptInv_start {N : Net} {i : UInt32} {env : Env} {c : Core} (hnew : newCore N.crypto (N.config i) = some c)
    (hok : ∀ x ∈ (c.start N.crypto (N.config i) env).2, N.Legit i x) :
    PromptInv N (c.start N.crypto (N.config i) env).2 (c.start N.crypto (N.config i) env).1 := by
  have hcore : CoreInv N.toGroup N.IsBlock (c.start N.crypto (N.config i) env).2
      (c.start N.crypto (N.config i) env).1 := coreInv_start hnew
  have hround : RoundInv (c.start N.crypto (N.config i) env).1 := roundInv_start hnew
  refine ⟨hcore, UInt64.le_of_lt hround.below, fun p hp => ?_⟩
  refine acceptable_propose hcore hround.below N.acceptsTC_none (.inl ?_) hp (hok _ hp)
  rw [newCore_eq hnew]
  rfl

theorem promptInv_run {N : Net} {log : List (UInt32 × Signed)} (hb : Ballots N.toGroup log) {σ : Sys}
    (h : N.Run Prompt σ) :
    ∀ i, (σ.status i = .fresh → σ.effects i = []) ∧ (∀ c, σ.status i = .running c → PromptInv N (σ.effects i) c) ∧
      (σ.status i = .stuck → ∀ p, .proposal p ∈ σ.effects i → Acceptable N.toGroup p) := by
  refine Net.Run.invariant (J := fun _ tr c => PromptInv N tr c)
    (K := fun _ tr => ∀ p, .proposal p ∈ tr → Acceptable N.toGroup p) ?_ ?_ ?_ h
  · exact fun i env c hnew hok => promptInv_start hnew hok
  · intro i env c₀ e tr c eff c' _ he hprompt hJ hm hok
    have hcore := coreInv_micro (fun _ hb => hb) hb he (fun _ hsrc => he.isBlock hsrc) hJ.core hm hok
    refine ⟨hcore, Abreast.micro hb he hprompt hJ.core hJ.abreast hm hok, fun p hp => ?_⟩
    rcases List.mem_append.1 hp with hp | hp
    · exact hJ.proposed p hp
    · exact acceptable_micro hb he hprompt hJ.core hcore hJ.abreast hm hok p hp
  · intro i env c₀ e tr c eff _ _ _ hJ hc _ p hp
    rcases List.mem_append.1 hp with hp | hp
    · exact hJ.proposed p hp
    · exfalso
      cases hc with
      | insert => cases hp
      | commit => cases hp
      | cert => exact not_proposal_of_onCommit hp
      | assembled => simp at hp
      | aggregate =>
        rcases List.mem_cons.1 hp with hp | hp
        · cases hp
        · exact not_proposal_of_onCommit hp

/-- In a timely run the rounds of every running replica are in step. -/
theorem roundInv_run {N : Net} {log : List (UInt32 × Signed)} (hb : Ballots N.toGroup log) {σ : Sys}
    (h : N.Run Timely σ) {i : UInt32} {c : Core} (hc : σ.status i = .running c) :
    CoreInv N.toGroup N.IsBlock (σ.effects i) c ∧ RoundInv c := by
  refine ((Net.Run.invariant (J := fun _ tr c => CoreInv N.toGroup N.IsBlock tr c ∧ RoundInv c) (K := fun _ _ => True)
    (fun _ _ _ hnew _ => ⟨coreInv_start hnew, roundInv_start hnew⟩) ?_
    (fun _ _ _ _ _ _ _ _ _ _ _ _ _ => trivial) h i).2.1
    c hc)
  intro i env c₀ e tr c eff c' _ he ht hJ hm hok
  exact ⟨coreInv_micro (fun _ hb => hb) hb he (fun _ hsrc => he.isBlock hsrc) hJ.1 hm hok,
    roundInv_micro hb he ht hJ.1 hJ.2 hm hok⟩

/-- **A running replica can always give up on its round**, in every state of a timely run: its round directly follows
its highest certificate's, or its TC's, and when its timer fires it broadcasts a timeout for it. -/
theorem timely_gives_up {N : Net} {σ : Sys} (h : N.Reached Timely σ) {i : UInt32} {c : Core}
    (hc : σ.status i = .running c) :
    qcRound (some c.tree.highQC) < c.pacemaker.currentRound ∧
    (qcRound (some c.tree.highQC) + 1 = c.pacemaker.currentRound ∨
      ∃ tc, c.pacemaker.lastRoundTC = some tc ∧ tc.round + 1 = c.pacemaker.currentRound) ∧
    ∀ env : Env, (∀ d, (env.sign d).isSome = true) →
      ∃ c' m, c.step N.crypto (N.config i) env (.localTimeout c.pacemaker.epoch) = .ok (c', [.timeout m]) ∧
        m.tmoInfo.round = c.pacemaker.currentRound := by
  obtain ⟨log, hb⟩ := h.ballots
  obtain ⟨hcore, hrounds⟩ := roundInv_run hb h.1 hc
  exact ⟨hrounds.below, hrounds.entry, fun env hsign => hrounds.gives_up hcore hsign⟩

/-- `Timely`, as a test; a vote is tried whether or not it is in the window. -/
def timely (σ : Sys) : Move → Bool
  | .start _   => true
  | .event i e => e.rounds.all (fun r => r + 1 != 0) && match e with
    | .vote m => m.voteInfo.round + 1 != 0 &&
        σ.check i (fun c => m.highCommitQc.all (fun q => decide (q.voteInfo.round < c.pacemaker.currentRound)))
    | _       => true

theorem timely_of_test {σ : Sys} {i : UInt32} {e : Event} (h : timely σ (.event i e) = true) (c : Core)
    (hc : σ.status i = .running c) : Timely i c e := by
  simp only [timely, Bool.and_eq_true, List.all_eq_true, bne_iff_ne, ne_eq] at h
  refine ⟨h.1, fun m hm _ => ?_⟩
  subst hm
  simp only [Bool.and_eq_true, bne_iff_ne, ne_eq] at h
  obtain ⟨c', hc', hq⟩ := Sys.running_of_check h.2.2
  cases hc.symm.trans hc'
  refine ⟨h.2.1, fun q hhigh => ?_⟩
  rw [hhigh] at hq
  exact of_decide_eq_true hq

namespace Chain

/-- The certificate of block 3 as replica 3 puts it together. -/
def third : QuorumCert := { cert 3 with author := 3, authorSig := some ⟨3, default⟩ }

/-- What replica 3 proposes in round 4, over the votes it has counted. -/
def next : ProposalMsg :=
  { block := some { author := 3, round := 4, payload := default, qc := some third, id := digest 18 }
    lastRoundTc := none, highCommitQc := some third, sender := 3, sig := ⟨3, default⟩ }

/-- The chain's book, with that block. -/
def nextBook : Book :=
  { book [(3, digest 3), (3, digest 18)] with
    strings := strings ++ [blockBytes 3 4 default (some third)]
    fits    := by decide
    genesis := List.mem_cons_self }

/-- Replica 3 gets block 3 and the votes for it, the Byzantine one first. -/
def counting : List Move :=
  opening ++ [.event 3 (.proposal (proposal 3 none)), .event 3 (.vote (vote 3 2 (cert 2))),
    .event 3 (.vote (vote 3 1 (cert 2))), .event 3 (.vote (vote 3 4 (cert 2)))]

/-- It has put the certificate together, and has proposed in round 4. -/
def Counted (σ : Sys) : Prop :=
  (3, .assembled third) ∈ σ.trace ∧ (3, .proposal next) ∈ σ.trace ∧
    σ.check 3 (fun c => c.pacemaker.currentRound == 4) = true

instance : DecidablePred Counted := fun _ => inferInstanceAs (Decidable (_ ∧ _ ∧ _))

theorem counting_reached (P : UInt32 → Core → Event → Prop) (hP : ∀ i c e, Timely i c e → P i c e) :
    ∃ σ, (nextBook.net 1 2).Reached P σ ∧ Counted σ := by
  have h : nextBook.playsIf 1 2 timely (counting.map (Prod.mk env))
      [(env, .event 4 (.proposal (proposal 4 none)))] (fun σ => decide (Counted σ)) (fun _ => true) = true := by
    decide +kernel
  obtain ⟨σ, hσ, hcounted⟩ :=
    (Book.reachedIf h).1 P (fun _ _ i e _ htest c hc => hP i c e (timely_of_test htest c hc))
  exact ⟨σ, hσ, of_decide_eq_true hcounted⟩

end Chain

/-- Replica 3 in round 4, which it entered on the votes it counted. -/
theorem chain_gives_up :
    ∃ σ c, (Chain.nextBook.net 1 2).Reached Timely σ ∧ σ.status 3 = .running c ∧ c.pacemaker.currentRound = 4 ∧
      qcRound (some c.tree.highQC) < c.pacemaker.currentRound ∧
      ∀ env : Env, (∀ d, (env.sign d).isSome = true) →
        ∃ c' m, c.step (Chain.nextBook.net 1 2).crypto ((Chain.nextBook.net 1 2).config 3) env
          (.localTimeout c.pacemaker.epoch) = .ok (c', [.timeout m]) ∧ m.tmoInfo.round = c.pacemaker.currentRound := by
  obtain ⟨σ, hσ, -, -, hcheck⟩ := Chain.counting_reached Timely (fun _ _ _ h => h)
  obtain ⟨c, hc, hround⟩ := Sys.running_of_check hcheck
  obtain ⟨hlt, -, hsend⟩ := timely_gives_up hσ hc
  exact ⟨σ, c, hσ, hc, beq_iff_eq.1 hround, hlt, hsend⟩

/-- A replica overtaken by its own highest certificate cannot give up: Safety signs no timeout for the round. -/
theorem overtaken_silent {cr : Crypto} {cfg : Config} {c : Core}
    (h : c.pacemaker.currentRound ≤ qcRound (some c.tree.highQC)) (env : Env) :
    ∃ c', c.step cr cfg env (.localTimeout c.pacemaker.epoch) = .ok (c', []) := by
  have hunsafe : c.safety.safeToTimeout c.pacemaker.currentRound (qcRound (some c.tree.highQC))
      c.pacemaker.lastRoundTC = false := by
    rw [← Bool.not_eq_true, Safety.safeToTimeout_iff]
    rintro ⟨-, -, hlt, -⟩
    exact absurd h (by simpa using hlt)
  refine ⟨(c.localTimeoutRound cr cfg env).1, ?_⟩
  rw [Core.step, if_pos rfl]
  simp [Core.localTimeoutRound, Pacemaker.localTimeoutRound, Pacemaker.startTimer, Pacemaker.stop,
    Safety.makeTimeout, hunsafe]

/-- Replica 3's proposal in round 4, over block 4. -/
def Chain.late : ProposalMsg :=
  { block := some { author := 3, round := 4, payload := default, qc := some (Chain.cert 4), id := digest 17 }
    lastRoundTc := none, highCommitQc := some (Chain.cert 4), sender := 3, sig := ⟨3, default⟩ }

/-- Replica 3, in round 3, counts a vote that brings the certificate of block 4, and then the two votes that complete
the certificate of block 3. -/
theorem overtaken_played :
    (Chain.book [(3, digest 3), (3, digest 17)]).plays 1 2 Chain.env
      (Chain.opening ++ [.event 4 (.proposal (Chain.proposal 4 none)), .event 3 (.proposal (Chain.proposal 3 none)),
        .event 3 (.vote (Chain.vote 3 2 (Chain.cert 4)))])
      [.event 3 (.vote (Chain.vote 3 1 (Chain.cert 2))), .event 3 (.vote (Chain.vote 3 4 (Chain.cert 2)))]
      (fun σ => σ.check 3 (fun c => decide (c.pacemaker.currentRound ≤ qcRound (some c.tree.highQC))))
      (fun σ => decide ((3, .proposal Chain.late) ∈ σ.trace)) = true := by decide +kernel

/-- **Not every replica can give up on its round**: replica 3 is in round 3, and its highest certificate of round 4. -/
theorem round_overtaken :
    ∃ (N : Net) (σ : Sys) (i : UInt32) (c : Core), N.Reached Net.AnyEvent σ ∧ σ.status i = .running c ∧
      c.pacemaker.currentRound ≤ qcRound (some c.tree.highQC) ∧
      ∀ env, ∃ c', c.step N.crypto (N.config i) env (.localTimeout c.pacemaker.epoch) = .ok (c', []) := by
  obtain ⟨σ, hσ, htest⟩ := (Book.reached overtaken_played).1 Net.AnyEvent (fun _ _ _ _ => trivial)
  obtain ⟨c, hc, hle⟩ := Sys.running_of_check htest
  exact ⟨_, σ, 3, c, hσ, hc, of_decide_eq_true hle, overtaken_silent (of_decide_eq_true hle)⟩

/-- **Every proposal an honest replica broadcasts in a prompt run is acceptable.** -/
theorem prompt_proposals {N : Net} {σ : Sys} (h : N.Reached Prompt σ) {i : UInt32} {p : ProposalMsg}
    (hp : (i, .proposal p) ∈ σ.trace) :
    N.verifier.verifyProposal p = true ∧ ∃ b, p.block = some b ∧ qcRound b.qc < b.round ∧
      (p.lastRoundTc.isSome = true ↔ qcRound b.qc + 1 ≠ b.round) := by
  obtain ⟨log, hb⟩ := h.ballots
  obtain ⟨hfresh, hrun, hstuck⟩ := promptInv_run hb h.1 i
  rw [← Sys.mem_effects] at hp
  cases hs : σ.status i with
  | fresh => rw [hfresh hs] at hp; cases hp
  | running c => exact (hrun c hs).proposed p hp
  | stuck => exact hstuck hs p hp

/-- Replica 3's proposal in round 4, over the certificate it put together. -/
theorem chain_proposal :
    ∃ σ, (Chain.nextBook.net 1 2).Reached Prompt σ ∧ (3, .assembled Chain.third) ∈ σ.trace ∧
      (3, .proposal Chain.next) ∈ σ.trace ∧ (Chain.nextBook.net 1 2).verifier.verifyProposal Chain.next = true := by
  obtain ⟨σ, hσ, hassembled, hp, -⟩ := Chain.counting_reached Prompt (fun _ _ _ h => h.prompt)
  exact ⟨σ, hσ, hassembled, hp, (prompt_proposals hσ hp).1⟩

/-- **Not every proposal is acceptable**: replica 3 enters round 4 and proposes over the certificate of round 4. -/
theorem proposal_over_own_round :
    ∃ (N : Net) (σ : Sys) (i : UInt32) (p : ProposalMsg), N.Reached Net.AnyEvent σ ∧ (i, .proposal p) ∈ σ.trace ∧
      N.verifier.verifyProposal p = false := by
  obtain ⟨σ, hσ, htest⟩ := (Book.reached overtaken_played).2
  exact ⟨_, σ, 3, Chain.late, hσ, of_decide_eq_true htest, by decide +kernel⟩

end Diem

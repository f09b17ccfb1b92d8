import Diem.History
/-!
# Stores — what a step does to the ledger and the tree

A step writes to the ledger, and to the tree over it, through three calls and no others (`step_writes`), so what holds
after every call holds after every step.  `Fed` is one core that gets whatever its edge lets in: nothing is assumed of
who sent it.
-/
namespace Diem

/-- The ledger and the tree over it. -/
structure Stores where
  ledger : MemLedger
  tree   : BlockTree

/-- A call of the tree, as `core.go` makes it; `accumulate` is `ProcessVote` behind its `ProcessQC`. -/
inductive Write where
  | processQC (qc : QuorumCert)
  | executeAndInsert (b : Block)
  | accumulate (m : VoteMsg)

namespace Stores

variable (cr : Crypto) (cfg : Config) (env : Env)

def write (s : Stores) : Write → Except Loop Stores
  | .processQC qc =>
    match BlockTree.processQC cfg.history env.fuel s.ledger s.tree (some qc) with
    | .error e      => .error e
    | .ok (l, t, _) => .ok ⟨l, t⟩
  | .executeAndInsert b =>
    let r := BlockTree.executeAndInsert cfg.execute s.ledger s.tree b
    .ok ⟨r.1, r.2⟩
  | .accumulate m => .ok ⟨s.ledger, (s.tree.accumulate cr env cfg.id cfg.quorum m).1⟩

def writes (s : Stores) : List Write → Except Loop Stores
  | []      => .ok s
  | w :: ws =>
    match s.write cr cfg env w with
    | .error e => .error e
    | .ok s'   => writes s' ws

/-- `cond` holds of every write, where it is made. -/
def Along (cond : Stores → Write → Prop) (s : Stores) : List Write → Prop
  | []      => True
  | w :: ws => cond s w ∧ ∀ s', s.write cr cfg env w = .ok s' → Along cond s' ws

variable {cr cfg env}

theorem along_of_forall {cond : Stores → Write → Prop} (h : ∀ s w, cond s w) : ∀ (ws : List Write) (s : Stores),
    s.Along cr cfg env cond ws
  | [],      _ => trivial
  | w :: ws, s => ⟨h s w, fun s' _ => along_of_forall h ws s'⟩

theorem write_processQC {s s' : Stores} {qc : QuorumCert} (h : s.write cr cfg env (.processQC qc) = .ok s') :
    ∃ bs, BlockTree.processQC cfg.history env.fuel s.ledger s.tree (some qc) = .ok (s'.ledger, s'.tree, bs) := by
  rw [write] at h
  split at h
  · cases h
  · rename_i l t bs hq
    cases h
    exact ⟨bs, hq⟩

theorem writes_append {ws ws' : List Write} : ∀ {s s' s'' : Stores}, s.writes cr cfg env ws = .ok s' →
    s'.writes cr cfg env ws' = .ok s'' → s.writes cr cfg env (ws ++ ws') = .ok s'' := by
  induction ws with
  | nil =>
    intro s s' s'' h h'
    cases h
    exact h'
  | cons w ws ih =>
    intro s s' s'' h h'
    rw [writes] at h
    rw [List.cons_append, writes]
    split at h
    · cases h
    · exact ih h h'

/-- **The rule of writes**: what each write keeps under its condition, all of them keep. -/
theorem writes_induct {I : Stores → Prop} {cond : Stores → Write → Prop} {ws : List Write}
    (hkeep : ∀ s w s', w ∈ ws → cond s w → I s → s.write cr cfg env w = .ok s' → I s') :
    ∀ {s s' : Stores}, s.Along cr cfg env cond ws → I s → s.writes cr cfg env ws = .ok s' → I s' := by
  induction ws with
  | nil =>
    intro s s' _ hI h
    cases h
    exact hI
  | cons w ws ih =>
    intro s s' hcond hI h
    rw [writes] at h
    split at h
    · cases h
    · rename_i s₁ h₁
      exact ih (fun s w s' hw => hkeep s w s' (List.mem_cons_of_mem _ hw)) (hcond.2 s₁ h₁)
        (hkeep s w s₁ List.mem_cons_self hcond.1 hI h₁) h

end Stores

namespace Core

section

variable (cr : Crypto) (cfg : Config) (env : Env)

def stores (c : Core) : Stores := ⟨c.ledger, c.tree⟩

/-- The two certificates every proposal and every timeout carries. -/
def certificateWrites (qc highCommitQc : Option QuorumCert) : List Write :=
  qc.toList.map .processQC ++ highCommitQc.toList.map .processQC

/-- **What a step writes**, in order. -/
def writes (c : Core) : Event → List Write
  | .proposal p =>
    let block := p.block.getD default
    certificateWrites block.qc p.highCommitQc ++
      match processCertificates cr cfg env c block.qc p.highCommitQc p.lastRoundTc with
      | .error _   => []
      | .ok (c, _) =>
        let round  := c.pacemaker.currentRound
        let leader := c.leaders.getLeader round
        if block.round ≠ round ∨ p.sender ≠ leader ∨ block.author ≠ leader then [] else [.executeAndInsert block]
  | .vote m =>
    if c.pacemaker.currentRound + maxRoundLead < m.voteInfo.round ∨ m.voteInfo.round + 1 < c.pacemaker.currentRound then
      []
    else m.highCommitQc.toList.map .processQC ++ .accumulate m ::
      match BlockTree.processVote cr cfg.history env cfg.id cfg.quorum c.ledger c.tree m with
      | .error _          => []
      | .ok (_, _, _, qc) => qc.toList.map .processQC
  | .timeout m      => certificateWrites m.tmoInfo.highQc m.highCommitQc
  | .localTimeout _ => []
  | .block b        => [.executeAndInsert b]
  | .blockRequest _ => []

end

variable {cr : Crypto} {cfg : Config} {env : Env}

theorem writes_processQC {s : Stores} {qc : Option QuorumCert} {l : MemLedger} {t : BlockTree} {bs : List Block}
    (h : BlockTree.processQC cfg.history env.fuel s.ledger s.tree qc = .ok (l, t, bs)) :
    s.writes cr cfg env (qc.toList.map .processQC) = .ok ⟨l, t⟩ := by
  cases qc with
  | none =>
    cases h
    rfl
  | some q =>
    have hw : s.write cr cfg env (.processQC q) = .ok ⟨l, t⟩ := by rw [Stores.write, h]
    simp only [Option.toList_some, List.map_cons, List.map_nil, Stores.writes, hw]

theorem processCertificateQC_writes {c c' : Core} {qc : Option QuorumCert} {moved : Bool} {eff : List Effect}
    (h : processCertificateQC cr cfg env c qc = .ok ((c', moved), eff)) :
    c.stores.writes cr cfg env (qc.toList.map .processQC) = .ok c'.stores := by
  cases qc with
  | none =>
    cases h
    rfl
  | some q =>
    obtain ⟨l, t, bs, e, hq, -, rfl, -, -⟩ := processCertificateQC_ok h
    exact writes_processQC hq

theorem processCertificates_writes {c c' : Core} {qc highCommitQc : Option QuorumCert} {tc : Option TimeoutCert}
    {eff : List Effect} (h : processCertificates cr cfg env c qc highCommitQc tc = .ok (c', eff)) :
    c.stores.writes cr cfg env (certificateWrites qc highCommitQc) = .ok c'.stores := by
  obtain ⟨c₁, _, eff₁, c₂, _, eff₂, h₁, h₂, rfl, -⟩ := processCertificates_ok h
  exact Stores.writes_append (processCertificateQC_writes h₁) (processCertificateQC_writes h₂ :)

/-- **A step writes its writes.** -/
theorem step_writes {c c' : Core} {e : Event} {eff : List Effect} (h : c.step cr cfg env e = .ok (c', eff)) :
    c.stores.writes cr cfg env (c.writes cr cfg env e) = .ok c'.stores := by
  cases e with
  | proposal p =>
    rw [step, processProposalMsg] at h
    split at h
    · cases h
    rename_i c₁ eff₁ h₁
    simp only [writes, h₁]
    refine Stores.writes_append (processCertificates_writes h₁) ?_
    dsimp only at h
    split at h
    · rename_i hnot
      cases h
      rw [if_pos hnot]
      rfl
    · rename_i hfor
      rw [if_neg hfor]
      obtain ⟨eff₂, h₂, -⟩ := after_ok h
      rw [voteOn] at h₂
      split at h₂
      · cases h₂
      · rename_i c₃ eff₃ h₃
        cases h₂
        obtain ⟨rfl, -⟩ := insert_ok h₃
        rfl
  | vote m =>
    rcases processVoteMsg_ok h with ⟨hwin, rfl, -⟩ | ⟨hwin, l, t, bs, hp, hend⟩
    · rw [writes, if_pos (not_not.1 hwin)]
      rfl
    · rw [writes, if_neg hwin]
      refine Stores.writes_append (writes_processQC hp) ?_
      rcases hend with ⟨t', hacc, rfl, -⟩ | ⟨t', q, moved, eff', hacc, hq, -⟩
      · simp only [processVote_of_accumulate hp hacc, Stores.writes, Stores.write, hacc]
        rfl
      · simp only [processVote_of_accumulate hp hacc, Stores.writes, Stores.write, hacc]
        exact (processCertificateQC_writes hq :)
  | timeout m =>
    obtain ⟨c₁, eff₁, p, s, out, tc, h₁, h₂, hend⟩ := processTimeoutMsg_ok h
    rw [writes, processCertificates_writes h₁]
    rcases hend with ⟨-, rfl, -⟩ | ⟨t, -, -, -, rfl, -⟩
    · rfl
    · rfl
  | localTimeout epoch =>
    rw [step] at h
    split at h
    · cases h
      rfl
    · cases h
      rfl
  | block b =>
    obtain ⟨rfl, -⟩ := insert_ok h
    rfl
  | blockRequest id =>
    cases h
    rfl

/-- What a step writes, certificates apart, came with its event. -/
theorem mem_writes_cases {c : Core} {e : Event} {w : Write} (h : w ∈ c.writes cr cfg env e) :
    (∃ qc, w = .processQC qc) ∨
    (∃ b, w = .executeAndInsert b ∧ (e = .block b ∨ ∃ p, e = .proposal p ∧ p.block.getD default = b)) ∨
    ∃ m, w = .accumulate m ∧ e = .vote m := by
  have hcerts : ∀ {qc : Option QuorumCert}, w ∈ qc.toList.map .processQC → ∃ qc, w = .processQC qc := by
    intro qc hw
    obtain ⟨q, -, rfl⟩ := List.mem_map.1 hw
    exact ⟨q, rfl⟩
  cases e with
  | proposal p =>
    rcases List.mem_append.1 h with h | h
    · exact .inl ((List.mem_append.1 h).elim hcerts hcerts)
    · split at h
      · cases h
      · dsimp only at h
        split at h
        · cases h
        · exact .inr (.inl ⟨_, List.mem_singleton.1 h, .inr ⟨p, rfl, rfl⟩⟩)
  | vote m =>
    rw [writes] at h
    split at h
    · cases h
    · rcases List.mem_append.1 h with h | h
      · exact .inl (hcerts h)
      · rcases List.mem_cons.1 h with h | h
        · exact .inr (.inr ⟨m, h, rfl⟩)
        · split at h
          · cases h
          · exact .inl (hcerts h)
  | timeout m => exact .inl ((List.mem_append.1 h).elim hcerts hcerts)
  | localTimeout n => cases h
  | block b => exact .inr (.inl ⟨b, List.mem_singleton.1 h, .inl rfl⟩)
  | blockRequest id => cases h

/-- What a step inserts came with its event. -/
theorem insert_of_mem_writes {c : Core} {e : Event} {b : Block} (h : .executeAndInsert b ∈ c.writes cr cfg env e) :
    e = .block b ∨ ∃ p, e = .proposal p ∧ p.block.getD default = b := by
  obtain ⟨qc, hw⟩ | ⟨b', hw, he⟩ | ⟨m, hw, -⟩ := mem_writes_cases h
  · cases hw
  · cases hw
    exact he
  · cases hw

/-- **The highest certificate's round never falls**: no write lowers it. -/
theorem step_highQC {c c' : Core} {e : Event} {eff : List Effect} (h : c.step cr cfg env e = .ok (c', eff)) :
    c.tree.highQC.voteInfo.round ≤ c'.tree.highQC.voteInfo.round := by
  refine Stores.writes_induct (I := fun s => c.tree.highQC.voteInfo.round ≤ s.tree.highQC.voteInfo.round)
    (fun s w s' _ _ hle hw => UInt64.le_trans hle ?_) (Stores.along_of_forall (fun _ _ => trivial) _ c.stores)
    (UInt64.le_refl _) (step_writes h)
  cases w with
  | processQC q =>
    obtain ⟨bs, hq⟩ := Stores.write_processQC hw
    exact (processQC_highQC hq).1
  | executeAndInsert b =>
    cases hw
    exact UInt64.le_refl _
  | accumulate m =>
    cases hw
    rw [accumulate_highQC]
    exact UInt64.le_refl _

end Core

namespace Net

variable (N : Net)

/-- **A core that is started and then fed**, one event its edge lets in after another; `P` restricts the steps. -/
def Fed (i : UInt32) (P : Env → Core → Event → Prop) (c : Core) : Prop :=
  ∃ ts, Core.Heard N.crypto (N.config i) (fun env c e => N.Admits e ∧ P env c e) ts c

variable {N} {i : UInt32}

theorem Fed.start {P : Env → Core → Event → Prop} {c : Core} (env : Env)
    (hnew : newCore N.crypto (N.config i) = some c) : N.Fed i P (c.start N.crypto (N.config i) env).1 :=
  ⟨[], .start env c hnew⟩

theorem Fed.step {P : Env → Core → Event → Prop} {c c' : Core} {e : Event} {eff : List Effect} (env : Env)
    (h : N.Fed i P c) (he : N.Admits e) (hP : P env c e) (hs : c.step N.crypto (N.config i) env e = .ok (c', eff)) :
    N.Fed i P c' := by
  obtain ⟨ts, hheard⟩ := h
  exact ⟨_, hheard.turn env e c' eff ⟨he, hP⟩ hs⟩

/-- What `Start` brings about and every step keeps, a core that is fed has. -/
theorem Fed.invariant {P : Env → Core → Event → Prop} {J : Core → Prop}
    (hstart : ∀ env c, newCore N.crypto (N.config i) = some c → J (c.start N.crypto (N.config i) env).1)
    (hstep : ∀ env c e c' eff, J c → N.Admits e → P env c e → c.step N.crypto (N.config i) env e = .ok (c', eff) → J c')
    {c : Core} (h : N.Fed i P c) : J c := by
  obtain ⟨ts, hheard⟩ := h
  exact hheard.invariant (J := fun _ c => J c) hstart
    (fun _ c env e c' eff ih hP hs => hstep env c e c' eff ih hP.1 hP.2 hs)

theorem Admits.proposal_block {p : ProposalMsg} (he : N.Admits (.proposal p)) :
    p.block = some (p.block.getD default) := by
  cases hblock : p.block with
  | none => exact absurd he.1 (by simp [Verifier.verifyProposal, wellFormedProposal, hblock])
  | some b => rfl

theorem Admits.inserted {env : Env} {c : Core} {e : Event} {b : Block} (he : N.Admits e)
    (h : .executeAndInsert b ∈ c.writes N.crypto (N.config i) env e) : N.IsBlock b := by
  rcases Core.insert_of_mem_writes h with rfl | ⟨p, rfl, rfl⟩
  · exact he.isBlock (.inl rfl)
  · exact he.isBlock (.inr ⟨p, rfl, he.proposal_block⟩)

/-- **What every step keeps, every running replica has**, with all that it did; and one that is caught in a step had it
before that step. -/
theorem Run.running {P : UInt32 → Core → Event → Prop} {J : UInt32 → List Effect → Core → Prop}
    (hstart : ∀ i env c, newCore N.crypto (N.config i) = some c →
      J i (c.start N.crypto (N.config i) env).2 (c.start N.crypto (N.config i) env).1)
    (hstep : ∀ i env c e tr c' eff, N.Admits e → P i c e → J i tr c →
      c.step N.crypto (N.config i) env e = .ok (c', eff) → J i (tr ++ eff) c') {σ : Sys} (h : N.Run P σ) :
    ∀ i, (σ.status i = .fresh → σ.effects i = []) ∧ (∀ c, σ.status i = .running c → J i (σ.effects i) c) ∧
      (σ.status i = .stuck → ∃ tr c env e s, J i tr c ∧ c.step N.crypto (N.config i) env e = .error s ∧
        σ.effects i = tr ++ s.done) := by
  induction h with
  | refl => exact fun i => ⟨fun _ => rfl, fun c hc => (by cases hc), fun hs => (by cases hs)⟩
  | @tail σ _ _ hs ih =>
    intro j
    -- only the replica of the step has another status than before
    have hother : ∀ {i : UInt32} {s : Status} {eff : List Effect}, j ≠ i →
        ((σ.set i s eff).status j = .fresh → (σ.set i s eff).effects j = []) ∧
          (∀ c, (σ.set i s eff).status j = .running c → J j ((σ.set i s eff).effects j) c) ∧
          ((σ.set i s eff).status j = .stuck → ∃ tr c env e s', J j tr c ∧
            c.step N.crypto (N.config j) env e = .error s' ∧ (σ.set i s eff).effects j = tr ++ s'.done) := by
      intro i s eff hij
      rw [Sys.status_set_ne _ hij, Sys.effects_set_ne _ hij]
      exact ih j
    cases hs with
    | start i env c₀ hi hσ hnew hok =>
      by_cases hij : j = i
      · subst hij
        rw [Sys.status_set_self, Sys.effects_set_self, (ih j).1 hσ]
        refine ⟨fun hf => (by cases hf), fun c hc => ?_, fun hstuck => (by cases hstuck)⟩
        cases hc
        exact hstart _ env c₀ hnew
      · exact hother hij
    | event i env c₀ e c' eff hi hσ he hP hs hok =>
      by_cases hij : j = i
      · subst hij
        rw [Sys.status_set_self, Sys.effects_set_self]
        refine ⟨fun hf => (by cases hf), fun c hc => ?_, fun hstuck => (by cases hstuck)⟩
        cases hc
        exact hstep _ env c₀ e _ _ _ he hP ((ih _).2.1 _ hσ) hs
      · exact hother hij
    | stick i env c₀ e s hi hσ he hP hs hok =>
      by_cases hij : j = i
      · subst hij
        rw [Sys.status_set_self, Sys.effects_set_self]
        exact ⟨fun hf => (by cases hf), fun c hc => (by cases hc),
          fun _ => ⟨_, c₀, env, e, s, (ih _).2.1 _ hσ, hs, rfl⟩⟩
      · exact hother hij

/-- The replicas of a run are fed. -/
theorem Run.fed {σ : Sys} (h : N.Run AnyEvent σ) (i : UInt32) (c : Core) (hc : σ.status i = .running c) :
    N.Fed i (fun _ _ _ => True) c :=
  (Run.running (J := fun i _ c => N.Fed i (fun _ _ _ => True) c) (fun _ env _ hnew => .start env hnew)
    (fun _ env _ _ _ _ _ he _ hJ hs => .step env hJ he trivial hs) h i).2.1 c hc

/-- **An invariant of the stores**, kept by every write a step may make; `Q` is what is known of the blocks that come.
-/
theorem Fed.stores {P : Env → Core → Event → Prop} {I : Stores → Prop} {cond : Stores → Write → Prop} {Q : Block → Prop}
    {c : Core} (h : N.Fed i P c) (hinit : I ⟨newMemLedger N.crypto, newBlockTree N.crypto⟩)
    (hcond : ∀ env c e, P env c e →
      c.stores.Along N.crypto (N.config i) env cond (c.writes N.crypto (N.config i) env e))
    (hQ : ∀ env c e b, N.Admits e → P env c e → .executeAndInsert b ∈ c.writes N.crypto (N.config i) env e → Q b)
    (hkeep : ∀ env s w s', (∀ b, w = .executeAndInsert b → Q b) → cond s w → I s →
      s.write N.crypto (N.config i) env w = .ok s' → I s') : I c.stores := by
  refine h.invariant (J := fun c => I c.stores) (fun env c hnew => ?_) (fun env c e c' eff ih he hP hs => ?_)
  · cases newCore_eq hnew
    exact hinit
  · refine Stores.writes_induct (fun s w s' hw hc hI => ?_) (hcond env c e hP) ih (Core.step_writes hs)
    exact hkeep env s w s' (fun b hb => hQ env c e b he hP (hb ▸ hw)) hc hI

end Net
end Diem

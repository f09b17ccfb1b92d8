import Diem.Core
import Diem.SafetyRun
/-!
# System — the cores of a group, run against an adversary

The state holds one core for each honest replica and the list of everything they did.  A step starts a replica or gives
a running one an event its edge lets in; the network and the Byzantine replicas are whoever picks the events.  A step
that never returns leaves its replica `stuck`, with what it had done by then.  A run is judged by a later state's log
(`Reached`): `Verify` accepts a string whether or not it has been sent yet, so what was signed is what will have been.
-/
namespace Diem

/-- **A group of replicas**, all configured with the same validators. -/
structure Net extends Group where
  config  : UInt32 → Config
  id_eq   : ∀ i, (config i).id = i
  members : ∀ i, (config i).validators = validators

inductive Status where
  | fresh
  | running (c : Core)
  | stuck

structure Sys where
  status : UInt32 → Status
  trace  : List (UInt32 × Effect)

namespace Sys

def init : Sys := ⟨fun _ => .fresh, []⟩

def set (σ : Sys) (i : UInt32) (s : Status) (eff : List Effect) : Sys :=
  ⟨Function.update σ.status i s, σ.trace ++ eff.map (fun x => (i, x))⟩

theorem status_set_self (σ : Sys) (i : UInt32) (s : Status) (eff : List Effect) : (σ.set i s eff).status i = s :=
  Function.update_self _ _ _

theorem status_set_ne (σ : Sys) {i j : UInt32} (hij : j ≠ i) (s : Status) (eff : List Effect) :
    (σ.set i s eff).status j = σ.status j := Function.update_of_ne hij _ _

/-- What replica `i` did, oldest first. -/
def effects (σ : Sys) (i : UInt32) : List Effect := σ.trace.filterMap (fun e => if e.1 = i then some e.2 else none)

theorem mem_effects {σ : Sys} {i : UInt32} {x : Effect} : x ∈ σ.effects i ↔ (i, x) ∈ σ.trace := by
  simp [effects]

theorem effects_set_self (σ : Sys) (i : UInt32) (s : Status) (eff : List Effect) :
    (σ.set i s eff).effects i = σ.effects i ++ eff := by
  simp [effects, set, List.filterMap_append, List.filterMap_map]

theorem effects_set_ne (σ : Sys) {i j : UInt32} (hij : j ≠ i) (s : Status) (eff : List Effect) :
    (σ.set i s eff).effects j = σ.effects j := by
  simp [effects, set, List.filterMap_append, List.filterMap_map, Ne.symm hij]

end Sys

/-- The thing signed and the signature, of an effect that carries a signature of its replica. -/
def Effect.signature : Effect → Option (Signed × Bytes)
  | .proposal p     => some (.block (p.block.getD default), p.sig.sig)
  | .vote v _       => some (.vote v, v.sig.sig)
  | .timeout m      => some (.timeout m.tmoInfo, m.tmoInfo.sig.sig)
  | .assembled qc   => some (.sigs qc.signatures, (qc.authorSig.getD default).sig)
  | .requestBlock _ => none
  | .reply _        => none
  | .onCommit _     => none

def signedLog (trace : List (UInt32 × Effect)) : List (UInt32 × Signed) :=
  trace.filterMap (fun e => e.2.signature.map (fun x => (e.1, x.1)))

theorem mem_signedLog {trace : List (UInt32 × Effect)} {j : UInt32} {x : Signed} :
    (j, x) ∈ signedLog trace ↔ ∃ e sig, (j, e) ∈ trace ∧ e.signature = some (x, sig) := by
  simp only [signedLog, List.mem_filterMap, Option.map_eq_some_iff, Prod.exists, Prod.mk.injEq]
  constructor
  · rintro ⟨i, e, he, y, sig, hsig, rfl, rfl⟩
    exact ⟨e, sig, he, hsig⟩
  · rintro ⟨e, sig, he, hsig⟩
    exact ⟨j, e, he, x, sig, hsig, rfl, rfl⟩

theorem vote_sent {trace : List (UInt32 × Effect)} {i : UInt32} {v : VoteMsg} (h : (i, .vote v) ∈ signedLog trace) :
    ∃ dest, (i, .vote v dest) ∈ trace := by
  obtain ⟨e, sig, he, hsig⟩ := mem_signedLog.1 h
  cases e with
  | vote m dest =>
    cases hsig
    exact ⟨dest, he⟩
  | _ => cases hsig

theorem timeout_sent {trace : List (UInt32 × Effect)} {i : UInt32} {t : TimeoutInfo}
    (h : (i, .timeout t) ∈ signedLog trace) : ∃ m, (i, .timeout m) ∈ trace ∧ m.tmoInfo = t := by
  obtain ⟨e, sig, he, hsig⟩ := mem_signedLog.1 h
  cases e with
  | timeout m =>
    cases hsig
    exact ⟨m, he, rfl⟩
  | _ => cases hsig

namespace Event

/-- The certificates a proposal or a timeout brings. -/
def qcs : Event → List QuorumCert
  | .proposal p => (p.block.bind Block.qc).toList ++ p.highCommitQc.toList
  | .timeout m  => m.tmoInfo.highQc.toList ++ m.highCommitQc.toList
  | _           => []

def tc : Event → Option TimeoutCert
  | .proposal p => p.lastRoundTc
  | .timeout m  => m.lastRoundTc
  | _           => none

end Event

/-- The vote is for a round near enough to the current one to be counted. -/
def InWindow (c : Core) (m : VoteMsg) : Prop :=
  ¬ (c.pacemaker.currentRound + maxRoundLead < m.voteInfo.round ∨ m.voteInfo.round + 1 < c.pacemaker.currentRound)

namespace Net

variable (N : Net)

/-- **What the edge lets in**: a message its verifier accepts, a block accepted for some id, and the replica's own
events.  The strings the check hashed are among the hashed ones. -/
def Admits : Event → Prop
  | .proposal p     => N.verifier.verifyProposal p = true ∧ (∀ b ∈ p.block, b.bytes ∈ N.hashed ∧ N.KnownQC b.qc) ∧
                         N.KnownQC p.highCommitQc ∧ N.KnownTC p.lastRoundTc
  | .vote m         => N.verifier.verifyVote m = true ∧ voteInfoBytes m.voteInfo ∈ N.hashed ∧
                         ledgerCommitBytes m.ledgerCommitInfo ∈ N.hashed ∧ N.KnownQC m.highCommitQc
  | .timeout m      => N.verifier.verifyTimeout m = true ∧
                         timeoutBytes m.tmoInfo.round (qcRound m.tmoInfo.highQc) ∈ N.hashed ∧
                         N.KnownQC m.tmoInfo.highQc ∧ N.KnownQC m.highCommitQc ∧ N.KnownTC m.lastRoundTc
  | .localTimeout _ => True
  | .block b        => (∃ id, N.verifier.verifyBlock b id = true) ∧ b.bytes ∈ N.hashed
  | .blockRequest _ => True

/-- `Sign` made a signature that `Verify` accepts, over the digest of a hashed string. -/
def Legit (i : UInt32) (x : Effect) : Prop :=
  ∀ y s, x.signature = some (y, s) → N.crypto.verify i (N.crypto.sha256 y.bytes) s = true ∧ y.bytes ∈ N.hashed ∧
    ∀ m, y = .vote m → voteInfoBytes m.voteInfo ∈ N.hashed

/-- **One replica's step.**  `P` restricts the events a statement is about. -/
inductive Step (P : UInt32 → Core → Event → Prop) : Sys → Sys → Prop
  | start (σ : Sys) (i : UInt32) (env : Env) (c : Core) (hi : N.Honest i) (hσ : σ.status i = .fresh)
      (hnew : newCore N.crypto (N.config i) = some c)
      (hok : ∀ x ∈ (c.start N.crypto (N.config i) env).2, N.Legit i x) :
      Step P σ (σ.set i (.running (c.start N.crypto (N.config i) env).1) (c.start N.crypto (N.config i) env).2)
  | event (σ : Sys) (i : UInt32) (env : Env) (c : Core) (e : Event) (c' : Core) (eff : List Effect) (hi : N.Honest i)
      (hσ : σ.status i = .running c) (he : N.Admits e) (hP : P i c e)
      (hs : c.step N.crypto (N.config i) env e = .ok (c', eff)) (hok : ∀ x ∈ eff, N.Legit i x) :
      Step P σ (σ.set i (.running c') eff)
  | stick (σ : Sys) (i : UInt32) (env : Env) (c : Core) (e : Event) (s : Stuck) (hi : N.Honest i)
      (hσ : σ.status i = .running c) (he : N.Admits e) (hP : P i c e)
      (hs : c.step N.crypto (N.config i) env e = .error s) (hok : ∀ x ∈ s.done, N.Legit i x) :
      Step P σ (σ.set i .stuck s.done)

def AnyEvent : UInt32 → Core → Event → Prop := fun _ _ _ => True

/-- **Every run**, in any order of starts and events. -/
def Run (P : UInt32 → Core → Event → Prop) (σ : Sys) : Prop := Relation.ReflTransGen (N.Step P) Sys.init σ

/-- **A state of a run whose signatures are unforgeable**: the run may go on, under no restriction, and then every
signature that verifies under an honest key is in its log. -/
def Reached (P : UInt32 → Core → Event → Prop) (σ : Sys) : Prop :=
  N.Run P σ ∧ ∃ σ', Relation.ReflTransGen (N.Step AnyEvent) σ σ' ∧ N.Unforgeable (signedLog σ'.trace)

theorem verifier_eq (i : UInt32) : Core.verifier N.crypto (N.config i) = N.verifier := by
  rw [Core.verifier, Config.quorum, N.members]
  rfl

/-- Restrictions only take runs away. -/
theorem Run.any {N : Net} {P : UInt32 → Core → Event → Prop} {σ : Sys} (h : N.Run P σ) : N.Run AnyEvent σ := by
  refine Relation.ReflTransGen.mono (fun a b hs => ?_) _ _ h
  cases hs with
  | start i env c hi hσ hnew hok => exact .start a i env c hi hσ hnew hok
  | event i env c e c' eff hi hσ he hP hs hok => exact .event a i env c e c' eff hi hσ he trivial hs hok
  | stick i env c e s hi hσ he hP hs hok => exact .stick a i env c e s hi hσ he trivial hs hok

/-! ## What was let in -/

section Admitted

variable {N} {e : Event}

theorem Admits.qcs (he : N.Admits e) : ∀ q ∈ e.qcs, N.AcceptsQC (some q) := by
  intro q hq
  cases e with
  | proposal p =>
    obtain ⟨hv, hb, hc, -⟩ := he
    cases hblock : p.block with
    | none => exact absurd hv (by simp [Verifier.verifyProposal, wellFormedProposal, hblock])
    | some b =>
      obtain ⟨-, -, -, -, -, hqc, hcommit, -⟩ := (N.verifier.verifyProposal_iff p b hblock).1 hv
      simp only [Event.qcs, hblock, Option.bind_some, List.mem_append, Option.mem_toList] at hq
      rcases hq with hq | hq
      · have hk := (hb b hblock).2
        rw [hq] at hqc hk
        exact ⟨hqc, hk⟩
      · rw [hq] at hcommit hc
        exact ⟨hcommit, hc⟩
  | timeout m =>
    obtain ⟨hv, -, hk, hc, -⟩ := he
    obtain ⟨-, -, -, hqc, hcommit, -⟩ := (N.verifier.verifyTimeout_iff m).1 hv
    simp only [Event.qcs, List.mem_append, Option.mem_toList] at hq
    rcases hq with hq | hq
    · rw [hq] at hqc hk
      exact ⟨hqc, hk⟩
    · rw [hq] at hcommit hc
      exact ⟨hcommit, hc⟩
  | vote m => cases hq
  | localTimeout n => cases hq
  | block b => cases hq
  | blockRequest id => cases hq

theorem Admits.tc (he : N.Admits e) : N.AcceptsTC e.tc := by
  cases e with
  | proposal p =>
    obtain ⟨hv, -, -, hk⟩ := he
    cases hblock : p.block with
    | none => exact absurd hv (by simp [Verifier.verifyProposal, wellFormedProposal, hblock])
    | some b => exact ⟨((N.verifier.verifyProposal_iff p b hblock).1 hv).2.2.2.2.2.2.2, hk⟩
  | timeout m => exact ⟨((N.verifier.verifyTimeout_iff m).1 he.1).2.2.2.2.2, he.2.2.2.2⟩
  | vote m => exact N.acceptsTC_none
  | localTimeout n => exact N.acceptsTC_none
  | block b => exact N.acceptsTC_none
  | blockRequest id => exact N.acceptsTC_none

theorem Admits.highCommitQc {m : VoteMsg} (he : N.Admits (.vote m)) {q : QuorumCert} (hq : m.highCommitQc = some q) :
    N.AcceptsQC (some q) := by
  obtain ⟨hv, -, -, hk⟩ := he
  obtain ⟨-, -, -, -, hc⟩ := (N.verifier.verifyVote_iff m).1 hv
  rw [hq] at hc hk
  exact ⟨hc, hk⟩

theorem Admits.proposed {p : ProposalMsg} {b : Block} (he : N.Admits (.proposal p)) (hb : p.block = some b) :
    N.IsBlock b ∧ N.AcceptsQC b.qc ∧ qcRound b.qc < b.round := by
  obtain ⟨hv, hk, -, -⟩ := he
  obtain ⟨-, hr, hid, -, -, hqc, -⟩ := (N.verifier.verifyProposal_iff p b hb).1 hv
  exact ⟨⟨hid, (hk b hb).1⟩, ⟨hqc, (hk b hb).2⟩, hr⟩

theorem Admits.isBlock {b : Block} (he : N.Admits e)
    (hsrc : e = .block b ∨ ∃ p, e = .proposal p ∧ p.block = some b) : N.IsBlock b := by
  rcases hsrc with rfl | ⟨p, rfl, hb⟩
  · obtain ⟨⟨id, hv⟩, hk⟩ := he
    obtain ⟨rfl, hid⟩ := (N.verifier.verifyBlock_iff b id).1 hv
    exact ⟨(validBlockID_iff _ _).2 hid, hk⟩
  · exact (he.proposed hb).1

end Admitted

end Net

end Diem

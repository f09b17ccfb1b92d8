import Diem.Invariant
import Diem.Play
/-!
# Causal — runs in which nothing is received before it is signed

A run judged by its end (`Reached`) may give a replica a vote before the voter casts it.  For what comes first in a run
that is too weak, so here an event is let in when the votes and timeouts under honest keys that it brings have been
signed by then (`Sourced`).  The steps are counted, and with each state goes the round every replica is in: a replica
that got stuck is in the round it got stuck in.
-/
namespace Diem

/-! ## What a message brings -/

/-- The votes in a certificate: who signed, and the digest. -/
def QuorumCert.votes (cr : Crypto) (q : QuorumCert) : List (UInt32 × Bytes) :=
  q.signatures.elems.map (fun s => (s.signer, ledgerCommitDigest cr q.ledgerCommitInfo))

/-- The timeouts in a TC. -/
def TimeoutCert.timeouts (cr : Crypto) (t : TimeoutCert) : List (UInt32 × Bytes) :=
  t.votes.map (fun w => (w.sig.signer, timeoutDigest cr t.round w.highQcRound))

/-- The votes and timeouts an event brings, in its certificates and on its own. -/
def Event.ballots (cr : Crypto) (e : Event) : List (UInt32 × Bytes) :=
  e.qcs.flatMap (QuorumCert.votes cr) ++ e.tc.toList.flatMap (TimeoutCert.timeouts cr) ++
    match e with
    | .vote m    => (m.sig.signer, ledgerCommitDigest cr m.ledgerCommitInfo) ::
                      m.highCommitQc.toList.flatMap (QuorumCert.votes cr)
    | .timeout m => [(m.tmoInfo.sig.signer, timeoutDigest cr m.tmoInfo.round (qcRound m.tmoInfo.highQc))]
    | _          => []

/-- The votes and timeouts a move brings. -/
def Move.ballots (cr : Crypto) : Move → List (UInt32 × Bytes)
  | .start _   => []
  | .event _ e => e.ballots cr

namespace Group

variable (G : Group)

/-- An honest `i` has signed over `d`. -/
def SignedBy (log : List (UInt32 × Signed)) (i : UInt32) (d : Bytes) : Prop :=
  G.Honest i → ∃ x, (i, x) ∈ log ∧ G.crypto.sha256 x.bytes = d

/-- **Nothing was forged**: each of these signatures, if the key is honest, has been given. -/
def Sourced (log : List (UInt32 × Signed)) (ballots : List (UInt32 × Bytes)) : Prop :=
  ∀ p ∈ ballots, G.SignedBy log p.1 p.2

variable {G}

theorem SignedBy.mono {log log' : List (UInt32 × Signed)} (hlog : log ⊆ log') {i : UInt32} {d : Bytes}
    (h : G.SignedBy log i d) : G.SignedBy log' i d := by
  intro hi
  obtain ⟨x, hx, hd⟩ := h hi
  exact ⟨x, hlog hx, hd⟩

instance (log : List (UInt32 × Signed)) (i : UInt32) (d : Bytes) : Decidable (G.SignedBy log i d) :=
  decidable_of_iff (G.Honest i → log.any (fun p => p.1 == i && G.crypto.sha256 p.2.bytes == d) = true) (by
    refine imp_congr_right (fun _ => ?_)
    simp only [List.any_eq_true, Bool.and_eq_true, beq_iff_eq, Prod.exists]
    constructor
    · rintro ⟨j, x, hx, rfl, hd⟩
      exact ⟨x, hx, hd⟩
    · rintro ⟨x, hx, hd⟩
      exact ⟨i, x, hx, rfl, hd⟩)

instance (log : List (UInt32 × Signed)) (ballots : List (UInt32 × Bytes)) : Decidable (G.Sourced log ballots) :=
  inferInstanceAs (Decidable (∀ p ∈ ballots, _))

end Group

/-! ## Runs -/

/-- **A state, with the round each replica is in.** -/
structure Tracked where
  sys    : Sys
  rounds : UInt32 → UInt64

namespace Tracked

def init : Tracked := ⟨Sys.init, fun _ => 0⟩

def set (τ : Tracked) (i : UInt32) (s : Status) (eff : List Effect) (round : UInt64) : Tracked :=
  ⟨τ.sys.set i s eff, Function.update τ.rounds i round⟩

theorem rounds_set_self (τ : Tracked) (i : UInt32) (s : Status) (eff : List Effect) (r : UInt64) :
    (τ.set i s eff r).rounds i = r := Function.update_self _ _ _

theorem rounds_set_ne (τ : Tracked) {i j : UInt32} (hj : j ≠ i) (s : Status) (eff : List Effect) (r : UInt64) :
    (τ.set i s eff r).rounds j = τ.rounds j := Function.update_of_ne hj _ _

/-- What honest keys have signed. -/
def log (τ : Tracked) : List (UInt32 × Signed) := signedLog τ.sys.trace

end Tracked

namespace Net

variable (N : Net)

/-- **One step of the system**: a replica starts, or takes an event that brings nothing forged, and returns or gets
stuck. -/
inductive Tick : Tracked → Tracked → Prop
  | start (τ : Tracked) (i : UInt32) (env : Env) (c : Core) (hi : N.Honest i) (hσ : τ.sys.status i = .fresh)
      (hnew : newCore N.crypto (N.config i) = some c)
      (hok : ∀ x ∈ (c.start N.crypto (N.config i) env).2, N.Legit i x) :
      Tick τ (τ.set i (.running (c.start N.crypto (N.config i) env).1) (c.start N.crypto (N.config i) env).2
        (c.start N.crypto (N.config i) env).1.pacemaker.currentRound)
  | event (τ : Tracked) (i : UInt32) (env : Env) (c : Core) (e : Event) (c' : Core) (eff : List Effect)
      (hi : N.Honest i) (hσ : τ.sys.status i = .running c) (he : N.Admits e)
      (hsrc : N.Sourced τ.log (e.ballots N.crypto)) (hs : c.step N.crypto (N.config i) env e = .ok (c', eff))
      (hok : ∀ x ∈ eff, N.Legit i x) : Tick τ (τ.set i (.running c') eff c'.pacemaker.currentRound)
  | stick (τ : Tracked) (i : UInt32) (env : Env) (c : Core) (e : Event) (s : Stuck) (c' : Core) (eff eff' : List Effect)
      (hi : N.Honest i) (hσ : τ.sys.status i = .running c) (he : N.Admits e)
      (hsrc : N.Sourced τ.log (e.ballots N.crypto)) (hs : c.step N.crypto (N.config i) env e = .error s)
      (hm : N.Micros i env c e c eff c') (hcut : N.Cut i env e c' eff') (hdone : s.done = eff ++ eff')
      (hok : ∀ x ∈ s.done, N.Legit i x) :
      Tick τ (τ.set i .stuck s.done c'.pacemaker.currentRound)

/-- **The states of causal runs**, after so many steps. -/
inductive Ticked : Nat → Tracked → Prop
  | init : Ticked 0 Tracked.init
  | tick {k : Nat} {τ τ' : Tracked} (h : Ticked k τ) (hs : N.Tick τ τ') : Ticked (k + 1) τ'

variable {N}

theorem Tick.step {τ τ' : Tracked} (h : N.Tick τ τ') : N.Step AnyEvent τ.sys τ'.sys := by
  cases h with
  | start i env c hi hσ hnew hok => exact .start τ.sys i env c hi hσ hnew hok
  | event i env c e c' eff hi hσ he hsrc hs hok => exact .event τ.sys i env c e c' eff hi hσ he trivial hs hok
  | stick i env c e s c' eff eff' hi hσ he hsrc hs hm hcut hdone hok =>
    exact .stick τ.sys i env c e s hi hσ he trivial hs hok

theorem Ticked.run {k : Nat} {τ : Tracked} (h : N.Ticked k τ) : N.Run AnyEvent τ.sys := by
  induction h with
  | init => exact .refl
  | tick _ hs ih => exact ih.tail hs.step

/-- Every step of the system that takes such an event, or none, is one of these. -/
theorem Step.tick {τ : Tracked} {σ' : Sys} (h : N.Step (fun _ _ e => N.Sourced τ.log (e.ballots N.crypto)) τ.sys σ') :
    ∃ τ', N.Tick τ τ' ∧ τ'.sys = σ' := by
  cases h with
  | start i env c hi hσ hnew hok => exact ⟨_, .start τ i env c hi hσ hnew hok, rfl⟩
  | event i env c e c' eff hi hσ he hsrc hs hok => exact ⟨_, .event τ i env c e c' eff hi hσ he hsrc hs hok, rfl⟩
  | stick i env c e s hi hσ he hsrc hs hok =>
    obtain ⟨c', eff, eff', hm, hcut, hdone⟩ := step_halts he hs
    exact ⟨_, .stick τ i env c e s c' eff eff' hi hσ he hsrc hs hm hcut hdone hok, rfl⟩

/-! ## Runs that can be computed -/

section

variable (N) [∀ s, Decidable (s ∈ N.hashed)] (env : Env)

/-- Moves, as long as none brings anything forged. -/
def playCausal : Sys → List Move → Option Sys
  | σ, []      => some σ
  | σ, m :: ms =>
    if N.Sourced (signedLog σ.trace) (m.ballots N.crypto) then (N.move env σ m).bind (fun σ => playCausal σ ms)
    else none

variable {N env}

theorem move_tick {τ : Tracked} {m : Move} {σ' : Sys} (hsrc : N.Sourced τ.log (m.ballots N.crypto))
    (h : N.move env τ.sys m = some σ') : ∃ τ', N.Tick τ τ' ∧ τ'.sys = σ' := by
  refine Step.tick (move_step (fun i e he c _ => ?_) h)
  subst he
  exact hsrc

theorem playCausal_ticked {σ' : Sys} : ∀ {ms : List Move} {k : Nat} {τ : Tracked}, N.Ticked k τ →
    N.playCausal env τ.sys ms = some σ' → ∃ τ', N.Ticked (k + ms.length) τ' ∧ τ'.sys = σ'
  | [],      k, τ, hτ, h => by
    cases h
    exact ⟨τ, hτ, rfl⟩
  | m :: ms, k, τ, hτ, h => by
    rw [playCausal] at h
    split at h
    · rename_i hsrc
      obtain ⟨σ₁, hm, hms⟩ := Option.bind_eq_some_iff.1 h
      obtain ⟨τ₁, htick, rfl⟩ := move_tick hsrc hm
      obtain ⟨τ', hτ', hsys⟩ := playCausal_ticked (hτ.tick htick) hms
      refine ⟨τ', ?_, hsys⟩
      rw [List.length_cons, Nat.add_comm ms.length, ← Nat.add_assoc]
      exact hτ'
    · cases h

end

end Net
end Diem

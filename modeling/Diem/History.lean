import Diem.Turns
/-!
# History — a core on its own, turn by turn

A core that is started and then stepped, by whatever events are let through, with every turn it took.  The steps are
those that return: a step caught in a loop is the end of the history.
-/
namespace Diem

/-- What the edge's verifier accepts; the replica's own events are not checked. -/
def Event.Verified (v : Verifier) : Event → Prop
  | .proposal p     => v.verifyProposal p = true
  | .vote m         => v.verifyVote m = true
  | .timeout m      => v.verifyTimeout m = true
  | .localTimeout _ => True
  | .block b        => ∃ id, v.verifyBlock b id = true
  | .blockRequest _ => True

/-- `Verified`, as a test; a block is tried with its own id. -/
def Event.verify (v : Verifier) : Event → Bool
  | .proposal p     => v.verifyProposal p
  | .vote m         => v.verifyVote m
  | .timeout m      => v.verifyTimeout m
  | .localTimeout _ => true
  | .block b        => v.verifyBlock b b.id
  | .blockRequest _ => true

theorem Event.verified_of_verify {v : Verifier} (e : Event) (h : e.verify v = true) : e.Verified v := by
  cases e with
  | proposal p => exact h
  | vote m => exact h
  | timeout m => exact h
  | localTimeout epoch => trivial
  | block b => exact ⟨b.id, h⟩
  | blockRequest id => trivial

/-- **One turn of a core**: the core that met the event, what the step took from outside, and what came of it. -/
structure Turn where
  core  : Core
  env   : Env
  event : Event
  next  : Core
  eff   : List Effect

namespace Core

/-- The round an operation enters is not 0 by wrapping. -/
def OpUnwrapped : Pacemaker.Op → Prop
  | .advanceRoundQC q => q.voteInfo.round + 1 ≠ 0
  | .advanceRoundTC t => t.round + 1 ≠ 0
  | _                 => True

theorem le_advance {a b : UInt64} (hb : b + 1 ≠ 0) : a ≤ if b < a then a else b + 1 := by
  split
  · exact UInt64.le_refl _
  · rename_i hlt
    exact UInt64.le_of_lt (lt_round_succ hlt hb)

theorem perform_mono {p : Pacemaker} {op : Pacemaker.Op} (h : OpUnwrapped op) :
    p.currentRound ≤ (p.perform op).currentRound := by
  cases op with
  | file info => exact UInt64.le_refl _
  | advanceRoundQC q =>
    rw [Pacemaker.perform, Pacemaker.currentRound_advanceRoundQC]
    exact le_advance h
  | advanceRoundTC t =>
    rw [Pacemaker.perform, Pacemaker.currentRound_advanceRoundTC]
    exact le_advance h
  | localTimeoutRound => exact UInt64.le_refl _
  | amplify => exact UInt64.le_refl _

theorem performs_mono {p : Pacemaker} {ops : List Pacemaker.Op} (h : ∀ op ∈ ops, OpUnwrapped op) :
    p.currentRound ≤ (p.performs ops).currentRound := by
  induction ops generalizing p with
  | nil => exact UInt64.le_refl _
  | cons op ops ih =>
    exact UInt64.le_trans (perform_mono (h op List.mem_cons_self)) (ih (fun o ho => h o (List.mem_cons_of_mem _ ho)))

instance : DecidablePred OpUnwrapped
  | .file _            => inferInstanceAs (Decidable True)
  | .advanceRoundQC q  => inferInstanceAs (Decidable (q.voteInfo.round + 1 ≠ 0))
  | .advanceRoundTC t  => inferInstanceAs (Decidable (t.round + 1 ≠ 0))
  | .localTimeoutRound => inferInstanceAs (Decidable True)
  | .amplify           => inferInstanceAs (Decidable True)

section

variable (cr : Crypto) (cfg : Config)

/-- No round the step enters is 0 by wrapping. -/
def Rising (env : Env) (c : Core) (e : Event) : Prop := ∀ op ∈ c.ops cr cfg env e, OpUnwrapped op

/-- A verified event that wraps no round. -/
def Checked (env : Env) (c : Core) (e : Event) : Prop := e.Verified (verifier cr cfg) ∧ c.Rising cr cfg env e

/-- **The turns of a core**: `New` and `Start`, then events in any order, as far as `P` lets them through. -/
inductive Heard (P : Env → Core → Event → Prop) : List Turn → Core → Prop
  | start (env : Env) (c : Core) : newCore cr cfg = some c → Heard P [] (c.start cr cfg env).1
  | turn {ts : List Turn} {c : Core} (env : Env) (e : Event) (c' : Core) (eff : List Effect) :
      Heard P ts c → P env c e → c.step cr cfg env e = .ok (c', eff) → Heard P (ts ++ [⟨c, env, e, c', eff⟩]) c'

/-- All that a core did, in `Start` and in its turns. -/
def trace (env : Env) (c : Core) (ts : List Turn) : List Effect := (c.start cr cfg env).2 ++ ts.flatMap Turn.eff

/-- The events stepped one after the other while they pass `test`, with the turns taken. -/
def hear (env : Env) (test : Core → Event → Bool) : List Turn × Core → List Event → Option (List Turn × Core)
  | s,       []      => some s
  | (ts, c), e :: es =>
    if test c e then
      match c.step cr cfg env e with
      | .error _      => none
      | .ok (c', eff) => hear env test (ts ++ [⟨c, env, e, c', eff⟩], c') es
    else none

/-- The core is started and steps the events, and the history passes `check`. -/
def hears (env : Env) (test : Core → Event → Bool) (es : List Event) (check : List Turn → Core → Bool) : Bool :=
  (newCore cr cfg).any (fun c =>
    (hear cr cfg env test ([], (c.start cr cfg env).1) es).any (fun s => check s.1 s.2))

/-- `Checked`, as a test. -/
def checks (env : Env) (c : Core) (e : Event) : Bool :=
  e.verify (verifier cr cfg) && (c.ops cr cfg env e).all (fun op => decide (OpUnwrapped op))

end

variable {cr : Crypto} {cfg : Config} {env : Env} {P : Env → Core → Event → Prop}

theorem checked_of_checks (c : Core) (e : Event) (h : c.checks cr cfg env e = true) : c.Checked cr cfg env e := by
  rw [checks, Bool.and_eq_true] at h
  exact ⟨e.verified_of_verify h.1, fun op hop => of_decide_eq_true (List.all_eq_true.1 h.2 op hop)⟩

theorem Heard.hear {test : Core → Event → Bool} (htest : ∀ c e, test c e = true → P env c e)
    {ts' : List Turn} {c' : Core} : ∀ {es : List Event} {ts : List Turn} {c : Core}, Heard cr cfg P ts c →
      Core.hear cr cfg env test (ts, c) es = some (ts', c') → Heard cr cfg P ts' c'
  | [],      ts, c, h, hs => by cases hs; exact h
  | e :: es, ts, c, h, hs => by
    rw [Core.hear] at hs
    split at hs
    · rename_i hP
      split at hs
      · cases hs
      · rename_i c₁ eff h₁
        exact Heard.hear htest (h.turn env e c₁ eff (htest c e hP) h₁) hs
    · cases hs

/-- **What is computed is a history.** -/
theorem Heard.of_hears {test : Core → Event → Bool} (htest : ∀ c e, test c e = true → P env c e) {es : List Event}
    {check : List Turn → Core → Bool} (h : Core.hears cr cfg env test es check = true) :
    ∃ ts c, Heard cr cfg P ts c ∧ check ts c = true := by
  obtain ⟨c₀, hnew, h₀⟩ := (Option.any_eq_true _ _).1 h
  obtain ⟨⟨ts, c⟩, hhear, hcheck⟩ := (Option.any_eq_true _ _).1 h₀
  exact ⟨ts, c, (Heard.start env c₀ hnew).hear htest hhear, hcheck⟩

/-- **The rule of a history**: what `Start` brings about and every step keeps. -/
theorem Heard.invariant {J : List Turn → Core → Prop}
    (hstart : ∀ env c, newCore cr cfg = some c → J [] (c.start cr cfg env).1)
    (hturn : ∀ ts c env e c' eff, J ts c → P env c e → c.step cr cfg env e = .ok (c', eff) →
      J (ts ++ [⟨c, env, e, c', eff⟩]) c')
    {ts : List Turn} {c : Core} (h : Heard cr cfg P ts c) : J ts c := by
  induction h with
  | start env c hnew => exact hstart env c hnew
  | turn env e c' eff _ hP hs ih => exact hturn _ _ env e c' eff ih hP hs

/-- Every turn of it is a step, on what was let through. -/
theorem Heard.mem {ts : List Turn} {c : Core} (h : Heard cr cfg P ts c) :
    ∀ t ∈ ts, P t.env t.core t.event ∧ t.core.step cr cfg t.env t.event = .ok (t.next, t.eff) := by
  refine h.invariant (J := fun ts _ => ∀ t ∈ ts, P t.env t.core t.event ∧
    t.core.step cr cfg t.env t.event = .ok (t.next, t.eff)) (fun _ _ _ t ht => by cases ht)
    (fun ts c env e c' eff hall hP hs t ht => ?_)
  rcases List.mem_append.1 ht with ht | ht
  · exact hall t ht
  · rw [List.mem_singleton.1 ht]
    exact ⟨hP, hs⟩

theorem trace_turn (c : Core) (ts : List Turn) (t : Turn) :
    trace cr cfg env c (ts ++ [t]) = trace cr cfg env c ts ++ t.eff := by
  rw [trace, trace, List.flatMap_append, List.flatMap_singleton, List.append_assoc]

theorem Rising.mono {c c' : Core} {e : Event} {eff : List Effect} (h : c.Rising cr cfg env e)
    (hs : c.step cr cfg env e = .ok (c', eff)) : c.pacemaker.currentRound ≤ c'.pacemaker.currentRound := by
  rw [step_performs hs]
  exact performs_mono h

/-! ## The highest certificate -/

theorem processQC_highQC {history fuel : Nat} {l l' : MemLedger} {t t' : BlockTree} {qc : Option QuorumCert}
    {bs : List Block} (h : BlockTree.processQC history fuel l t qc = .ok (l', t', bs)) :
    t.highQC.voteInfo.round ≤ t'.highQC.voteInfo.round ∧ qcRound qc ≤ t'.highQC.voteInfo.round := by
  cases qc with
  | none =>
    cases h
    exact ⟨UInt64.le_refl _, UInt64.zero_le⟩
  | some q =>
    rw [(BlockTree.processQC_ok h).1]
    exact ⟨higher_right _ _, higher_left _ _⟩

theorem processCertificateQC_highQC {c c' : Core} {qc : Option QuorumCert} {moved : Bool} {eff : List Effect}
    (h : processCertificateQC cr cfg env c qc = .ok ((c', moved), eff)) :
    c.tree.highQC.voteInfo.round ≤ c'.tree.highQC.voteInfo.round ∧ qcRound qc ≤ c'.tree.highQC.voteInfo.round := by
  cases qc with
  | none =>
    cases h
    exact ⟨UInt64.le_refl _, UInt64.zero_le⟩
  | some q =>
    obtain ⟨l, t, bs, e, hq, -, rfl, -, -⟩ := processCertificateQC_ok h
    exact processQC_highQC hq

/-- The highest certificate is not below any a message brings. -/
theorem processCertificates_highQC {c c' : Core} {qc highCommitQc : Option QuorumCert} {tc : Option TimeoutCert}
    {eff : List Effect} (h : processCertificates cr cfg env c qc highCommitQc tc = .ok (c', eff)) :
    c.tree.highQC.voteInfo.round ≤ c'.tree.highQC.voteInfo.round ∧ qcRound qc ≤ c'.tree.highQC.voteInfo.round ∧
      qcRound highCommitQc ≤ c'.tree.highQC.voteInfo.round := by
  obtain ⟨c₁, _, eff₁, c₂, _, eff₂, h₁, h₂, rfl, -⟩ := processCertificates_ok h
  obtain ⟨hmono₁, hqc⟩ := processCertificateQC_highQC h₁
  obtain ⟨hmono₂, hcommit⟩ := processCertificateQC_highQC h₂
  exact ⟨UInt64.le_trans hmono₁ hmono₂, UInt64.le_trans hqc hmono₂, hcommit⟩

end Core
end Diem

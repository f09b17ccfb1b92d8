import Diem.Micro
/-!
# Refine — the Safety objects of a run

Whatever the cores do, their Safety objects are in a run of `SafetyRun.lean` with the same log (`refines`): a micro step
is a call of `MakeVote` or of `MakeTimeout`, or leaves Safety alone and at most signs a block or a certificate.
-/
namespace Diem

namespace Net

section Refines

variable {N : Net} {i : UInt32} {env : Env} {c₀ : Core} {e : Event}

theorem signedLog_append (t t' : List (UInt32 × Effect)) : signedLog (t ++ t') = signedLog t ++ signedLog t' := by
  simp [signedLog, List.filterMap_append]

/-- From `S`, replica `i` comes to have `s` and to have signed what `eff` shows. -/
def Follows (N : Net) (i : UInt32) (S : SafetySys) (eff : List Effect) (s : Safety) : Prop :=
  ∃ S', Relation.ReflTransGen N.SafetyStep S S' ∧ S'.log = S.log ++ signedLog (eff.map (fun x => (i, x))) ∧
    S'.safety = Function.update S.safety i s

/-- Effects outside Safety are signatures over a block or a certificate, if any. -/
theorem follows_outside (hi : N.Honest i) (S : SafetySys) : ∀ (eff : List Effect),
    (∀ x ∈ eff, (∀ v d, x ≠ .vote v d) ∧ ∀ m, x ≠ .timeout m) → (∀ x ∈ eff, N.Legit i x) →
    N.Follows i S eff (S.safety i)
  | [], _, _ => ⟨S, .refl, by simp [signedLog], by simp⟩
  | x :: eff, hout, hok => by
    obtain ⟨hx, hout⟩ := List.forall_mem_cons.1 hout
    obtain ⟨hok, hoks⟩ := List.forall_mem_cons.1 hok
    have hkeep : ∀ y, (S.record i (S.safety i) (some y)).safety = S.safety := fun y => Function.update_eq_self _ _
    -- what comes of one signature, and then of the rest
    have hsign : ∀ y s, x.signature = some (y, s) → N.SafetyStep S (S.record i (S.safety i) (some y)) →
        N.Follows i S (x :: eff) (S.safety i) := by
      intro y s hy hstep
      obtain ⟨S', hrun, hlog, hsafe⟩ := follows_outside hi (S.record i (S.safety i) (some y)) eff hout hoks
      refine ⟨S', .head hstep hrun, ?_, ?_⟩
      · rw [hlog]
        simp [SafetySys.record, signedLog, hy]
      · rw [hsafe, hkeep]
    have hskip : x.signature = none → N.Follows i S (x :: eff) (S.safety i) := by
      intro hy
      obtain ⟨S', hrun, hlog, hsafe⟩ := follows_outside hi S eff hout hoks
      refine ⟨S', hrun, ?_, hsafe⟩
      rw [hlog]
      simp [signedLog, hy]
    cases x with
    | proposal p => exact hsign _ _ rfl (.block S i _ hi (hok _ _ rfl).2.1)
    | assembled qc => exact hsign _ _ rfl (.sigs S i _ hi (hok _ _ rfl).2.1)
    | vote v d => exact absurd rfl (hx.1 v d)
    | timeout m => exact absurd rfl (hx.2 m)
    | requestBlock id => exact hskip rfl
    | reply b => exact hskip rfl
    | onCommit b => exact hskip rfl

theorem outside_onCommit {bs : List Block} {x : Effect} (h : x ∈ bs.map Effect.onCommit) :
    (∀ v d, x ≠ .vote v d) ∧ ∀ m, x ≠ .timeout m := by
  obtain ⟨b, -, rfl⟩ := List.mem_map.1 h
  exact ⟨fun v d h => (by cases h), fun m h => (by cases h)⟩

theorem outside_propose {c : Core} {tc : Option TimeoutCert} {x : Effect}
    (h : x ∈ c.processNewRoundEvent N.crypto (N.config i) env tc) :
    (∀ v d, x ≠ .vote v d) ∧ ∀ m, x ≠ .timeout m := by
  obtain ⟨sig, -, rfl⟩ := Core.mem_processNewRoundEvent h
  exact ⟨fun v d h => (by cases h), fun m h => (by cases h)⟩

/-- **One micro step as calls of Safety.** -/
theorem Micro.follows (hi : N.Honest i) (he : N.Admits e) {c c' : Core} {eff : List Effect} {S : SafetySys}
    (h : N.Micro i env c₀ e c eff c') (hok : ∀ x ∈ eff, N.Legit i x) (hS : S.safety i = c.safety) :
    N.Follows i S eff c'.safety := by
  have hout := follows_outside hi S eff
  rw [hS] at hout
  cases h with
  | cert _ qc _ moved _ hsrc h =>
    obtain ⟨l, t, bs, le, -, -, rfl, -, rfl⟩ := Core.processCertificateQC_ok h
    exact hout (fun x hx => outside_onCommit hx) hok
  | tc _ t hsrc => exact hout (by simp) hok
  | insert _ b _ _ hsrc h =>
    obtain ⟨rfl, rfl | ⟨id, rfl⟩⟩ := Core.insert_ok h
    · exact hout (by simp) hok
    · exact hout (by simp) hok
  | vote _ p b dest hp hb hround hqc =>
    subst hp
    have hstep := Group.SafetyStep.makeVote (G := N.toGroup) S i env c.ledger c.tree b p.lastRoundTc hi
    rw [hS] at hstep
    refine ⟨_, .single (hstep (fun m hm => ?_)), ?_, rfl⟩
    · have hl := hok (.vote m dest) (by simp [hm]) _ _ rfl
      obtain ⟨hblock, hcert, -⟩ := he.proposed hb
      exact ⟨hblock.2, hcert.2, he.2.2.2, hl.2.2 m rfl, hl.2.1⟩
    · cases hm : (c.safety.makeVote N.verifier env i c.ledger c.tree b p.lastRoundTc).2 <;>
        simp [SafetySys.record, signedLog, Effect.signature]
  | stop => exact hout (by simp) hok
  | timeout =>
    have hstep := Group.SafetyStep.makeTimeout (G := N.toGroup) S i env c.pacemaker.currentRound (some c.tree.highQC)
      c.pacemaker.lastRoundTC hi
    rw [hS] at hstep
    simp only [Core.localTimeoutRound, Pacemaker.localTimeoutRound, N.verifier_eq, N.id_eq] at hok ⊢
    refine ⟨_, .single (hstep (fun m hm => ?_)), ?_, rfl⟩
    · exact (hok (.timeout (Pacemaker.timeoutMsg c.tree c.pacemaker.lastRoundTC m))
        (List.mem_map.2 ⟨_, Option.mem_toList.2 (Option.map_eq_some_iff.2 ⟨m, hm, rfl⟩), rfl⟩) _ _ rfl).2.1
    · cases hm : (c.safety.makeTimeout N.verifier env i c.pacemaker.currentRound (some c.tree.highQC)
        c.pacemaker.lastRoundTC).2 with
      | none =>
        have hm' : (c.safety.makeTimeout N.verifier env i (c.pacemaker.startTimer c.pacemaker.currentRound).currentRound
          (some c.tree.highQC) (c.pacemaker.startTimer c.pacemaker.currentRound).lastRoundTC).2 = none := hm
        simp [SafetySys.record, signedLog, hm']
      | some m =>
        have hm' : (c.safety.makeTimeout N.verifier env i (c.pacemaker.startTimer c.pacemaker.currentRound).currentRound
          (some c.tree.highQC) (c.pacemaker.startTimer c.pacemaker.currentRound).lastRoundTC).2 = some m := hm
        simp [SafetySys.record, signedLog, Effect.signature, Pacemaker.timeoutMsg, hm']
  | note _ m hm hnew => exact hout (by simp) hok
  | complete _ m tc _ hm htc hlen hround hc' =>
    subst hc'
    exact hout (fun x hx => outside_propose hx) hok
  | voteQC m qc l t bs hm hqc hwin h => exact hout (fun x hx => outside_onCommit hx) hok
  | gather _ m hm h => exact hout (by simp) hok
  | aggregate _ m qc _ moved eff hm hwin hqc h =>
    obtain ⟨l, t, bs, le, -, -, rfl, -, rfl⟩ := Core.processCertificateQC_ok h
    refine hout (fun x hx => ?_) hok
    rcases List.mem_cons.1 hx with rfl | hx
    · exact ⟨fun v d h => (by cases h), fun m h => (by cases h)⟩
    · split at hx
      · rcases List.mem_append.1 hx with hx | hx
        · exact outside_onCommit hx
        · exact outside_propose hx
      · exact outside_onCommit hx
  | reply _ b => exact hout (by simp) hok

theorem Follows.trans {S S' : SafetySys} {eff eff' : List Effect} {s s' : Safety}
    (hrun : Relation.ReflTransGen N.SafetyStep S S')
    (hlog : S'.log = S.log ++ signedLog (eff.map (fun x => (i, x)))) (hsafe : S'.safety = Function.update S.safety i s)
    (h : N.Follows i S' eff' s') : N.Follows i S (eff ++ eff') s' := by
  obtain ⟨S'', hrun', hlog', hsafe'⟩ := h
  refine ⟨S'', hrun.trans hrun', ?_, ?_⟩
  · rw [hlog', hlog, List.map_append, signedLog_append, List.append_assoc]
  · rw [hsafe', hsafe, Function.update_idem]

theorem Micros.follows (hi : N.Honest i) (he : N.Admits e) {c c' : Core} {eff : List Effect} {S : SafetySys}
    (h : N.Micros i env c₀ e c eff c') (hok : ∀ x ∈ eff, N.Legit i x) (hS : S.safety i = c.safety) :
    N.Follows i S eff c'.safety := by
  induction h with
  | refl => exact ⟨S, .refl, by simp [signedLog], by rw [← hS]; simp⟩
  | tail _ hm ih =>
    obtain ⟨hok, hok'⟩ := List.forall_mem_append.1 hok
    obtain ⟨S', hrun, hlog, hsafe⟩ := ih hok
    refine Follows.trans hrun hlog hsafe (hm.follows hi he hok' ?_)
    rw [hsafe, Function.update_self]

theorem Cut.outside {c : Core} {eff : List Effect} (h : N.Cut i env e c eff) {x : Effect} (hx : x ∈ eff) :
    (∀ v d, x ≠ .vote v d) ∧ ∀ m, x ≠ .timeout m := by
  have hasm : ∀ qc, (∀ v d, Effect.assembled qc ≠ .vote v d) ∧ ∀ m, Effect.assembled qc ≠ .timeout m :=
    fun qc => ⟨fun v d h => (by cases h), fun m h => (by cases h)⟩
  cases h with
  | insert => cases hx
  | commit => cases hx
  | cert => exact outside_onCommit hx
  | assembled m qc => rw [List.mem_singleton.1 hx]; exact hasm qc
  | aggregate m qc =>
    rcases List.mem_cons.1 hx with rfl | hx
    · exact hasm qc
    · exact outside_onCommit hx

theorem start_follows (hi : N.Honest i) {c : Core} {S : SafetySys} (hnew : newCore N.crypto (N.config i) = some c)
    (hok : ∀ x ∈ (c.start N.crypto (N.config i) env).2, N.Legit i x) (hS : S.safety i = newSafety) :
    N.Follows i S (c.start N.crypto (N.config i) env).2 (c.start N.crypto (N.config i) env).1.safety := by
  have hc : c.safety = newSafety := by rw [newCore_eq hnew]
  have hsafe : (c.start N.crypto (N.config i) env).1.safety = S.safety i := hc.trans hS.symm
  rw [hsafe]
  exact follows_outside hi S _ (fun x hx => outside_propose hx) hok

/-- What `refines` says of one state. -/
def Mirrors (σ : Sys) (S : SafetySys) : Prop :=
  S.log = signedLog σ.trace ∧ ∀ i, (σ.status i = .fresh → S.safety i = newSafety) ∧
    ∀ c, σ.status i = .running c → S.safety i = c.safety

theorem Follows.mirrors {σ : Sys} {S : SafetySys} (hS : Mirrors σ S) {eff : List Effect} {s : Safety} (st : Status)
    (h : N.Follows i S eff s) (hst : st ≠ .fresh ∧ ∀ c, st = .running c → s = c.safety) :
    ∃ S', Relation.ReflTransGen N.SafetyStep S S' ∧ Mirrors (σ.set i st eff) S' := by
  obtain ⟨S', hrun, hlog, hsafe⟩ := h
  refine ⟨S', hrun, ?_, fun j => ?_⟩
  · rw [hlog, hS.1, ← signedLog_append]
    rfl
  · by_cases hj : j = i
    · subst hj
      simp only [Sys.set, hsafe, Function.update_self]
      exact ⟨fun hf => absurd hf hst.1, hst.2⟩
    · simp only [Sys.set, hsafe, Function.update_of_ne hj]
      exact hS.2 j

/-- **The cores' Safety objects are in a Safety run**, whatever the rest of the cores does. -/
theorem refines {P : UInt32 → Core → Event → Prop} {σ : Sys} (h : N.Run P σ) :
    ∃ S, N.SafetyRun S ∧ Mirrors σ S := by
  induction h with
  | refl => exact ⟨SafetySys.init, .refl, rfl, fun i => ⟨fun _ => rfl, fun c hc => (by cases hc)⟩⟩
  | tail _ hs ih =>
    obtain ⟨S, hrun, hS⟩ := ih
    cases hs with
    | start i env c hi hσ hnew hok =>
      obtain ⟨S', hrun', hS'⟩ := (start_follows hi hnew hok ((hS.2 i).1 hσ)).mirrors hS
        (.running (c.start N.crypto (N.config i) env).1) ⟨by simp, fun c' hc => by cases hc; rfl⟩
      exact ⟨S', hrun.trans hrun', hS'⟩
    | event i env c e c' eff hi hσ he hP hs hok =>
      obtain ⟨S', hrun', hS'⟩ := ((step_micros he hs).follows hi he hok ((hS.2 i).2 c hσ)).mirrors hS
        (.running c') ⟨by simp, fun c'' hc => by cases hc; rfl⟩
      exact ⟨S', hrun.trans hrun', hS'⟩
    | stick i env c e s hi hσ he hP hs hok =>
      obtain ⟨c', eff, eff', hm, hc, hd⟩ := step_halts he hs
      rw [hd] at hok
      obtain ⟨hok, hok'⟩ := List.forall_mem_append.1 hok
      obtain ⟨S₁, hrun₁, hlog₁, hsafe₁⟩ := hm.follows hi he hok ((hS.2 i).2 c hσ)
      have hcut := follows_outside hi S₁ _ (fun x hx => hc.outside hx) hok'
      obtain ⟨S', hrun', hS'⟩ := (Follows.trans hrun₁ hlog₁ hsafe₁ hcut).mirrors hS .stuck
        ⟨by simp, fun c'' hc => (by cases hc)⟩
      rw [← hd] at hS'
      exact ⟨S', hrun.trans hrun', hS'⟩

/-- What honest keys sign in a run is soundly signed. -/
theorem Run.sound {P : UInt32 → Core → Event → Prop} {σ : Sys} (h : N.Run P σ) (j : UInt32) (x : Signed)
    (hx : (j, x) ∈ signedLog σ.trace) : N.Sound x := by
  obtain ⟨S, hS, hlog, -⟩ := refines h
  refine (SafetyInv.run hS).sound j x ?_
  rw [hlog]
  exact hx

end Refines

/-- **The Safety objects under a state that was reached**, at the end of its run, and with unforgeable signatures. -/
theorem Reached.safetyRun {N : Net} {P : UInt32 → Core → Event → Prop} {σ : Sys} (h : N.Reached P σ) :
    ∃ S, N.SafetyRun S ∧ N.Unforgeable S.log := by
  obtain ⟨hrun, σ', hmore, hu⟩ := h
  obtain ⟨S, hS, hlog, -⟩ := refines (hrun.any.trans hmore)
  rw [← hlog] at hu
  exact ⟨S, hS, hu⟩

/-- The end of the run a state was reached in, by when all that verifies is signed. -/
theorem Reached.later {N : Net} {P : UInt32 → Core → Event → Prop} {σ : Sys} (h : N.Reached P σ) :
    ∃ σ', N.Run AnyEvent σ' ∧ Ballots N.toGroup (signedLog σ'.trace) := by
  obtain ⟨hrun, σ', hmore, hu⟩ := h
  obtain ⟨S, hS, hlog, -⟩ := refines (hrun.any.trans hmore)
  refine ⟨σ', hrun.any.trans hmore, ?_⟩
  rw [← hlog] at hu ⊢
  exact Ballots.of_run hS hu

theorem Reached.ballots {N : Net} {P : UInt32 → Core → Event → Prop} {σ : Sys} (h : N.Reached P σ) :
    ∃ log, Ballots N.toGroup log := by
  obtain ⟨S, hS, hu⟩ := h.safetyRun
  exact ⟨S.log, Ballots.of_run hS hu⟩

end Net

end Diem

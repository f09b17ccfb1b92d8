import Diem.Timeouts
/-!
# Thresholds — one amplification and one TC a round

A bucket grows by one sender at a time and is dropped only when its round is left for good, so each of its two
thresholds is met once: f+1 senders make the replica give up on the round too, and a quorum makes the TC that leaves it.
-/
namespace Diem

def Pacemaker.Op.isAmplify : Pacemaker.Op → Bool
  | .file _            => false
  | .advanceRoundQC _  => false
  | .advanceRoundTC _  => false
  | .localTimeoutRound => false
  | .amplify           => true

/-- The round `ProcessRemoteTimeout` gives up on, if the timeout is the one that makes f+1 senders. -/
def Pacemaker.amplifies (faulty : Nat) (p : Pacemaker) (info : TimeoutInfo) : Option UInt64 :=
  if (p.remoteOps faulty info).any Pacemaker.Op.isAmplify then some info.round else none

namespace Turn

variable (cr : Crypto) (cfg : Config)

/-- Where `ProcessRemoteTimeout` is called in the turn: the core it is called on, and the timeout. -/
def remote (t : Turn) : Option (Core × TimeoutMsg) :=
  match t.event with
  | .proposal _     => none
  | .vote _         => none
  | .timeout m      =>
    match t.core.processCertificates cr cfg t.env m.tmoInfo.highQc m.highCommitQc m.lastRoundTc with
    | .error _   => none
    | .ok (c, _) => some (c, m)
  | .localTimeout _ => none
  | .block _        => none
  | .blockRequest _ => none

/-- The TC it returns. -/
def tc (t : Turn) : Option TimeoutCert :=
  match t.remote cr cfg with
  | none        => none
  | some (c, m) =>
    (c.pacemaker.processRemoteTimeout (Core.verifier cr cfg) t.env cfg.id cfg.faulty c.tree c.safety m).2.2.2

/-- The timeout it broadcasts. -/
def answer (t : Turn) : Option TimeoutMsg :=
  match t.remote cr cfg with
  | none        => none
  | some (c, m) =>
    (c.pacemaker.processRemoteTimeout (Core.verifier cr cfg) t.env cfg.id cfg.faulty c.tree c.safety m).2.2.1

/-- The round it gives up on because f+1 senders did. -/
def amplified (t : Turn) : Option UInt64 :=
  match t.remote cr cfg with
  | none        => none
  | some (c, m) => c.pacemaker.amplifies cfg.faulty m.tmoInfo

/-- The timeout `LocalTimeoutRound` broadcasts when it is called from there. -/
def ownTimeout (t : Turn) : Option TimeoutMsg :=
  match t.remote cr cfg with
  | none        => none
  | some (c, m) =>
    (Pacemaker.localTimeoutRound (Core.verifier cr cfg) t.env cfg.id c.tree
      (c.pacemaker.file m.tmoInfo).stop c.safety).2.2

end Turn

/-- **`ProcessRemoteTimeout` answers exactly where it gives up on the round**, with what `LocalTimeoutRound` broadcasts.
-/
theorem Turn.answer_eq (cr : Crypto) (cfg : Config) (t : Turn) :
    t.answer cr cfg = (t.amplified cr cfg).bind (fun _ => t.ownTimeout cr cfg) := by
  unfold answer amplified ownTimeout
  cases t.remote cr cfg with
  | none => rfl
  | some x =>
    obtain ⟨c, m⟩ := x
    dsimp only
    by_cases hdrop : m.tmoInfo.round < c.pacemaker.currentRound ∨
        m.tmoInfo.sender ∈ (c.pacemaker.bucket m.tmoInfo.round).senders
    · rw [Pacemaker.processRemoteTimeout_drop hdrop, Pacemaker.amplifies, Pacemaker.remoteOps_drop hdrop]
      rfl
    · rw [not_or] at hdrop
      rw [Pacemaker.processRemoteTimeout_file hdrop.1 hdrop.2, Pacemaker.amplifies,
        Pacemaker.remoteOps_file hdrop.1 hdrop.2]
      dsimp only
      split
      · rfl
      · rfl

/-- What is broadcast is for the round the pacemaker is in. -/
theorem Pacemaker.localTimeoutRound_round {v : Verifier} {env : Env} {id : UInt32} {t : BlockTree} {p : Pacemaker}
    {s : Safety} {m : TimeoutMsg} (h : (localTimeoutRound v env id t p s).2.2 = some m) :
    m.tmoInfo.round = p.currentRound := by
  obtain ⟨info, hinfo, rfl⟩ := Option.map_eq_some_iff.1 h
  exact ((s.makeTimeout_spec v env id p.currentRound (some t.highQC) p.lastRoundTC).2 info hinfo).info.1

/-- **A valid TC**: it verifies, and has exactly a quorum of signers, each with the round its timeout reported. -/
structure ValidTC (v : Verifier) (ts : List Turn) (tc : TimeoutCert) : Prop where
  verifies : v.verifyTC (some tc) = true
  quorum   : tc.votes.length = v.quorum
  once     : (tc.votes.map (fun t => t.sig.signer)).Nodup
  heard    : ∀ x ∈ tc.votes, ∃ t ∈ ts, ∃ m, t.event = .timeout m ∧ v.verifyTimeout m = true ∧
               m.tmoInfo.round = tc.round ∧ m.tmoInfo.sender = x.sig.signer ∧ m.tmoInfo.sig = x.sig ∧
               qcRound m.tmoInfo.highQc = x.highQcRound

/-! ## A bucket and what was heard -/

/-- A bucket's timeouts were heard, for its round, each sender once. -/
structure FiledFrom (v : Verifier) (ts : List Turn) (round : UInt64) (b : TimeoutBucket) : Prop where
  infos   : ∀ x ∈ b.infos, ∃ t ∈ ts, ∃ m, t.event = .timeout m ∧ v.verifyTimeout m = true ∧ m.tmoInfo = x ∧
    x.round = round
  senders : b.senders = (b.infos.map TimeoutInfo.sender).reverse
  once    : b.senders.Nodup

namespace FiledFrom

variable {v : Verifier} {ts : List Turn} {round : UInt64} {b : TimeoutBucket}

theorem empty (v : Verifier) (ts : List Turn) (round : UInt64) : FiledFrom v ts round ⟨[], []⟩ :=
  ⟨fun x hx => (by cases hx), rfl, List.nodup_nil⟩

theorem mono (h : FiledFrom v ts round b) {ts' : List Turn} (hts : ts ⊆ ts') : FiledFrom v ts' round b :=
  ⟨fun x hx => (h.infos x hx).imp (fun _ ht => ht.imp_left (fun hmem => hts hmem)), h.senders, h.once⟩

theorem push (h : FiledFrom v ts round b) {t : Turn} (ht : t ∈ ts) {m : TimeoutMsg} (hm : t.event = .timeout m)
    (hver : v.verifyTimeout m = true) (hround : m.tmoInfo.round = round) (hnew : m.tmoInfo.sender ∉ b.senders) :
    FiledFrom v ts round ⟨b.infos ++ [m.tmoInfo], m.tmoInfo.sender :: b.senders⟩ := by
  refine ⟨fun x hx => ?_, ?_, List.nodup_cons.2 ⟨hnew, h.once⟩⟩
  · rcases List.mem_append.1 hx with hx | hx
    · exact h.infos x hx
    · rw [List.mem_singleton.1 hx]
      exact ⟨t, ht, m, hm, hver, rfl, hround⟩
  · rw [h.senders, List.map_append, List.reverse_append]
    rfl

/-- **A full bucket makes a valid TC.** -/
theorem validTC (h : FiledFrom v ts round b) (hlen : b.senders.length = v.quorum) (hne : b.senders ≠ []) :
    ValidTC v ts (Pacemaker.assembleTC round b.infos) := by
  have hinfos : b.infos.length = v.quorum := by
    rw [← hlen, h.senders, List.length_reverse, List.length_map]
  have honce : (b.infos.map TimeoutInfo.sender).Nodup := by
    rw [← List.nodup_reverse, ← h.senders]
    exact h.once
  have hver : ∀ x ∈ b.infos, round ≠ 0 ∧ x.sig.signer = x.sender ∧
      verifySig v.crypto (timeoutDigest v.crypto round (qcRound x.highQc)) x.sig = true := by
    intro x hx
    obtain ⟨t, -, m, -, hm, rfl, rfl⟩ := h.infos x hx
    obtain ⟨hwf, hsigner, hsig, -⟩ := (v.verifyTimeout_iff m).1 hm
    rw [wellFormedTimeout, Bool.and_eq_true, wellFormed_iff] at hwf
    exact ⟨hwf.2.1, hsigner, hsig⟩
  obtain ⟨x, hx⟩ : ∃ x, x ∈ b.infos := by
    refine List.exists_mem_of_ne_nil _ (fun hnil => hne ?_)
    rw [h.senders, hnil]
    rfl
  refine ⟨Pacemaker.verifyTC_assembleTC (hver x hx).1 (fun x hx => (hver x hx).2) honce hinfos.ge,
    (Pacemaker.length_assembleTC _ _).trans hinfos, ?_, fun y hy => ?_⟩
  · rw [List.Nodup, List.pairwise_map]
    exact (Pacemaker.pairwise_assembleTC (fun x hx => (hver x hx).2.1) honce).imp (fun hab => UInt32.ne_of_lt hab)
  · obtain ⟨x, hx, rfl⟩ := Pacemaker.mem_assembleTC hy
    obtain ⟨t, ht, m, hm, hmver, rfl, hround⟩ := h.infos x hx
    exact ⟨t, ht, m, hm, hmver, hround, (hver _ hx).2.1.symm, rfl, rfl⟩

end FiledFrom

/-! ## Rounds left and rounds given up on -/

namespace Pacemaker

/-- But for the one that files, an operation leaves the round for a later one, or leaves its bucket alone. -/
theorem perform_stays (p : Pacemaker) {op : Op} (hop : Core.OpUnwrapped op) (hfile : ∀ info, op ≠ .file info) :
    p.currentRound < (p.perform op).currentRound ∨
      ((p.perform op).currentRound = p.currentRound ∧
        (p.perform op).bucket p.currentRound = p.bucket p.currentRound) := by
  have hsame : ∀ q : Pacemaker, q.pendingTimeouts = p.pendingTimeouts →
      (q.startTimer p.currentRound).bucket p.currentRound = p.bucket p.currentRound := by
    intro q hq
    rw [bucket_startTimer, if_neg (UInt64.lt_irrefl _), bucket, bucket, hq]
  cases op with
  | file info => exact absurd rfl (hfile info)
  | advanceRoundQC q =>
    rw [perform, advanceRoundQC_eq]
    split
    · exact .inr ⟨rfl, rfl⟩
    · rename_i hlt
      exact .inl (lt_round_succ hlt hop)
  | advanceRoundTC t =>
    rw [perform, advanceRoundTC_eq]
    split
    · exact .inr ⟨rfl, rfl⟩
    · rename_i hlt
      exact .inl (lt_round_succ hlt hop)
  | localTimeoutRound => exact .inr ⟨rfl, hsame _ rfl⟩
  | amplify => exact .inr ⟨rfl, hsame _ rfl⟩

theorem performs_stays (p : Pacemaker) {ops : List Op} (hops : ∀ op ∈ ops, Core.OpUnwrapped op)
    (hfile : ∀ info, .file info ∉ ops) :
    p.currentRound < (p.performs ops).currentRound ∨
      ((p.performs ops).currentRound = p.currentRound ∧
        (p.performs ops).bucket p.currentRound = p.bucket p.currentRound) := by
  induction ops generalizing p with
  | nil => exact .inr ⟨rfl, rfl⟩
  | cons op ops ih =>
    have hrest := ih (p.perform op) (fun o ho => hops o (List.mem_cons_of_mem _ ho))
      (fun info hmem => hfile info (List.mem_cons_of_mem _ hmem))
    rcases p.perform_stays (hops op List.mem_cons_self) (fun info hop => hfile info (hop ▸ List.mem_cons_self)) with
      hlt | ⟨hround, hbucket⟩
    · exact .inl (UInt64.lt_of_lt_of_le hlt (Core.performs_mono (fun o ho => hops o (List.mem_cons_of_mem _ ho))))
    · rw [hround, hbucket] at hrest
      exact hrest

end Pacemaker

/-- **What was heard and what came of it**: only the current round has a bucket, of timeouts that were heard; every TC
made was of an earlier round, and a round given up on is an earlier one, or has f+1 senders. -/
structure Tallied (v : Verifier) (faulty : Nat) (ts : List Turn) (tcs : List TimeoutCert) (amps : List UInt64)
    (p : Pacemaker) : Prop where
  keyed : p.Keyed
  filed : ∀ r, FiledFrom v ts r (p.bucket r)
  made  : ∀ tc ∈ tcs, tc.round < p.currentRound
  given : ∀ r ∈ amps, r < p.currentRound ∨ (r = p.currentRound ∧ faulty < (p.bucket r).senders.length)

namespace Tallied

variable {v : Verifier} {faulty : Nat} {ts : List Turn} {tcs : List TimeoutCert} {amps : List UInt64} {p : Pacemaker}

theorem mono (h : Tallied v faulty ts tcs amps p) {ts' : List Turn} (hts : ts ⊆ ts') :
    Tallied v faulty ts' tcs amps p :=
  ⟨h.keyed, fun r => (h.filed r).mono hts, h.made, h.given⟩

/-- Operations that file nothing lose at most the bucket of a round that is left. -/
theorem performs (h : Tallied v faulty ts tcs amps p) {ops : List Pacemaker.Op} (hops : ∀ op ∈ ops, Core.OpUnwrapped op)
    (hfile : ∀ info, .file info ∉ ops) : Tallied v faulty ts tcs amps (p.performs ops) := by
  have hmono : p.currentRound ≤ (p.performs ops).currentRound := Core.performs_mono hops
  refine ⟨h.keyed.performs hops hfile, fun r => ?_, fun tc htc => UInt64.lt_of_lt_of_le (h.made tc htc) hmono,
    fun r hr => ?_⟩
  · rcases p.bucket_performs hfile r with hb | hb
    · rw [hb]
      exact h.filed r
    · rw [hb]
      exact .empty v ts r
  · rcases h.given r hr with hlt | ⟨rfl, hmany⟩
    · exact .inl (UInt64.lt_of_lt_of_le hlt hmono)
    · rcases p.performs_stays hops hfile with hlt | ⟨hround, hbucket⟩
      · exact .inl hlt
      · exact .inr ⟨hround.symm, by rw [hbucket]; exact hmany⟩

/-- A timeout filed for the current round adds a sender. -/
theorem file (h : Tallied v faulty ts tcs amps p) {t : Turn} (ht : t ∈ ts) {m : TimeoutMsg} (hm : t.event = .timeout m)
    (hver : v.verifyTimeout m = true) (hround : m.tmoInfo.round = p.currentRound)
    (hnew : m.tmoInfo.sender ∉ (p.bucket m.tmoInfo.round).senders) :
    Tallied v faulty ts tcs amps (p.file m.tmoInfo) := by
  refine ⟨h.keyed.file hround, fun r => ?_, h.made, fun r hr =>
    (h.given r hr).imp_right (And.imp_right fun hmany => ?_)⟩
  · rw [Pacemaker.bucket_file]
    split
    · rename_i hr
      subst hr
      exact (h.filed _).push ht hm hver rfl hnew
    · exact h.filed r
  · rw [Pacemaker.bucket_file]
    split
    · exact Nat.lt_succ_of_lt hmany
    · exact hmany

/-- Giving up on the round: f+1 senders are there, and were not when it was given up on before. -/
theorem amplify (h : Tallied v faulty ts tcs amps p) (hmany : (p.bucket p.currentRound).senders.length = faulty + 1) :
    Tallied v faulty ts tcs (amps ++ [p.currentRound]) (p.perform .amplify) := by
  have hbucket : (p.perform .amplify).bucket p.currentRound = p.bucket p.currentRound :=
    (Pacemaker.bucket_startTimer _ _ _).trans (if_neg (UInt64.lt_irrefl _))
  have hnofile : ∀ info, Pacemaker.Op.file info ∉ [Pacemaker.Op.amplify] := by simp
  have hkept : Tallied v faulty ts tcs amps (p.perform .amplify) :=
    h.performs (fun op hop => by cases List.mem_singleton.1 hop; trivial) hnofile
  refine ⟨hkept.keyed, hkept.filed, hkept.made, fun r hr => ?_⟩
  rcases List.mem_append.1 hr with hr | hr
  · exact hkept.given r hr
  · rw [List.mem_singleton.1 hr]
    refine .inr ⟨rfl, ?_⟩
    rw [hbucket, hmany]
    exact Nat.lt_succ_self _

/-- **A timeout for the current round or an earlier one**: it makes the replica give up on a round it had not given up
on, if on any, and the TC it makes is valid, and of the current round. -/
theorem remote (h : Tallied v faulty ts tcs amps p) {t : Turn} (ht : t ∈ ts) {m : TimeoutMsg}
    (hm : t.event = .timeout m) (hver : v.verifyTimeout m = true) (hle : m.tmoInfo.round ≤ p.currentRound) {env : Env}
    {id : UInt32} {tree : BlockTree} {s s' : Safety} {p' : Pacemaker} {out : Option TimeoutMsg}
    {tc : Option TimeoutCert} (hp : p.processRemoteTimeout v env id faulty tree s m = (p', s', out, tc)) :
    Tallied v faulty ts tcs (amps ++ (p.amplifies faulty m.tmoInfo).toList) p' ∧
      (∀ r, p.amplifies faulty m.tmoInfo = some r → r ∉ amps) ∧
      ∀ t, tc = some t → ValidTC v ts t ∧ t.round = p'.currentRound := by
  have hp' := Pacemaker.processRemoteTimeout_performs hp
  by_cases hdrop : m.tmoInfo.round < p.currentRound ∨ m.tmoInfo.sender ∈ (p.bucket m.tmoInfo.round).senders
  · have hno : p.amplifies faulty m.tmoInfo = none := by
      rw [Pacemaker.amplifies, Pacemaker.remoteOps_drop hdrop]
      rfl
    rw [Pacemaker.processRemoteTimeout_drop hdrop] at hp
    cases hp
    rw [hno, Option.toList_none, List.append_nil]
    exact ⟨h, fun r hr => (by cases hr), fun t ht => (by cases ht)⟩
  rw [not_or] at hdrop
  have hround : m.tmoInfo.round = p.currentRound := UInt64.le_antisymm hle (UInt64.not_lt.1 hdrop.1)
  have hfiled := h.file ht hm hver hround hdrop.2
  have hbucket : ((p.file m.tmoInfo).bucket m.tmoInfo.round).senders =
      m.tmoInfo.sender :: (p.bucket m.tmoInfo.round).senders := by
    rw [Pacemaker.bucket_file, if_pos rfl]
  have hcur : p'.currentRound = m.tmoInfo.round := by
    rw [hp', Pacemaker.remoteOps_file hdrop.1 hdrop.2, hround]
    split <;> rfl
  have htc : ∀ t, tc = some t → ValidTC v ts t ∧ t.round = p'.currentRound := by
    rw [Pacemaker.processRemoteTimeout_file hdrop.1 hdrop.2] at hp
    obtain rfl := (congrArg (fun r => r.2.2.2) hp).symm
    intro t ht
    dsimp only at ht
    split at ht
    · rename_i hlen
      cases ht
      exact ⟨(hfiled.filed _).validTC hlen (by rw [hbucket]; simp), hcur.symm⟩
    · cases ht
  rw [Pacemaker.remoteOps_file hdrop.1 hdrop.2] at hp'
  rw [Pacemaker.amplifies, Pacemaker.remoteOps_file hdrop.1 hdrop.2]
  by_cases hf : ((p.file m.tmoInfo).bucket m.tmoInfo.round).senders.length = faulty + 1
  · rw [if_pos hf] at hp' ⊢
    refine ⟨?_, fun r hr => ?_, htc⟩
    · have hamp := hfiled.amplify (by rw [← hf, hround]; rfl)
      rw [hp', hround]
      exact hamp
    · -- f+1 senders now, so no more than f before
      cases hr
      intro hmem
      rw [hbucket, List.length_cons] at hf
      rcases h.given _ hmem with hlt | ⟨-, hmany⟩
      · exact hdrop.1 hlt
      · omega
  · rw [if_neg hf] at hp' ⊢
    refine ⟨?_, fun r hr => (by cases hr), htc⟩
    rw [hp']
    exact (List.append_nil amps).symm ▸ hfiled

end Tallied

theorem filterMap_concat {α β : Type} (f : α → Option β) (l : List α) (a : α) :
    (l ++ [a]).filterMap f = l.filterMap f ++ (f a).toList := by
  rw [List.filterMap_append]
  cases h : f a <;> simp [h]

theorem ValidTC.mono {v : Verifier} {ts ts' : List Turn} {tc : TimeoutCert} (h : ValidTC v ts tc) (hts : ts ⊆ ts') :
    ValidTC v ts' tc :=
  ⟨h.verifies, h.quorum, h.once, fun x hx => (h.heard x hx).imp (fun _ ht => ht.imp_left (fun hmem => hts hmem))⟩

/-- **What a history keeps**: the tally, no round given up on twice, and one valid TC a round. -/
structure TallyInv (cr : Crypto) (cfg : Config) (ts : List Turn) (p : Pacemaker) : Prop where
  tally : Tallied (Core.verifier cr cfg) cfg.faulty ts (ts.filterMap (Turn.tc cr cfg))
    (ts.filterMap (Turn.amplified cr cfg)) p
  once  : ((ts.filterMap (Turn.tc cr cfg)).map TimeoutCert.round).Nodup
  valid : ∀ tc ∈ ts.filterMap (Turn.tc cr cfg), ValidTC (Core.verifier cr cfg) ts tc
  amps  : (ts.filterMap (Turn.amplified cr cfg)).Nodup

namespace TallyInv

variable {cr : Crypto} {cfg : Config} {env : Env} {ts : List Turn} {c c' : Core} {e : Event} {eff : List Effect}

/-- A turn without a timeout. -/
theorem quiet (h : TallyInv cr cfg ts c.pacemaker) (he : ∀ m, e ≠ .timeout m) (hrise : c.Rising cr cfg env e)
    (hs : c.step cr cfg env e = .ok (c', eff)) : TallyInv cr cfg (ts ++ [⟨c, env, e, c', eff⟩]) c'.pacemaker := by
  have hremote : (⟨c, env, e, c', eff⟩ : Turn).remote cr cfg = none := by
    cases e with
    | timeout m => exact absurd rfl (he m)
    | _ => rfl
  have htcs : (ts ++ [(⟨c, env, e, c', eff⟩ : Turn)]).filterMap (Turn.tc cr cfg) = ts.filterMap (Turn.tc cr cfg) := by
    rw [filterMap_concat, Turn.tc, hremote, Option.toList_none, List.append_nil]
  have hamps : (ts ++ [(⟨c, env, e, c', eff⟩ : Turn)]).filterMap (Turn.amplified cr cfg) =
      ts.filterMap (Turn.amplified cr cfg) := by
    rw [filterMap_concat, Turn.amplified, hremote, Option.toList_none, List.append_nil]
  have hsub : ts ⊆ ts ++ [(⟨c, env, e, c', eff⟩ : Turn)] := List.subset_append_left _ _
  refine ⟨?_, htcs.symm ▸ h.once, fun tc htc => (h.valid tc (htcs ▸ htc)).mono hsub, hamps.symm ▸ h.amps⟩
  rw [htcs, hamps, Core.step_performs hs]
  exact (h.tally.performs hrise (Core.file_not_mem_ops he)).mono hsub

/-- **A turn with a timeout.** -/
theorem timeout {m : TimeoutMsg} (h : TallyInv cr cfg ts c.pacemaker)
    (hver : (Core.verifier cr cfg).verifyTimeout m = true) (hrise : c.Rising cr cfg env (.timeout m))
    (hs : c.step cr cfg env (.timeout m) = .ok (c', eff)) :
    TallyInv cr cfg (ts ++ [⟨c, env, .timeout m, c', eff⟩]) c'.pacemaker := by
  obtain ⟨c₁, eff₁, p, s, out, tc, h₁, h₂, hend⟩ := Core.processTimeoutMsg_ok hs
  generalize hturn : (⟨c, env, .timeout m, c', eff⟩ : Turn) = turn
  have hevent : turn.event = .timeout m := hturn ▸ rfl
  have hremote : turn.remote cr cfg = some (c₁, m) := by
    subst hturn
    simp only [Turn.remote, h₁]
  have htcs : (ts ++ [turn]).filterMap (Turn.tc cr cfg) = ts.filterMap (Turn.tc cr cfg) ++ tc.toList := by
    have henv : turn.env = env := hturn ▸ rfl
    rw [filterMap_concat, Turn.tc, hremote, henv]
    dsimp only
    rw [h₂]
  have hamps : (ts ++ [turn]).filterMap (Turn.amplified cr cfg) =
      ts.filterMap (Turn.amplified cr cfg) ++ (c₁.pacemaker.amplifies cfg.faulty m.tmoInfo).toList := by
    rw [filterMap_concat, Turn.amplified, hremote]
  have hsub : ts ⊆ ts ++ [turn] := List.subset_append_left _ _
  rw [Core.Rising] at hrise
  simp only [Core.ops, h₁, h₂] at hrise
  have hcert := fun op hop => hrise op (List.mem_append_left _ hop)
  -- first the certificates, then the timeout
  have htally : Tallied (Core.verifier cr cfg) cfg.faulty (ts ++ [turn]) (ts.filterMap (Turn.tc cr cfg))
      (ts.filterMap (Turn.amplified cr cfg)) c₁.pacemaker := by
    rw [Core.processCertificates_performs h₁]
    exact (h.tally.performs hcert (Core.file_not_mem_certificateOps _ _ _)).mono hsub
  obtain ⟨hp, hfresh, hmade⟩ := htally.remote (List.mem_append_right _ (List.mem_singleton.2 rfl)) hevent hver
    (Core.timeout_le_currentRound hver hcert h₁) h₂
  have hampsNodup : ((ts ++ [turn]).filterMap (Turn.amplified cr cfg)).Nodup := by
    rw [hamps]
    refine List.nodup_append.2 ⟨h.amps, ?_, fun r hr r' hr' heq => ?_⟩
    · cases c₁.pacemaker.amplifies cfg.faulty m.tmoInfo <;> simp
    · exact hfresh r' (Option.mem_toList.1 hr') (heq ▸ hr)
  have hold : ∀ tc ∈ ts.filterMap (Turn.tc cr cfg), ValidTC (Core.verifier cr cfg) (ts ++ [turn]) tc :=
    fun tc htc => (h.valid tc htc).mono hsub
  rcases hend with ⟨rfl, rfl, -⟩ | ⟨t, rfl, -, hle, rfl, -⟩
  · rw [Option.toList_none, List.append_nil] at htcs
    refine ⟨?_, htcs.symm ▸ h.once, fun tc htc => hold tc (htcs ▸ htc), hampsNodup⟩
    rw [htcs, hamps]
    exact hp
  · obtain ⟨hvalid, hround⟩ := hmade t rfl
    rw [Option.toList_some] at htcs
    have hop : Core.OpUnwrapped (.advanceRoundTC t) :=
      hrise _ (List.mem_append_right _ (List.mem_append_right _ (List.mem_singleton.2 rfl)))
    have hleft : Tallied (Core.verifier cr cfg) cfg.faulty (ts ++ [turn]) (ts.filterMap (Turn.tc cr cfg))
        ((ts ++ [turn]).filterMap (Turn.amplified cr cfg)) (p.performs [.advanceRoundTC t]) := by
      rw [hamps]
      exact hp.performs (fun op ho => by cases List.mem_singleton.1 ho; exact hop) (by simp)
    refine ⟨⟨hleft.keyed, hleft.filed, fun tc htc => ?_, hleft.given⟩, ?_, fun tc htc => ?_, hampsNodup⟩
    · rw [htcs] at htc
      rcases List.mem_append.1 htc with htc | htc
      · exact hleft.made tc htc
      · rw [List.mem_singleton.1 htc]
        -- the TC leaves its round
        have hlt := lt_round_succ (UInt64.lt_irrefl t.round) hop
        rwa [Pacemaker.currentRound_advanceRoundTC, if_neg (UInt64.not_lt.2 hle)]
    · rw [htcs, List.map_append]
      refine List.nodup_append.2 ⟨h.once, by simp, fun r hr r' hr' heq => ?_⟩
      obtain ⟨tc, htc, rfl⟩ := List.mem_map.1 hr
      rw [List.map_singleton, List.mem_singleton] at hr'
      have hlt := hp.made tc htc
      rw [heq, hr', hround] at hlt
      exact UInt64.lt_irrefl _ hlt
    · rw [htcs] at htc
      rcases List.mem_append.1 htc with htc | htc
      · exact hold tc htc
      · rw [List.mem_singleton.1 htc]
        exact hvalid

end TallyInv

theorem Core.Heard.tallyInv {cr : Crypto} {cfg : Config} {ts : List Turn} {c : Core}
    (h : Core.Heard cr cfg (Core.Checked cr cfg) ts c) : TallyInv cr cfg ts c.pacemaker := by
  refine h.invariant (J := fun ts c => TallyInv cr cfg ts c.pacemaker) (fun env c hnew => ?_)
    (fun ts c env e c' eff hinv he hs => ?_)
  · have hkeyed := (Core.Heard.start (P := Core.Checked cr cfg) env c hnew).keyed
    cases newCore_eq hnew
    exact ⟨⟨hkeyed, fun r => .empty _ _ r, fun tc htc => (by cases htc), fun r hr => (by cases hr)⟩, List.nodup_nil,
      fun tc htc => (by cases htc), List.nodup_nil⟩
  · by_cases htimeout : ∃ m, e = .timeout m
    · obtain ⟨m, rfl⟩ := htimeout
      exact hinv.timeout he.1 he.2 hs
    · exact hinv.quiet (fun m hm => htimeout ⟨m, hm⟩) he.2 hs

/-- A round that is given up on is that of the timeout, which was not late. -/
theorem Pacemaker.amplifies_some {faulty : Nat} {p : Pacemaker} {info : TimeoutInfo} {r : UInt64}
    (h : p.amplifies faulty info = some r) : info.round = r ∧ p.currentRound ≤ info.round := by
  refine ⟨?_, UInt64.not_lt.1 (fun hlate => ?_)⟩
  · rw [amplifies] at h
    split at h
    · exact Option.some.inj h
    · cases h
  · rw [amplifies, remoteOps_drop (.inl hlate)] at h
    cases h

/-- The certificates of an accepted timeout bring the core to its round at least. -/
theorem Turn.remote_le {cr : Crypto} {cfg : Config} {t : Turn} {c : Core} {m : TimeoutMsg}
    (he : Core.Checked cr cfg t.env t.core t.event) (h : t.remote cr cfg = some (c, m)) :
    m.tmoInfo.round ≤ c.pacemaker.currentRound := by
  unfold remote at h
  cases hevent : t.event with
  | timeout m' =>
    rw [hevent] at h he
    dsimp only at h
    split at h
    · cases h
    · rename_i c₁ eff₁ h₁
      cases h
      obtain ⟨hver, hrise⟩ := he
      rw [Core.Rising] at hrise
      simp only [Core.ops, h₁] at hrise
      exact Core.timeout_le_currentRound hver (fun op hop => hrise op (List.mem_append_left _ hop)) h₁
  | _ =>
    rw [hevent] at h
    cases h

/-- In a turn over an accepted event the timeout in answer is of the round given up on. -/
theorem Turn.amplified_of_answer {cr : Crypto} {cfg : Config} {t : Turn} {m : TimeoutMsg}
    (he : Core.Checked cr cfg t.env t.core t.event) (h : t.answer cr cfg = some m) :
    t.amplified cr cfg = some m.tmoInfo.round := by
  rw [answer_eq, Option.bind_eq_some_iff] at h
  obtain ⟨r, hr, hown⟩ := h
  rw [hr]
  unfold ownTimeout at hown
  unfold amplified at hr
  cases hremote : t.remote cr cfg with
  | none =>
    rw [hremote] at hr
    cases hr
  | some x =>
    rw [hremote] at hr hown
    -- only a timeout of the current round or a later one is filed, and none is of a later one
    obtain ⟨hround, hlow⟩ := Pacemaker.amplifies_some hr
    have hown : m.tmoInfo.round = x.1.pacemaker.currentRound := Pacemaker.localTimeoutRound_round hown
    rw [hown, ← hround, UInt64.le_antisymm (remote_le he hremote) hlow]

/-- The rounds of the timeouts in answer are rounds given up on, in that order. -/
theorem Core.Heard.answers_sublist {cr : Crypto} {cfg : Config} {ts : List Turn} {c : Core}
    (h : Core.Heard cr cfg (Core.Checked cr cfg) ts c) :
    ((ts.filterMap (Turn.answer cr cfg)).map (fun m => m.tmoInfo.round)).Sublist
    (ts.filterMap (Turn.amplified cr cfg)) := by
  have hchecked := fun t ht => (h.mem t ht).1
  clear h
  induction ts with
  | nil => exact .slnil
  | cons t ts ih =>
    have hrest := ih (fun t' ht' => hchecked t' (List.mem_cons_of_mem _ ht'))
    rw [List.filterMap_cons, List.filterMap_cons]
    cases hanswer : t.answer cr cfg with
    | none =>
      cases t.amplified cr cfg with
      | none   => exact hrest
      | some r => exact hrest.cons r
    | some m =>
      rw [Turn.amplified_of_answer (hchecked t List.mem_cons_self) hanswer]
      exact hrest.cons_cons _

/-- **One TC and one amplification a round**: in every history over accepted events that wraps no round, the TCs made
are valid and of different rounds, no round is given up on twice for f+1 senders, and so the timeouts broadcast in
answer to timeouts are of different rounds. -/
theorem one_tc_a_round {cr : Crypto} {cfg : Config} {ts : List Turn} {c : Core}
    (h : Core.Heard cr cfg (Core.Checked cr cfg) ts c) :
    ((ts.filterMap (Turn.tc cr cfg)).map TimeoutCert.round).Nodup ∧ (ts.filterMap (Turn.amplified cr cfg)).Nodup ∧
      ((ts.filterMap (Turn.answer cr cfg)).map (fun m => m.tmoInfo.round)).Nodup ∧
      (∀ t ∈ ts, t.answer cr cfg = (t.amplified cr cfg).bind (fun _ => t.ownTimeout cr cfg)) ∧
      ∀ tc ∈ ts.filterMap (Turn.tc cr cfg), ValidTC (Core.verifier cr cfg) ts tc :=
  ⟨h.tallyInv.once, h.tallyInv.amps, h.answers_sublist.nodup h.tallyInv.amps, fun t _ => t.answer_eq cr cfg,
    h.tallyInv.valid⟩

/-- Replica 3 of the chain hears from 1, 2 and 4, and from 1 again: it gives up on round 4 once, and makes one TC of it.
-/
theorem chain_one_tc :
    ∃ ts c, Core.Heard Chain.net.crypto (Chain.net.config 3) (Core.Checked Chain.net.crypto (Chain.net.config 3)) ts c ∧
      (ts.filterMap (Turn.tc Chain.net.crypto (Chain.net.config 3))).map TimeoutCert.round = [4] ∧
      ts.filterMap (Turn.amplified Chain.net.crypto (Chain.net.config 3)) = [4] ∧
      (ts.filterMap (Turn.answer Chain.net.crypto (Chain.net.config 3))).map (fun m => m.tmoInfo.round) = [4] ∧
      ∀ tc ∈ ts.filterMap (Turn.tc Chain.net.crypto (Chain.net.config 3)),
        ValidTC (Core.verifier Chain.net.crypto (Chain.net.config 3)) ts tc := by
  have hplay : Core.hears Chain.net.crypto (Chain.net.config 3) Chain.env
      (Core.checks Chain.net.crypto (Chain.net.config 3) Chain.env)
      [.timeout (Chain.timeout 1), .timeout (Chain.timeout 2), .timeout (Chain.timeout 1), .timeout (Chain.timeout 4)]
      (fun ts _ => decide ((ts.filterMap (Turn.tc Chain.net.crypto (Chain.net.config 3))).map TimeoutCert.round = [4] ∧
        ts.filterMap (Turn.amplified Chain.net.crypto (Chain.net.config 3)) = [4] ∧
        (ts.filterMap (Turn.answer Chain.net.crypto (Chain.net.config 3))).map (fun m => m.tmoInfo.round) = [4])) =
        true := by
    decide +kernel
  obtain ⟨ts, c, hheard, hcheck⟩ := Core.Heard.of_hears Core.checked_of_checks hplay
  obtain ⟨htcs, hamps, hanswers⟩ := of_decide_eq_true hcheck
  obtain ⟨-, -, -, -, hvalid⟩ := one_tc_a_round hheard
  exact ⟨ts, c, hheard, htcs, hamps, hanswers, hvalid⟩

/-! ## The last round -/

namespace Chain

/-- A block of the last round there is, over one of the round before. -/
def lastInfo : VoteInfo := { info 4 with round := 0xffffffffffffffff, parentRound := 0xfffffffffffffffe }

def lastCert : QuorumCert :=
  { cert 4 with voteInfo := lastInfo, ledgerCommitInfo := { commitStateId := digest 2, voteInfoHash := digest 18 } }

/-- Replicas 1 and 4 signed for that block too. -/
def lastBook : Book :=
  { book [] with
    strings := strings ++ [voteInfoBytes lastInfo, ledgerCommitBytes lastCert.ledgerCommitInfo]
    signed  := [(1, digest 12), (4, digest 12), (1, digest 16), (4, digest 16), (1, digest 19), (4, digest 19)]
    fits    := by decide
    genesis := List.mem_cons_self }

abbrev lastNet : Net := lastBook.net 1 2

/-- Replica 1 sends its timeout again, with the last certificate as the commit certificate. -/
def lastTimeout : TimeoutMsg := { timeout 1 with highCommitQc := some lastCert }

end Chain

/-- **A certificate of the last round takes the replica back to round 0**, and the timeouts of round 4, sent again, make
it give up on the round again, and make a second TC of it. -/
theorem tc_again :
    ∃ ts c, Core.Heard Chain.lastNet.crypto (Chain.lastNet.config 3)
        (fun _ _ e => e.Verified (Core.verifier Chain.lastNet.crypto (Chain.lastNet.config 3))) ts c ∧
      (ts.filterMap (Turn.tc Chain.lastNet.crypto (Chain.lastNet.config 3))).map TimeoutCert.round = [4, 4] ∧
      ts.filterMap (Turn.amplified Chain.lastNet.crypto (Chain.lastNet.config 3)) = [4, 4] := by
  have hplay : Core.hears Chain.lastNet.crypto (Chain.lastNet.config 3) Chain.env
      (fun _ e => e.verify (Core.verifier Chain.lastNet.crypto (Chain.lastNet.config 3)))
      [.timeout (Chain.timeout 1), .timeout (Chain.timeout 2), .timeout (Chain.timeout 4), .timeout Chain.lastTimeout,
        .timeout (Chain.timeout 2), .timeout (Chain.timeout 4)]
      (fun ts _ => decide ((ts.filterMap (Turn.tc Chain.lastNet.crypto (Chain.lastNet.config 3))).map
        TimeoutCert.round =
        [4, 4] ∧ ts.filterMap (Turn.amplified Chain.lastNet.crypto (Chain.lastNet.config 3)) = [4, 4])) = true := by
    decide +kernel
  obtain ⟨ts, c, hheard, hcheck⟩ := Core.Heard.of_hears
    (P := fun _ _ e => e.Verified (Core.verifier Chain.lastNet.crypto (Chain.lastNet.config 3)))
    (fun _ e he => e.verified_of_verify he) hplay
  exact ⟨ts, c, hheard, of_decide_eq_true hcheck⟩

end Diem

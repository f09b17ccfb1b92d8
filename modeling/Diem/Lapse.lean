import Diem.Level
import Diem.Reports
/-!
# Lapse — a round that is given up on

The timers fire, every replica that is up sends its timeout over the certificates all have in common, and each hears
those of some quorum.  On the way it gives up on the round a second time, at f+1 of them, which changes nothing; at the
last it puts the TC together, enters the next round with it, and proposes if it leads that.  Nothing is committed or
elected, and the path that is certified stays as it is.
-/
namespace Diem

/-- **The timeout of replica `i` in round `k`**, over the certificates it has in common with the others. -/
structure TimeoutMsg.For (k : UInt64) (q hc : QuorumCert) (i : UInt32) (m : TimeoutMsg) : Prop where
  round        : m.tmoInfo.round = k
  highQc       : m.tmoInfo.highQc = some q
  highCommitQc : m.highCommitQc = some hc
  lastRoundTc  : ∀ t, m.lastRoundTc = some t → t.round < k
  sender       : m.tmoInfo.sender = i

/-- **Rounds and counters of a core in round `k`**: Safety has no objection to a timeout of it, and the timeouts of
`heard` are all it has on file. -/
structure Net.Poised (N : Net) (k : UInt64) (q : QuorumCert) (heard : List TimeoutMsg) (p : Pacemaker) (s : Safety) :
    Prop where
  round   : p.currentRound = k
  entered : q.voteInfo.round + 1 = k ∨ ∃ t, p.lastRoundTC = some t ∧ t.round + 1 = k
  late    : ∀ t, p.lastRoundTC = some t → t.round < k
  tc      : N.verifier.verifyTC p.lastRoundTC = true
  voted   : s.highestVoteRound ≤ k
  qcs     : s.highestQCRound ≤ q.voteInfo.round
  bucket  : p.bucket k = ⟨heard.map TimeoutMsg.tmoInfo, (heard.map (fun m => m.tmoInfo.sender)).reverse⟩
  quiet   : ∀ r, k < r → p.bucket r = ⟨[], []⟩
  reports : ∀ m ∈ heard, N.Admits (.timeout m) ∧ m.tmoInfo.round = k ∧ m.tmoInfo.highQc = some q
  once    : (heard.map (fun m => m.tmoInfo.sender)).Nodup

/-- The certificate of a round that a quorum gave up on, none of them above `q`. -/
structure Net.Lapsed (N : Net) (k : UInt64) (q : QuorumCert) (tc : TimeoutCert) : Prop where
  verified : N.verifier.verifyTC (some tc) = true
  round    : tc.round = k
  reports  : maxHighQCRound tc ≤ q.voteInfo.round

theorem justifyingTC_late {qcR round k : UInt64} {tc : Option TimeoutCert} (h : ∀ t, tc = some t → t.round < k) :
    ∀ t, justifyingTC qcR round tc = some t → t.round < k := by
  intro t ht
  unfold justifyingTC at ht
  split at ht
  · cases ht
  · exact h t ht

/-- A certificate below `k` is not of the round before `k + 1`. -/
theorem succ_ne_succ {k : UInt64} {q : QuorumCert} (hlt : q.voteInfo.round < k) : q.voteInfo.round + 1 ≠ k + 1 :=
  fun heq => UInt64.ne_of_lt hlt ((UInt64.add_left_inj 1).1 heq)

theorem Net.Lapsed.warrants {N : Net} {k : UInt64} {q : QuorumCert} {tc : TimeoutCert} (h : N.Lapsed k q tc)
    (hk : k < k + 1) (hlt : q.voteInfo.round < k) :
    Warrants (k + 1) q (justifyingTC q.voteInfo.round (k + 1) (some tc)) := by
  rw [justifyingTC, if_neg (succ_ne_succ hlt)]
  exact .inr ⟨tc, rfl, by rw [h.round], by rw [h.round]; exact hk, h.reports⟩

namespace Net.Poised

variable {N : Net} {k : UInt64} {q hc : QuorumCert} {heard : List TimeoutMsg} {p p' : Pacemaker} {s s' : Safety}
  {env : Env} {i j : UInt32} {t : BlockTree} {m : TimeoutMsg}

/-- Neither the timer nor a vote makes a difference. -/
theorem congr (h : N.Poised k q heard p s) (hround : p'.currentRound = p.currentRound)
    (htc : p'.lastRoundTC = p.lastRoundTC) (hbucket : ∀ r, k ≤ r → p'.bucket r = p.bucket r)
    (hvoted : s'.highestVoteRound ≤ k) (hqcs : s'.highestQCRound ≤ q.voteInfo.round) : N.Poised k q heard p' s' :=
  ⟨hround.trans h.round, by rw [htc]; exact h.entered, by rw [htc]; exact h.late, by rw [htc]; exact h.tc, hvoted, hqcs,
    (hbucket k UInt64.le_rfl).trans h.bucket, fun r hr => (hbucket r (UInt64.le_of_lt hr)).trans (h.quiet r hr),
    h.reports, h.once⟩

/-- **The round is left**, on a certificate `q'` or on a TC: nothing of the next is on file. -/
theorem next (h : N.Poised k q heard p s) (hk : k < k + 1) {q' : QuorumCert} {tc : Option TimeoutCert}
    (hqcs : s.highestQCRound ≤ q'.voteInfo.round)
    (hentered : q'.voteInfo.round + 1 = k + 1 ∨ ∃ t, tc = some t ∧ t.round + 1 = k + 1)
    (hlate : ∀ t, tc = some t → t.round < k + 1) (htc : N.verifier.verifyTC tc = true) :
    N.Poised (k + 1) q' [] ({ p with lastRoundTC := tc }.startTimer (k + 1)) s := by
  have hbucket : ∀ r, k + 1 ≤ r → ({ p with lastRoundTC := tc }.startTimer (k + 1)).bucket r = ⟨[], []⟩ := by
    intro r hr
    refine (Pacemaker.bucket_startTimer _ _ _).trans ?_
    rw [if_neg (UInt64.not_lt.2 hr)]
    exact h.quiet r (UInt64.lt_of_lt_of_le hk hr)
  exact ⟨rfl, hentered, hlate, htc, UInt64.le_trans h.voted (UInt64.le_of_lt hk), hqcs, hbucket _ UInt64.le_rfl,
    fun r hr => hbucket r (UInt64.le_of_lt hr), fun m hm => (by cases hm), List.nodup_nil⟩

/-- **A replica that gives up on its round** signs a timeout over its highest certificate, and is otherwise as it was.
-/
theorem localTimeoutRound (h : N.Poised k q heard p s) (hq : N.verifier.verifyQC (some q) = true)
    (hlt : q.voteInfo.round < k) (hhigh : t.highQC = q) (hcommit : t.highCommitQC = hc)
    (hsign : ∀ d, (env.sign d).isSome = true) :
    N.Poised k q heard (p.localTimeoutRound N.verifier env i t s).1 (p.localTimeoutRound N.verifier env i t s).2.1 ∧
      ∃ m, (p.localTimeoutRound N.verifier env i t s).2.2 = some m ∧ m.For k q hc i := by
  have hsafe : s.safeToTimeout k (qcRound (some q)) p.lastRoundTC = true :=
    (s.safeToTimeout_iff _ _ _).2 ⟨h.qcs, h.voted, hlt, h.entered⟩
  obtain ⟨info, hinfo⟩ := Safety.makeTimeout_isSome i hsign hq h.tc hsafe
  have hout := (s.makeTimeout_spec N.verifier env i k (some q) p.lastRoundTC).2 info hinfo
  have heq : p.localTimeoutRound N.verifier env i t s =
      (p.startTimer k, (s.makeTimeout N.verifier env i k (some q) p.lastRoundTC).1,
        some (Pacemaker.timeoutMsg t p.lastRoundTC info)) := by
    rw [Pacemaker.localTimeoutRound, h.round, hhigh]
    dsimp only [Pacemaker.startTimer, Pacemaker.stop]
    rw [hinfo]
    rfl
  rw [heq]
  refine ⟨h.congr h.round.symm rfl (fun r hr => ?_) ?_ ?_, _, rfl, ?_⟩
  · rw [Pacemaker.bucket_startTimer, if_neg (UInt64.not_lt.2 hr)]
  · rw [hout.voted]
    exact UInt64.le_rfl
  · rw [hout.qc]
    exact h.qcs
  · exact ⟨hout.info.1, hout.info.2, congrArg some hcommit, justifyingTC_late h.late, hout.sender.1⟩

theorem stop (h : N.Poised k q heard p s) :
    N.Poised k q heard p.stop s := h.congr rfl rfl (fun _ _ => rfl) h.voted h.qcs

/-- A timeout of a sender not heard yet is filed. -/
theorem file (h : N.Poised k q heard p s) (hm : N.Admits (.timeout m)) (hfor : m.For k q hc j)
    (hnew : j ∉ heard.map (fun m => m.tmoInfo.sender)) : N.Poised k q (heard ++ [m]) (p.file m.tmoInfo) s := by
  refine ⟨h.round, h.entered, h.late, h.tc, h.voted, h.qcs, ?_, fun r hr => ?_, fun m' hm' => ?_, ?_⟩
  · rw [Pacemaker.bucket_file, if_pos hfor.round.symm, h.bucket, List.map_append, List.map_append, List.reverse_append]
    rfl
  · rw [Pacemaker.bucket_file, if_neg (by rw [hfor.round]; exact (UInt64.ne_of_lt hr).symm)]
    exact h.quiet r hr
  · rcases List.mem_append.1 hm' with hm' | hm'
    · exact h.reports m' hm'
    · rw [List.mem_singleton.1 hm']
      exact ⟨hm, hfor.round, hfor.highQc⟩
  · rw [List.map_append, List.nodup_append]
    refine ⟨h.once, List.nodup_singleton _, fun a ha b hb => ?_⟩
    rw [List.mem_singleton.1 hb]
    rintro rfl
    exact hnew (hfor.sender ▸ ha)

/-- **A quorum of them makes a certificate of the round.** -/
theorem lapsed (h : N.Poised k q heard p s) (hlt : q.voteInfo.round < k) (hlen : heard.length = N.verifier.quorum) :
    N.Lapsed k q (Pacemaker.assembleTC k (heard.map TimeoutMsg.tmoInfo)) := by
  have hk : k ≠ 0 := UInt64.pos_iff_ne_zero.1 (UInt64.lt_of_le_of_lt UInt64.zero_le hlt)
  refine ⟨Pacemaker.verifyTC_assembleTC hk (fun x hx => ?_) ?_ ?_, rfl, maxHighQCRound_le (fun v hv => ?_)⟩
  · obtain ⟨m, hm, rfl⟩ := List.mem_map.1 hx
    obtain ⟨⟨hver, -⟩, hround, -⟩ := h.reports m hm
    obtain ⟨-, hsigner, hsig, -⟩ := (N.verifier.verifyTimeout_iff m).1 hver
    rw [hround] at hsig
    exact ⟨hsigner, hsig⟩
  · rw [List.map_map]
    exact h.once
  · rw [List.length_map, hlen]
  · obtain ⟨x, hx, rfl⟩ := Pacemaker.mem_assembleTC hv
    obtain ⟨m, hm, rfl⟩ := List.mem_map.1 hx
    rw [(h.reports m hm).2.2]
    exact UInt64.le_rfl

/-- **A timeout heard**: it is filed, f+1 are answered by the replica's own, and a quorum makes the certificate. -/
theorem remote (h : N.Poised k q heard p s) (hq : N.verifier.verifyQC (some q) = true) (hlt : q.voteInfo.round < k)
    (hhigh : t.highQC = q) (hcommit : t.highCommitQC = hc) (hsign : ∀ d, (env.sign d).isSome = true)
    (hm : N.Admits (.timeout m)) (hfor : m.For k q hc j) (hnew : j ∉ heard.map (fun m => m.tmoInfo.sender)) {f : Nat}
    {out : Option TimeoutMsg} {tc : Option TimeoutCert}
    (hp : p.processRemoteTimeout N.verifier env i f t s m = (p', s', out, tc)) :
    N.Poised k q (heard ++ [m]) p' s' ∧ (∀ m', out = some m' → m'.For k q hc i) ∧
      tc = if heard.length + 1 = N.verifier.quorum then
        some (Pacemaker.assembleTC k ((heard ++ [m]).map TimeoutMsg.tmoInfo)) else none := by
  have hlate : ¬ m.tmoInfo.round < p.currentRound := by
    rw [hfor.round, h.round]
    exact UInt64.lt_irrefl _
  have hsender : m.tmoInfo.sender ∉ (p.bucket m.tmoInfo.round).senders := by
    rw [hfor.round, hfor.sender, h.bucket]
    exact fun hmem => hnew (List.mem_reverse.1 hmem)
  have hfiled := h.file hm hfor hnew
  rw [Pacemaker.processRemoteTimeout_file hlate hsender, hfor.round, hfiled.bucket] at hp
  simp only [List.length_reverse, List.length_map, List.length_append, List.length_singleton, Prod.mk.injEq] at hp
  obtain ⟨rfl, rfl, rfl, rfl⟩ := hp
  refine ⟨?_, ?_, rfl⟩
  all_goals by_cases hf : heard.length + 1 = f + 1
  · rw [if_pos hf]
    exact (hfiled.stop.localTimeoutRound hq hlt hhigh hcommit hsign).1
  · rw [if_neg hf]
    exact hfiled
  · rw [if_pos hf]
    obtain ⟨-, m', hm', hfor'⟩ := hfiled.stop.localTimeoutRound (i := i) hq hlt hhigh hcommit hsign
    intro m'' hm''
    cases hm'.symm.trans hm''
    exact hfor'
  · rw [if_neg hf]
    intro m' hm'
    cases hm'

end Net.Poised

/-! ## The steps of a core -/

/-- The election by the certificate `q` has been held, or none is due. -/
def Net.Elected (N : Net) (cfg : Config) (l : MemLedger) (k : UInt64) (q : QuorumCert) (roll : UInt64 → Option UInt32) :
    Prop := ∀ roll', LeaderElection.Elects N.crypto cfg l k q roll roll' → roll' = roll

section

variable {N : Net} {k : UInt64} {q hc : QuorumCert} {l : MemLedger} {roll : UInt64 → Option UInt32} {seen : List UInt32}
  {heard : List TimeoutMsg} {c c' : Core} {i j : UInt32} {env : Env} {eff : List Effect} {chain : List Speculated}
  {m : TimeoutMsg}

theorem Core.Kept.poised (h : c.Kept c') (hpoised : N.Poised k q heard c.pacemaker c.safety) :
    N.Poised k q heard c'.pacemaker c'.safety := by
  rw [h.1, h.2]
  exact hpoised

theorem Core.Moved.poised (h : c.Moved k c') (hpoised : N.Poised k q heard c.pacemaker c.safety) (hk : k < k + 1)
    (hlt : q.voteInfo.round < k) {q' : QuorumCert} (hq' : q'.voteInfo.round = k) :
    N.Poised (k + 1) q' [] c'.pacemaker c'.safety := by
  rw [h.1, h.2]
  refine hpoised.next hk ?_ (.inl (by rw [hq'])) (fun t ht => (by cases ht)) rfl
  rw [hq']
  exact UInt64.le_trans hpoised.qcs (UInt64.le_of_lt hlt)

namespace Net.Level

/-- The next round is entered without a certificate. -/
theorem next (h : N.Level k q hc l roll seen c) (hk : k < k + 1) (htree : c'.tree = c.tree)
    (hledger : c'.ledger = c.ledger) (hleaders : c'.leaders = c.leaders) (hround : c'.pacemaker.currentRound = k + 1) :
    N.Level (k + 1) q hc l roll [] c' := by
  refine ⟨hledger.trans h.ledger, by rw [hleaders]; exact h.validators, by rw [hleaders]; exact h.roll, hround,
    by rw [htree]; exact h.highQC, by rw [htree]; exact h.highCommitQC, by rw [htree]; exact h.buckets,
    fun vk hvk => ?_⟩
  rw [htree] at hvk
  rcases h.slots vk hvk with hlt | ⟨heq, -⟩
  · exact .inl (UInt64.lt_trans hlt hk)
  · exact .inl (heq ▸ hk)

/-- **The timer of the round fires**: the timeout goes out. -/
theorem fire (h : N.Level k q hc l roll seen c) (hpoised : N.Poised k q heard c.pacemaker c.safety)
    (hready : N.Ready k q hc chain l) (hq : N.verifier.verifyQC (some q) = true)
    (hsign : ∀ d, (env.sign d).isSome = true)
    (hs : c.step N.crypto (N.config i) env (.localTimeout c.pacemaker.epoch) = .ok (c', eff)) :
    N.Level k q hc l roll seen c' ∧ N.Poised k q heard c'.pacemaker c'.safety ∧
      ∃ m, m.For k q hc i ∧ eff = [.timeout m] := by
  rw [Core.step, if_pos rfl, Core.localTimeoutRound, N.verifier_eq, N.id_eq] at hs
  obtain ⟨hpoised', m, hm, hfor⟩ :=
    hpoised.localTimeoutRound (i := i) hq hready.highQC.lt h.highQC h.highCommitQC hsign
  cases hs
  refine ⟨h.congr rfl rfl rfl (hpoised'.round.trans h.round.symm), hpoised', m, hfor, ?_⟩
  rw [hm]
  rfl

/-- **A timeout of the round is heard.**  At the last that was missing the certificate is put together, and the next
round is entered with it. -/
theorem timeout (h : N.Level k q hc l roll seen c) (hpoised : N.Poised k q heard c.pacemaker c.safety)
    (hready : N.Ready k q hc chain l) (helected : N.Elected (N.config i) l k q roll)
    (hq : N.verifier.verifyQC (some q) = true) (hk : k < k + 1) (hm : N.Admits (.timeout m)) (hfor : m.For k q hc j)
    (hnew : j ∉ heard.map (fun m => m.tmoInfo.sender)) (hsign : ∀ d, (env.sign d).isSome = true)
    (hs : c.step N.crypto (N.config i) env (.timeout m) = .ok (c', eff)) :
    ∃ outs : List TimeoutMsg, (∀ m ∈ outs, m.For k q hc i) ∧
      ((heard.length + 1 ≠ N.verifier.quorum ∧ N.Level k q hc l roll seen c' ∧
          N.Poised k q (heard ++ [m]) c'.pacemaker c'.safety ∧ eff = outs.map Effect.timeout) ∨
        (heard.length + 1 = N.verifier.quorum ∧ N.Level (k + 1) q hc l roll [] c' ∧
          N.Poised (k + 1) q [] c'.pacemaker c'.safety ∧ c'.safety.highestVoteRound < k + 1 ∧ ∃ tc, N.Lapsed k q tc ∧
          eff = outs.map Effect.timeout ++ Core.processNewRoundEvent N.crypto (N.config i) env c' (some tc))) := by
  obtain ⟨c₁, eff₁, p, s, out, tc, h₁, h₂, hend⟩ := Core.processTimeoutMsg_ok hs
  rw [hfor.highQc, hfor.highCommitQc] at h₁
  obtain ⟨roll', helects, hlevel, hkept, rfl⟩ := h.certificates_again hready hfor.lastRoundTc h₁
  cases helected roll' helects
  rw [N.verifier_eq, N.id_eq] at h₂
  obtain ⟨hpoised', hout, htc⟩ :=
    (hkept.poised hpoised).remote hq hready.highQC.lt hlevel.highQC hlevel.highCommitQC hsign hm hfor
    hnew h₂
  refine ⟨out.toList, fun m' hm' => hout m' (Option.mem_toList.1 hm'), ?_⟩
  rcases hend with ⟨rfl, rfl, rfl⟩ | ⟨t, rfl, -, -, rfl, rfl⟩
  · have hfew : heard.length + 1 ≠ N.verifier.quorum := fun hlen => by
      rw [if_pos hlen] at htc
      cases htc
    exact .inl ⟨hfew, hlevel.congr rfl rfl rfl (hpoised'.round.trans hlevel.round.symm), hpoised', rfl⟩
  · have hlen : heard.length + 1 = N.verifier.quorum := by
      by_contra hfew
      rw [if_neg hfew] at htc
      cases htc
    rw [if_pos hlen] at htc
    cases htc
    have hlapsed := hpoised'.lapsed hready.highQC.lt (by rw [List.length_append]; exact hlen)
    generalize Pacemaker.assembleTC k ((heard ++ [m]).map TimeoutMsg.tmoInfo) = tc at hlapsed ⊢
    have hpace : p.advanceRoundTC (some tc) = ({ p with lastRoundTC := some tc }.startTimer (k + 1), true) := by
      rw [Pacemaker.advanceRoundTC_eq, hlapsed.round, hpoised'.round, if_neg (UInt64.lt_irrefl k)]
    refine .inr ⟨hlen, hlevel.next hk rfl rfl rfl (by rw [hpace]; rfl), ?_, UInt64.lt_of_le_of_lt hpoised'.voted hk, tc,
      hlapsed, rfl⟩
    rw [hpace]
    refine hpoised'.next hk hpoised'.qcs (.inr ⟨tc, rfl, by rw [hlapsed.round]⟩) (fun t ht => ?_) hlapsed.verified
    cases ht
    rw [hlapsed.round]
    exact hk

/-- And the step returns. -/
theorem timeout_returns (h : N.Level k q hc l roll seen c) (hready : N.Ready k q hc chain l) (hfor : m.For k q hc j)
    (hfuel : k.toNat ≤ env.fuel) : ∃ r, c.step N.crypto (N.config i) env (.timeout m) = .ok r := by
  obtain ⟨⟨c₁, out⟩, h₁⟩ := h.certificates_again_returns (i := i) hready m.lastRoundTc hfuel
  rw [Core.step, Core.processTimeoutMsg, hfor.highQc, hfor.highCommitQc, h₁]
  dsimp only
  split
  · exact ⟨_, rfl⟩
  · exact ⟨_, rfl⟩

/-- **The timeouts of a quorum, in any order**: the next round is entered at the last of them, and whoever leads it
proposes. -/
theorem lapse (hready : N.Ready k q hc chain l) (helected : N.Elected (N.config i) l k q roll)
    (hq : N.verifier.verifyQC (some q) = true) (hk : k < k + 1) :
    ∀ {ms heard : List TimeoutMsg} {c c' : Core} {eff : List Effect}, N.Level k q hc l roll seen c →
      N.Poised k q heard c.pacemaker c.safety → (∀ m ∈ ms, m.For k q hc m.tmoInfo.sender) →
      ((heard ++ ms).map (fun m => m.tmoInfo.sender)).Nodup → ms ≠ [] →
      heard.length + ms.length = N.verifier.quorum → N.Hears i (ms.map Event.timeout) c c' eff →
      N.Level (k + 1) q hc l roll [] c' ∧ N.Poised (k + 1) q [] c'.pacemaker c'.safety ∧
        c'.safety.highestVoteRound < k + 1 ∧
        ∃ (outs : List TimeoutMsg) (ps : List ProposalMsg), (∀ m ∈ outs, m.For k q hc i) ∧
          (∀ p ∈ ps, N.leads roll (k + 1) = i ∧ ∃ b, p.Over (k + 1) q hc i b) ∧ (N.leads roll (k + 1) = i → ps ≠ []) ∧
          eff = outs.map Effect.timeout ++ ps.map Effect.proposal := by
  intro ms
  induction ms with
  | nil => exact fun _ _ _ _ hne => absurd rfl hne
  | cons m ms ih =>
    intro heard c c' eff h hpoised hfor hnodup _ hlen hears
    rw [List.map_cons] at hears
    rcases hears with _ | ⟨⟨hm, env, hsign, hs⟩, hrest⟩
    have hsplit : heard ++ m :: ms = (heard ++ [m]) ++ ms := by simp
    have hnew : m.tmoInfo.sender ∉ heard.map (fun m => m.tmoInfo.sender) := by
      rw [List.map_append, List.nodup_append] at hnodup
      exact fun hmem => hnodup.2.2 _ hmem _ List.mem_cons_self rfl
    obtain ⟨outs, houts, hstep⟩ :=
      h.timeout hpoised hready helected hq hk hm (hfor m List.mem_cons_self) hnew hsign hs
    rw [List.length_cons] at hlen
    rcases hstep with ⟨hfew, hlevel, hpoised', rfl⟩ | ⟨hlast, hlevel, hpoised', hvoted, tc, hlapsed, rfl⟩
    · have hne : ms ≠ [] := by
        rintro rfl
        exact hfew hlen
      rw [hsplit] at hnodup
      obtain ⟨hlevel', hpoised'', hvoted, outs', ps, houts', hps, hlead, rfl⟩ :=
        ih hlevel hpoised' (fun m' hm' => hfor m' (List.mem_cons_of_mem _ hm')) hnodup hne
          (by rw [List.length_append, List.length_singleton]; omega) hrest
      refine ⟨hlevel', hpoised'', hvoted, outs ++ outs', ps, fun m' hm' => ?_, hps, hlead, ?_⟩
      · exact (List.mem_append.1 hm').elim (houts m') (houts' m')
      · rw [List.map_append, List.append_assoc]
    · -- the last of them
      have hnil : ms = [] := List.length_eq_zero_iff.1 (by omega)
      subst hnil
      cases hrest
      rcases hlevel.proposes (i := i) (hlapsed.warrants hk hready.highQC.lt) hsign with
        ⟨hno, heq⟩ | ⟨hlead, b, p, hp, heq⟩
      · refine ⟨hlevel, hpoised', hvoted, outs, [], houts, fun p hp => (by cases hp), fun hlead => absurd hlead hno, ?_⟩
        rw [heq, List.append_nil, List.map_nil]
      · refine ⟨hlevel, hpoised', hvoted, outs, [p], houts, fun p' hp' => ?_, fun _ => List.cons_ne_nil _ _, ?_⟩
        · rw [List.mem_singleton.1 hp']
          exact ⟨hlead, b, hp⟩
        · rw [heq, List.append_nil, List.map_singleton]

/-- And every step returns. -/
theorem lapse_returns (hready : N.Ready k q hc chain l) (helected : N.Elected (N.config i) l k q roll)
    (hq : N.verifier.verifyQC (some q) = true) (hk : k < k + 1) (hsign : ∀ d, (env.sign d).isSome = true)
    (hfuel : k.toNat ≤ env.fuel) :
    ∀ {ms heard : List TimeoutMsg} {c : Core}, N.Level k q hc l roll seen c →
      N.Poised k q heard c.pacemaker c.safety → (∀ m ∈ ms, N.Admits (.timeout m) ∧ m.For k q hc m.tmoInfo.sender) →
      ((heard ++ ms).map (fun m => m.tmoInfo.sender)).Nodup → heard.length + ms.length ≤ N.verifier.quorum →
      ∃ c' eff, Core.steps N.crypto (N.config i) env (ms.map Event.timeout) c = some (c', eff) := by
  intro ms
  induction ms with
  | nil => exact fun _ _ _ _ _ => ⟨_, _, rfl⟩
  | cons m ms ih =>
    intro heard c h hpoised hfor hnodup hlen
    obtain ⟨hm, hfor₁⟩ := hfor m List.mem_cons_self
    have hsplit : heard ++ m :: ms = (heard ++ [m]) ++ ms := by simp
    have hnew : m.tmoInfo.sender ∉ heard.map (fun m => m.tmoInfo.sender) := by
      rw [List.map_append, List.nodup_append] at hnodup
      exact fun hmem => hnodup.2.2 _ hmem _ List.mem_cons_self rfl
    obtain ⟨⟨c₁, eff₁⟩, hs⟩ := h.timeout_returns (i := i) hready hfor₁ hfuel
    obtain ⟨outs, -, ⟨-, hlevel, hpoised', -⟩ | ⟨hlast, -⟩⟩ :=
      h.timeout hpoised hready helected hq hk hm hfor₁ hnew hsign hs
    · rw [hsplit] at hnodup
      rw [List.length_cons] at hlen
      obtain ⟨c', eff, hrest⟩ := ih hlevel hpoised' (fun m' hm' => hfor m' (List.mem_cons_of_mem _ hm')) hnodup
        (by rw [List.length_append, List.length_singleton]; omega)
      exact ⟨c', _, Core.steps_cons hs hrest⟩
    · rw [List.length_cons] at hlen
      have hnil : ms = [] := List.length_eq_zero_iff.1 (by omega)
      subst hnil
      exact ⟨c₁, _, Core.steps_cons hs rfl⟩

end Net.Level

end

end Diem

import Diem.History
/-!
# Tenure — one leader for as long as a replica is in a round

An election writes the entry of the next round and deletes those of rounds left behind; the entry of the round the
replica is in is never touched.  Certificates are processed several to a message, and the election comes before the
round moves, so the points a step passes are told apart: after each election, and after each move.
-/
namespace Diem

/-- Who would lead, and the round the replica is in. -/
structure Point where
  leaders : LeaderElection
  round   : UInt64

/-- The leader of the round the replica is in. -/
def Point.leader (x : Point) : UInt32 := x.leaders.getLeader x.round

/-- Nothing is known of rounds after the next. -/
def Point.Bounded (x : Point) : Prop :=
  ∀ r id, x.leaders.reputationLeaders.lookup r = some id → r.toNat ≤ x.round.toNat + 1

/-- **From one point to a later one**: the round does not fall, and while it stays its leader does. -/
structure Point.Onward (x y : Point) : Prop where
  round   : x.round ≤ y.round
  leader  : x.round = y.round → x.leader = y.leader
  bounded : x.Bounded → y.Bounded

namespace Point.Onward

theorem refl (x : Point) : x.Onward x := ⟨UInt64.le_refl _, fun _ => rfl, fun h => h⟩

theorem trans {x y z : Point} (h : x.Onward y) (h' : y.Onward z) : x.Onward z := by
  refine ⟨UInt64.le_trans h.round h'.round, fun heq => ?_, fun hb => h'.bounded (h.bounded hb)⟩
  have hxy : x.round = y.round := UInt64.le_antisymm h.round (heq ▸ h'.round)
  exact (h.leader hxy).trans (h'.leader (hxy.symm.trans heq))

/-- The round moves up, and the election is left alone. -/
theorem move (e : LeaderElection) {r r' : UInt64} (h : r ≤ r') : Point.Onward ⟨e, r⟩ ⟨e, r'⟩ := by
  refine ⟨h, fun heq => ?_, fun hb k id hk => ?_⟩
  · obtain rfl : r = r' := heq
    rfl
  · have hle : k.toNat ≤ r.toNat + 1 := hb k id hk
    rw [UInt64.le_iff_toNat_le] at h
    exact hle.trans (Nat.add_le_add_right h 1)

end Point.Onward

namespace LeaderElection

variable {cr : Crypto} {cfg : Config} {fuel : Nat} {l : MemLedger} {round : UInt64} {e e' : LeaderElection}
  {qc : QuorumCert}

theorem succ_ne (r : UInt64) : r ≠ r + 1 := by
  intro h
  have hr : r.toNat = (r.toNat + 1) % 2 ^ 64 := by
    have := congrArg UInt64.toNat h
    rwa [UInt64.toNat_add] at this
  have hlt := r.toNat_lt
  omega

/-- **An election leaves the leader of the current round alone.** -/
theorem updateLeaders_onward (h : e.updateLeaders cr cfg fuel l round qc = .ok e') :
    Point.Onward ⟨e, round⟩ ⟨e', round⟩ := by
  rcases updateLeaders_ok h with ⟨-, rfl⟩ | ⟨-, -, elected, hel, rfl⟩
  · exact .refl _
  have hlook : elected.lookup round = e.reputationLeaders.lookup round := by
    rcases hel with ⟨-, rfl⟩ | ⟨id, -, rfl⟩
    · rfl
    · exact AList.lookup_insert_ne (succ_ne round)
  refine ⟨UInt64.le_refl _, fun _ => ?_, fun hb r id hr => ?_⟩
  · have hkept : (elected.filter (fun r _ => !decide (r < round))).lookup round = e.reputationLeaders.lookup round := by
      rw [Table.lookup_filter, hlook]
      cases e.reputationLeaders.lookup round <;> simp [Option.filter]
    simp only [Point.leader, getLeader, hkept]
  · dsimp only at hr
    rw [Table.lookup_filter, Option.filter_eq_some_iff] at hr
    rcases hel with ⟨-, rfl⟩ | ⟨a, -, rfl⟩
    · exact hb r id hr.1
    · by_cases hk : r = round + 1
      · rw [hk, UInt64.toNat_add]
        exact Nat.mod_le _ _
      · exact hb r id ((AList.lookup_insert_ne hk).symm.trans hr.1)

/-- **After an election two rounds are left**: the current one and the next. -/
theorem updateLeaders_two (hb : Point.Bounded ⟨e, round⟩) (hdue : qc.voteInfo.parentRound + 1 = qc.voteInfo.round)
    (hcur : qc.voteInfo.round + 1 = round) (h : e.updateLeaders cr cfg fuel l round qc = .ok e') :
    e'.reputationLeaders.entries.length ≤ 2 := by
  have hrange : ∀ r ∈ e'.reputationLeaders.keys, r.toNat ∈ [round.toNat, round.toNat + 1] := by
    intro r hr
    obtain ⟨id, hid⟩ := Option.isSome_iff_exists.1 (AList.lookup_isSome.2 hr)
    have hle : r.toNat ≤ round.toNat + 1 := (updateLeaders_onward h).bounded hb r id hid
    have hge : round.toNat ≤ r.toNat := by
      rcases updateLeaders_ok h with ⟨hguard, -⟩ | ⟨-, -, elected, -, rfl⟩
      · exact absurd hguard (by simp [hdue, hcur])
      · dsimp only at hid
        rw [Table.lookup_filter, Option.filter_eq_some_iff] at hid
        have hnot : ¬ r < round := by simpa using hid.2
        rw [UInt64.lt_iff_toNat_lt] at hnot
        omega
    simp only [List.mem_cons, List.not_mem_nil, or_false]
    omega
  exact Table.length_le UInt64.toNat (fun r _ r' _ heq => UInt64.toNat_inj.1 heq) hrange

end LeaderElection

/-! ## The points of a step -/

namespace Core

open Pacemaker (Op)

section

variable (cr : Crypto) (cfg : Config) (env : Env)

def point (c : Core) : Point := ⟨c.leaders, c.pacemaker.currentRound⟩

/-- A certificate: its election in the old round, and the new round. -/
def certificatePoints (c : Core) (qc : Option QuorumCert) : List Point :=
  match processCertificateQC cr cfg env c qc with
  | .error _          => []
  | .ok ((c', _), _) => [⟨c'.leaders, c.pacemaker.currentRound⟩, c'.point]

/-- The certificates of a message, one after the other, and then the TC. -/
def certificatesPoints (c : Core) (qc highCommitQc : Option QuorumCert) (tc : Option TimeoutCert) : List Point :=
  certificatePoints cr cfg env c qc ++
    match processCertificateQC cr cfg env c qc with
    | .error _          => []
    | .ok ((c₁, _), _) => certificatePoints cr cfg env c₁ highCommitQc ++
        match processCertificateQC cr cfg env c₁ highCommitQc with
        | .error _          => []
        | .ok ((c₂, _), _) => [⟨c₂.leaders, (c₂.pacemaker.advanceRoundTC tc).1.currentRound⟩]

/-- What a step passes on its way. -/
def innerPoints (c : Core) : Event → List Point
  | .proposal p     => certificatesPoints cr cfg env c (p.block.getD default).qc p.highCommitQc p.lastRoundTc
  | .vote m         =>
    if c.pacemaker.currentRound + maxRoundLead < m.voteInfo.round ∨ m.voteInfo.round + 1 < c.pacemaker.currentRound then
      []
    else match BlockTree.processVote cr cfg.history env cfg.id cfg.quorum c.ledger c.tree m with
      | .error _               => []
      | .ok (_, _, _, none)    => []
      | .ok (l, t, _, some qc) => certificatePoints cr cfg env { c with ledger := l, tree := t } (some qc)
  | .timeout m      => certificatesPoints cr cfg env c m.tmoInfo.highQc m.highCommitQc m.lastRoundTc
  | .localTimeout _ => []
  | .block _        => []
  | .blockRequest _ => []

end

variable {cr : Crypto} {cfg : Config} {env : Env}

/-- **From `x` to `y` by way of `xs`**, each point onward from all before it. -/
structure Leads (x : Point) (xs : List Point) (y : Point) : Prop where
  ends  : x.Onward y
  start : ∀ p ∈ xs, x.Onward p
  among : xs.Pairwise Point.Onward
  stop  : ∀ p ∈ xs, p.Onward y

namespace Leads

theorem direct {x y : Point} (h : x.Onward y) : Leads x [] y :=
  ⟨h, fun p hp => (by cases hp), List.Pairwise.nil, fun p hp => (by cases hp)⟩

theorem single {x p y : Point} (h : x.Onward p) (h' : p.Onward y) : Leads x [p] y :=
  ⟨h.trans h', fun _ hq => List.mem_singleton.1 hq ▸ h, List.pairwise_singleton _ _, fun _ hq =>
    List.mem_singleton.1 hq ▸ h'⟩

theorem append {x y z : Point} {xs ys : List Point} (h : Leads x xs y) (h' : Leads y ys z) : Leads x (xs ++ ys) z := by
  refine ⟨h.ends.trans h'.ends, fun p hp => ?_, ?_, fun p hp => ?_⟩
  · rcases List.mem_append.1 hp with hp | hp
    · exact h.start p hp
    · exact h.ends.trans (h'.start p hp)
  · exact List.pairwise_append.2 ⟨h.among, h'.among, fun p hp q hq => (h.stop p hp).trans (h'.start q hq)⟩
  · rcases List.mem_append.1 hp with hp | hp
    · exact (h.stop p hp).trans h'.ends
    · exact h'.stop p hp

end Leads

/-- **A certificate**: the election leaves the current leader alone, and then the round moves up. -/
theorem certificatePoints_leads {c c' : Core} {qc : Option QuorumCert} {moved : Bool} {eff : List Effect}
    (hops : ∀ op ∈ qc.toList.map Op.advanceRoundQC, OpUnwrapped op)
    (h : processCertificateQC cr cfg env c qc = .ok ((c', moved), eff)) :
    Leads c.point (certificatePoints cr cfg env c qc) c'.point := by
  have hpoints : certificatePoints cr cfg env c qc = [⟨c'.leaders, c.pacemaker.currentRound⟩] ++ [c'.point] := by
    simp only [certificatePoints, h, List.singleton_append]
  have hmono : c.pacemaker.currentRound ≤ c'.pacemaker.currentRound := by
    rw [processCertificateQC_performs h]
    exact performs_mono hops
  have helect : c.point.Onward ⟨c'.leaders, c.pacemaker.currentRound⟩ := by
    cases qc with
    | none =>
      cases h
      exact .refl _
    | some q =>
      obtain ⟨l, t, bs, e, -, hel, rfl, -, -⟩ := processCertificateQC_ok h
      exact LeaderElection.updateLeaders_onward hel
  rw [hpoints]
  exact (Leads.single helect (.move _ hmono)).append (.single (.refl _) (.refl _))

theorem certificatesPoints_leads {c c' : Core} {qc highCommitQc : Option QuorumCert} {tc : Option TimeoutCert}
    {eff : List Effect} (hops : ∀ op ∈ certificateOps qc highCommitQc tc, OpUnwrapped op)
    (h : processCertificates cr cfg env c qc highCommitQc tc = .ok (c', eff)) :
    Leads c.point (certificatesPoints cr cfg env c qc highCommitQc tc) c'.point ∧
      c'.point ∈ certificatesPoints cr cfg env c qc highCommitQc tc := by
  obtain ⟨c₁, _, eff₁, c₂, _, eff₂, h₁, h₂, rfl, -⟩ := processCertificates_ok h
  simp only [certificateOps, List.forall_mem_append] at hops
  have htc : c₂.pacemaker.currentRound ≤ (c₂.pacemaker.advanceRoundTC tc).1.currentRound := by
    cases tc with
    | none => exact UInt64.le_refl _
    | some t => exact perform_mono (hops.2 _ (List.mem_singleton.2 rfl))
  simp only [certificatesPoints, h₁, h₂]
  refine ⟨(certificatePoints_leads hops.1.1 h₁).append
    ((certificatePoints_leads hops.1.2 h₂).append ?_), by simp [point]⟩
  exact .single (.move _ htc) (.refl _)

/-- **A step passes points each onward from those before.** -/
theorem step_leads {c c' : Core} {e : Event} {eff : List Effect} (hrise : c.Rising cr cfg env e)
    (h : c.step cr cfg env e = .ok (c', eff)) : Leads c.point (innerPoints cr cfg env c e) c'.point := by
  rw [Rising] at hrise
  cases e with
  | proposal p =>
    obtain ⟨c₁, eff₁, h₁, hend⟩ := processProposalMsg_cases h
    have hleads := (certificatesPoints_leads hrise h₁).1
    rcases hend with ⟨-, rfl, -⟩ | ⟨-, -, -, c₂, eff₂, hins, rfl, -⟩
    · exact hleads
    · obtain ⟨rfl, -⟩ := insert_ok hins
      exact hleads
  | vote m =>
    rcases processVoteMsg_ok h with ⟨hwin, rfl, -⟩ | ⟨hwin, l, t, bs, hp, hend⟩
    · rw [innerPoints, if_pos (not_not.1 hwin)]
      exact .direct (.refl _)
    · rw [ops, if_neg hwin] at hrise
      rw [innerPoints, if_neg hwin]
      rcases hend with ⟨t', ha, rfl, -⟩ | ⟨t', q, moved, eff', ha, hq, -⟩
      · rw [processVote_of_accumulate hp ha]
        exact .direct (.refl _)
      · rw [processVote_of_accumulate hp ha] at hrise ⊢
        exact certificatePoints_leads hrise hq
  | timeout m =>
    obtain ⟨c₁, eff₁, p, s, out, tc, h₁, h₂, hend⟩ := processTimeoutMsg_ok h
    simp only [ops, h₁, h₂] at hrise
    have hleads := (certificatesPoints_leads (fun op hop => hrise op (List.mem_append_left _ hop)) h₁).1
    have hremote : c₁.pacemaker.currentRound ≤ p.currentRound := by
      rw [Pacemaker.processRemoteTimeout_performs h₂]
      exact performs_mono (fun op hop => hrise op (List.mem_append_right _ (List.mem_append_left _ hop)))
    rw [innerPoints, ← List.append_nil (certificatesPoints _ _ _ _ _ _ _)]
    refine hleads.append (.direct ?_)
    rcases hend with ⟨rfl, rfl, -⟩ | ⟨t, rfl, -, -, rfl, -⟩
    · exact .move _ hremote
    · refine .move _ (UInt64.le_trans hremote (perform_mono (hrise (.advanceRoundTC t) ?_)))
      exact List.mem_append_right _ (List.mem_append_right _ (List.mem_singleton.2 rfl))
  | localTimeout epoch =>
    rw [step] at h
    split at h
    · cases h
      exact .direct (.refl _)
    · cases h
      exact .direct (.refl _)
  | block b =>
    obtain ⟨rfl, -⟩ := insert_ok h
    exact .direct (.refl _)
  | blockRequest id =>
    cases h
    exact .direct (.refl _)

end Core

/-! ## In a history -/

namespace Turn

variable (cr : Crypto) (cfg : Config)

/-- All that a turn passes, from the core that met the event on. -/
def points (t : Turn) : List Point := t.core.point :: t.core.innerPoints cr cfg t.env t.event

/-- The block `processProposalMsg` inserts. -/
def inserted (t : Turn) : Option Block :=
  match t.event with
  | .proposal p     =>
    match t.core.processCertificates cr cfg t.env (p.block.getD default).qc p.highCommitQc p.lastRoundTc with
    | .error _   => none
    | .ok (c, _) =>
      if (p.block.getD default).round ≠ c.pacemaker.currentRound ∨
          p.sender ≠ c.leaders.getLeader c.pacemaker.currentRound ∨
          (p.block.getD default).author ≠ c.leaders.getLeader c.pacemaker.currentRound then none
      else some (p.block.getD default)
  | .vote _         => none
  | .timeout _      => none
  | .localTimeout _ => none
  | .block _        => none
  | .blockRequest _ => none

/-- **What a turn on a proposal does with its block**, once the certificates are processed: it is turned away, or
`insert` is called with it, and the ledger and the tree are those `insert` leaves. -/
def Inserts (t : Turn) : Prop :=
  ∀ p, t.event = .proposal p → ∃ c eff,
    t.core.processCertificates cr cfg t.env (p.block.getD default).qc p.highCommitQc p.lastRoundTc = .ok (c, eff) ∧
    ((t.inserted cr cfg = none ∧ t.next = c) ∨
      ∃ b c' eff', t.inserted cr cfg = some b ∧ p.block.getD default = b ∧
        Core.insert cfg t.env c b = .ok (c', eff') ∧ t.next.ledger = c'.ledger ∧ t.next.tree = c'.tree)

end Turn

namespace Core

variable {cr : Crypto} {cfg : Config} {env : Env}

theorem inserts_of_step {t : Turn} (hs : t.core.step cr cfg t.env t.event = .ok (t.next, t.eff)) :
    t.Inserts cr cfg := by
  intro p hp
  rw [hp] at hs
  obtain ⟨c, eff, h₁, ⟨hother, hnext, -⟩ | ⟨hround, hsender, hauthor, c', eff', hins, hnext, -⟩⟩ :=
    processProposalMsg_cases hs
  · refine ⟨c, eff, h₁, .inl ⟨?_, hnext⟩⟩
    simp only [Turn.inserted, hp, h₁]
    rw [if_pos hother]
  · refine ⟨c, eff, h₁, .inr ⟨_, c', eff', ?_, rfl, hins, ?_, ?_⟩⟩
    · simp only [Turn.inserted, hp, h₁]
      rw [if_neg (by simp [hround, hsender, hauthor])]
    · rw [hnext]
    · rw [hnext]

/-- What is inserted is of the round the replica is in at some point of the turn, and its leader's. -/
theorem inserted_point {c c' : Core} {e : Event} {eff : List Effect} {b : Block} (hrise : c.Rising cr cfg env e)
    (hb : (⟨c, env, e, c', eff⟩ : Turn).inserted cr cfg = some b) :
    ∃ x ∈ (⟨c, env, e, c', eff⟩ : Turn).points cr cfg, b.round = x.round ∧ b.author = x.leader := by
  cases e with
  | proposal p =>
    simp only [Turn.inserted] at hb
    split at hb
    · cases hb
    · rename_i c₁ eff₁ h₁
      split at hb
      · cases hb
      · rename_i hleader
        simp only [not_or, not_not] at hleader
        cases hb
        refine ⟨c₁.point, List.mem_cons_of_mem _ (certificatesPoints_leads ?_ h₁).2, hleader.1, hleader.2.2⟩
        exact hrise
  | _ => cases hb

/-- What a history keeps: every point is onward from all before it, and what was inserted is at one of them. -/
structure TenureInv (cr : Crypto) (cfg : Config) (ts : List Turn) (c : Core) : Prop where
  onward   : (ts.flatMap (Turn.points cr cfg) ++ [c.point]).Pairwise Point.Onward
  bounded  : ∀ x ∈ ts.flatMap (Turn.points cr cfg) ++ [c.point], x.Bounded
  inserted : ∀ t ∈ ts, ∀ b, t.inserted cr cfg = some b →
               ∃ x ∈ ts.flatMap (Turn.points cr cfg), b.round = x.round ∧ b.author = x.leader

theorem TenureInv.step {ts : List Turn} {c c' : Core} {e : Event} {eff : List Effect} (h : TenureInv cr cfg ts c)
    (hrise : c.Rising cr cfg env e) (hs : c.step cr cfg env e = .ok (c', eff)) :
    TenureInv cr cfg (ts ++ [⟨c, env, e, c', eff⟩]) c' := by
  have hleads := step_leads hrise hs
  have hpoints : (ts ++ [(⟨c, env, e, c', eff⟩ : Turn)]).flatMap (Turn.points cr cfg) ++ [c'.point] =
      (ts.flatMap (Turn.points cr cfg) ++ [c.point]) ++ (innerPoints cr cfg env c e ++ [c'.point]) := by
    simp [Turn.points]
  -- from the core that meets the event on, and so from everything before it
  have hfrom : ∀ y ∈ innerPoints cr cfg env c e ++ [c'.point], c.point.Onward y := by
    intro y hy
    rcases List.mem_append.1 hy with hy | hy
    · exact hleads.start y hy
    · rw [List.mem_singleton.1 hy]
      exact hleads.ends
  have hto : ∀ x ∈ ts.flatMap (Turn.points cr cfg) ++ [c.point], x.Onward c.point := by
    intro x hx
    rcases List.mem_append.1 hx with hx | hx
    · exact (List.pairwise_append.1 h.onward).2.2 x hx _ (List.mem_singleton.2 rfl)
    · rw [List.mem_singleton.1 hx]
      exact .refl _
  refine ⟨?_, fun x hx => ?_, fun t ht b hb => ?_⟩
  · rw [hpoints]
    refine List.pairwise_append.2 ⟨h.onward, ?_, fun x hx y hy => (hto x hx).trans (hfrom y hy)⟩
    refine List.pairwise_append.2 ⟨hleads.among, List.pairwise_singleton _ _, fun x hx y hy => ?_⟩
    rw [List.mem_singleton.1 hy]
    exact hleads.stop x hx
  · rw [hpoints] at hx
    rcases List.mem_append.1 hx with hx | hx
    · exact h.bounded x hx
    · exact (hfrom x hx).bounded (h.bounded _ (List.mem_append_right _ (List.mem_singleton.2 rfl)))
  · rw [List.flatMap_append]
    rcases List.mem_append.1 ht with ht | ht
    · obtain ⟨x, hx, hxb⟩ := h.inserted t ht b hb
      exact ⟨x, List.mem_append_left _ hx, hxb⟩
    · rw [List.mem_singleton.1 ht] at hb
      obtain ⟨x, hx, hxb⟩ := inserted_point hrise hb
      exact ⟨x, List.mem_append_right _ (by simpa using hx), hxb⟩

theorem Heard.tenureInv {ts : List Turn} {c : Core} (h : Heard cr cfg (Rising cr cfg) ts c) :
    TenureInv cr cfg ts c := by
  refine h.invariant (J := fun ts c => TenureInv cr cfg ts c) (fun env c hnew => ?_)
    (fun ts c env e c' eff hinv hrise hs => hinv.step hrise hs)
  cases newCore_eq hnew
  refine ⟨List.pairwise_singleton _ _, fun x hx => ?_, fun t ht => (by cases ht)⟩
  rw [List.mem_singleton.1 hx]
  exact fun r id hr => by cases hr

theorem TenureInv.leader_eq {ts : List Turn} {c : Core} (h : TenureInv cr cfg ts c) {x y : Point}
    (hx : x ∈ ts.flatMap (Turn.points cr cfg) ++ [c.point]) (hy : y ∈ ts.flatMap (Turn.points cr cfg) ++ [c.point])
    (hround : x.round = y.round) : x.leader = y.leader := by
  have hsymm : Std.Symm (fun x y : Point => x.round = y.round → x.leader = y.leader) :=
    ⟨fun x y hxy heq => (hxy heq.symm).symm⟩
  exact List.Pairwise.forall_of_forall (fun x _ _ => rfl) (h.onward.imp (fun hxy => hxy.leader)) hx hy hround

/-- **The leader of a round is fixed while the replica is in it**: in every history that wraps no round, whatever is
heard, all points in one round have one leader, so all blocks `processProposalMsg` inserts for a round have one author;
no leader is known of a round after the next, and an election leaves two at most. -/
theorem leader_fixed {ts : List Turn} {c : Core} (h : Heard cr cfg (Rising cr cfg) ts c) :
    (∀ x ∈ ts.flatMap (Turn.points cr cfg) ++ [c.point], ∀ y ∈ ts.flatMap (Turn.points cr cfg) ++ [c.point],
      x.round = y.round → x.leaders.getLeader x.round = y.leaders.getLeader x.round) ∧
    (∀ t ∈ ts, ∀ t' ∈ ts, ∀ b b', t.inserted cr cfg = some b → t'.inserted cr cfg = some b' → b.round = b'.round →
      b.author = b'.author) ∧
    (∀ t ∈ ts, t.Inserts cr cfg) ∧
    ∀ x ∈ ts.flatMap (Turn.points cr cfg) ++ [c.point],
      (∀ r id, x.leaders.reputationLeaders.lookup r = some id → r.toNat ≤ x.round.toNat + 1) ∧
      ∀ fuel l qc e, qc.voteInfo.parentRound + 1 = qc.voteInfo.round → qc.voteInfo.round + 1 = x.round →
        x.leaders.updateLeaders cr cfg fuel l x.round qc = .ok e → e.reputationLeaders.entries.length ≤ 2 := by
  have hinv := h.tenureInv
  refine ⟨fun x hx y hy hround => ?_, fun t ht t' ht' b b' hb hb' hround => ?_,
    fun t ht => inserts_of_step (h.mem t ht).2, fun x hx => ⟨hinv.bounded x hx, ?_⟩⟩
  · have hleader := hinv.leader_eq hx hy hround
    rw [Point.leader, Point.leader, ← hround] at hleader
    exact hleader
  · obtain ⟨x, hx, hxr, hxa⟩ := hinv.inserted t ht b hb
    obtain ⟨y, hy, hyr, hya⟩ := hinv.inserted t' ht' b' hb'
    rw [hxa, hya]
    exact hinv.leader_eq (List.mem_append_left _ hx) (List.mem_append_left _ hy) (by rw [← hxr, hround, hyr])
  · exact fun fuel l qc e hdue hcur he => LeaderElection.updateLeaders_two (hinv.bounded x hx) hdue hcur he

end Core

/-- Replica 3 of the chain hears block 3 twice, with votes for it in between, and inserts it both times while it is in
round 3. -/
theorem chain_leader_fixed :
    ∃ ts c, Core.Heard Chain.net.crypto (Chain.net.config 3) (Core.Rising Chain.net.crypto (Chain.net.config 3)) ts c ∧
      ts.filterMap (Turn.inserted Chain.net.crypto (Chain.net.config 3)) = [Chain.block 3, Chain.block 3] ∧
      c.pacemaker.currentRound = 4 ∧
      ∀ x ∈ ts.flatMap (Turn.points Chain.net.crypto (Chain.net.config 3)) ++ [c.point],
        ∀ y ∈ ts.flatMap (Turn.points Chain.net.crypto (Chain.net.config 3)) ++ [c.point],
          x.round = y.round → x.leaders.getLeader x.round = y.leaders.getLeader x.round := by
  have hplay : Core.hears Chain.net.crypto (Chain.net.config 3) Chain.env
      (Core.checks Chain.net.crypto (Chain.net.config 3) Chain.env)
      [.proposal (Chain.proposal 3 none), .vote (Chain.vote 3 1 (Chain.cert 2)), .proposal (Chain.proposal 3 none),
        .vote (Chain.vote 3 2 (Chain.cert 2)), .vote (Chain.vote 3 4 (Chain.cert 2))]
      (fun ts c => decide (ts.filterMap (Turn.inserted Chain.net.crypto (Chain.net.config 3)) =
        [Chain.block 3, Chain.block 3] ∧ c.pacemaker.currentRound = 4)) = true := by decide +kernel
  obtain ⟨ts, c, hheard, hcheck⟩ := Core.Heard.of_hears (P := Core.Rising Chain.net.crypto (Chain.net.config 3))
    (fun c e he => (Core.checked_of_checks c e he).2) hplay
  obtain ⟨hinserted, hround⟩ := of_decide_eq_true hcheck
  exact ⟨ts, c, hheard, hinserted, hround, (Core.leader_fixed hheard).1⟩

end Diem

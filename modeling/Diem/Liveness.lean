import Diem.Lockstep
/-!
# Liveness — what runs in lockstep do

Whatever rounds succeed and lapse, the replicas that are up have committed what the commit rule says of the certified
blocks.  And a run can always go on: the leader of a round that was just entered has proposed, a quorum of votes is
answered by the next proposal, and timers that fire lead everyone into the next round.  With as much fuel as there were
rounds every step on the way returns.
-/
namespace Diem

/-! ## Rounds that can be computed -/

/-- The replicas, each with its core and what it did. -/
structure Locked where
  core : UInt32 → Core
  tr   : UInt32 → List Effect

namespace Net

/-- Each of them does its part, or none if one cannot. -/
def each (live : List UInt32) (s : Locked) (f : UInt32 → Option (Core × List Effect)) :
    Option (UInt32 → Core × List Effect) :=
  if live.all (fun i => (f i).isSome) then some (fun i => (f i).getD (s.core i, [])) else none

theorem each_spec {live : List UInt32} {s : Locked} {f : UInt32 → Option (Core × List Effect)}
    {g : UInt32 → Core × List Effect} (h : each live s f = some g) : ∀ i ∈ live, f i = some (g i) := by
  intro i hi
  unfold each at h
  split at h
  · rename_i hall
    cases h
    obtain ⟨x, hx⟩ := Option.isSome_iff_exists.1 (List.all_eq_true.1 hall i hi)
    dsimp only
    rw [hx]
    rfl
  · cases h

variable (N : Net) [∀ s, Decidable (s ∈ N.hashed)] (env : Env) (live : List UInt32)

def turn (i : UInt32) (e : Event) (c : Core) : Option (Core × List Effect) :=
  if N.Admits e then (c.step N.crypto (N.config i) env e).toOption else none

def turns (i : UInt32) (es : List Event) (c : Core) : Option (Core × List Effect) :=
  if es.all (fun e => decide (N.Admits e)) then Core.steps N.crypto (N.config i) env es c else none

/-- All hear the proposal. -/
def propose (p : ProposalMsg) (s : Locked) : Option Locked :=
  (each live s (fun i => N.turn env i (.proposal p) (s.core i))).map (fun g =>
    ⟨fun i => (g i).1, fun i => s.tr i ++ (g i).2⟩)

/-- The vote is of round `r`, and somebody sent it to the leader. -/
def sent (r : UInt64) (leader : UInt32) (tr : UInt32 → List Effect) (v : VoteMsg) : Bool :=
  decide (v.voteInfo.round = r) && live.any (fun i => (tr i).contains (.vote v leader))

/-- The leader hears the votes, and then all hear its proposal. -/
def certify (r : UInt64) (leader : UInt32) (votes : List VoteMsg) (p : ProposalMsg) (s : Locked) : Option Locked :=
  (N.turns env leader (votes.map Event.vote) (s.core leader)).bind (fun x =>
    if votes.all (sent live r leader s.tr) = true ∧ leader ∈ live ∧ (votes.map VoteMsg.sender).Nodup ∧
        votes.length = N.verifier.quorum ∧ .proposal p ∈ x.2 then
      N.propose env live p ⟨Function.update s.core leader x.1, fun i => s.tr i ++ if i = leader then x.2 else []⟩
    else none)

/-- The timers fire. -/
def fire (s : Locked) : Option (UInt32 → Core × List Effect) :=
  each live s (fun i => N.turn env i (.localTimeout (s.core i).pacemaker.epoch) (s.core i))

/-- Each hears the timeouts, which were sent when the timers fired. -/
def lapse (ms : List TimeoutMsg) (s : Locked) : Option Locked :=
  (N.fire env live s).bind (fun g =>
    if ms.all (fun m => live.any (fun j => (g j).2.contains (.timeout m))) = true ∧
        (ms.map (fun m => m.tmoInfo.sender)).Nodup ∧ ms.length = N.verifier.quorum then
      (each live s (fun i => N.turns env i (ms.map Event.timeout) (g i).1)).map (fun g' =>
        ⟨fun i => (g' i).1, fun i => s.tr i ++ ((g i).2 ++ (g' i).2)⟩)
    else none)

variable {N env live} {i : UInt32} {s s' : Locked} {p : ProposalMsg} {r : UInt64} {certs : List Block}

theorem admits_of_turn {e : Event} {c : Core} {x : Core × List Effect} (h : N.turn env i e c = some x) :
    N.Admits e := by
  unfold turn at h
  split at h
  · assumption
  · cases h

theorem step_of_turn {e : Event} {c : Core} {x : Core × List Effect} (h : N.turn env i e c = some x) :
    c.step N.crypto (N.config i) env e = .ok x := by
  rw [turn, if_pos (admits_of_turn h)] at h
  cases hs : c.step N.crypto (N.config i) env e with
  | ok y =>
    rw [hs] at h
    exact congrArg _ (Option.some.inj h)
  | error s =>
    rw [hs] at h
    cases h

theorem turned_of_turn (hsign : ∀ d, (env.sign d).isSome = true) {e : Event} {c : Core} {x : Core × List Effect}
    (h : N.turn env i e c = some x) : N.Turned i e c x.1 x.2 := ⟨admits_of_turn h, env, hsign, step_of_turn h⟩

theorem hears_of_turns (hsign : ∀ d, (env.sign d).isSome = true) {es : List Event} {c : Core} {x : Core × List Effect}
    (h : N.turns env i es c = some x) : N.Hears i es c x.1 x.2 := by
  unfold turns at h
  split at h
  · rename_i hadmits
    exact .of_steps hsign (fun e he => of_decide_eq_true (List.all_eq_true.1 hadmits e he)) h
  · cases h

theorem sent_of_all {leader : UInt32} {tr : UInt32 → List Effect} {votes : List VoteMsg}
    (h : votes.all (sent live r leader tr) = true) :
    ∀ v ∈ votes, v.voteInfo.round = r ∧ ∃ i ∈ live, .vote v leader ∈ tr i := by
  intro v hv
  have hsent := List.all_eq_true.1 h v hv
  rw [sent, Bool.and_eq_true, decide_eq_true_iff, List.any_eq_true] at hsent
  obtain ⟨hround, i, hi, hmem⟩ := hsent
  exact ⟨hround, i, hi, List.contains_iff_mem.1 hmem⟩

theorem turned_of_propose (hsign : ∀ d, (env.sign d).isSome = true) (h : N.propose env live p s = some s') :
    ∃ eff : UInt32 → List Effect, (∀ i ∈ live, N.Turned i (.proposal p) (s.core i) (s'.core i) (eff i)) ∧
      s'.tr = fun i => s.tr i ++ eff i := by
  rw [propose, Option.map_eq_some_iff] at h
  obtain ⟨g, hg, rfl⟩ := h
  exact ⟨fun i => (g i).2, fun i hi => turned_of_turn hsign (each_spec hg i hi), rfl⟩

namespace Lockstep

theorem of_propose (hsign : ∀ d, (env.sign d).isSome = true) (h : N.Lockstep live r none certs s.core s.tr)
    (hroom : r.toNat + 4 < 2 ^ 64) {leader : UInt32} {b : Block} (hleader : leader ∈ live)
    (hp : .proposal p ∈ s.tr leader) (hb : p.block = some b) (hround : b.round = r)
    (hr : N.propose env live p s = some s') : N.Lockstep live r (some b) certs s'.core s'.tr := by
  obtain ⟨eff, hheard, htr⟩ := turned_of_propose hsign hr
  rw [htr]
  exact .propose leader p b s'.core eff h hroom hleader hp hb hround hheard

theorem of_certify (hsign : ∀ d, (env.sign d).isSome = true) {b b' : Block}
    (h : N.Lockstep live r (some b) certs s.core s.tr) (hroom : r.toNat + 4 < 2 ^ 64) {leader : UInt32}
    {votes : List VoteMsg} (hb : p.block = some b') (hr : N.certify env live r leader votes p s = some s') :
    N.Lockstep live (r + 1) (some b') (certs ++ [b]) s'.core s'.tr := by
  rw [Net.certify, Option.bind_eq_some_iff] at hr
  obtain ⟨x, hx, hr⟩ := hr
  split at hr
  · rename_i hok
    obtain ⟨hvotes, hleader, hnodup, hquorum, hp⟩ := hok
    obtain ⟨eff, hheard, htr⟩ := turned_of_propose hsign hr
    rw [htr]
    exact .certify leader votes x.1 x.2 p b' s'.core eff h hroom hleader (sent_of_all hvotes) hnodup hquorum
      (hears_of_turns hsign hx) hp hb hheard
  · cases hr

theorem of_lapse (hsign : ∀ d, (env.sign d).isSome = true) {b : Option Block}
    (h : N.Lockstep live r b certs s.core s.tr) (hroom : r.toNat + 4 < 2 ^ 64) {ms : List TimeoutMsg}
    (hr : N.lapse env live ms s = some s') : N.Lockstep live (r + 1) none certs s'.core s'.tr := by
  rw [Net.lapse, Option.bind_eq_some_iff] at hr
  obtain ⟨g, hg, hr⟩ := hr
  split at hr
  · rename_i hok
    obtain ⟨hsent, hnodup, hquorum⟩ := hok
    obtain ⟨g', hg', rfl⟩ := Option.map_eq_some_iff.1 hr
    refine .lapse (fun i => (g i).1) (fun i => (g i).2) (fun _ => ms) (fun i => (g' i).1) (fun i => (g' i).2) h hroom
      (fun i hi => turned_of_turn hsign (each_spec hg i hi)) (fun i hi => ⟨fun m hm => ?_, hnodup, hquorum⟩)
      (fun i hi => hears_of_turns hsign (each_spec hg' i hi))
    obtain ⟨j, hj, hmem⟩ := List.any_eq_true.1 (List.all_eq_true.1 hsent m hm)
    exact ⟨j, hj, List.contains_iff_mem.1 hmem⟩
  · cases hr

end Lockstep

end Net

/-! ## A round lost, and three blocks

Three replicas, of which two are a quorum.  They give up on round 1; the block of round 2 extends genesis, and its
certificate commits nothing; that of round 3 commits it.  Digest `3r - 1` is the id of block `r`, the two after it are
those of its vote. -/

namespace Lost

def sigs : Slice Signature := ⟨[⟨1, default⟩, ⟨2, default⟩], by decide⟩

def leader (r : Nat) : UInt32 := if r ≤ 3 then 2 else 3

def info (r : Nat) : VoteInfo :=
  { id := digest (3 * r - 1), round := r.toUInt64, parentId := digest (if r = 2 then 1 else 3 * r - 4)
    parentRound := if r = 2 then 0 else (r - 1).toUInt64, execStateId := digest 2 }

def commit (r : Nat) : LedgerCommitInfo :=
  { commitStateId := if r = 2 then zeroHash else digest 2, voteInfoHash := digest (3 * r) }

/-- The certificate of block `r`, put together by the next leader. -/
def cert (r : Nat) : QuorumCert :=
  if r ≤ 1 then zeroQC (digest 1)
  else
    { voteInfo := info r, ledgerCommitInfo := commit r, signatures := sigs, author := leader (r + 1)
      authorSig := some ⟨leader (r + 1), default⟩ }

def block (r : Nat) : Block :=
  { author := leader r, round := r.toUInt64, payload := default, qc := some (cert (r - 1)), id := digest (3 * r - 1) }

/-- The highest certificate that commits, before round `r`. -/
def committing (r : Nat) : QuorumCert := if r ≤ 3 then cert 0 else cert (r - 1)

def tc : TimeoutCert := { round := 1, votes := [⟨0, ⟨1, default⟩⟩, ⟨0, ⟨2, default⟩⟩] }

def timeout (i : UInt32) : TimeoutMsg :=
  { tmoInfo := { round := 1, highQc := some (cert 0), sender := i, sig := ⟨i, default⟩ }, lastRoundTc := none
    highCommitQc := some (cert 0) }

def proposal (r : Nat) : ProposalMsg :=
  { block := some (block r), lastRoundTc := if r = 2 then some tc else none, highCommitQc := some (committing r)
    sender := leader r, sig := ⟨leader r, default⟩ }

def vote (r : Nat) (i : UInt32) : VoteMsg :=
  { voteInfo := info r, ledgerCommitInfo := commit r, highCommitQc := some (committing r), sender := i,
    sig := ⟨i, default⟩ }

def book : Book where
  validators := [1, 2, 3]
  byzantine  := ∅
  strings    := blockBytes 0 0 default (some genesisSeedQC) :: executeBytes zeroHash default :: qcSigsBytes sigs ::
    timeoutBytes 1 0 :: [2, 3, 4].flatMap
    (fun r => [(block r).bytes, voteInfoBytes (info r), ledgerCommitBytes (commit r)])
  signed     := [(1, digest 4), (2, digest 4), (2, digest 5), (1, digest 7), (2, digest 7), (2, digest 3),
    (2, digest 8), (1, digest 10), (2, digest 10), (3, digest 3), (3, digest 11)]
  distinct   := by decide
  few        := by decide
  fits       := by decide
  genesis    := List.mem_cons_self

abbrev net : Net := book.net 1 2

/-- `Sign` signs anything; what verifies is what is in the book. -/
def env : Env := ⟨fun _ => some default, default, 8⟩

def new (i : UInt32) : Core :=
  { ledger := newMemLedger net.crypto, tree := newBlockTree net.crypto, safety := newSafety, pacemaker := newPacemaker
    leaders := newLeaderElection (net.config i) }

def started : Locked :=
  ⟨fun i => ((new i).start net.crypto (net.config i) env).1, fun i => ((new i).start net.crypto (net.config i) env).2⟩

theorem uniform : net.Uniform (net.config 0) [1, 2, 3] := by
  refine ⟨fun _ _ => rfl, fun _ _ => ?_, ?_⟩
  · change digest 2 ≠ zeroHash
    decide
  · decide +kernel

theorem locked_start : net.Lockstep [1, 2, 3] 1 none [] started.core started.tr := by
  have hkeeps : ¬ ((net.config 0).history : Int) < (net.config 0).window + (net.config 0).exclude := by decide
  exact .start (fun _ => env) new (fun _ _ => ⟨if_neg hkeeps, fun _ => rfl⟩)

/-- Round 1 is lost, and replica 2 proposes block 2; it is voted for, and replica 2 proposes over its certificate; and
so are the next two. -/
theorem locked : ∃ s₁ s₂ s₃ : Locked, ∃ c : Core, net.Lockstep [1, 2, 3] 2 none [] s₁.core s₁.tr ∧
    ((s₁.core 1).leaders.getLeader 2 = 2 ∧
      s₁.tr 2 = [.timeout (timeout 2), .timeout (timeout 2), .proposal (proposal 2)]) ∧
    net.Lockstep [1, 2, 3] 2 (some (block 2)) [] s₂.core s₂.tr ∧
    (∀ v ∈ [vote 2 2, vote 2 1], v.voteInfo.round = 2 ∧ ∃ i ∈ [(1 : UInt32), 2, 3], .vote v 2 ∈ s₂.tr i) ∧
    Core.steps net.crypto (net.config 2) env ([vote 2 2, vote 2 1].map Event.vote) (s₂.core 2) =
      some (c, [.assembled (cert 2), .proposal (proposal 3)]) ∧
    net.Lockstep [1, 2, 3] 4 (some (block 4)) [block 2, block 3] s₃.core s₃.tr := by
  have hsign : ∀ d, (env.sign d).isSome = true := fun _ => rfl
  have h : (net.lapse env [1, 2, 3] [timeout 2, timeout 1] started).any (fun s₁ =>
      decide ((s₁.core 1).leaders.getLeader 2 = 2 ∧
        s₁.tr 2 = [.timeout (timeout 2), .timeout (timeout 2), .proposal (proposal 2)]) &&
      (net.propose env [1, 2, 3] (proposal 2) s₁).any (fun s₂ =>
        [vote 2 2, vote 2 1].all (Net.sent [1, 2, 3] 2 2 s₂.tr) &&
        (Core.steps net.crypto (net.config 2) env ([vote 2 2, vote 2 1].map Event.vote) (s₂.core 2)).any (fun x =>
          decide (x.2 = [.assembled (cert 2), .proposal (proposal 3)])) &&
        (net.certify env [1, 2, 3] 2 2 [vote 2 2, vote 2 1] (proposal 3) s₂).any (fun s₃ =>
          (net.certify env [1, 2, 3] 3 3 [vote 3 1, vote 3 2] (proposal 4) s₃).isSome))) = true := by
    decide +kernel
  obtain ⟨s₁, h₁, h⟩ := (Option.any_eq_true _ _).1 h
  obtain ⟨hled, h⟩ := Bool.and_eq_true_iff.1 h
  obtain ⟨s₂, h₂, h⟩ := (Option.any_eq_true _ _).1 h
  obtain ⟨hfirst, h⟩ := Bool.and_eq_true_iff.1 h
  obtain ⟨hsent, hcount⟩ := Bool.and_eq_true_iff.1 hfirst
  obtain ⟨⟨c, out⟩, hcount, hout⟩ := (Option.any_eq_true _ _).1 hcount
  obtain ⟨s₃, h₃, h⟩ := (Option.any_eq_true _ _).1 h
  obtain ⟨s₄, h₄⟩ := Option.isSome_iff_exists.1 h
  have hled := of_decide_eq_true hled
  obtain rfl : out = [.assembled (cert 2), .proposal (proposal 3)] := of_decide_eq_true hout
  have hp : .proposal (proposal 2) ∈ s₁.tr 2 := by
    rw [hled.2]
    simp
  have htwo : (2 : UInt32) ∈ [(1 : UInt32), 2, 3] := by simp
  have hlost := locked_start.of_lapse hsign (by decide) h₁
  have hvoted := hlost.of_propose hsign (by decide) htwo hp rfl rfl h₂
  refine ⟨s₁, s₂, s₄, c, hlost, hled, hvoted, Net.sent_of_all hsent, hcount, ?_⟩
  exact (hvoted.of_certify hsign (by decide) rfl h₃).of_certify hsign (by decide) rfl h₄

end Lost

/-! ## Safety and progress of runs -/

/-- **The commit rule**: however rounds succeed and lapse, every replica that is up has committed the same blocks, which
are the certified ones with two successive certified rounds from theirs on; and all have voted for the block of the
current round, for the same leader to count. -/
theorem lockstep_commits {N : Net} {cfg : Config} {live : List UInt32} (hu : N.Uniform cfg live) {r : UInt64}
    {phase : Option Block} {certs : List Block} {core : UInt32 → Core} {tr : UInt32 → List Effect}
    (h : N.Lockstep live r phase certs core tr) :
    ∃ leader, ∀ i ∈ live, committedBlocks (tr i) = settledBlocks certs ∧ (core i).pacemaker.currentRound = r ∧
      ∀ b, phase = some b → ∃ v, .vote v leader ∈ tr i ∧ v.voteInfo.id = b.id ∧ v.voteInfo.round = r := by
  obtain ⟨q, hc, chain, l, roll, hin, -, hballoted⟩ := h.inStep hu
  refine ⟨N.leads roll (r + 1), fun i hi => ⟨hin.commits i hi, (hin.level i hi).round, fun b hb => ?_⟩⟩
  obtain ⟨s, hexec⟩ := (hballoted b hb).executed
  obtain ⟨v, hfor, hsent⟩ := (hballoted b hb).voted i hi
  exact ⟨v, hsent, hfor.id, hfor.round.trans hexec.round⟩

/-- Three replicas that lost round 1: blocks 2 and 3 are certified, and the first of them is committed. -/
theorem lost_commits : ∃ core tr leader,
    Lost.net.Lockstep [1, 2, 3] 4 (some (Lost.block 4)) [Lost.block 2, Lost.block 3] core tr ∧
    ∀ i ∈ [(1 : UInt32), 2, 3], committedBlocks (tr i) = [Lost.block 2] ∧
      ∃ v, .vote v leader ∈ tr i ∧ v.voteInfo.id = (Lost.block 4).id := by
  obtain ⟨-, -, s, -, -, -, -, -, -, h⟩ := Lost.locked
  obtain ⟨leader, hall⟩ := lockstep_commits Lost.uniform h
  refine ⟨_, _, leader, h, fun i hi => ?_⟩
  obtain ⟨hlog, -, hvoted⟩ := hall i hi
  obtain ⟨v, hv, hid, -⟩ := hvoted _ rfl
  exact ⟨hlog.trans (by decide), v, hv, hid⟩

section

variable {N : Net} {cfg : Config} {live : List UInt32} {r : UInt64} {certs : List Block} {core : UInt32 → Core}
  {tr : UInt32 → List Effect}

/-- What each of them can do they can all do. -/
theorem exists_each (core : UInt32 → Core) {P : UInt32 → Core → List Effect → Prop}
    (h : ∀ i ∈ live, ∃ c eff, P i c eff) :
    ∃ (core' : UInt32 → Core) (eff : UInt32 → List Effect), ∀ i ∈ live, P i (core' i) (eff i) := by
  have hall : ∀ i, ∃ c eff, i ∈ live → P i c eff := by
    intro i
    by_cases hi : i ∈ live
    · obtain ⟨c, eff, hP⟩ := h i hi
      exact ⟨c, eff, fun _ => hP⟩
    · exact ⟨core i, [], fun hcontra => absurd hcontra hi⟩
  choose core' eff hP using hall
  exact ⟨core', eff, hP⟩

/-- A timer of the epoch it was armed in is always answered. -/
theorem Core.step_localTimeout_returns (cr : Crypto) (cfg : Config) (env : Env) (c : Core) :
    ∃ c' eff, c.step cr cfg env (.localTimeout c.pacemaker.epoch) = .ok (c', eff) := by
  rw [Core.step, if_pos rfl]
  exact ⟨_, _, rfl⟩

/-- Messages that pass the edge, stepped on one after the other, are heard. -/
theorem Net.hears_of_steps {α : Type} {f : α → Event} {xs : List α} {i : UInt32} {env : Env} {c c' : Core}
    {eff : List Effect} (hsign : ∀ d, (env.sign d).isSome = true) (hadmits : ∀ x ∈ xs, N.Admits (f x))
    (h : Core.steps N.crypto (N.config i) env (xs.map f) c = some (c', eff)) : N.Hears i (xs.map f) c c' eff := by
  refine .of_steps hsign (fun e he => ?_) h
  obtain ⟨x, hx, rfl⟩ := List.mem_map.1 he
  exact hadmits x hx

theorem toNat_succ_of_room (hroom : r.toNat + 4 < 2 ^ 64) : (r + 1).toNat = r.toNat + 1 := by
  rw [UInt64.toNat_add]
  exact (by omega : (r.toNat + 1) % 2 ^ 64 = r.toNat + 1)

/-- Once the next leader has entered the round and proposed, every step on the proposal returns: its own, and those of
the others, which are still in the round before. -/
theorem Net.InStep.enter_returns {q q' hc : QuorumCert} {chain : List Speculated} {x : Speculated} {l : MemLedger}
    {roll : UInt64 → Option UInt32} {leader : UInt32} {c : Core} {p : ProposalMsg} {b' : Block}
    (h : N.InStep cfg live r certs core tr q hc chain l roll) (hexec : N.Executed r q hc chain x l)
    (hroom : r.toNat + 4 < 2 ^ 64) (hq' : q'.Certifies r q x.block)
    (hlevel : N.Level (r + 1) q' (nextCommitQC r q hc q') (l.certified (N.config leader).history r q chain).1 roll [] c)
    (hover : p.Over (r + 1) q' (nextCommitQC r q hc q') leader b') {env : UInt32 → Env}
    (hfuel : ∀ i, r.toNat + 1 ≤ (env i).fuel) :
    ∀ i ∈ live, ∃ c' eff,
      (Function.update core leader c i).step N.crypto (N.config i) (env i) (.proposal p) = .ok (c', eff) := by
  intro i hi
  have hk := lt_succ_of_room hroom
  have hfuel : (r + 1).toNat ≤ (env i).fuel := by
    rw [toNat_succ_of_room hroom]
    exact hfuel i
  by_cases heq : i = leader
  · subst heq
    rw [Function.update_self]
    exact hlevel.hear_returns (hexec.certified _ hk hq') hover hfuel
  · rw [Function.update_of_ne heq]
    exact (h.level i hi).hear_enter_returns hexec hq' hk hover hfuel

end

/-- **A leader that is up has proposed**: in a round that was just entered all agree on who leads it, and its proposal
is out if it is up.  When that passes the edge every replica steps on it, in loops no longer than there were rounds, and
votes for its block, all for one leader to count. -/
theorem lockstep_proposes {N : Net} {cfg : Config} {live : List UInt32} (hu : N.Uniform cfg live) {r : UInt64}
    {certs : List Block} {core : UInt32 → Core} {tr : UInt32 → List Effect} (h : N.Lockstep live r none certs core tr)
    (hroom : r.toNat + 4 < 2 ^ 64) (env : UInt32 → Env)
    (henv : ∀ i, (∀ d, ((env i).sign d).isSome = true) ∧ r.toNat ≤ (env i).fuel) :
    ∃ leader, (∀ i ∈ live, (core i).leaders.getLeader r = leader) ∧
      (leader ∈ live → ∃ p b, .proposal p ∈ tr leader ∧ p.block = some b ∧ b.round = r ∧
        (N.Admits (.proposal p) → ∃ (core' : UInt32 → Core) (eff : UInt32 → List Effect) (next : UInt32),
          (∀ i ∈ live, (core i).step N.crypto (N.config i) (env i) (.proposal p) = .ok (core' i, eff i) ∧
            ∃ v, .vote v next ∈ eff i ∧ v.sender = i ∧ v.voteInfo.id = b.id ∧ v.voteInfo.round = r) ∧
          N.Lockstep live r (some b) certs core' (fun i => tr i ++ eff i))) := by
  obtain ⟨q, hc, chain, l, roll, hin, hw, -⟩ := h.inStep hu
  refine ⟨N.leads roll r, fun i hi => (hin.level i hi).getLeader_eq r, fun hleader => ?_⟩
  obtain ⟨p, b, hp, hover⟩ := (hw rfl).proposed _ hleader rfl
  refine ⟨p, b, hp, hover.block, hover.round, fun he => ?_⟩
  obtain ⟨core', eff, hsteps⟩ := exists_each core (fun i hi =>
    (hin.level i hi).hear_returns hin.ready hover (henv i).2)
  have hheard : ∀ i ∈ live, N.Turned i (.proposal p) (core i) (core' i) (eff i) := fun i hi =>
    ⟨he, env i, (henv i).1, hsteps i hi⟩
  obtain ⟨l', roll', -, hballoted⟩ := hin.propose hu (hw rfl) hroom hleader hp hover.block hover.round hheard
  refine ⟨core', eff, N.leads roll' (r + 1), fun i hi => ⟨hsteps i hi, ?_⟩,
    .propose _ p b core' eff h hroom hleader hp hover.block hover.round hheard⟩
  obtain ⟨v, hfor, hsent⟩ := hballoted.voted i hi
  refine ⟨v, (List.mem_append.1 hsent).resolve_left (fun hold => ?_), hfor.sender, hfor.id,
    hfor.round.trans hover.round⟩
  -- nobody had voted in the round
  exact UInt64.lt_irrefl r (hfor.round.trans hover.round ▸ (hw rfl).votes i hi v _ hold)

/-- After the lost round replica 2 leads, and has proposed; all three step on its proposal and vote for block 2. -/
theorem lost_proposes : ∃ (core core' : UInt32 → Core) (tr eff : UInt32 → List Effect) (next : UInt32),
    Lost.net.Lockstep [1, 2, 3] 2 none [] core tr ∧ .proposal (Lost.proposal 2) ∈ tr 2 ∧
    (∀ i ∈ [(1 : UInt32), 2, 3], (core i).leaders.getLeader 2 = 2 ∧
      (core i).step Lost.net.crypto (Lost.net.config i) Lost.env (.proposal (Lost.proposal 2)) =
        .ok (core' i, eff i) ∧
      ∃ v, .vote v next ∈ eff i ∧ v.sender = i ∧ v.voteInfo.id = (Lost.block 2).id ∧ v.voteInfo.round = 2) ∧
    Lost.net.Lockstep [1, 2, 3] 2 (some (Lost.block 2)) [] core' (fun i => tr i ++ eff i) := by
  obtain ⟨s, -, -, -, h, ⟨hone, htr⟩, -⟩ := Lost.locked
  obtain ⟨leader, hagree, hled⟩ := lockstep_proposes Lost.uniform h (by decide) (fun _ => Lost.env)
    (fun _ => ⟨fun _ => rfl, by decide⟩)
  obtain rfl : 2 = leader := hone.symm.trans (hagree 1 (by simp))
  obtain ⟨p, b, hp, hb, -, hnext⟩ := hled (by simp)
  -- it has made no other proposal
  obtain rfl : p = Lost.proposal 2 := by
    rw [htr] at hp
    simpa using hp
  obtain rfl : Lost.block 2 = b := Option.some.inj hb
  have hadmits : Lost.net.Admits (.proposal (Lost.proposal 2)) := by decide +kernel
  obtain ⟨core', eff, next, hall, h'⟩ := hnext hadmits
  exact ⟨s.core, core', s.tr, eff, next, h, hp, fun i hi => ⟨hagree i hi, hall i hi⟩, h'⟩

/-- **A quorum of votes is answered**: whichever quorum's votes the next leader hears, in whichever order, every step
returns, and it answers with a proposal over the certificate of the block they are for.  When that passes the edge all
step on it, the others entering the round by it, and vote for its block. -/
theorem lockstep_certifies {N : Net} {cfg : Config} {live : List UInt32} (hu : N.Uniform cfg live)
    {r : UInt64} {b : Block} {certs : List Block} {core : UInt32 → Core} {tr : UInt32 → List Effect}
    (h : N.Lockstep live r (some b) certs core tr) (hroom : r.toNat + 4 < 2 ^ 64) {leader : UInt32}
    (hleader : leader ∈ live) {votes : List VoteMsg} (hvotes : ∀ v ∈ votes, v.voteInfo.round = r ∧
      ∃ i ∈ live, .vote v leader ∈ tr i)
    (hnodup : (votes.map VoteMsg.sender).Nodup) (hquorum : votes.length = N.verifier.quorum)
    (hadmits : ∀ v ∈ votes, N.Admits (.vote v)) (env : UInt32 → Env)
    (henv : ∀ i, (∀ d, ((env i).sign d).isSome = true) ∧ r.toNat + 1 ≤ (env i).fuel) :
    ∃ c out p b',
      Core.steps N.crypto (N.config leader) (env leader) (votes.map Event.vote) (core leader) = some (c, out) ∧
      c.pacemaker.currentRound = r + 1 ∧ .proposal p ∈ out ∧ p.block = some b' ∧ b'.round = r + 1 ∧
      certifiedID b'.qc = b.id ∧
      (N.Admits (.proposal p) → ∃ (core' : UInt32 → Core) (eff : UInt32 → List Effect) (next : UInt32),
        (∀ i ∈ live, (Function.update core leader c i).step N.crypto (N.config i) (env i) (.proposal p) =
            .ok (core' i, eff i) ∧ (core i).pacemaker.currentRound = r ∧ (core' i).pacemaker.currentRound = r + 1 ∧
          ∃ v, .vote v next ∈ eff i ∧ v.sender = i ∧ v.voteInfo.id = b'.id ∧ v.voteInfo.round = r + 1) ∧
        N.Lockstep live (r + 1) (some b') (certs ++ [b]) core'
          (fun i => (tr i ++ if i = leader then out else []) ++ eff i)) := by
  obtain ⟨q, hc, chain, l, roll, hin, -, hballoted⟩ := h.inStep hu
  obtain ⟨hne, hlead, hdue⟩ := (hballoted b rfl).due hin hleader hvotes hnodup hquorum hadmits
  obtain ⟨s, hexec⟩ := (hballoted b rfl).executed
  have hlen : ([] : List UInt32).length + votes.length = N.verifier.quorum := (Nat.zero_add _).trans hquorum
  obtain ⟨c, out, hcount⟩ := Net.Level.gather_returns (i := leader) hexec hroom (henv leader).1
    (Nat.le_trans (Nat.le_succ _) (henv leader).2) (hin.level leader hleader) hdue hadmits (Nat.le_of_eq hlen)
  have hears := Net.hears_of_steps (henv leader).1 hadmits hcount
  obtain ⟨q', b', p, hq', hlevel, -, hover, hout⟩ :=
    Net.Level.gather hexec hroom hlead (hin.level leader hleader) hdue hne hlen hears
  have hp : .proposal p ∈ out := by
    rw [hout]
    simp
  have hcert : certifiedID b'.qc = b.id := by
    rw [hover.qc]
    exact hq'.id
  refine ⟨c, out, p, b', hcount, hlevel.round, hp, hover.block, hover.round, hcert, fun he => ?_⟩
  obtain ⟨core', eff, hsteps⟩ := exists_each core
    (hin.enter_returns hexec hroom hq' hlevel hover (fun i => (henv i).2))
  have hheard : ∀ i ∈ live, N.Turned i (.proposal p) (Function.update core leader c i) (core' i) (eff i) :=
    fun i hi => ⟨he, env i, (henv i).1, hsteps i hi⟩
  obtain ⟨q'', hc', chain', l', roll', hin', hballoted'⟩ :=
    hin.certify hu (hballoted b rfl) hroom hleader hvotes hnodup hquorum hears hp hover.block hheard
  refine ⟨core', eff, N.leads roll' (r + 1 + 1),
    fun i hi => ⟨hsteps i hi, (hin.level i hi).round, (hin'.level i hi).round, ?_⟩,
    .certify leader votes c out p b' core' eff h hroom hleader hvotes hnodup hquorum hears hp hover.block hheard⟩
  obtain ⟨v, hfor, hsent⟩ := hballoted'.voted i hi
  have hround := hfor.round.trans hover.round
  refine ⟨v, (List.mem_append.1 hsent).resolve_left (fun hold => ?_), hfor.sender, hfor.id, hround⟩
  -- nobody had voted in the round, and the leader's answer is no vote
  rcases List.mem_append.1 hold with hold | hold
  · exact absurd (hround ▸ hin.votes i hi v _ hold) (UInt64.not_le.2 (lt_succ_of_room hroom))
  · split at hold
    · rw [hout] at hold
      simp at hold
    · cases hold

/-- Replica 2 hears the votes for block 2 and proposes over its certificate; all three step on that and vote for block
3. -/
theorem lost_certifies : ∃ (core core' : UInt32 → Core) (tr eff : UInt32 → List Effect) (c : Core) (next : UInt32),
    Lost.net.Lockstep [1, 2, 3] 2 (some (Lost.block 2)) [] core tr ∧
    Core.steps Lost.net.crypto (Lost.net.config 2) Lost.env ([Lost.vote 2 2, Lost.vote 2 1].map Event.vote) (core 2) =
      some (c, [.assembled (Lost.cert 2), .proposal (Lost.proposal 3)]) ∧
    (∀ i ∈ [(1 : UInt32), 2, 3], (core i).pacemaker.currentRound = 2 ∧ (core' i).pacemaker.currentRound = 3 ∧
      ∃ v, .vote v next ∈ eff i ∧ v.sender = i ∧ v.voteInfo.id = (Lost.block 3).id) ∧
    Lost.net.Lockstep [1, 2, 3] 3 (some (Lost.block 3)) [Lost.block 2] core' (fun i =>
      (tr i ++ if i = 2 then [.assembled (Lost.cert 2), .proposal (Lost.proposal 3)] else []) ++ eff i) := by
  obtain ⟨-, s, -, c, -, -, h, hsent, hcount, -⟩ := Lost.locked
  have hadmits : [Lost.vote 2 2, Lost.vote 2 1].all (fun v => decide (Lost.net.Admits (.vote v))) = true := by
    decide +kernel
  have htwo : (2 : UInt32) ∈ [(1 : UInt32), 2, 3] := by simp
  obtain ⟨c', out, p, b, hcount', -, hp, hb, -, -, hnext⟩ := lockstep_certifies Lost.uniform h (by decide) htwo hsent
    (by decide) (by decide) (fun v hv => of_decide_eq_true (List.all_eq_true.1 hadmits v hv)) (fun _ => Lost.env)
    (fun _ => ⟨fun _ => rfl, by decide⟩)
  -- what was computed is what it did
  cases hcount.symm.trans hcount'
  obtain rfl : p = Lost.proposal 3 := by simpa using hp
  obtain rfl : Lost.block 3 = b := Option.some.inj hb
  have hadmitted : Lost.net.Admits (.proposal (Lost.proposal 3)) := by decide +kernel
  obtain ⟨core', eff, next, hall, h'⟩ := hnext hadmitted
  refine ⟨s.core, core', s.tr, eff, c, next, h, hcount, fun i hi => ?_, h'⟩
  obtain ⟨-, hround, hentered, v, hv, hsender, hid, -⟩ := hall i hi
  exact ⟨hround, hentered, v, hv, hsender, hid⟩

/-- **A round is left when its timers fire**: each replica that is up answers its timer with one timeout of the round,
and whichever quorum's timeouts each of them hears, in whichever order, every step returns and all enter the next round,
over the certificates they had in common and with the leaders they agreed on. -/
theorem lockstep_lapses {N : Net} {cfg : Config} {live : List UInt32} (hu : N.Uniform cfg live) {r : UInt64}
    {phase : Option Block} {certs : List Block} {core : UInt32 → Core} {tr : UInt32 → List Effect}
    (h : N.Lockstep live r phase certs core tr) (hroom : r.toNat + 4 < 2 ^ 64) (env : UInt32 → Env)
    (henv : ∀ i, (∀ d, ((env i).sign d).isSome = true) ∧ r.toNat ≤ (env i).fuel) :
    ∃ (fired : UInt32 → Core) (out : UInt32 → List Effect),
      (∀ i ∈ live, (core i).step N.crypto (N.config i) (env i) (.localTimeout (core i).pacemaker.epoch) =
          .ok (fired i, out i) ∧ ∃ m, out i = [.timeout m] ∧ m.tmoInfo.round = r ∧ m.tmoInfo.sender = i) ∧
      ∀ ms : UInt32 → List TimeoutMsg,
        (∀ i ∈ live, (∀ m ∈ ms i, N.Admits (.timeout m) ∧ ∃ j ∈ live, .timeout m ∈ out j) ∧
          ((ms i).map (fun m => m.tmoInfo.sender)).Nodup ∧ (ms i).length = N.verifier.quorum) →
        ∃ (core' : UInt32 → Core) (eff : UInt32 → List Effect) (q hc : QuorumCert) (leads : UInt64 → UInt32),
          (∀ i ∈ live, Core.steps N.crypto (N.config i) (env i) ((ms i).map Event.timeout) (fired i) =
              some (core' i, eff i) ∧ (core' i).pacemaker.currentRound = r + 1 ∧
            ((core i).tree.highQC = q ∧ (core' i).tree.highQC = q) ∧
            ((core i).tree.highCommitQC = hc ∧ (core' i).tree.highCommitQC = hc) ∧
            ∀ k, (core i).leaders.getLeader k = leads k ∧ (core' i).leaders.getLeader k = leads k) ∧
          N.Lockstep live (r + 1) none certs core' (fun i => tr i ++ (out i ++ eff i)) := by
  obtain ⟨q, hc, chain, l, roll, hin, -⟩ := h.inStep hu
  obtain ⟨fired, out, hsteps⟩ := exists_each core (fun i (_ : i ∈ live) =>
    Core.step_localTimeout_returns N.crypto (N.config i) (env i) (core i))
  have hfired : ∀ i ∈ live, N.Turned i (.localTimeout (core i).pacemaker.epoch) (core i) (fired i) (out i) :=
    fun i hi => ⟨trivial, env i, (henv i).1, hsteps i hi⟩
  have hfire := hin.fires hfired
  refine ⟨fired, out, fun i hi => ⟨hsteps i hi, ?_⟩, fun ms hms => ?_⟩
  · obtain ⟨-, -, m, hfor, hout⟩ := hfire i hi
    exact ⟨m, hout, hfor.round, hfor.sender⟩
  have hreturns : ∀ i ∈ live, ∃ c eff,
      Core.steps N.crypto (N.config i) (env i) ((ms i).map Event.timeout) (fired i) = some (c, eff) := by
    intro i hi
    obtain ⟨hlevel, hpoised, -⟩ := hfire i hi
    obtain ⟨hsent, hnodup, hlen⟩ := hms i hi
    have helected : N.Elected (N.config i) l r q roll := by
      rw [hu.config i hi]
      exact hin.elected
    have hfor := hin.timeouts_for hfired (fun m hm => (hsent m hm).2)
    exact Net.Level.lapse_returns hin.ready helected hin.verified (lt_succ_of_room hroom) (henv i).1 (henv i).2 hlevel
      hpoised (fun m hm => ⟨(hsent m hm).1, hfor m hm⟩) hnodup (Nat.le_of_eq ((Nat.zero_add _).trans hlen))
  obtain ⟨core', eff, hcounts⟩ := exists_each core hreturns
  have hears : ∀ i ∈ live, N.Hears i ((ms i).map Event.timeout) (fired i) (core' i) (eff i) := fun i hi =>
    Net.hears_of_steps (henv i).1 (fun m hm => ((hms i hi).1 m hm).1) (hcounts i hi)
  have hms' : ∀ i ∈ live, (∀ m ∈ ms i, ∃ j ∈ live, .timeout m ∈ out j) ∧
      ((ms i).map (fun m => m.tmoInfo.sender)).Nodup ∧ (ms i).length = N.verifier.quorum :=
    fun i hi => ⟨fun m hm => ((hms i hi).1 m hm).2, (hms i hi).2⟩
  obtain ⟨hin', -⟩ := hin.lapse hu hroom hfired hms' hears
  refine ⟨core', eff, q, hc, N.leads roll, fun i hi => ?_, .lapse fired out ms core' eff h hroom hfired hms' hears⟩
  have hlevel := hin.level i hi
  have hlevel' := hin'.level i hi
  exact ⟨hcounts i hi, hlevel'.round, ⟨hlevel.highQC, hlevel'.highQC⟩, ⟨hlevel.highCommitQC, hlevel'.highCommitQC⟩,
    fun k => ⟨hlevel.getLeader_eq k, hlevel'.getLeader_eq k⟩⟩

/-- The three replicas give up on round 1, all hear the timeouts of two of them, and are in round 2. -/
theorem lost_lapses : ∃ core' tr', Lost.net.Lockstep [1, 2, 3] 1 none [] Lost.started.core Lost.started.tr ∧
    Lost.net.Lockstep [1, 2, 3] 2 none [] core' tr' ∧
    ∀ i ∈ [(1 : UInt32), 2, 3], (core' i).pacemaker.currentRound = 2 ∧
      (core' i).tree.highQC = (Lost.started.core i).tree.highQC := by
  have hfire : (Lost.net.fire Lost.env [1, 2, 3] Lost.started).any (fun g =>
      [Lost.timeout 2, Lost.timeout 1].all (fun m =>
        decide (Lost.net.Admits (.timeout m)) && [1, 2, 3].any (fun j => (g j).2.contains (.timeout m)))) = true := by
    decide +kernel
  obtain ⟨g, hg, hsent⟩ := (Option.any_eq_true _ _).1 hfire
  obtain ⟨fired, out, hfired, hnext⟩ := lockstep_lapses Lost.uniform Lost.locked_start (by decide) (fun _ => Lost.env)
    (fun _ => ⟨fun _ => rfl, by decide⟩)
  -- what was computed is what they sent
  have hout : ∀ j ∈ [(1 : UInt32), 2, 3], out j = (g j).2 := by
    intro j hj
    have hturn := Net.step_of_turn (Net.each_spec hg j hj)
    exact congrArg Prod.snd (Except.ok.inj ((hfired j hj).1.symm.trans hturn))
  obtain ⟨core', eff, q, hc, leads, hall, h'⟩ := hnext (fun _ => [Lost.timeout 2, Lost.timeout 1]) (fun i hi => by
    refine ⟨fun m hm => ?_, by decide, by decide⟩
    obtain ⟨hadmits, hany⟩ := Bool.and_eq_true_iff.1 (List.all_eq_true.1 hsent m hm)
    obtain ⟨j, hj, hmem⟩ := List.any_eq_true.1 hany
    exact ⟨of_decide_eq_true hadmits, j, hj, hout j hj ▸ List.contains_iff_mem.1 hmem⟩)
  refine ⟨core', _, Lost.locked_start, h', fun i hi => ?_⟩
  obtain ⟨-, hround, ⟨hbefore, hafter⟩, -⟩ := hall i hi
  exact ⟨hround, hafter.trans hbefore.symm⟩

end Diem

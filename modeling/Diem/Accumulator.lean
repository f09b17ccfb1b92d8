import Mathlib.Data.List.ProdSigma
import Diem.Stores
/-!
# Accumulator — how many votes a core holds

A vote comes in only for a round in the window around the current one, and takes one of the slots of its round, so while
the window stands still the slots of the window are all there are.  But a slot is given back by a commit and by nothing
else.  As long as every certificate that moves the round commits, the slots left are the window's (`votes_bounded`);
rounds that are given up on leave theirs behind.
-/
namespace Diem

/-! ## Slots -/

/-- A commit gives back the slots up to the block committed. -/
theorem processQC_voters {history fuel : Nat} {l l' : MemLedger} {t t' : BlockTree} {qc : Option QuorumCert}
    {bs : List Block} (h : BlockTree.processQC history fuel l t qc = .ok (l', t', bs)) :
    Table.Sub t'.voters t.voters ∧ ∀ q ∈ qc, commits q.ledgerCommitInfo = true →
      t'.voters.Holds (fun k _ => q.voteInfo.parentRound < k.round) := by
  cases qc with
  | none =>
    cases h
    exact ⟨Table.Sub.refl _, fun q hq => (by cases hq)⟩
  | some q =>
    obtain ⟨-, ⟨-, -, rfl⟩ | ⟨hc, -, -, rfl⟩⟩ := BlockTree.processQC_ok h
    · refine ⟨Table.sub_filter _ _, fun q' hq' _ k v hk => ?_⟩
      cases hq'
      simp only [BlockTree.prune, Table.lookup_filter, Option.filter_eq_some_iff, Bool.not_eq_eq_eq_not, Bool.not_true,
        decide_eq_false_iff_not, UInt64.not_le] at hk
      exact hk.2
    · refine ⟨Table.Sub.refl _, fun q' hq' hc' => ?_⟩
      cases hq'
      rw [hc] at hc'
      cases hc'

/-- **Every bucket has a slot of its own**, `owner` telling which bucket a slot was taken for. -/
def Owned (owner : VoterKey → Bytes) (t : BlockTree) : Prop :=
  t.votes.Holds (fun idx b => ∃ k : VoterKey, (t.voters.lookup k).isSome = true ∧ k.round = b.voteInfo.round ∧
    owner k = idx)

theorem Owned.processQC {owner : VoterKey → Bytes} {history fuel : Nat} {l l' : MemLedger} {t t' : BlockTree}
    {qc : QuorumCert} {bs : List Block} (ht : Owned owner t)
    (h : BlockTree.processQC history fuel l t (some qc) = .ok (l', t', bs)) : Owned owner t' := by
  obtain ⟨-, ⟨-, -, rfl⟩ | ⟨-, -, -, rfl⟩⟩ := BlockTree.processQC_ok h
  · -- a bucket goes by its round, and so does the slot it has
    intro idx b hb
    simp only [BlockTree.prune, Table.lookup_filter, Option.filter_eq_some_iff] at hb
    obtain ⟨k, hk, hround, howner⟩ := ht idx b hb.1
    refine ⟨k, ?_, hround, howner⟩
    obtain ⟨u, hu⟩ := Option.isSome_iff_exists.1 hk
    simp only [BlockTree.prune, Table.lookup_filter, Option.isSome_filter, hu]
    rw [hround]
    exact hb.2
  · exact ht

theorem Owned.accumulate {owner : VoterKey → Bytes} {cr : Crypto} {env : Env} {id : UInt32} {quorum : Nat}
    {t t' : BlockTree} {m : VoteMsg} {qc : Option QuorumCert} (ht : Owned owner t)
    (h : t.accumulate cr env id quorum m = (t', qc)) : ∃ owner', Owned owner' t' := by
  rcases accumulate_cases h with ⟨rfl, -⟩ | ⟨hnew, b, rfl, -, -, hvoters, hsub, -⟩
  · exact ⟨owner, ht⟩
  refine ⟨Function.update owner ⟨m.voteInfo.round, m.sender⟩ (ledgerCommitDigest cr m.ledgerCommitInfo), ?_⟩
  unfold Owned
  rw [hvoters]
  -- a slot that was taken before is not the vote's
  have hold : ∀ {idx : Bytes} {r : UInt64},
      (∃ k : VoterKey, (t.voters.lookup k).isSome = true ∧ k.round = r ∧ owner k = idx) →
      ∃ k : VoterKey, ((t.voters.insert ⟨m.voteInfo.round, m.sender⟩ ()).lookup k).isSome = true ∧ k.round = r ∧
        Function.update owner ⟨m.voteInfo.round, m.sender⟩ (ledgerCommitDigest cr m.ledgerCommitInfo) k = idx := by
    rintro idx r ⟨k, hk, hround, howner⟩
    have hne : k ≠ ⟨m.voteInfo.round, m.sender⟩ := fun heq => hnew (heq ▸ hk)
    exact ⟨k, by rw [AList.lookup_insert_ne hne]; exact hk, hround, by rw [Function.update_of_ne hne]; exact howner⟩
  refine hsub.holds (Table.holds_insert (fun idx b hb => hold (ht idx b hb)) ?_)
  cases hl : t.votes.lookup (ledgerCommitDigest cr m.ledgerCommitInfo) with
  | none =>
    have hb : bucketOf cr t m = { voteInfo := m.voteInfo, commit := m.ledgerCommitInfo, sigs := default } := by
      rw [bucketOf, hl]; rfl
    rw [hb]
    exact ⟨⟨m.voteInfo.round, m.sender⟩, by rw [AList.lookup_insert]; rfl, rfl, Function.update_self _ _ _⟩
  | some b =>
    have hb : bucketOf cr t m = b := by rw [bucketOf, hl]; rfl
    rw [hb]
    exact hold (ht _ b hl)

/-- Owners tell buckets apart: there are no more than slots. -/
theorem Owned.length_le {owner : VoterKey → Bytes} {t : BlockTree} (h : Owned owner t) :
    t.votes.entries.length ≤ t.voters.entries.length := by
  have hslot : ∀ idx ∈ t.votes.keys, ∃ k ∈ t.voters.keys, owner k = idx := by
    intro idx hidx
    obtain ⟨b, hb⟩ := Option.isSome_iff_exists.1 (AList.lookup_isSome.2 hidx)
    obtain ⟨k, hk, -, howner⟩ := h idx b hb
    exact ⟨k, AList.lookup_isSome.1 hk, howner⟩
  have hle := Table.length_le (m := t.votes) id (fun _ _ _ _ heq => heq) (L := t.voters.keys.map owner)
    (fun idx hidx => by
    obtain ⟨k, hk, rfl⟩ := hslot idx hidx
    exact List.mem_map.2 ⟨k, hk, rfl⟩)
  rwa [List.length_map, AList.keys, List.keys, List.length_map] at hle

/-! ## The window -/

/-- **The slots of the window** around round `r`: those of six rounds, one a validator. -/
def window (validators : List UInt32) (r : UInt64) : List (Nat × UInt32) :=
  List.range' (r.toNat - 1) (maxRoundLead.toNat + 2) ×ˢ validators

theorem length_window (validators : List UInt32) (r : UInt64) :
    (window validators r).length = validators.length * (maxRoundLead.toNat + 2) := by
  rw [window, List.length_product, List.length_range', Nat.mul_comm]

/-- The slot lies in the window: not before the round before the current one, nor beyond the lead. -/
structure Inside (validators : List UInt32) (r : UInt64) (k : VoterKey) : Prop where
  signer : k.signer ∈ validators
  low    : r.toNat ≤ k.round.toNat + 1
  high   : k.round.toNat ≤ r.toNat + maxRoundLead.toNat

theorem Inside.mem_window {validators : List UInt32} {r : UInt64} {k : VoterKey} (h : Inside validators r k) :
    (k.round.toNat, k.signer) ∈ window validators r := by
  have hlow := h.low
  have hhigh := h.high
  rw [window, List.mem_product, List.mem_range'_1]
  exact ⟨by omega, h.signer⟩

/-- `ProcessVoteMsg` compares machine words, and wrapping lets nothing in. -/
theorem InWindow.inside {c : Core} {m : VoteMsg} (h : InWindow c m) {validators : List UInt32}
    (hm : m.sender ∈ validators) : Inside validators c.pacemaker.currentRound ⟨m.voteInfo.round, m.sender⟩ := by
  rw [InWindow, not_or, UInt64.not_lt, UInt64.not_lt, UInt64.le_iff_toNat_le, UInt64.le_iff_toNat_le, UInt64.toNat_add,
    UInt64.toNat_add] at h
  have h4 : maxRoundLead.toNat = 4 := rfl
  have h1 : (1 : UInt64).toNat = 1 := rfl
  have hr := m.voteInfo.round.toNat_lt
  have hc := c.pacemaker.currentRound.toNat_lt
  rw [h4, h1] at h
  exact ⟨hm, by simp only; omega, by simp only [h4]; omega⟩

/-- **Slots inside the window are as many as it has**, at most. -/
theorem length_le_of_inside {validators : List UInt32} {r : UInt64} {voters : Table VoterKey Unit}
    (h : voters.Holds (fun k _ => Inside validators r k)) :
    voters.entries.length ≤ validators.length * (maxRoundLead.toNat + 2) := by
  rw [← length_window validators r]
  refine Table.length_le (fun k => (k.round.toNat, k.signer)) (fun k _ k' _ heq => ?_) (fun k hk => ?_)
  · obtain ⟨hround, hsigner⟩ := Prod.mk.inj heq
    cases k
    cases k'
    cases hsigner
    cases UInt64.toNat_inj.1 hround
    rfl
  · obtain ⟨u, hu⟩ := Option.isSome_iff_exists.1 (AList.lookup_isSome.2 hk)
    exact (h k u hu).mem_window

/-! ## Steps -/

theorem Pacemaker.advanceRoundQC_not_mem_remoteOps (p : Pacemaker) (faulty : Nat) (info : TimeoutInfo)
    (q : QuorumCert) : .advanceRoundQC q ∉ p.remoteOps faulty info := by
  by_cases hdrop : info.round < p.currentRound ∨ info.sender ∈ (p.bucket info.round).senders
  · rw [remoteOps_drop hdrop]
    simp
  · rw [not_or] at hdrop
    rw [remoteOps_file hdrop.1 hdrop.2]
    split <;> simp

namespace Core

variable {cr : Crypto} {cfg : Config} {env : Env} {c c' : Core} {e : Event} {eff : List Effect}

theorem processCertificateQC_voters {qc : Option QuorumCert} {moved : Bool}
    (h : processCertificateQC cr cfg env c qc = .ok ((c', moved), eff)) :
    Table.Sub c'.tree.voters c.tree.voters ∧ ∀ q ∈ qc, commits q.ledgerCommitInfo = true →
      c'.tree.voters.Holds (fun k _ => q.voteInfo.parentRound < k.round) := by
  cases qc with
  | none =>
    cases h
    exact ⟨Table.Sub.refl _, fun q hq => (by cases hq)⟩
  | some q =>
    obtain ⟨l, t, bs, le, hq, -, rfl, -, -⟩ := processCertificateQC_ok h
    exact processQC_voters hq

theorem processCertificates_voters {qc highCommitQc : Option QuorumCert} {tc : Option TimeoutCert}
    (h : processCertificates cr cfg env c qc highCommitQc tc = .ok (c', eff)) :
    Table.Sub c'.tree.voters c.tree.voters ∧ ∀ q, .advanceRoundQC q ∈ certificateOps qc highCommitQc tc →
      commits q.ledgerCommitInfo = true → c'.tree.voters.Holds (fun k _ => q.voteInfo.parentRound < k.round) := by
  obtain ⟨c₁, _, eff₁, c₂, _, eff₂, h₁, h₂, rfl, -⟩ := processCertificates_ok h
  obtain ⟨hsub₁, hq₁⟩ := processCertificateQC_voters h₁
  obtain ⟨hsub₂, hq₂⟩ := processCertificateQC_voters h₂
  refine ⟨hsub₂.trans hsub₁, fun q hop hc => ?_⟩
  have hmem : q ∈ qc ∨ q ∈ highCommitQc := by simpa [certificateOps] using hop
  rcases hmem with hmem | hmem
  · exact hsub₂.holds (hq₁ q hmem hc)
  · exact hq₂ q hmem hc

/-- **Where the slots after a step come from**: they were there before, or one is that of the vote it took in; and of
those a certificate of the step's committed past, none is left. -/
theorem step_voters (hs : c.step cr cfg env e = .ok (c', eff)) :
    c'.tree.voters.Holds (fun k _ => (c.tree.voters.lookup k).isSome = true ∨
        ∃ m, e = .vote m ∧ InWindow c m ∧ k = ⟨m.voteInfo.round, m.sender⟩) ∧
      ∀ q, .advanceRoundQC q ∈ c.ops cr cfg env e → commits q.ledgerCommitInfo = true →
        c'.tree.voters.Holds (fun k _ => q.voteInfo.parentRound < k.round) := by
  have hkept : ∀ {voters : Table VoterKey Unit}, Table.Sub voters c.tree.voters →
      voters.Holds (fun k _ => (c.tree.voters.lookup k).isSome = true ∨
        ∃ m, e = .vote m ∧ InWindow c m ∧ k = ⟨m.voteInfo.round, m.sender⟩) := fun hsub k v hk =>
    .inl (by rw [hsub k v hk]; rfl)
  cases e with
  | proposal p =>
    obtain ⟨c₁, eff₁, h₁, ⟨-, rfl, -⟩ | ⟨-, -, -, c₂, eff₂, hins, rfl, -⟩⟩ := processProposalMsg_cases hs
    · obtain ⟨hsub, hq⟩ := processCertificates_voters h₁
      exact ⟨hkept hsub, hq⟩
    · obtain ⟨rfl, -⟩ := insert_ok hins
      obtain ⟨hsub, hq⟩ := processCertificates_voters h₁
      exact ⟨hkept hsub, hq⟩
  | vote m =>
    rcases processVoteMsg_ok hs with ⟨hwin, rfl, -⟩ | ⟨hwin, l, t, bs, hp, hend⟩
    · refine ⟨hkept (Table.Sub.refl _), fun q hq => ?_⟩
      rw [ops, if_pos (not_not.1 hwin)] at hq
      cases hq
    have hsub := (processQC_voters hp).1
    -- the vote takes its slot before the certificate it may complete is processed
    have hslot : ∀ {t' : BlockTree} {qc : Option QuorumCert}, t.accumulate cr env cfg.id cfg.quorum m = (t', qc) →
        t'.voters.Holds (fun k _ => (c.tree.voters.lookup k).isSome = true ∨
          ∃ m', Event.vote m = .vote m' ∧ InWindow c m' ∧ k = ⟨m'.voteInfo.round, m'.sender⟩) := by
      intro t' qc hacc
      rcases accumulate_cases hacc with ⟨rfl, -⟩ | ⟨-, b, -, -, -, hvoters, -, -⟩
      · exact hkept hsub
      · rw [hvoters]
        exact Table.holds_insert (hkept hsub) (.inr ⟨m, rfl, hwin, rfl⟩)
    rcases hend with ⟨t', hacc, rfl, -⟩ | ⟨t', q, moved, eff', hacc, hcert, -⟩
    · refine ⟨hslot hacc, fun q hq => ?_⟩
      simp only [ops, if_neg hwin, processVote_of_accumulate hp hacc] at hq
      cases hq
    · obtain ⟨hsub', hq'⟩ := processCertificateQC_voters hcert
      refine ⟨hsub'.holds (hslot hacc), fun q' hq => ?_⟩
      simp only [ops, if_neg hwin, processVote_of_accumulate hp hacc, Option.toList_some, List.map_cons, List.map_nil,
        List.mem_singleton, Pacemaker.Op.advanceRoundQC.injEq] at hq
      rw [hq]
      exact hq' q rfl
  | timeout m =>
    obtain ⟨c₁, eff₁, p, s, out, tc, h₁, h₂, hend⟩ := processTimeoutMsg_ok hs
    obtain ⟨hsub, hq⟩ := processCertificates_voters h₁
    have htree : c'.tree = c₁.tree := by
      rcases hend with ⟨-, rfl, -⟩ | ⟨t, -, -, -, rfl, -⟩ <;> rfl
    rw [htree]
    refine ⟨hkept hsub, fun q hop => hq q ?_⟩
    simp only [ops, h₁, List.mem_append] at hop
    rcases hop with hop | hop | hop
    · exact hop
    · exact absurd hop (Pacemaker.advanceRoundQC_not_mem_remoteOps _ _ _ _)
    · simp at hop
  | localTimeout epoch =>
    refine ⟨hkept ?_, fun q hq => ?_⟩
    · rw [step] at hs
      split at hs <;> cases hs <;> exact Table.Sub.refl _
    · simp only [ops] at hq
      split at hq <;> simp at hq
  | block b =>
    obtain ⟨rfl, -⟩ := insert_ok hs
    exact ⟨hkept (Table.Sub.refl _), fun q hq => (by cases hq)⟩
  | blockRequest id =>
    cases hs
    exact ⟨hkept (Table.Sub.refl _), fun q hq => (by cases hq)⟩

theorem step_owned (hs : c.step cr cfg env e = .ok (c', eff)) (h : ∃ owner, Owned owner c.tree) :
    ∃ owner, Owned owner c'.tree := by
  refine Stores.writes_induct (I := fun s => ∃ owner, Owned owner s.tree) (fun s w s' _ _ ho hw => ?_)
    (Stores.along_of_forall (fun _ _ => trivial) _ c.stores) h (step_writes hs)
  obtain ⟨owner, ho⟩ := ho
  cases w with
  | processQC q =>
    obtain ⟨bs, hq⟩ := Stores.write_processQC hw
    exact ⟨owner, ho.processQC hq⟩
  | executeAndInsert b =>
    cases hw
    exact ⟨owner, ho⟩
  | accumulate m =>
    cases hw
    exact ho.accumulate rfl

/-- The round the pacemaker is taken to. -/
def roundAfter (cr : Crypto) (cfg : Config) (env : Env) (c : Core) (e : Event) : UInt64 :=
  (c.pacemaker.performs (c.ops cr cfg env e)).currentRound

/-- The step leaves the round alone, or moves it on a certificate that commits: the block it commits is of the second
round before the one it enters. -/
def Steady (cr : Crypto) (cfg : Config) (env : Env) (c : Core) (e : Event) : Prop :=
  c.roundAfter cr cfg env e = c.pacemaker.currentRound ∨
  (c.pacemaker.currentRound ≤ c.roundAfter cr cfg env e ∧ ∃ q, .advanceRoundQC q ∈ c.ops cr cfg env e ∧
    commits q.ledgerCommitInfo = true ∧ q.voteInfo.parentRound.toNat + 2 = (c.roundAfter cr cfg env e).toNat)

/-- A verified event that leaves the rounds steady. -/
def Calm (cr : Crypto) (cfg : Config) (env : Env) (c : Core) (e : Event) : Prop :=
  e.Verified (verifier cr cfg) ∧ c.Steady cr cfg env e

/-- The pacemaker is told of a certificate that commits, two rounds below round `r`. -/
def commitsBelow (r : UInt64) : Pacemaker.Op → Bool
  | .advanceRoundQC q  => commits q.ledgerCommitInfo && decide (q.voteInfo.parentRound.toNat + 2 = r.toNat)
  | .advanceRoundTC _  => false
  | .file _            => false
  | .localTimeoutRound => false
  | .amplify           => false

/-- `Calm`, as a test. -/
def calm (cr : Crypto) (cfg : Config) (env : Env) (c : Core) (e : Event) : Bool :=
  e.verify (verifier cr cfg) && (decide (c.roundAfter cr cfg env e = c.pacemaker.currentRound) ||
    (decide (c.pacemaker.currentRound ≤ c.roundAfter cr cfg env e) &&
      (c.ops cr cfg env e).any (commitsBelow (c.roundAfter cr cfg env e))))

theorem calm_of_test (c : Core) (e : Event) (h : c.calm cr cfg env e = true) : c.Calm cr cfg env e := by
  rw [calm, Bool.and_eq_true] at h
  refine ⟨e.verified_of_verify h.1, ?_⟩
  have hmove := h.2
  simp only [Bool.or_eq_true, Bool.and_eq_true, decide_eq_true_eq, List.any_eq_true] at hmove
  rcases hmove with hsame | ⟨hle, op, hop, hbelow⟩
  · exact .inl hsame
  cases op with
  | advanceRoundQC q =>
    simp only [commitsBelow, Bool.and_eq_true, decide_eq_true_eq] at hbelow
    exact .inr ⟨hle, q, hop, hbelow⟩
  | advanceRoundTC t => cases hbelow
  | file info => cases hbelow
  | localTimeoutRound => cases hbelow
  | amplify => cases hbelow

/-- The slots stay inside the window as it moves. -/
theorem Calm.inside {N : Net} {i : UInt32} (hcalm : c.Calm N.crypto (N.config i) env e)
    (hs : c.step N.crypto (N.config i) env e = .ok (c', eff))
    (h : c.tree.voters.Holds (fun k _ => Inside N.validators c.pacemaker.currentRound k)) :
    c'.tree.voters.Holds (fun k _ => Inside N.validators c'.pacemaker.currentRound k) := by
  obtain ⟨hfrom, hpast⟩ := step_voters hs
  have hbefore : c'.tree.voters.Holds (fun k _ => Inside N.validators c.pacemaker.currentRound k) := by
    intro k u hk
    rcases hfrom k u hk with hold | ⟨m, rfl, hwin, rfl⟩
    · obtain ⟨u', hu'⟩ := Option.isSome_iff_exists.1 hold
      exact h k u' hu'
    · obtain ⟨hsigner, -, -, hsig, -⟩ := (Verifier.verifyVote_iff _ m).1 hcalm.1
      refine hwin.inside ?_
      rw [← hsigner]
      exact N.registered _ _ _ hsig
  have hafter : c.roundAfter N.crypto (N.config i) env e = c'.pacemaker.currentRound := by
    rw [roundAfter, step_performs hs]
  rcases hcalm.2 with hsame | ⟨hle, q, hop, hc, hround⟩
  · rw [← hafter, hsame]
    exact hbefore
  · rw [hafter] at hle hround
    intro k u hk
    obtain ⟨hsigner, hlow, hhigh⟩ := hbefore k u hk
    have habove := UInt64.lt_iff_toNat_lt.1 (hpast q hop hc k u hk)
    rw [UInt64.le_iff_toNat_le] at hle
    exact ⟨hsigner, by omega, by omega⟩

end Core

/-- **The accumulator is bounded while certificates commit**: in every history over accepted events in which each step
that moves the round does so on a certificate that commits, there are no more slots taken, nor buckets, than the window
has slots. -/
theorem votes_bounded {N : Net} {i : UInt32} {ts : List Turn} {c : Core}
    (h : Core.Heard N.crypto (N.config i) (Core.Calm N.crypto (N.config i)) ts c) :
    c.tree.votes.entries.length ≤ N.validators.length * (maxRoundLead.toNat + 2) ∧
      c.tree.voters.entries.length ≤ N.validators.length * (maxRoundLead.toNat + 2) := by
  have hinv : (∃ owner, Owned owner c.tree) ∧
      c.tree.voters.Holds (fun k _ => Inside N.validators c.pacemaker.currentRound k) := by
    refine h.invariant (J := fun _ c => (∃ owner, Owned owner c.tree) ∧
      c.tree.voters.Holds (fun k _ => Inside N.validators c.pacemaker.currentRound k)) (fun env c hnew => ?_)
      (fun ts c env e c' eff hinv hP hs => ?_)
    · cases newCore_eq hnew
      exact ⟨⟨fun _ => default, fun idx b hb => (by cases hb)⟩, fun k u hk => (by cases hk)⟩
    · exact ⟨Core.step_owned hs hinv.1, hP.inside hs hinv.2⟩
  obtain ⟨⟨owner, howned⟩, hinside⟩ := hinv
  have hvoters := length_le_of_inside hinside
  exact ⟨Nat.le_trans howned.length_le hvoters, hvoters⟩

/-- Replica 3 of the chain hears the Byzantine validator's votes for rounds 1 and 3, and then the second and the third
proposal: of the two slots one is left, in round 3. -/
theorem chain_votes_bounded :
    ∃ ts c, Core.Heard Chain.net.crypto (Chain.net.config 3) (Core.Calm Chain.net.crypto (Chain.net.config 3)) ts c ∧
      c.pacemaker.currentRound = 3 ∧ c.tree.voters.entries.length = 1 ∧ c.tree.votes.entries.length ≤ 24 := by
  have hplay : Core.hears Chain.net.crypto (Chain.net.config 3) Chain.env
      (Core.calm Chain.net.crypto (Chain.net.config 3) Chain.env)
      [.vote (Chain.vote 1 2 (Chain.cert 0)), .vote (Chain.vote 3 2 (Chain.cert 0)), .proposal (Chain.proposal 2 none),
        .proposal (Chain.proposal 3 (some (Chain.cert 2)))]
      (fun _ c => decide (c.pacemaker.currentRound = 3 ∧ c.tree.voters.entries.length = 1)) = true := by decide +kernel
  obtain ⟨ts, c, hheard, hcheck⟩ := Core.Heard.of_hears Core.calm_of_test hplay
  obtain ⟨hround, hlen⟩ := of_decide_eq_true hcheck
  exact ⟨ts, c, hheard, hround, hlen, (votes_bounded hheard).1⟩

/-! ## Rounds given up on -/

namespace Flood

/-- What the Byzantine validator votes for, in a round it chooses. -/
def info (r : Nat) : VoteInfo :=
  { id := digest 1, round := r.toUInt64, parentId := digest 1, parentRound := 0, execStateId := digest 2 }

def commit (r : Nat) : LedgerCommitInfo := { commitStateId := zeroHash, voteInfoHash := digest (23 + 2 * r) }

def vote (r : Nat) : VoteMsg :=
  { voteInfo := info r, ledgerCommitInfo := commit r, highCommitQc := some (Chain.cert 0), sender := 2,
    sig := ⟨2, default⟩ }

/-- The certificate of the replicas that give up on round `r`, nothing certified yet. -/
def tc (r : Nat) : TimeoutCert :=
  { round := r.toUInt64, votes := [⟨0, ⟨1, default⟩⟩, ⟨0, ⟨2, default⟩⟩, ⟨0, ⟨4, default⟩⟩] }

/-- It comes with the Byzantine validator's timeout of the round after. -/
def timeout (r : Nat) : TimeoutMsg where
  tmoInfo      := { round := (r + 1).toUInt64, highQc := some (Chain.cert 0), sender := 2, sig := ⟨2, default⟩ }
  lastRoundTc  := some (tc r)
  highCommitQc := some (Chain.cert 0)

/-- Replica 1 proposes once, and replicas 1 and 4 sign nothing else but timeouts.  Digest `r + 3` is that of the timeout
of round `r`, and `2r + 23` and `2r + 24` are those of the vote for it. -/
def book : Book :=
  { Chain.book [] with
    strings := blockBytes 0 0 default (some genesisSeedQC) :: executeBytes zeroHash default ::
      blockBytes 1 1 default (some (Chain.cert 0)) :: (List.range' 1 21).map (fun r => timeoutBytes r.toUInt64 0) ++
      (List.range' 1 25).flatMap (fun r => [voteInfoBytes (info r), ledgerCommitBytes (commit r)])
    signed  := (1, digest 3) :: (List.range' 1 20).flatMap (fun r => [(1, digest (r + 3)), (4, digest (r + 3))])
    fits    := by decide
    genesis := List.mem_cons_self }

abbrev net : Net := book.net 1 2

/-- No proposal arrives.  Replicas 1 and 4 time out of round `r`, the Byzantine validator tells them so, and votes for
the last round of replica 1's new window. -/
def giveUp (r : Nat) : List Move :=
  [.event 1 (.localTimeout (2 * r - 1).toUInt64), .event 4 (.localTimeout (2 * r - 1).toUInt64),
   .event 1 (.timeout (timeout r)), .event 4 (.timeout (timeout r)), .event 1 (.vote (vote (r + 5)))]

def moves : List Move :=
  [.start 1, .start 4] ++ (List.range' 1 5).map (fun r => .event 1 (.vote (vote r))) ++
    (List.range' 1 20).flatMap giveUp

end Flood

/-- **Rounds that are given up on leave their votes behind**: after twenty of them, each ended by a TC, replica 1 holds
25 votes of one Byzantine validator in 25 buckets, where the window has 24 slots for all four. -/
theorem votes_unbounded : ∃ σ c, Flood.net.Reached Net.AnyEvent σ ∧ σ.status 1 = .running c ∧
    Flood.net.validators.length * (maxRoundLead.toNat + 2) < c.tree.votes.entries.length ∧
    Flood.net.validators.length * (maxRoundLead.toNat + 2) < c.tree.voters.entries.length := by
  have h : Flood.book.plays 1 2 Chain.env Flood.moves [] (fun σ => σ.check 1 (fun c =>
      decide (24 < c.tree.votes.entries.length ∧ 24 < c.tree.voters.entries.length))) (fun _ => true) = true := by
    decide +kernel
  obtain ⟨σ, hσ, htest⟩ := (Book.reached h).1 Net.AnyEvent (fun _ _ _ _ => trivial)
  obtain ⟨c, hc, hlen⟩ := Sys.running_of_check htest
  exact ⟨σ, c, hσ, hc, of_decide_eq_true hlen⟩

end Diem

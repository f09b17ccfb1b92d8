import Mathlib.Data.Finset.Lattice.Fold
import Mathlib.Order.Lattice.Nat
import Diem.Causal
import Diem.Turns
/-!
# Inflation — Byzantine replicas cannot raise rounds

A certificate of a round takes a quorum, and the honest part of a quorum has voted, or timed out, in that round.  So in
a causal run no certificate is of a round that no honest replica has been in, whether it came with a message or was put
together from votes and timeouts that did: the furthest replica moves by one round a step, and none goes back before the
rounds run out.
-/
namespace Diem

/-- The round a vote or a timeout is for. -/
def Signed.ballot : Signed → Option UInt64
  | .vote m    => some m.voteInfo.round
  | .timeout m => some m.round
  | .block _   => none
  | .sigs _    => none

def Signed.round (x : Signed) : UInt64 := x.ballot.getD 0

/-! ## Who stands behind a certificate -/

section

variable {G : Group} {log : List (UInt32 × Signed)} (hsound : ∀ i x, (i, x) ∈ log → G.Sound x)

/-- The honest part of a quorum. -/
theorem Group.honest_part {A : Finset UInt32} (hA : ∀ i ∈ A, i ∈ G.validators)
    (hq : quorumSize G.validators.length ≤ A.card) :
    ∃ B ⊆ A, quorumSize G.validators.length - faulty G.validators.length ≤ B.card ∧ ∀ i ∈ B, G.Honest i := by
  refine ⟨A \ G.byzantine, Finset.sdiff_subset, ?_, fun i hi => ?_⟩
  · have hcard := Finset.le_card_sdiff G.byzantine A
    have hfew := G.few
    omega
  · obtain ⟨hiA, hib⟩ := Finset.mem_sdiff.1 hi
    exact ⟨hA i hiA, hib⟩

include hsound

/-- **A quorum of votes that were not forged.** -/
theorem voters_of_sigs {v : VoteInfo} {l : LedgerCommitInfo} {sigs : List Signature}
    (honce : (sigs.map Signature.signer).Nodup)
    (hsig : ∀ s ∈ sigs, verifySig G.crypto (ledgerCommitDigest G.crypto l) s = true)
    (hlen : G.verifier.quorum ≤ sigs.length) (hvalid : validVote v l = true)
    (hbind : voteInfoHash G.crypto v = l.voteInfoHash)
    (hknown : voteInfoBytes v ∈ G.hashed ∧ ledgerCommitBytes l ∈ G.hashed)
    (hsrc : ∀ s ∈ sigs, G.SignedBy log s.signer (ledgerCommitDigest G.crypto l)) :
    ∃ A : Finset UInt32, quorumSize G.validators.length - faulty G.validators.length ≤ A.card ∧
      ∀ i ∈ A, G.Honest i ∧ ∃ m, (i, .vote m) ∈ log ∧ m.voteInfo.round = v.round := by
  obtain ⟨hid, hparent, -, -, hhash⟩ := (validVote_iff _ _).1 hvalid
  obtain ⟨A, hA, hcard, hhonest⟩ := G.honest_part (A := (sigs.map Signature.signer).toFinset) (fun i hi => by
    obtain ⟨s, hs, rfl⟩ := List.mem_map.1 (List.mem_toFinset.1 hi)
    exact G.registered _ _ _ (hsig s hs)) (by rw [List.toFinset_card_of_nodup honce, List.length_map]; exact hlen)
  refine ⟨A, hcard, fun i hi => ⟨hhonest i hi, ?_⟩⟩
  obtain ⟨s, hs, rfl⟩ := List.mem_map.1 (List.mem_toFinset.1 (hA hi))
  obtain ⟨x, hx, hd⟩ := hsrc s hs (hhonest _ hi)
  obtain ⟨m, b, tc, rfl, -, hvouch⟩ := (hsound _ x hx).vote hd hknown.2 hhash
  exact ⟨m, hx, by rw [hvouch.info_eq hknown.1 hbind hid hparent]⟩

theorem voters_of_qc {q : QuorumCert} (hq : G.AcceptsQC (some q)) (h0 : q.voteInfo.round ≠ 0)
    (hsrc : G.Sourced log (q.votes G.crypto)) :
    ∃ A : Finset UInt32, quorumSize G.validators.length - faulty G.validators.length ≤ A.card ∧
      ∀ i ∈ A, G.Honest i ∧ ∃ m, (i, .vote m) ∈ log ∧ m.voteInfo.round = q.voteInfo.round := by
  obtain ⟨hvalid, ⟨hz, -⟩ | ⟨-, hbind, -, hcert, -⟩⟩ := (G.verifier.verifyQC_iff q).1 hq.1
  · exact absurd hz h0
  obtain ⟨hord, hsig, hlen⟩ := (G.verifier.verifyCert_iff _ _).1 hcert
  refine voters_of_sigs hsound (Group.signers_nodup (fun s => s) hord) hsig hlen hvalid hbind (hq.2 q rfl h0)
    (fun s hs => ?_)
  exact hsrc (s.signer, ledgerCommitDigest G.crypto q.ledgerCommitInfo) (List.mem_map.2 ⟨s, hs, rfl⟩)

/-- **A quorum of timeouts that were not forged.** -/
theorem quitters_of_tc {t : TimeoutCert} (ht : G.AcceptsTC (some t)) (hsrc : G.Sourced log (t.timeouts G.crypto)) :
    ∃ A : Finset UInt32, quorumSize G.validators.length - faulty G.validators.length ≤ A.card ∧
      ∀ i ∈ A, G.Honest i ∧ ∃ m, (i, .timeout m) ∈ log ∧ m.round = t.round := by
  obtain ⟨-, hord, hsig, hlen⟩ := (G.verifier.verifyTC_iff t).1 ht.1
  obtain ⟨A, hA, hcard, hhonest⟩ := G.honest_part (A := (t.votes.map (fun w => w.sig.signer)).toFinset) (fun i hi => by
    obtain ⟨w, hw, rfl⟩ := List.mem_map.1 (List.mem_toFinset.1 hi)
    exact G.registered _ _ _ (hsig w hw)) (by rw [Group.signers_card _ hord]; exact hlen)
  refine ⟨A, hcard, fun i hi => ⟨hhonest i hi, ?_⟩⟩
  obtain ⟨w, hw, rfl⟩ := List.mem_map.1 (List.mem_toFinset.1 (hA hi))
  obtain ⟨x, hx, hd⟩ := hsrc (w.sig.signer, _) (List.mem_map.2 ⟨w, hw, rfl⟩) (hhonest _ hi)
  obtain ⟨m, rfl, hr, -⟩ := (hsound _ x hx).timeout hd (ht.2 t rfl w hw)
  exact ⟨m, hx, hr⟩

end

/-! ## What a replica has counted -/

/-- The votes of the bucket have been cast. -/
def Cast (N : Net) (log : List (UInt32 × Signed)) (b : VoteBucket) : Prop :=
  ∀ s ∈ b.sigs.elems, N.SignedBy log s.signer (ledgerCommitDigest N.crypto b.commit)

/-- A vote that was cast keeps its bucket so, and the certificate it completes is of votes that were. -/
theorem accumulate_cast {N : Net} {log : List (UInt32 × Signed)} {i : UInt32} {env : Env}
    {t t' : BlockTree} {m : VoteMsg} {qc : Option QuorumCert} (ht : t.votes.Holds (BucketInv N.toGroup t.voters))
    (hcast : t.votes.Holds (fun _ => Cast N log)) (he : N.Admits (.vote m))
    (hm : N.SignedBy log m.sig.signer (ledgerCommitDigest N.crypto m.ledgerCommitInfo))
    (h : t.accumulate N.crypto env i N.verifier.quorum m = (t', qc)) :
    t'.votes.Holds (fun _ => Cast N log) ∧ ∀ q, qc = some q → N.Sourced log (q.votes N.crypto) := by
  rcases accumulate_cases h with ⟨rfl, rfl⟩ | ⟨-, b, hbucket, -, -, -, hsub, hq⟩
  · exact ⟨hcast, fun q hq => by cases hq⟩
  obtain ⟨-, hci, -⟩ := bucketOf_spec ht he
  rw [← hbucket] at hci
  have hbefore : Cast N log b := by
    rw [hbucket, bucketOf]
    cases hl : t.votes.lookup (ledgerCommitDigest N.crypto m.ledgerCommitInfo) with
    | none => exact fun s hs => by cases hs
    | some b' => exact hcast _ b' hl
  have hpush : Cast N log { b with sigs := b.sigs.push m.sig } := by
    intro s hs
    rcases b.sigs.elems_push m.sig with helems | helems
    · simp only [helems] at hs
      rcases List.mem_append.1 hs with hs | hs
      · exact hbefore s hs
      · rw [List.mem_singleton.1 hs, hci]
        exact hm
    · simp only [helems] at hs
      exact hbefore s hs
  refine ⟨hsub.holds (Table.holds_insert hcast hpush), fun q hqc d hd => ?_⟩
  obtain ⟨-, sig, -, rfl⟩ := hq q hqc
  obtain ⟨s, hs, rfl⟩ := List.mem_map.1 hd
  exact hpush s ((List.mem_insertionSort _).1 hs)

theorem Pacemaker.infos_startTimer {p : Pacemaker} {n r : UInt64} {x : TimeoutInfo}
    (h : x ∈ ((p.startTimer n).bucket r).infos) : x ∈ (p.bucket r).infos := by
  rw [bucket_startTimer] at h
  split at h
  · cases h
  · exact h

theorem Pacemaker.infos_advanceRoundQC {p : Pacemaker} {qc : QuorumCert} {r : UInt64} {x : TimeoutInfo}
    (h : x ∈ ((p.advanceRoundQC (some qc)).1.bucket r).infos) : x ∈ (p.bucket r).infos := by
  rw [advanceRoundQC_eq] at h
  split at h
  · exact h
  · exact infos_startTimer h

theorem Pacemaker.infos_advanceRoundTC {p : Pacemaker} {tc : TimeoutCert} {r : UInt64} {x : TimeoutInfo}
    (h : x ∈ ((p.advanceRoundTC (some tc)).1.bucket r).infos) : x ∈ (p.bucket r).infos := by
  rw [advanceRoundTC_eq] at h
  split at h
  · exact h
  · exact infos_startTimer h

/-- **The votes and timeouts a replica has counted were not forged.** -/
structure Counted (N : Net) (log : List (UInt32 × Signed)) (c : Core) : Prop where
  votes    : c.tree.votes.Holds (BucketInv N.toGroup c.tree.voters)
  voted    : c.tree.votes.Holds (fun _ => Cast N log)
  pace     : PaceInv N.toGroup c.pacemaker
  timedOut : ∀ r, ∀ x ∈ (c.pacemaker.bucket r).infos,
               N.SignedBy log x.sig.signer (timeoutDigest N.crypto r (qcRound x.highQc))

namespace Counted

variable {N : Net} {log log' : List (UInt32 × Signed)} {c c' : Core}

theorem mono (h : Counted N log c) (hlog : log ⊆ log') : Counted N log' c :=
  ⟨h.votes, fun idx b hb s hs => (h.voted idx b hb s hs).mono hlog, h.pace,
    fun r x hx => (h.timedOut r x hx).mono hlog⟩

/-- Votes and timeouts that were let go of do not matter. -/
theorem sub (h : Counted N log c) (hvotes : c'.tree.votes.Holds (BucketInv N.toGroup c'.tree.voters))
    (hsub : Table.Sub c'.tree.votes c.tree.votes) (hpace : PaceInv N.toGroup c'.pacemaker)
    (hinfos : ∀ r x, x ∈ (c'.pacemaker.bucket r).infos → x ∈ (c.pacemaker.bucket r).infos) : Counted N log c' :=
  ⟨hvotes, hsub.holds h.voted, hpace, fun r x hx => h.timedOut r x (hinfos r x hx)⟩

end Counted

/-! ## One step -/

section

variable {N : Net} {log : List (UInt32 × Signed)} {e : Event}

theorem Group.Sourced.of_subset {xs ys : List (UInt32 × Bytes)} (h : N.Sourced log ys) (hsub : xs ⊆ ys) :
    N.Sourced log xs := fun p hp => h p (hsub hp)

theorem votes_subset_ballots {q : QuorumCert} (hq : q ∈ e.qcs) : q.votes N.crypto ⊆ e.ballots N.crypto :=
  fun _ hp => List.mem_append_left _ (List.mem_append_left _ (List.mem_flatMap.2 ⟨q, hq, hp⟩))

theorem timeouts_subset_ballots {t : TimeoutCert} (ht : e.tc = some t) : t.timeouts N.crypto ⊆ e.ballots N.crypto :=
  fun _ hp => List.mem_append_left _ (List.mem_append_right _ (List.mem_flatMap.2 ⟨t, Option.mem_toList.2 ht, hp⟩))

variable (hsound : ∀ i x, (i, x) ∈ log → N.Sound x) {p : Nat} (hreach : ∀ i x, (i, x) ∈ log → x.round.toNat ≤ p)

/-- A quorum's honest part is not empty. -/
theorem exists_honest {A : Finset UInt32} (h : quorumSize N.validators.length - faulty N.validators.length ≤ A.card) :
    ∃ i, i ∈ A := by
  have hlt := faulty_lt_quorumSize N.validators.length
  exact Finset.card_pos.1 (by omega)

include hsound hreach

theorem qc_round_le {q : QuorumCert} (hq : N.AcceptsQC (some q)) (hsrc : N.Sourced log (q.votes N.crypto)) :
    q.voteInfo.round.toNat ≤ p := by
  by_cases h0 : q.voteInfo.round = 0
  · rw [h0]
    exact Nat.zero_le _
  · obtain ⟨A, hcard, hA⟩ := voters_of_qc hsound hq h0 hsrc
    obtain ⟨i, hi⟩ := exists_honest hcard
    obtain ⟨-, m, hm, hr⟩ := hA i hi
    rw [← hr]
    exact hreach i _ hm

theorem tc_round_le {t : TimeoutCert} (ht : N.AcceptsTC (some t)) (hsrc : N.Sourced log (t.timeouts N.crypto)) :
    t.round.toNat ≤ p := by
  obtain ⟨A, hcard, hA⟩ := quitters_of_tc hsound ht hsrc
  obtain ⟨i, hi⟩ := exists_honest hcard
  obtain ⟨-, m, hm, hr⟩ := hA i hi
  rw [← hr]
  exact hreach i _ hm

/-- A certificate completed by a vote is of a round that was voted in. -/
theorem assembled_round_le {i : UInt32} {env : Env} {t t' : BlockTree} {m : VoteMsg} {q : QuorumCert}
    (ht : t.votes.Holds (BucketInv N.toGroup t.voters)) (he : N.Admits (.vote m))
    (h : t.accumulate N.crypto env i N.verifier.quorum m = (t', some q))
    (hsrc : N.Sourced log (q.votes N.crypto)) : q.voteInfo.round.toNat ≤ p := by
  obtain ⟨b, sig, -, hinv, hlen, -, -, rfl⟩ := (accumulate_votes ht he h).2 q rfl
  obtain ⟨A, hcard, hA⟩ := voters_of_sigs hsound hinv.once hinv.signed hlen hinv.valid hinv.bound hinv.known
    (fun s hs => hsrc _ (List.mem_map.2 ⟨s, (List.mem_insertionSort _).2 hs, rfl⟩))
  obtain ⟨j, hj⟩ := exists_honest hcard
  obtain ⟨-, m', hm', hr⟩ := hA j hj
  show b.voteInfo.round.toNat ≤ p
  rw [← hr]
  exact hreach j _ hm'

/-- A TC a full bucket makes is of a round that was given up. -/
theorem completed_round_le {c : Core} (h : Counted N log c) {r : UInt64}
    (hlen : (c.pacemaker.bucket r).senders.length = N.verifier.quorum) : r.toNat ≤ p := by
  refine tc_round_le hsound hreach ((h.pace.buckets r).acceptsTC hlen) (fun d hd => ?_)
  obtain ⟨w, hw, rfl⟩ := List.mem_map.1 hd
  obtain ⟨x, hx, rfl⟩ := List.mem_map.1 ((List.mem_insertionSort _).1 hw)
  exact h.timedOut r x hx

end

/-- Where a replica goes on a certificate of round `r`. -/
theorem round_advance {cur r : UInt64} {p : Nat} (hr : r.toNat ≤ p) (hp : p < 2 ^ 64 - 1) (hcur : cur.toNat ≤ p + 1) :
    cur ≤ (if r < cur then cur else r + 1) ∧ (if r < cur then cur else r + 1).toNat ≤ p + 1 := by
  split
  · exact ⟨UInt64.le_refl _, hcur⟩
  · rename_i hlt
    have hsucc : (r + 1).toNat = r.toNat + 1 := by
      simp only [UInt64.toNat_add, UInt64.reduceToNat]
      omega
    rw [UInt64.lt_iff_toNat_lt] at hlt
    rw [UInt64.le_iff_toNat_le]
    omega

/-- A timeout is for the round it is sent in. -/
theorem timeout_round {N : Net} {i : UInt32} {env : Env} {c : Core} {x : Effect}
    (h : x ∈ (c.localTimeoutRound N.crypto (N.config i) env).2) :
    ∃ m, x = .timeout m ∧ m.tmoInfo.round = c.pacemaker.currentRound := by
  obtain ⟨m, hm, rfl⟩ := List.mem_map.1 h
  obtain ⟨info, hinfo, rfl⟩ := Option.map_eq_some_iff.1 (Option.mem_toList.1 hm)
  exact ⟨_, rfl, ((c.safety.makeTimeout_spec _ env _ _ _ _).2 info hinfo).info.1⟩

/-- Effects that are no votes and no timeouts are of no round. -/
theorem ballot_of_outside {x : Effect} (hx : (∀ v d, x ≠ .vote v d) ∧ ∀ m, x ≠ .timeout m) {y : Signed} {s : Bytes}
    (hy : x.signature = some (y, s)) : y.ballot = none := by
  cases x with
  | vote v d => exact absurd rfl (hx.1 v d)
  | timeout m => exact absurd rfl (hx.2 m)
  | proposal p => cases hy; rfl
  | assembled q => cases hy; rfl
  | requestBlock id => cases hy
  | reply b => cases hy
  | onCommit b => cases hy

/-- **A replica votes and times out in the round it is in.** -/
theorem micro_signed {N : Net} {i : UInt32} {env : Env} {c₀ : Core} {e : Event} {eff : List Effect} {c c' : Core}
    (hm : N.Micro i env c₀ e c eff c') {x : Effect} (hx : x ∈ eff) {y : Signed} {s : Bytes}
    (hy : x.signature = some (y, s)) : y.ballot = none ∨ y.ballot = some c.pacemaker.currentRound := by
  have hout : (∀ v d, x ≠ .vote v d) ∧ (∀ m, x ≠ .timeout m) → y.ballot = none ∨
      y.ballot = some c.pacemaker.currentRound :=
    fun hx => .inl (ballot_of_outside hx hy)
  cases hm with
  | cert _ qc _ moved _ hmem hproc =>
    obtain ⟨l, t, bs, le, -, -, -, -, rfl⟩ := Core.processCertificateQC_ok hproc
    exact hout (Net.outside_onCommit hx)
  | tc => cases hx
  | insert _ b _ _ _ hins =>
    obtain ⟨-, rfl | ⟨id, rfl⟩⟩ := Core.insert_ok hins
    · cases hx
    · rw [List.mem_singleton.1 hx] at hy
      cases hy
  | vote _ p b dest hp hb hround hqc =>
    obtain ⟨v, hv, rfl⟩ := List.mem_map.1 hx
    cases hy
    have hvoted := (c.safety.makeVote_spec N.verifier env i c.ledger c.tree b p.lastRoundTc).2 v
      (Option.mem_toList.1 hv)
    have hinfo : v.voteInfo.round = b.round := by rw [hvoted.info]
    exact .inr (congrArg some (hinfo.trans hround))
  | stop => cases hx
  | timeout =>
    obtain ⟨m, rfl, hround⟩ := timeout_round hx
    cases hy
    exact .inr (congrArg some hround)
  | note => cases hx
  | complete => exact hout (Net.outside_propose hx)
  | voteQC => exact hout (Net.outside_onCommit hx)
  | gather => cases hx
  | aggregate _ m qc _ moved eff' hm hwin hqc hproc =>
    obtain ⟨l, t, bs, le, -, -, -, -, rfl⟩ := Core.processCertificateQC_ok hproc
    rcases List.mem_cons.1 hx with rfl | hx
    · cases hy
      exact .inl rfl
    · split at hx
      · rcases List.mem_append.1 hx with hx | hx
        · exact hout (Net.outside_onCommit hx)
        · exact hout (Net.outside_propose hx)
      · exact hout (Net.outside_onCommit hx)
  | reply =>
    rw [List.mem_singleton.1 hx] at hy
    cases hy

/-- **Within a step** that began in round `r₀`: rounds have gone up, to `p + 1` at most, and what was signed was for a
round the replica is not below. -/
structure Paced (N : Net) (log : List (UInt32 × Signed)) (p : Nat) (r₀ : UInt64) (tr : List Effect) (c : Core) :
    Prop where
  counted : Counted N log c
  above   : r₀ ≤ c.pacemaker.currentRound
  below   : c.pacemaker.currentRound.toNat ≤ p + 1
  acted   : ∀ x ∈ tr, ∀ y s, x.signature = some (y, s) → y.round ≤ c.pacemaker.currentRound

section

variable {N : Net} {log : List (UInt32 × Signed)} {p : Nat} {r₀ : UInt64} {i : UInt32} {env : Env}
  {c₀ : Core} {e : Event} {tr eff : List Effect} {c c' : Core}

theorem Paced.next (h : Paced N log p r₀ tr c) (hm : N.Micro i env c₀ e c eff c') (hcounted : Counted N log c')
    (hround : c.pacemaker.currentRound ≤ c'.pacemaker.currentRound ∧ c'.pacemaker.currentRound.toNat ≤ p + 1) :
    Paced N log p r₀ (tr ++ eff) c' := by
  refine ⟨hcounted, UInt64.le_trans h.above hround.1, hround.2, fun x hx y s hy => ?_⟩
  rcases List.mem_append.1 hx with hx | hx
  · exact UInt64.le_trans (h.acted x hx y s hy) hround.1
  · rcases micro_signed hm hx hy with hr | hr
    · rw [Signed.round, hr]
      exact UInt64.zero_le
    · rw [Signed.round, hr]
      exact hround.1

/-- A micro step that keeps the round. -/
theorem Paced.still (h : Paced N log p r₀ tr c) (hm : N.Micro i env c₀ e c eff c') (hcounted : Counted N log c')
    (hround : c'.pacemaker.currentRound = c.pacemaker.currentRound) : Paced N log p r₀ (tr ++ eff) c' :=
  h.next hm hcounted (by rw [hround]; exact ⟨UInt64.le_refl _, h.below⟩)

/-- A certificate, processed and counted. -/
theorem Counted.certificate {qc : QuorumCert} {moved : Bool} (h : Counted N log c)
    (hp : c.processCertificateQC N.crypto (N.config i) env (some qc) = .ok ((c', moved), eff)) :
    Counted N log c' ∧ c'.pacemaker = (c.pacemaker.advanceRoundQC (some qc)).1 := by
  obtain ⟨l, t, bs, le, hproc, -, rfl, -, -⟩ := Core.processCertificateQC_ok hp
  exact ⟨h.sub (processQC_votes h.votes hproc) (Core.processQC_sub_votes hproc) (h.pace.advanceRoundQC qc)
    (fun _ _ => Pacemaker.infos_advanceRoundQC), rfl⟩

theorem Counted.advanceRoundTC {t : TimeoutCert} (h : Counted N log c) (ht : N.AcceptsTC (some t)) :
    Counted N log { c with pacemaker := (c.pacemaker.advanceRoundTC (some t)).1 } :=
  h.sub h.votes (Table.Sub.refl _) (h.pace.advanceRoundTC ht) (fun _ _ => Pacemaker.infos_advanceRoundTC)

theorem Counted.accumulate {m : VoteMsg} (h : Counted N log c) (he : N.Admits (.vote m))
    (hsrc : N.Sourced log ((Event.vote m).ballots N.crypto)) :
    Counted N log { c with tree := (c.tree.accumulate N.crypto env i N.verifier.quorum m).1 } :=
  ⟨(accumulate_votes h.votes he rfl).1,
    (accumulate_cast h.votes h.voted he (hsrc _ (List.mem_append_right _ List.mem_cons_self)) rfl).1,
    h.pace, h.timedOut⟩

theorem Counted.file {m : TimeoutMsg} (h : Counted N log c) (he : N.Admits (.timeout m))
    (hsrc : N.Sourced log ((Event.timeout m).ballots N.crypto))
    (hnew : m.tmoInfo.sender ∉ (c.pacemaker.bucket m.tmoInfo.round).senders) :
    Counted N log { c with pacemaker := c.pacemaker.file m.tmoInfo } := by
  refine ⟨h.votes, h.voted, h.pace.file he hnew, fun r x hx => ?_⟩
  rw [Pacemaker.bucket_file] at hx
  split at hx
  · rename_i hr
    rcases List.mem_append.1 hx with hx | hx
    · exact h.timedOut r x hx
    · rw [List.mem_singleton.1 hx, hr]
      exact hsrc _ (List.mem_append_right _ (List.mem_singleton.2 rfl))
  · exact h.timedOut r x hx

/-- **Every micro step of an event that brings nothing forged.** -/
theorem paced_micro (hsound : ∀ i x, (i, x) ∈ log → N.Sound x) (hreach : ∀ i x, (i, x) ∈ log → x.round.toNat ≤ p)
    (hp : p < 2 ^ 64 - 1) (he : N.Admits e) (hsrc : N.Sourced log (e.ballots N.crypto)) (h : Paced N log p r₀ tr c)
    (hm : N.Micro i env c₀ e c eff c') : Paced N log p r₀ (tr ++ eff) c' := by
  have hc := h.counted
  have hnext := h.next hm
  have hstill := h.still hm
  cases hm with
  | cert _ qc _ moved _ hmem hproc =>
    obtain ⟨hcounted, hpace⟩ := hc.certificate hproc
    refine hnext hcounted ?_
    rw [hpace, Pacemaker.currentRound_advanceRoundQC]
    exact round_advance (qc_round_le hsound hreach (he.qcs qc hmem) (hsrc.of_subset (votes_subset_ballots hmem))) hp
      h.below
  | tc _ t ht =>
    have hacc := he.tc
    rw [ht] at hacc
    refine hnext (hc.advanceRoundTC hacc) ?_
    rw [Pacemaker.currentRound_advanceRoundTC]
    exact round_advance (tc_round_le hsound hreach hacc (hsrc.of_subset (timeouts_subset_ballots ht))) hp h.below
  | insert _ b _ _ _ hins =>
    obtain ⟨rfl, -⟩ := Core.insert_ok hins
    exact hstill ⟨hc.votes, hc.voted, hc.pace, hc.timedOut⟩ rfl
  | vote => exact hstill ⟨hc.votes, hc.voted, hc.pace, hc.timedOut⟩ rfl
  | stop => exact hstill ⟨hc.votes, hc.voted, ⟨hc.pace.tc, hc.pace.buckets⟩, hc.timedOut⟩ rfl
  | timeout =>
    exact hstill ⟨hc.votes, hc.voted, hc.pace.startTimer _, fun r x hx =>
      hc.timedOut r x (Pacemaker.infos_startTimer hx)⟩ rfl
  | note _ m hm hnew =>
    subst hm
    exact hstill (hc.file he hsrc hnew) rfl
  | complete _ m tc _ hm htc hlen hround hc' =>
    subst hc' htc
    refine hnext (hc.advanceRoundTC ((hc.pace.buckets m.tmoInfo.round).acceptsTC hlen)) ?_
    rw [Pacemaker.currentRound_advanceRoundTC]
    exact round_advance (completed_round_le hsound hreach hc hlen) hp h.below
  | voteQC m qc l t bs hm hqc hwin hproc =>
    exact hstill (hc.sub (processQC_votes hc.votes hproc) (Core.processQC_sub_votes hproc) hc.pace (fun _ _ hx => hx))
      rfl
  | gather _ m hm hnone =>
    subst hm
    exact hstill (hc.accumulate he hsrc) rfl
  | aggregate _ m qc _ moved eff' hm hwin hqc hproc =>
    subst hm
    have hacc : c.tree.accumulate N.crypto env i N.verifier.quorum m = (_, some qc) := Prod.ext rfl hqc
    have hcast := (accumulate_cast hc.votes hc.voted he (hsrc _ (List.mem_append_right _ List.mem_cons_self)) hacc).2 qc
      rfl
    obtain ⟨hcounted, hpace⟩ := (hc.accumulate he hsrc).certificate hproc
    refine hnext hcounted ?_
    rw [hpace, Pacemaker.currentRound_advanceRoundQC]
    exact round_advance (assembled_round_le hsound hreach hc.votes he hacc hcast) hp h.below
  | reply => exact hstill hc rfl

end

/-! ## Runs -/

/-- The highest round an honest replica is in. -/
def Net.peak (N : Net) (τ : Tracked) : Nat := (N.validators.toFinset \ N.byzantine).sup (fun i => (τ.rounds i).toNat)

/-- **What a causal run keeps**, after `k` steps. -/
structure TickInv (N : Net) (k : Nat) (τ : Tracked) : Prop where
  bounded : ∀ i, (τ.rounds i).toNat ≤ k
  fresh   : ∀ i, τ.sys.status i = .fresh → τ.rounds i = 0
  running : ∀ i c, τ.sys.status i = .running c → τ.rounds i = c.pacemaker.currentRound ∧ Counted N τ.log c
  signed  : ∀ i x, (i, x) ∈ τ.log → N.Honest i ∧ x.round ≤ τ.rounds i

section

variable {N : Net} {k : Nat} {τ τ' : Tracked}

theorem le_peak (τ : Tracked) {i : UInt32} (hi : N.Honest i) : (τ.rounds i).toNat ≤ N.peak τ :=
  Finset.le_sup (f := fun i => (τ.rounds i).toNat) (Finset.mem_sdiff.2 ⟨List.mem_toFinset.2 hi.1, hi.2⟩)

theorem mem_log_set {i j : UInt32} {s : Status} {eff : List Effect} {r : UInt64} {x : Signed} :
    (j, x) ∈ (τ.set i s eff r).log ↔ (j, x) ∈ τ.log ∨ (j = i ∧ ∃ e ∈ eff, ∃ sig, e.signature = some (x, sig)) := by
  have hnew : (j, x) ∈ signedLog (eff.map (fun e => (i, e))) ↔ j = i ∧
      ∃ e ∈ eff, ∃ sig, e.signature = some (x, sig) := by
    rw [mem_signedLog]
    constructor
    · rintro ⟨e, sig, he, hsig⟩
      obtain ⟨e', he', heq⟩ := List.mem_map.1 he
      cases heq
      exact ⟨rfl, e, he', sig, hsig⟩
    · rintro ⟨rfl, e, he, sig, hsig⟩
      exact ⟨e, sig, List.mem_map.2 ⟨e, he, rfl⟩, hsig⟩
  rw [← hnew, Tracked.log, Tracked.set, Sys.set, Net.signedLog_append, List.mem_append]
  rfl

theorem TickInv.reach (h : TickInv N k τ) (i : UInt32) (x : Signed) (hx : (i, x) ∈ τ.log) :
    x.round.toNat ≤ N.peak τ := by
  obtain ⟨hi, hle⟩ := h.signed i x hx
  exact Nat.le_trans (UInt64.le_iff_toNat_le.1 hle) (le_peak τ hi)

theorem TickInv.peak_le (h : TickInv N k τ) : N.peak τ ≤ k := Finset.sup_le (fun i _ => h.bounded i)

theorem rounds_le_set {i : UInt32} {s : Status} {eff : List Effect} {r : UInt64} (habove : τ.rounds i ≤ r)
    (j : UInt32) : τ.rounds j ≤ (τ.set i s eff r).rounds j := by
  by_cases hj : j = i
  · rw [hj, τ.rounds_set_self]
    exact habove
  · rw [τ.rounds_set_ne hj]
    exact UInt64.le_refl _

theorem peak_set_le {i : UInt32} {s : Status} {eff : List Effect} {r : UInt64} (hbelow : r.toNat ≤ N.peak τ + 1) :
    N.peak (τ.set i s eff r) ≤ N.peak τ + 1 := by
  refine Finset.sup_le (fun j hj => ?_)
  by_cases hji : j = i
  · rw [hji, τ.rounds_set_self]
    exact hbelow
  · rw [τ.rounds_set_ne hji]
    obtain ⟨hval, hbyz⟩ := Finset.mem_sdiff.1 hj
    exact Nat.le_succ_of_le (le_peak τ ⟨List.mem_toFinset.1 hval, hbyz⟩)

/-- One replica moves, by a round of its own at most beyond the highest. -/
theorem TickInv.set (h : TickInv N k τ) {i : UInt32} (hi : N.Honest i) {s : Status} {eff : List Effect} {r : UInt64}
    (hs : s ≠ .fresh) (habove : τ.rounds i ≤ r) (hbelow : r.toNat ≤ N.peak τ + 1)
    (hacted : ∀ x ∈ eff, ∀ y sig, x.signature = some (y, sig) → y.round ≤ r)
    (hcounted : ∀ c, s = .running c → r = c.pacemaker.currentRound ∧ Counted N τ.log c) :
    TickInv N (k + 1) (τ.set i s eff r) := by
  have hpeak := h.peak_le
  have hlog : τ.log ⊆ (τ.set i s eff r).log := fun _ hx => mem_log_set.2 (.inl hx)
  refine ⟨fun j => ?_, fun j hf => ?_, fun j c hc => ?_, fun j x hx => ?_⟩
  · by_cases hj : j = i
    · rw [hj, τ.rounds_set_self]
      omega
    · rw [τ.rounds_set_ne hj]
      exact Nat.le_succ_of_le (h.bounded j)
  · by_cases hj : j = i
    · rw [hj] at hf
      exact absurd ((Sys.status_set_self τ.sys i s eff).symm.trans hf) hs
    · rw [τ.rounds_set_ne hj]
      exact h.fresh j ((Sys.status_set_ne τ.sys hj s eff).symm.trans hf)
  · by_cases hj : j = i
    · rw [hj] at hc ⊢
      obtain ⟨hr, hcount⟩ := hcounted c ((Sys.status_set_self τ.sys i s eff).symm.trans hc)
      rw [τ.rounds_set_self]
      exact ⟨hr, hcount.mono hlog⟩
    · obtain ⟨hr, hcount⟩ := h.running j c ((Sys.status_set_ne τ.sys hj s eff).symm.trans hc)
      rw [τ.rounds_set_ne hj]
      exact ⟨hr, hcount.mono hlog⟩
  · rcases mem_log_set.1 hx with hx | ⟨rfl, e, he, sig, hsig⟩
    · obtain ⟨hj, hle⟩ := h.signed j x hx
      exact ⟨hj, UInt64.le_trans hle (rounds_le_set habove j)⟩
    · rw [τ.rounds_set_self]
      exact ⟨hi, hacted e he x sig hsig⟩

theorem counted_start {i : UInt32} {env : Env} {c : Core} (hnew : newCore N.crypto (N.config i) = some c)
    (log : List (UInt32 × Signed)) : Counted N log (c.start N.crypto (N.config i) env).1 := by
  have hpace : PaceInv N.toGroup (c.start N.crypto (N.config i) env).1.pacemaker :=
    (coreInv_start (Q := fun _ => True) hnew).pacemaker
  cases newCore_eq hnew
  refine ⟨Table.holds_empty _, Table.holds_empty _, hpace, fun r x hx => ?_⟩
  exact absurd (Pacemaker.infos_advanceRoundQC (p := newPacemaker) hx) (by simp [Pacemaker.bucket, newPacemaker])

/-- **Within a step of a causal run**: an event's micro steps, from the core it finds. -/
theorem TickInv.paced (h : TickInv N k τ) (hτ : N.Ticked k τ) (hk : k < 2 ^ 64 - 1) {i : UInt32}
    {env : Env} {c c' : Core} {e : Event} {eff : List Effect} (hi : N.Honest i) (hσ : τ.sys.status i = .running c)
    (he : N.Admits e) (hsrc : N.Sourced τ.log (e.ballots N.crypto)) (hm : N.Micros i env c e c eff c')
    (hok : ∀ x ∈ eff, N.Legit i x) : Paced N τ.log (N.peak τ) (τ.rounds i) eff c' := by
  have hp : N.peak τ < 2 ^ 64 - 1 := Nat.lt_of_le_of_lt h.peak_le hk
  obtain ⟨hr, hcounted⟩ := h.running i c hσ
  have hbegin : Paced N τ.log (N.peak τ) (τ.rounds i) [] c := by
    refine ⟨hcounted, UInt64.le_of_eq hr, ?_, fun x hx => by cases hx⟩
    rw [← hr]
    exact Nat.le_succ_of_le (le_peak τ hi)
  have hend := hm.invariant (fun tr c eff c' hJ hm _ => paced_micro hτ.run.sound h.reach hp he hsrc hJ hm) hbegin hok
  rwa [List.nil_append] at hend

/-- **One step of a causal run.** -/
theorem TickInv.tick (h : TickInv N k τ) (hτ : N.Ticked k τ) (hk : k < 2 ^ 64 - 1) (hs : N.Tick τ τ') :
    TickInv N (k + 1) τ' ∧ (∀ j, τ.rounds j ≤ τ'.rounds j) ∧ N.peak τ' ≤ N.peak τ + 1 := by
  cases hs with
  | start i env c hi hσ hnew hok =>
    have hone : (c.start N.crypto (N.config i) env).1.pacemaker.currentRound = 1 := by
      cases newCore_eq hnew
      rfl
    have habove : τ.rounds i ≤ (c.start N.crypto (N.config i) env).1.pacemaker.currentRound := by
      rw [h.fresh i hσ]
      exact UInt64.zero_le
    have hbelow : (c.start N.crypto (N.config i) env).1.pacemaker.currentRound.toNat ≤ N.peak τ + 1 := by
      rw [hone]
      exact Nat.le_add_left 1 _
    refine ⟨h.set hi (by simp) habove hbelow (fun x hx y sig hy => ?_) (fun c' hc' => ?_), rounds_le_set habove,
      peak_set_le hbelow⟩
    · rw [Signed.round, ballot_of_outside (Net.outside_propose hx) hy]
      exact UInt64.zero_le
    · cases hc'
      exact ⟨rfl, counted_start hnew _⟩
  | event i env c e c' eff hi hσ he hsrc hs hok =>
    have hpaced := h.paced hτ hk hi hσ he hsrc (Net.step_micros he hs) hok
    refine ⟨h.set hi (by simp) hpaced.above hpaced.below hpaced.acted (fun c'' hc'' => ?_), rounds_le_set hpaced.above,
      peak_set_le hpaced.below⟩
    cases hc''
    exact ⟨rfl, hpaced.counted⟩
  | stick i env c e s c' eff eff' hi hσ he hsrc hs hm hcut hdone hok =>
    rw [hdone] at hok ⊢
    obtain ⟨hok, -⟩ := List.forall_mem_append.1 hok
    have hpaced := h.paced hτ hk hi hσ he hsrc hm hok
    refine ⟨h.set hi (by simp) hpaced.above hpaced.below (fun x hx y sig hy => ?_) (fun c'' hc'' => by cases hc''),
      rounds_le_set hpaced.above, peak_set_le hpaced.below⟩
    rcases List.mem_append.1 hx with hx | hx
    · exact hpaced.acted x hx y sig hy
    · rw [Signed.round, ballot_of_outside (hcut.outside hx) hy]
      exact UInt64.zero_le

/-- **After fewer steps than there are rounds.** -/
theorem tickInv (h : N.Ticked k τ) (hk : k ≤ 2 ^ 64 - 1) : TickInv N k τ := by
  induction h with
  | init =>
    exact ⟨fun i => Nat.le_refl _, fun i _ => rfl, fun i c hc => (by cases hc), fun i x hx => (by cases hx)⟩
  | tick h hs ih => exact ((ih (by omega)).tick h (by omega) hs).1

/-- **Replica `i` has been in round `r`**, between two steps or in the middle of one. -/
def Net.Been (N : Net) (σ : Sys) (i : UInt32) (r : UInt64) : Prop :=
  ∃ σ₀ c, N.Run Net.AnyEvent σ₀ ∧ Relation.ReflTransGen (N.Step Net.AnyEvent) σ₀ σ ∧ N.Midway Net.AnyEvent σ₀ i c ∧
    c.pacemaker.currentRound = r

theorem micros_signed {i : UInt32} {env : Env} {c₀ : Core} {e : Event} {eff : List Effect} {c c' : Core}
    (hm : N.Micros i env c₀ e c eff c') {x : Effect} (hx : x ∈ eff) {y : Signed} {s : Bytes}
    (hy : x.signature = some (y, s)) :
    y.ballot = none ∨
      ∃ pre mid, N.Micros i env c₀ e c pre mid ∧ pre <+: eff ∧ y.ballot = some mid.pacemaker.currentRound := by
  induction hm with
  | refl => cases hx
  | tail h hm ih =>
    rcases List.mem_append.1 hx with hx | hx
    · refine (ih hx).imp_right ?_
      rintro ⟨pre, mid, hpre, hsub, hr⟩
      exact ⟨pre, mid, hpre, hsub.trans (List.prefix_append _ _), hr⟩
    · refine (micro_signed hm hx hy).imp_right (fun hr => ?_)
      exact ⟨_, _, h, List.prefix_append _ _, hr⟩

/-- **Votes and timeouts were signed in their rounds.** -/
theorem Net.Ticked.been (h : N.Ticked k τ) :
    ∀ i x, (i, x) ∈ τ.log → ∀ r, x.ballot = some r → N.Been τ.sys i r := by
  induction h with
  | init => exact fun i x hx => by cases hx
  | @tick k τ τ' h hs ih =>
    intro j x hx r hr
    have hold : (j, x) ∈ τ.log → N.Been τ'.sys j r := by
      intro hx
      obtain ⟨σ₀, c, hrun, hmore, hmid, hc⟩ := ih j x hx r hr
      exact ⟨σ₀, c, hrun, hmore.tail hs.step, hmid, hc⟩
    -- what was signed in the step was signed in the middle of it
    have hnew : ∀ {i env c e eff c'}, N.Honest i → τ.sys.status i = .running c → N.Admits e →
        N.Micros i env c e c eff c' →
        (∀ z ∈ eff, N.Legit i z) → ∀ z ∈ eff, ∀ sig, z.signature = some (x, sig) → N.Been τ'.sys i r := by
      intro i env c e eff c' hi hσ he hm hok z hz sig hsig
      have hne : x.ballot ≠ none := by simp [hr]
      obtain ⟨pre, mid, hpre, hsub, hmid⟩ := (micros_signed hm hz hsig).resolve_left hne
      exact ⟨τ.sys, mid, h.run, .single hs.step,
        ⟨hi, env, c, e, pre, hσ, he, trivial, hpre, fun z hz => hok z (hsub.subset hz)⟩,
        Option.some.inj (hmid.symm.trans hr)⟩
    cases hs with
    | start i env c hi hσ hn hok =>
      rcases mem_log_set.1 hx with hx | ⟨-, z, hz, sig, hsig⟩
      · exact hold hx
      · exact absurd ((ballot_of_outside (Net.outside_propose hz) hsig).symm.trans hr) (by simp)
    | event i env c e c' eff hi hσ he hsrc hs hok =>
      rcases mem_log_set.1 hx with hx | ⟨rfl, z, hz, sig, hsig⟩
      · exact hold hx
      · exact hnew hi hσ he (Net.step_micros he hs) hok z hz sig hsig
    | stick i env c e s c' eff eff' hi hσ he hsrc hs hm hcut hdone hok =>
      rcases mem_log_set.1 hx with hx | ⟨rfl, z, hz, sig, hsig⟩
      · exact hold hx
      · rw [hdone] at hz hok
        rcases List.mem_append.1 hz with hz | hz
        · exact hnew hi hσ he hm (List.forall_mem_append.1 hok).1 z hz sig hsig
        · exact absurd ((ballot_of_outside (hcut.outside hz) hsig).symm.trans hr) (by simp)

/-- **Byzantine replicas cannot inflate rounds**, in any causal run.  Behind an accepted certificate of a round stand
honest replicas, all but the faulty of a quorum, that have been in the round and voted, or timed out, in it.  And as
long as the rounds cannot have run out, a step moves the furthest replica by one round at most, and no replica back. -/
theorem rounds_not_inflated (h : N.Ticked k τ) :
    (∀ q, N.AcceptsQC (some q) → 1 ≤ q.voteInfo.round → N.Sourced τ.log (q.votes N.crypto) →
      ∃ A : Finset UInt32, quorumSize N.validators.length - faulty N.validators.length ≤ A.card ∧
        ∀ i ∈ A, N.Honest i ∧ N.Been τ.sys i q.voteInfo.round ∧
          ∃ v dest, (i, .vote v dest) ∈ τ.sys.trace ∧ v.voteInfo.round = q.voteInfo.round) ∧
    (∀ t, N.AcceptsTC (some t) → N.Sourced τ.log (t.timeouts N.crypto) →
      ∃ A : Finset UInt32, quorumSize N.validators.length - faulty N.validators.length ≤ A.card ∧
        ∀ i ∈ A, N.Honest i ∧ N.Been τ.sys i t.round ∧
          ∃ m, (i, .timeout m) ∈ τ.sys.trace ∧ m.tmoInfo.round = t.round) ∧
    (k < 2 ^ 64 - 1 → ∀ τ', N.Tick τ τ' →
      N.peak τ' ≤ N.peak τ + 1 ∧
      ∀ i, τ.rounds i ≤ τ'.rounds i ∧ (τ'.rounds i).toNat ≤ k + 1 ∧
        ∀ c, τ'.sys.status i = .running c → τ'.rounds i = c.pacemaker.currentRound) := by
  refine ⟨fun q hq h1 hsrc => ?_, fun t ht hsrc => ?_, fun hk τ' hs => ?_⟩
  · have h0 : q.voteInfo.round ≠ 0 := by
      intro h0
      rw [h0] at h1
      exact absurd h1 (by decide)
    obtain ⟨A, hcard, hA⟩ := voters_of_qc h.run.sound hq h0 hsrc
    refine ⟨A, hcard, fun i hi => ?_⟩
    obtain ⟨hhonest, v, hv, hr⟩ := hA i hi
    obtain ⟨dest, hsent⟩ := vote_sent hv
    exact ⟨hhonest, h.been i _ hv _ (congrArg some hr), v, dest, hsent, hr⟩
  · obtain ⟨A, hcard, hA⟩ := quitters_of_tc h.run.sound ht hsrc
    refine ⟨A, hcard, fun i hi => ?_⟩
    obtain ⟨hhonest, m, hm, hr⟩ := hA i hi
    obtain ⟨msg, hsent, rfl⟩ := timeout_sent hm
    exact ⟨hhonest, h.been i _ hm _ (congrArg some hr), msg, hsent, hr⟩
  · obtain ⟨hinv, hmono, hpeak⟩ := (tickInv h hk.le).tick h hk hs
    exact ⟨hpeak, fun i => ⟨hmono i, hinv.bounded i, fun c hc => (hinv.running i c hc).1⟩⟩

end

/-- Replicas 1 and 4 vote for the first block, and its certificate takes replica 1 to round 2: it stands for both of
them having been in round 1. -/
theorem chain_not_inflated :
    ∃ τ τ', Chain.net.Ticked 4 τ ∧ Chain.net.Tick τ τ' ∧ τ'.rounds 1 = 2 ∧ Chain.net.peak τ' ≤ Chain.net.peak τ + 1 ∧
      ∃ A : Finset UInt32, 2 ≤ A.card ∧ ∀ i ∈ A, Chain.net.Honest i ∧ Chain.net.Been τ.sys i 1 := by
  have hplay : ((Chain.net.playCausal Chain.env Sys.init [.start 1, .start 4,
        .event 1 (.proposal (Chain.proposal 1 (some (Chain.cert 0)))),
        .event 4 (.proposal (Chain.proposal 1 (some (Chain.cert 0))))]).any (fun σ =>
      let next := Move.event 1 (.proposal (Chain.proposal 2 none))
      decide (Chain.net.Sourced (signedLog σ.trace) ((Chain.cert 1).votes Chain.net.crypto) ∧
          Chain.net.Sourced (signedLog σ.trace) (next.ballots Chain.net.crypto)) &&
        (Chain.net.move Chain.env σ next).any (fun σ' => σ'.check 1 (fun c => c.pacemaker.currentRound == 2)))) =
      true := by decide +kernel
  obtain ⟨σ, hσ, hrest⟩ := (Option.any_eq_true _ _).1 hplay
  obtain ⟨τ, hτ, rfl⟩ := Net.playCausal_ticked .init hσ
  simp only [Bool.and_eq_true, decide_eq_true_eq] at hrest
  obtain ⟨⟨hcert, hsrc⟩, hmove⟩ := hrest
  obtain ⟨σ', hσ', hcheck⟩ := (Option.any_eq_true _ _).1 hmove
  obtain ⟨τ', hτ', rfl⟩ := Net.move_tick hsrc hσ'
  obtain ⟨c, hc, hround⟩ := Sys.running_of_check hcheck
  obtain ⟨hqc, -, hstep⟩ := rounds_not_inflated hτ
  obtain ⟨hpeak, hreplica⟩ := hstep (by decide) τ' hτ'
  obtain ⟨A, hcard, hA⟩ := hqc (Chain.cert 1) (by decide +kernel) (by decide) hcert
  refine ⟨τ, τ', hτ, hτ', ?_, hpeak, A, hcard, fun i hi => ⟨(hA i hi).1, (hA i hi).2.1⟩⟩
  rw [(hreplica 1).2.2 c hc]
  exact eq_of_beq hround

end Diem

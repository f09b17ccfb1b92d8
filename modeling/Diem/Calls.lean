import Diem.Safety
/-!
# Calls — a `Safety` object under any caller

`MakeVote` and `MakeTimeout` called in any order, each time with whatever blocks, certificates, rounds and stores the
caller likes.  What was signed before is in the two counters and nowhere else, so everything about the order of the
signatures goes through them: an answered call leaves its round in `highestVoteRound`, and every later answer is above
what the counters were when it was asked.
-/
namespace Diem
namespace Safety

/-- One call, with everything the caller chooses. -/
inductive Call where
  | makeVote (env : Env) (l : MemLedger) (t : BlockTree) (b : Block) (lastTC : Option TimeoutCert)
  | makeTimeout (env : Env) (round : UInt64) (highQC : Option QuorumCert) (lastTC : Option TimeoutCert)

/-- A call that was answered: a vote for a block, over the TC it came with, or a timeout. -/
inductive Signed where
  | vote (b : Block) (lastTC : Option TimeoutCert) (m : VoteMsg)
  | timeout (m : TimeoutInfo)

def call (v : Verifier) (id : UInt32) (s : Safety) : Call → Safety × Option Signed
  | .makeVote env l t b lastTC =>
    let (s, m) := s.makeVote v env id l t b lastTC
    (s, m.map (Signed.vote b lastTC))
  | .makeTimeout env round highQC lastTC =>
    let (s, m) := s.makeTimeout v env id round highQC lastTC
    (s, m.map Signed.timeout)

/-- The object after a list of calls, and what it signed, oldest first. -/
def calls (v : Verifier) (id : UInt32) : Safety → List Call → Safety × List Signed
  | s, []      => (s, [])
  | s, c :: cs =>
    let (s', x) := s.call v id c
    let (s'', xs) := calls v id s' cs
    (s'', x.toList ++ xs)

/-! ## One call -/

theorem Grows.trans {s s' s'' : Safety} (h : Grows s s') (h' : Grows s' s'') : Grows s s'' :=
  ⟨UInt64.le_trans h.vote h'.vote, UInt64.le_trans h.qc h'.qc⟩

/-- Above what the counters say: what the object may still sign. -/
def Signed.Above (s : Safety) : Signed → Prop
  | .vote _ _ m => s.highestVoteRound < m.voteInfo.round
  | .timeout m  => s.highestVoteRound ≤ m.round ∧ s.highestQCRound ≤ qcRound m.highQc

/-- What the counters keep of a signature. -/
def Signed.Kept (s : Safety) : Signed → Prop
  | .vote b _ m => m.voteInfo.round ≤ s.highestVoteRound ∧ qcRound b.qc ≤ s.highestQCRound
  | .timeout m  => m.round ≤ s.highestVoteRound

/-- What a vote was checked against before it was signed; no round of it wraps. -/
def Signed.Checked (v : Verifier) : Signed → Prop
  | .vote b lastTC m =>
    (m.voteInfo.id = b.id ∧ m.voteInfo.round = b.round) ∧ validBlockID v.crypto b = true ∧
    v.verifyQC b.qc = true ∧ qcRound b.qc < b.round ∧
    (b.round.toNat = (qcRound b.qc).toNat + 1 ∨
      ∃ tc, lastTC = some tc ∧ v.verifyTC (some tc) = true ∧ b.round.toNat = tc.round.toNat + 1 ∧
        maxHighQCRound tc ≤ qcRound b.qc)
  | .timeout _ => True

/-- The order two signatures of one object stand in, the earlier one first. -/
def Signed.Before : Signed → Signed → Prop
  | .vote _ _ m, .vote _ _ m' => m.voteInfo.round < m'.voteInfo.round
  | .timeout m, .vote _ _ m'  => m.round < m'.voteInfo.round
  | .timeout m, .timeout m'   => m.round ≤ m'.round
  | .vote b _ _, .timeout m'  => qcRound b.qc ≤ qcRound m'.highQc

theorem Signed.Above.anti {s s' : Safety} {x : Signed} (h : x.Above s') (hs : Grows s s') : x.Above s := by
  cases x with
  | vote b tc m => exact UInt64.lt_of_le_of_lt hs.vote h
  | timeout m => exact ⟨UInt64.le_trans hs.vote h.1, UInt64.le_trans hs.qc h.2⟩

/-- What the counters keep of one signature puts it before all that is above them. -/
theorem Signed.Kept.before {s : Safety} {x y : Signed} (hx : x.Kept s) (hy : y.Above s) : x.Before y := by
  cases x with
  | vote b tc m =>
    cases y with
    | vote b' tc' m' => exact UInt64.lt_of_le_of_lt hx.1 hy
    | timeout m' => exact UInt64.le_trans hx.2 hy.2
  | timeout m =>
    cases y with
    | vote b' tc' m' => exact UInt64.lt_of_le_of_lt hx hy
    | timeout m' => exact UInt64.le_trans hx hy.1

theorem Voted.checked {v : Verifier} {env : Env} {id : UInt32} {l : MemLedger} {t : BlockTree}
    {s s' : Safety} {b : Block} {lastTC : Option TimeoutCert} {m : VoteMsg} (h : Voted v env id l t s s' b lastTC m) :
    (Signed.vote b lastTC m).Checked v := by
  obtain ⟨-, hqc, hnext⟩ := (s.safeToVote_iff _ _ _).1 h.safe
  -- a round above another is not zero, so the one directly below it did not wrap
  have h0 : b.round ≠ 0 := fun h0 => absurd hqc (by rw [h0]; exact UInt64.not_lt_zero)
  refine ⟨by rw [h.info]; exact ⟨rfl, rfl⟩, h.blockID, h.certified, hqc, ?_⟩
  rcases hnext with hnext | ⟨tc, htc, hnext, hmax⟩
  · exact .inl (round_succ hnext h0)
  · exact .inr ⟨tc, htc, htc ▸ h.tc, round_succ hnext h0, hmax⟩

/-- **A call**: the counters grow, and what it signs was above them before, is kept by them after and was checked. -/
theorem call_spec (v : Verifier) (id : UInt32) (s : Safety) (c : Call) :
    Grows s (s.call v id c).1 ∧
    ∀ x, (s.call v id c).2 = some x → x.Above s ∧ x.Kept (s.call v id c).1 ∧ x.Checked v := by
  cases c with
  | makeVote env l t b lastTC =>
    obtain ⟨hg, hv⟩ := makeVote_spec v env id l t s b lastTC
    refine ⟨hg, fun x hx => ?_⟩
    obtain ⟨m, hm, rfl⟩ := Option.map_eq_some_iff.1 hx
    have h := hv m hm
    have hround : m.voteInfo.round = b.round := by rw [h.info]
    refine ⟨?_, ⟨?_, ?_⟩, h.checked⟩
    · show s.highestVoteRound < m.voteInfo.round
      rw [hround]
      exact ((s.safeToVote_iff _ _ _).1 h.safe).1
    · rw [hround]
      exact UInt64.le_of_eq h.voted.symm
    · show qcRound b.qc ≤ _
      rw [call, h.qc, UInt64.le_iff_toNat_le, UInt64.toNat_max]
      omega
  | makeTimeout env round highQC lastTC =>
    obtain ⟨hg, ht⟩ := makeTimeout_spec v env id s round highQC lastTC
    refine ⟨hg, fun x hx => ?_⟩
    obtain ⟨m, hm, rfl⟩ := Option.map_eq_some_iff.1 hx
    have h := ht m hm
    obtain ⟨hr, hq⟩ := h.info
    obtain ⟨h1, h2, -⟩ := (s.safeToTimeout_iff _ _ _).1 h.safe
    refine ⟨⟨?_, ?_⟩, ?_, trivial⟩
    · rwa [hr]
    · rwa [hq]
    · show m.round ≤ _
      rw [hr]
      exact UInt64.le_of_eq h.voted.symm

/-! ## Any number of calls -/

theorem calls_append (v : Verifier) (id : UInt32) (s : Safety) (cs cs' : List Call) :
    (s.calls v id (cs ++ cs')).1 = ((s.calls v id cs).1.calls v id cs').1 := by
  induction cs generalizing s with
  | nil => rfl
  | cons c cs ih => exact ih _

theorem calls_grows (v : Verifier) (id : UInt32) (s : Safety) (cs : List Call) : Grows s (s.calls v id cs).1 := by
  induction cs generalizing s with
  | nil => exact Grows.refl s
  | cons c cs ih => exact (call_spec v id s c).1.trans (ih _)

/-- What is signed from a state on is above that state's counters, and was checked. -/
theorem calls_above (v : Verifier) (id : UInt32) (s : Safety) (cs : List Call) :
    ∀ x ∈ (s.calls v id cs).2, x.Above s ∧ x.Checked v := by
  induction cs generalizing s with
  | nil => exact fun x hx => absurd hx List.not_mem_nil
  | cons c cs ih =>
    intro x hx
    obtain ⟨hg, hc⟩ := call_spec v id s c
    rcases List.mem_append.1 hx with hx | hx
    · obtain ⟨ha, -, hk⟩ := hc x (Option.mem_toList.1 hx)
      exact ⟨ha, hk⟩
    · obtain ⟨ha, hk⟩ := ih _ x hx
      exact ⟨ha.anti hg, hk⟩

/-- The signatures come out in order: each is kept by the counters the rest starts from. -/
theorem calls_pairwise (v : Verifier) (id : UInt32) (s : Safety) (cs : List Call) :
    (s.calls v id cs).2.Pairwise Signed.Before := by
  induction cs generalizing s with
  | nil => exact List.Pairwise.nil
  | cons c cs ih =>
    obtain ⟨-, hc⟩ := call_spec v id s c
    refine List.pairwise_append.2 ⟨?_, ih _, fun x hx y hy => ?_⟩
    · cases (s.call v id c).2 <;> simp
    · exact (hc x (Option.mem_toList.1 hx)).2.1.before (calls_above v id _ cs y hy).1

/-- **Safety under any caller**: the counters never decrease, the signatures come in order (votes strictly upwards and
above every earlier timeout, timeouts upwards and reporting no less than any block voted for before them), and every
vote was checked. -/
theorem safety_under_any_caller (v : Verifier) (id : UInt32) (s : Safety) (cs cs' : List Call) :
    ((s.calls v id cs).1.highestVoteRound ≤ (s.calls v id (cs ++ cs')).1.highestVoteRound ∧
      (s.calls v id cs).1.highestQCRound ≤ (s.calls v id (cs ++ cs')).1.highestQCRound) ∧
    (s.calls v id cs).2.Pairwise Signed.Before ∧
    ∀ x ∈ (s.calls v id cs).2, x.Checked v := by
  have hg := calls_grows v id (s.calls v id cs).1 cs'
  rw [← calls_append] at hg
  exact ⟨⟨hg.vote, hg.qc⟩, calls_pairwise v id s cs, fun x hx => (calls_above v id s cs x hx).2⟩

end Safety
end Diem

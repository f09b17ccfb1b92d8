import Mathlib.Algebra.Group.Nat.Defs
import Mathlib.Data.List.Basic
/-!
# Wire — the messages, and the rules a message is read by (`diem.proto`, `types.go`)

Rounds are `uint64` and replica ids `uint32`, as on the wire, so `+ 1` wraps.  A hash is a byte slice; nothing but a
check makes it 32 bytes long.  A pointer the code compares with nil is an `Option`.  A message field it only ever reads
through a getter is a plain field: the getter of an absent message answers the zero value, and so does `default`.
-/
namespace Diem

/-- **A Go slice**: its length is an `int`. -/
structure Slice (α : Type) where
  elems : List α
  fits  : elems.length < 2 ^ 63
deriving DecidableEq

abbrev Bytes := Slice UInt8

/-- The leader's transactions (paper 3.6): a slice of byte strings. -/
abbrev Payload := Slice Bytes

instance {α : Type} : Inhabited (Slice α) := ⟨⟨[], Nat.two_pow_pos 63⟩⟩

namespace Slice

variable {α : Type}

theorem ext' {a b : Slice α} (h : a.elems = b.elems) : a = b := by
  cases a; cases b; cases h; rfl

def len (s : Slice α) : Nat := s.elems.length

/-- `append(s, a)`.  A slice that would outgrow an `int` does not exist, so the last branch is never taken. -/
def push (s : Slice α) (a : α) : Slice α :=
  if h : (s.elems ++ [a]).length < 2 ^ 63 then ⟨s.elems ++ [a], h⟩ else s

theorem elems_push (s : Slice α) (a : α) : (s.push a).elems = s.elems ++ [a] ∨ (s.push a).elems = s.elems := by
  unfold push
  split
  · exact .inl rfl
  · exact .inr rfl

/-- A reordering of a slice is a slice. -/
def reorder (s : Slice α) (f : List α → List α) (hf : ∀ l, (f l).length = l.length) : Slice α :=
  ⟨f s.elems, by rw [hf]; exact s.fits⟩

end Slice

/-- The size of every digest on the wire. -/
def hashLen : Nat := 32

/-- The paper's bottom: a `LedgerCommitInfo` carrying it as its `commitStateId` commits nothing. -/
def zeroHash : Bytes := ⟨List.replicate 32 0, by decide⟩

/-! ## The messages (`diem.proto`) -/

structure Signature where
  signer : UInt32
  sig    : Bytes
deriving DecidableEq, Inhabited

structure VoteInfo where
  id          : Bytes
  round       : UInt64
  parentId    : Bytes
  parentRound : UInt64
  execStateId : Bytes
deriving DecidableEq, Inhabited

structure LedgerCommitInfo where
  commitStateId : Bytes
  voteInfoHash  : Bytes
deriving DecidableEq, Inhabited

/-- `authorSig` is absent only on the genesis certificate. -/
structure QuorumCert where
  voteInfo         : VoteInfo
  ledgerCommitInfo : LedgerCommitInfo
  signatures       : Slice Signature
  author           : UInt32
  authorSig        : Option Signature
deriving DecidableEq, Inhabited

structure TimeoutVote where
  highQcRound : UInt64
  sig         : Signature
deriving DecidableEq, Inhabited

structure TimeoutCert where
  round : UInt64
  votes : List TimeoutVote
deriving DecidableEq, Inhabited

structure Block where
  author  : UInt32
  round   : UInt64
  payload : Payload
  qc      : Option QuorumCert
  id      : Bytes
deriving DecidableEq, Inhabited

structure ProposalMsg where
  block        : Option Block
  lastRoundTc  : Option TimeoutCert
  highCommitQc : Option QuorumCert
  sender       : UInt32
  sig          : Signature
deriving DecidableEq, Inhabited

structure VoteMsg where
  voteInfo         : VoteInfo
  ledgerCommitInfo : LedgerCommitInfo
  highCommitQc     : Option QuorumCert
  sender           : UInt32
  sig              : Signature
deriving DecidableEq, Inhabited

structure TimeoutInfo where
  round  : UInt64
  highQc : Option QuorumCert
  sender : UInt32
  sig    : Signature
deriving DecidableEq, Inhabited

structure TimeoutMsg where
  tmoInfo      : TimeoutInfo
  lastRoundTc  : Option TimeoutCert
  highCommitQc : Option QuorumCert
deriving DecidableEq, Inhabited

/-! ## The rules (`types.go`) -/

/-- The round of the block a certificate certifies; an absent one is round 0. -/
def qcRound : Option QuorumCert → UInt64
  | none    => 0
  | some qc => qc.voteInfo.round

/-- Whichever of `a` and `b` certifies the later round, `b` on a tie: the paper's max_round. -/
def higher (a b : QuorumCert) : QuorumCert :=
  if b.voteInfo.round < a.voteInfo.round then a else b

def parentID (b : Block) : Bytes :=
  match b.qc with
  | none    => default
  | some qc => qc.voteInfo.id

/-- A quorum over `l` commits a block: its state id is not the all-zero bottom. -/
def commits (l : LedgerCommitInfo) : Bool := l.commitStateId.elems.any (fun b => b != 0)

/-- The highest certified round any signer of the certificate reported. -/
def maxHighQCRound (tc : TimeoutCert) : UInt64 :=
  tc.votes.foldl (fun highest v => max highest v.highQcRound) 0

/-- The paper's well-formedness rule for a round-`round` message: it carries the TC of the round before exactly when
its certificate is not from that round. -/
def wellFormed (round qcR : UInt64) (tc : Option TimeoutCert) : Bool :=
  if round == 0 then false
  else if qcR + 1 == round then tc.isNone
  else match tc with
    | none    => false
    | some tc => tc.round + 1 == round

def wellFormedProposal (p : ProposalMsg) : Bool :=
  match p.block with
  | none   => false
  | some b => b.qc.isSome && wellFormed b.round (qcRound b.qc) p.lastRoundTc

def wellFormedTimeout (m : TimeoutMsg) : Bool :=
  m.tmoInfo.highQc.isSome && wellFormed m.tmoInfo.round (qcRound m.tmoInfo.highQc) m.lastRoundTc

/-! ## Rounds

A `uint64` round compares as its number does, and `+ 1` steps it unless it wraps to 0. -/

theorem round_succ {a b : UInt64} (h : a + 1 = b) (hb : b ≠ 0) : b.toNat = a.toNat + 1 := by
  have h0 : b.toNat ≠ 0 := fun h' => hb (UInt64.toNat_inj.1 h')
  have ha := a.toNat_lt
  rw [← h, UInt64.toNat_add] at h0 ⊢
  simp only [UInt64.reduceToNat] at *
  omega

theorem lt_round_succ {a b : UInt64} (h : ¬ b < a) (hb : b + 1 ≠ 0) : a < b + 1 := by
  have hs := round_succ rfl hb
  rw [UInt64.lt_iff_toNat_lt] at h ⊢
  omega

theorem round_succ_iff {a b : UInt64} (h : a < b) : a + 1 = b ↔ b.toNat = a.toNat + 1 := by
  constructor
  · intro hs
    refine round_succ hs ?_
    rintro rfl
    exact absurd h (by simp)
  · intro hs
    apply UInt64.toNat_inj.1
    have hb := b.toNat_lt
    rw [UInt64.toNat_add]
    simp only [UInt64.reduceToNat]
    omega

theorem not_le_max_iff {a b c : UInt64} : ¬ a ≤ max b c ↔ b < a ∧ c < a := by
  rw [UInt64.le_iff_toNat_le, UInt64.toNat_max, UInt64.lt_iff_toNat_lt, UInt64.lt_iff_toNat_lt]
  omega

theorem foldl_max_ge (vs : List TimeoutVote) : ∀ (m : UInt64),
    m ≤ vs.foldl (fun highest v => max highest v.highQcRound) m ∧
      ∀ v ∈ vs, v.highQcRound ≤ vs.foldl (fun highest v => max highest v.highQcRound) m := by
  induction vs with
  | nil => intro m; simp
  | cons v vs ih =>
    intro m
    obtain ⟨h1, h2⟩ := ih (max m v.highQcRound)
    rw [UInt64.le_iff_toNat_le, UInt64.toNat_max] at h1
    refine ⟨?_, ?_⟩
    · rw [List.foldl_cons, UInt64.le_iff_toNat_le]; omega
    · intro w hw
      rw [List.foldl_cons]
      rcases List.mem_cons.1 hw with rfl | hw
      · rw [UInt64.le_iff_toNat_le]; omega
      · exact h2 w hw

theorem le_maxHighQCRound (tc : TimeoutCert) (v : TimeoutVote) (hv : v ∈ tc.votes) :
    v.highQcRound ≤ maxHighQCRound tc := (foldl_max_ge tc.votes 0).2 v hv

/-- **A well-formed message is not for round 0**, and its round directly follows its certificate's, with no TC, or
its TC's. -/
theorem wellFormed_iff (round qcR : UInt64) (tc : Option TimeoutCert) :
    wellFormed round qcR tc = true ↔
      round ≠ 0 ∧ ((qcR + 1 = round ∧ tc = none) ∨ (qcR + 1 ≠ round ∧ ∃ t, tc = some t ∧ t.round + 1 = round)) := by
  unfold wellFormed
  by_cases h0 : round = 0
  · simp [h0]
  · by_cases hq : qcR + 1 = round
    · simp [h0, hq]
    · cases tc with
      | none => simp [h0, hq]
      | some t => simp [h0, hq]

end Diem

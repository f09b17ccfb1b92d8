import Diem.Elections
import Diem.Spine
/-!
# Settle — ledger and elections under the certificates of successive rounds

Blocks are proposed over the highest certificate there is, of the round before or of an earlier one.  What is certified
and not yet committed is then one pending path up from the frontier; a certificate over that of the round before commits
it all, and any other adds a block to it.  Nothing is ever held, and the reputation walk goes down from round to round.
-/
namespace Diem

/-! ## The ledger under a certificate -/

theorem lookup_none_of_sub {K V : Type} [DecidableEq K] {m m' : Table K V} (h : Table.Sub m m') {k : K}
    (hk : m'.lookup k = none) : m.lookup k = none := by
  cases hm : m.lookup k with
  | none => rfl
  | some v =>
    rw [h k v hm] at hk
    cases hk

namespace MemLedger

/-- What `Commit` makes of the top of a pending path. -/
def settle (history : Nat) (l : MemLedger) (chain : List Speculated) : MemLedger × List Block :=
  if chain.isEmpty then (l, [])
  else (((chain.foldl advance l).prune).forget history, chain.map Speculated.block)

variable {history fuel : Nat} {l l' : MemLedger} {chain : List Speculated} {id : Bytes} {bs : List Block}

theorem commit_settle (hung : l.Hung) (htop : l.pending.lookup l.commitID = none) (hr : l.Rises chain id)
    (h : l.commit history fuel id = .ok (l', bs)) : (l', bs) = l.settle history chain := by
  cases hr with
  | nil =>
    rw [commit, if_pos rfl] at h
    cases h
    rfl
  | @snoc pre _ s hr hs =>
    have hne : id ≠ l.commitID := by
      rintro rfl
      rw [htop] at hs
      cases hs
    obtain ⟨pre', hr', rfl, rfl⟩ := hung.commit_pending hne hs h
    rw [hr'.unique htop (hr.snoc hs), settle, if_neg (by simp)]

/-- And that takes no more turns than the path is long. -/
theorem commit_returns (htop : l.pending.lookup l.commitID = none) (hr : l.Rises chain id)
    (hfuel : chain.length ≤ fuel) : ∃ r, l.commit history fuel id = .ok r := by
  rw [commit, walkBack_rises htop hr fuel [] hfuel]
  split
  · exact ⟨_, rfl⟩
  · exact ⟨_, rfl⟩

/-- Nothing held, a block on a block with a state is executed, and nothing else happens. -/
theorem speculate_bare (execute : Bytes → Payload → Bytes) {b : Block} {prev : Bytes}
    (hheld : ∀ id, l.held.lookup id = none) (hprev : l.pendingState (parentID b) = some prev) :
    (l.speculate execute b).1 = { l with pending := l.pending.insert b.id ⟨b, execute prev b.payload⟩ } := by
  rw [speculate, speculateFuel, hprev]
  refine List.foldl_fixed' (fun e => ?_) l.held.entries
  dsimp only
  rw [hheld]

/-- A block beside a pending path leaves it as it is. -/
theorem Rises.insert (hfiled : l.pending.Holds (fun id s => s.block.id = id)) (hr : l.Rises chain id) {x : Speculated}
    (hne : ∀ s ∈ chain, s.block.id ≠ x.block.id) :
    { l with pending := l.pending.insert x.block.id x }.Rises chain id := by
  induction hr with
  | nil => exact .nil
  | @snoc chain id s _ hs ih =>
    refine .snoc (ih (fun s hs => hne s (List.mem_append_left _ hs))) ?_
    have hid : id ≠ x.block.id := hfiled id s hs ▸ hne s (List.mem_append_right _ List.mem_cons_self)
    exact (AList.lookup_insert_ne hid).trans hs

theorem Rises.top_eq (hfiled : l.pending.Holds (fun id s => s.block.id = id)) (hr : l.Rises chain id) :
    (chain = [] ∧ id = l.commitID) ∨ ∃ pre s, chain = pre ++ [s] ∧ s.block.id = id := by
  cases hr with
  | nil => exact .inl ⟨rfl, rfl⟩
  | snoc _ hs => exact .inr ⟨_, _, rfl, hfiled _ _ hs⟩

/-- **A path applied** moves the frontier to its top, and leaves what hangs on that. -/
theorem settle_spec (hfiled : l.pending.Holds (fun id s => s.block.id = id)) (htop : l.pending.lookup l.commitID = none)
    (hheld : ∀ id, l.held.lookup id = none) (hung : l.Hung) (hr : l.Rises chain id) (history : Nat) :
    (l.settle history chain).1.commitID = id ∧ (l.settle history chain).1.pending.lookup id = none ∧
      (∀ id, (l.settle history chain).1.held.lookup id = none) ∧ (l.settle history chain).1.Hung ∧
      Table.Sub (l.settle history chain).1.pending l.pending ∧
      (l.settle history chain).2 = chain.map Speculated.block := by
  rcases hr.top_eq hfiled with ⟨rfl, rfl⟩ | ⟨pre, s, rfl, rfl⟩
  · exact ⟨rfl, htop, hheld, hung, Table.Sub.refl _, rfl⟩
  · have hne : (pre ++ [s]).isEmpty ≠ true := by simp
    rw [settle, if_neg hne]
    obtain ⟨hpending, hheld', -⟩ := commit_tables history l (pre ++ [s])
    refine ⟨(commit_top history l pre s).1, ?_, fun id => ?_, hung_commit _ _ _, hpending, rfl⟩
    · -- the top was taken out last
      have hgone : ((pre ++ [s]).foldl advance l).pending.lookup s.block.id = none := by
        rw [List.foldl_append]
        exact AList.lookup_erase _ _
      exact lookup_none_of_sub (Table.sub_dropOrphans _ _ _) hgone
    · exact lookup_none_of_sub hheld' (hheld id)

/-- What hangs on the top of a path applied is still pending. -/
theorem lookup_settle (hfiled : l.pending.Holds (fun id s => s.block.id = id)) (hr : l.Rises chain id) (history : Nat)
    {x : Speculated} (hne : ∀ s ∈ chain, s.block.id ≠ x.block.id) (hparent : parentID x.block = id)
    (hx : l.pending.lookup x.block.id = some x) : (l.settle history chain).1.pending.lookup x.block.id = some x := by
  rcases hr.top_eq hfiled with ⟨rfl, rfl⟩ | ⟨pre, s, rfl, rfl⟩
  · exact hx
  · have hempty : (pre ++ [s]).isEmpty ≠ true := by simp
    have hlook : ((pre ++ [s]).foldl advance l).pending.lookup x.block.id = some x :=
      (lookup_foldl_advance _ l hne).trans hx
    have htop : ((pre ++ [s]).foldl advance l).commitID = s.block.id := by
      rw [List.foldl_append]
      rfl
    rw [settle, if_neg hempty]
    exact Table.rooted_closed.dropOrphans hlook (.spared hlook (decide_eq_true (hparent.trans htop.symm)))

theorem holds_settle {P : Bytes → Block → Prop} (h : l.committed.Holds P) (hchain : ∀ s ∈ chain, P s.block.id s.block)
    (history : Nat) : (l.settle history chain).1.committed.Holds P := by
  unfold settle
  split
  · exact h
  · exact (commit_tables history l chain).2.2 P h hchain

end MemLedger

/-- What the certificate names as its block's parent is of a round below `r`. -/
def Group.Sinks (G : Group) (q : QuorumCert) (r : UInt64) : Prop :=
  ∀ x, G.IsBlock x → x.id = q.voteInfo.parentId → x.round < r

/-- The reputation walk goes down from the block. -/
def Group.Falls (G : Group) (b : Block) : Prop := G.IsBlock b ∧ ∀ q, b.qc = some q → G.Sinks q b.round

/-- **A certificate that has nothing left to say** in round `k`, where `q` is the highest and `hc` the highest that
commits anything. -/
structure Group.Stands (G : Group) (k : UInt64) (q hc : QuorumCert) (l : MemLedger) (x : QuorumCert) : Prop where
  done  : commits x.ledgerCommitInfo = true → x.voteInfo.parentId = l.commitID ∧ higher x hc = hc
  high  : higher x q = q
  lt    : x.voteInfo.round < k
  older : x.voteInfo.parentRound < k
  sinks : G.Sinks x k

/-- **A ledger that is ready for the round `k`**: nothing is held back, and up to the block of the highest certificate
`q` there is one pending path.  `G` tells the blocks of earlier rounds by their ids. -/
structure Group.Ready (G : Group) (k : UInt64) (q hc : QuorumCert) (chain : List Speculated) (l : MemLedger) :
    Prop where
  held         : ∀ id, l.held.lookup id = none
  hung         : l.Hung
  top          : l.pending.lookup l.commitID = none
  filed        : l.pending.Holds (fun id s => s.block.id = id)
  rises        : l.Rises chain q.voteInfo.id
  path         : ∀ s ∈ chain, G.Falls s.block ∧ s.block.round < k
  front        : ∃ x, G.IsBlock x ∧ x.id = l.commitID ∧ x.round < k
  state        : ∃ s, l.pendingState q.voteInfo.id = some s ∧ s ≠ zeroHash
  highQC       : G.Stands k q hc l q
  highCommitQC : G.Stands k q hc l hc
  order        : hc = q ∨ hc.voteInfo.round < q.voteInfo.round
  short        : chain.length < k.toNat
  falls        : l.committed.Holds (fun id x => x.id = id ∧ G.Falls x)

/-- The ledger has executed the block of the round, which extends the highest certificate. -/
structure Group.Executed (G : Group) (k : UInt64) (q hc : QuorumCert) (chain : List Speculated) (x : Speculated)
    (l : MemLedger) : Prop extends G.Ready k q hc chain l where
  isBlock : G.IsBlock x.block
  round   : x.block.round = k
  qc      : x.block.qc = some q
  pending : l.pending.lookup x.block.id = some x
  ne      : x.state ≠ zeroHash

/-- **The certificate of the round's block.**  It commits what it extends if that is of the round before. -/
structure QuorumCert.Certifies (q' : QuorumCert) (k : UInt64) (q : QuorumCert) (b : Block) : Prop where
  id          : q'.voteInfo.id = b.id
  round       : q'.voteInfo.round = k
  parentId    : q'.voteInfo.parentId = q.voteInfo.id
  parentRound : q'.voteInfo.parentRound = q.voteInfo.round
  commits     : commits q'.ledgerCommitInfo = decide (q.voteInfo.round + 1 = k)

/-! What the certificate of round `k` leaves behind: the ledger with what was committed, the highest certificate that
commits, and the path that is certified and not committed. -/

def MemLedger.certified (history : Nat) (k : UInt64) (q : QuorumCert) (chain : List Speculated) (l : MemLedger) :
    MemLedger × List Block :=
  if q.voteInfo.round + 1 = k then l.settle history chain else (l, [])

def nextCommitQC (k : UInt64) (q hc q' : QuorumCert) : QuorumCert := if q.voteInfo.round + 1 = k then q' else hc

def nextChain (k : UInt64) (q : QuorumCert) (chain : List Speculated) (x : Speculated) : List Speculated :=
  if q.voteInfo.round + 1 = k then [x] else chain ++ [x]

section

variable {G : Group} {k : UInt64} {q hc : QuorumCert} {chain : List Speculated} {b : Block} {x : Speculated}
  {l : MemLedger}

theorem higher_self (q : QuorumCert) : higher q q = q := by
  rcases higher_eq q q with h | h <;> exact h

theorem higher_of_le {a b : QuorumCert} (h : a.voteInfo.round ≤ b.voteInfo.round) : higher a b = b := by
  rw [higher, if_neg (UInt64.not_lt.2 h)]

theorem Group.Stands.mono {y : QuorumCert} (h : G.Stands k q hc l y) {k' : UInt64} (hk : k < k') :
    G.Stands k' q hc l y :=
  ⟨h.done, h.high, UInt64.lt_trans h.lt hk, UInt64.lt_trans h.older hk,
    fun x hx hid => UInt64.lt_trans (h.sinks x hx hid) hk⟩

namespace Group.Ready

/-- A round more without a certificate. -/
theorem mono (h : G.Ready k q hc chain l) {k' : UInt64} (hk : k < k') : G.Ready k' q hc chain l :=
  { h with
    path         := fun s hs => (h.path s hs).imp_right (UInt64.lt_trans · hk)
    front        := h.front.imp (fun _ => And.imp_right (And.imp_right (UInt64.lt_trans · hk)))
    highQC       := h.highQC.mono hk
    highCommitQC := h.highCommitQC.mono hk
    short        := Nat.lt_trans h.short (UInt64.lt_iff_toNat_lt.1 hk) }

theorem below (h : G.Ready k q hc chain l) : ∃ x, G.IsBlock x ∧ x.id = q.voteInfo.id ∧ x.round < k := by
  rcases h.rises.top_eq h.filed with ⟨-, htop⟩ | ⟨pre, s, rfl, hid⟩
  · rw [htop]
    exact h.front
  · obtain ⟨hfalls, hlt⟩ := h.path s (List.mem_append_right _ List.mem_cons_self)
    exact ⟨s.block, hfalls.1, hid, hlt⟩

/-- A block of the round is none of those below. -/
theorem ne_of_lt (hb : G.IsBlock b) (hround : b.round = k) {y : Block} (hy : G.IsBlock y) (hlt : y.round < k) :
    y.id ≠ b.id := by
  intro hid
  rw [hy.round_eq hb hid, hround] at hlt
  exact UInt64.lt_irrefl _ hlt

theorem id_ne (h : G.Ready k q hc chain l) (hb : G.IsBlock b) (hround : b.round = k) :
    b.id ≠ q.voteInfo.id ∧ b.id ≠ l.commitID ∧ ∀ s ∈ chain, s.block.id ≠ b.id := by
  obtain ⟨y, hy, hyid, hlt⟩ := h.below
  obtain ⟨z, hz, hzid, hlt'⟩ := h.front
  exact ⟨hyid ▸ (ne_of_lt hb hround hy hlt).symm, hzid ▸ (ne_of_lt hb hround hz hlt').symm,
    fun s hs => ne_of_lt hb hround (h.path s hs).1.1 (h.path s hs).2⟩

theorem parentID_eq (hqc : b.qc = some q) : parentID b = q.voteInfo.id := by
  rw [Diem.parentID_eq, hqc]
  rfl

/-- **A block of the round is executed** on what its certificate is of. -/
theorem insert (h : G.Ready k q hc chain l) (hb : G.IsBlock b) (hround : b.round = k) (hqc : b.qc = some q)
    {execute : Bytes → Payload → Bytes} (hexec : ∀ prev payload, execute prev payload ≠ zeroHash) :
    ∃ s, G.Executed k q hc chain ⟨b, s⟩ (l.speculate execute b).1 := by
  obtain ⟨hneq, hnetop, hnechain⟩ := h.id_ne hb hround
  obtain ⟨prev, hprev, hne⟩ := h.state
  have hung := h.hung.speculate execute b
  have hprev' : l.pendingState (parentID b) = some prev := by
    rw [parentID_eq hqc]
    exact hprev
  rw [MemLedger.speculate_bare execute h.held hprev'] at hung ⊢
  have hlook : ∀ id, id ≠ b.id → (l.pending.insert b.id ⟨b, execute prev b.payload⟩).lookup id = l.pending.lookup id :=
    fun id hid => AList.lookup_insert_ne hid
  have hrises := h.rises.insert (x := ⟨b, execute prev b.payload⟩) h.filed hnechain
  have hstands : ∀ y, G.Stands k q hc l y →
      G.Stands k q hc { l with pending := l.pending.insert b.id ⟨b, execute prev b.payload⟩ } y :=
    fun y hy => ⟨hy.done, hy.high, hy.lt, hy.older, hy.sinks⟩
  refine ⟨execute prev b.payload, ⟨h.held, hung, (hlook _ hnetop.symm).trans h.top, Table.holds_insert h.filed rfl,
    hrises, h.path, h.front, ⟨prev, ?_, hne⟩, hstands q h.highQC, hstands hc h.highCommitQC, h.order, h.short,
    h.falls⟩, hb, hround, hqc, AList.lookup_insert _, hexec prev b.payload⟩
  rw [MemLedger.pendingState] at hprev ⊢
  rw [hlook _ hneq.symm]
  exact hprev

/-- A certificate below the highest one is not of the round before. -/
theorem succ_ne (h : G.Ready k q hc chain l) {y : QuorumCert} (hlt : y.voteInfo.round < q.voteInfo.round) :
    y.voteInfo.round + 1 ≠ k := by
  rintro rfl
  have hq := h.highQC.lt
  rw [UInt64.lt_iff_toNat_lt, UInt64.toNat_add] at hq
  rw [UInt64.lt_iff_toNat_lt] at hlt
  have hle : (y.voteInfo.round.toNat + 1) % 2 ^ 64 ≤ y.voteInfo.round.toNat + 1 := Nat.mod_le _ _
  exact absurd hq (Nat.not_lt.2 (Nat.le_trans hle hlt))

/-- And it is not held. -/
theorem held_speculate (h : G.Ready k q hc chain l) (hqc : b.qc = some q) {execute : Bytes → Payload → Bytes} :
    (l.speculate execute b).1.held.lookup b.id = none := by
  obtain ⟨prev, hprev, -⟩ := h.state
  rw [← parentID_eq hqc] at hprev
  rw [MemLedger.speculate_bare execute h.held hprev]
  exact h.held b.id

end Group.Ready

namespace Group.Executed

theorem parentID_eq (h : G.Executed k q hc chain x l) : parentID x.block = q.voteInfo.id :=
  Group.Ready.parentID_eq h.qc

theorem falls_block (h : G.Executed k q hc chain x l) : G.Falls x.block := by
  refine ⟨h.isBlock, fun q₀ hq₀ => ?_⟩
  cases h.qc.symm.trans hq₀
  exact h.round.symm ▸ h.highQC.sinks

/-- What the certificate of the block names as its parent is below the round. -/
theorem sinks (h : G.Executed k q hc chain x l) {q' : QuorumCert} (hq' : q'.Certifies k q x.block) {k' : UInt64}
    (hk : k < k') : G.Sinks q' k' := by
  intro y hy hid
  obtain ⟨z, hz, hzid, hlt⟩ := h.below
  rw [hy.round_eq hz (hid.trans (hq'.parentId.trans hzid.symm))]
  exact UInt64.lt_trans hlt hk

/-- The certificate over that of the round before: everything below its block is committed. -/
theorem settle (h : G.Executed k q hc chain x l) (history : Nat) (hk : k < k + 1) {q' : QuorumCert}
    (hq' : q'.Certifies k q x.block) : G.Ready (k + 1) q' q' [x] (l.settle history chain).1 := by
  obtain ⟨hneq, -, hnechain⟩ := h.id_ne h.isBlock h.round
  obtain ⟨htop, hnone, hheld, hung, hsub, -⟩ :=
    MemLedger.settle_spec h.filed h.top h.held h.hung h.rises history
  have hlook := MemLedger.lookup_settle h.filed h.rises history hnechain h.parentID_eq h.pending
  have hstands : G.Stands (k + 1) q' q' (l.settle history chain).1 q' :=
    ⟨fun _ => ⟨hq'.parentId.trans htop.symm, higher_self _⟩, higher_self _, by rw [hq'.round]; exact hk,
      by rw [hq'.parentRound]; exact UInt64.lt_trans h.highQC.lt hk, h.sinks hq' hk⟩
  have hrises : (l.settle history chain).1.Rises ([] ++ [x]) q'.voteInfo.id := by
    refine .snoc ?_ (by rw [hq'.id]; exact hlook)
    rw [h.parentID_eq, ← htop]
    exact .nil
  refine ⟨hheld, hung, by rw [htop]; exact hnone, hsub.holds h.filed, hrises, fun s hs => ?_, ?_, ⟨x.state, ?_, h.ne⟩,
    hstands, hstands, .inl rfl, ?_, MemLedger.holds_settle h.falls (fun s hs => ⟨rfl, (h.path s hs).1⟩) history⟩
  · cases List.mem_singleton.1 hs
    exact ⟨h.falls_block, by rw [h.round]; exact hk⟩
  · obtain ⟨y, hy, hyid, hlt⟩ := h.below
    exact ⟨y, hy, hyid.trans htop.symm, UInt64.lt_trans hlt hk⟩
  · rw [MemLedger.pendingState, htop, hq'.id, if_neg hneq, hlook]
    rfl
  · exact Nat.lt_of_le_of_lt (Nat.zero_lt_of_lt h.short) (UInt64.lt_iff_toNat_lt.1 hk)

/-- The certificate over an earlier one: a block more is certified. -/
theorem extend (h : G.Executed k q hc chain x l) (hk : k < k + 1) {q' : QuorumCert} (hq' : q'.Certifies k q x.block)
    (hgap : q.voteInfo.round + 1 ≠ k) : G.Ready (k + 1) q' hc (chain ++ [x]) l := by
  obtain ⟨-, hnetop, -⟩ := h.id_ne h.isBlock h.round
  have hrises : l.Rises (chain ++ [x]) q'.voteInfo.id := by
    refine .snoc ?_ (by rw [hq'.id]; exact h.pending)
    rw [h.parentID_eq]
    exact h.rises
  have hno : commits q'.ledgerCommitInfo ≠ true := by
    rw [hq'.commits, decide_eq_false hgap]
    exact Bool.false_ne_true
  refine ⟨h.held, h.hung, h.top, h.filed, hrises, fun s hs => ?_, (h.toReady.mono hk).front,
    ⟨x.state, ?_, h.ne⟩, ?_, ?_,
    .inr ?_, ?_, h.falls⟩
  · rcases List.mem_append.1 hs with hs | hs
    · exact (h.toReady.mono hk).path s hs
    · cases List.mem_singleton.1 hs
      exact ⟨h.falls_block, by rw [h.round]; exact hk⟩
  · rw [MemLedger.pendingState, hq'.id, if_neg hnetop, h.pending]
    rfl
  · exact ⟨fun hc => absurd hc hno, higher_self _, by rw [hq'.round]; exact hk,
      by rw [hq'.parentRound]; exact UInt64.lt_trans h.highQC.lt hk, h.sinks hq' hk⟩
  · have hstands := h.highCommitQC.mono hk
    refine ⟨hstands.done, higher_of_le ?_, hstands.lt, hstands.older, hstands.sinks⟩
    rw [hq'.round]
    exact UInt64.le_of_lt h.highCommitQC.lt
  · rw [hq'.round]
    exact h.highCommitQC.lt
  · rw [List.length_append]
    exact Nat.lt_of_le_of_lt h.short (UInt64.lt_iff_toNat_lt.1 hk)

/-- **The certificate of the round's block** makes the ledger ready for the next round. -/
theorem certified (h : G.Executed k q hc chain x l) (history : Nat) (hk : k < k + 1) {q' : QuorumCert}
    (hq' : q'.Certifies k q x.block) :
    G.Ready (k + 1) q' (nextCommitQC k q hc q') (nextChain k q chain x) (l.certified history k q chain).1 := by
  unfold nextCommitQC nextChain MemLedger.certified
  by_cases hnext : q.voteInfo.round + 1 = k
  · rw [if_pos hnext, if_pos hnext, if_pos hnext]
    exact h.settle history hk hq'
  · rw [if_neg hnext, if_neg hnext, if_neg hnext]
    exact h.extend hk hq' hnext

end Group.Executed

end

/-! ## Elections -/

/-- Whom a leader election has on file for a round. -/
def LeaderElection.roll (e : LeaderElection) : UInt64 → Option UInt32 := fun r => e.reputationLeaders.lookup r

/-- Who leads the round by what is on file, and by rotation otherwise. -/
def rollLeader (validators : List UInt32) (roll : UInt64 → Option UInt32) (round : UInt64) : UInt32 :=
  match roll round with
  | some id => id
  | none    => validators.getD ((round.toNat / 2) % validators.length) 0

namespace LeaderElection

theorem getLeader_roll (e : LeaderElection) (round : UInt64) :
    e.getLeader round = rollLeader e.validators e.roll round := rfl

/-- One turn of the walk, whatever the fuel: it stops, or it has to have fuel to go on. -/
theorem walk_cases (window exclude : Int) (l : MemLedger) (i : Nat) (current : QuorumCert) (w : Walk) :
    (∃ w', ∀ n, walk window exclude l n i current w = .ok w') ∨
    ∃ qc w', walk window exclude l 0 i current w = .error .reputation ∧
      ∀ n, walk window exclude l (n + 1) i current w = walk window exclude l n (i + 1) qc w' := by
  by_cases hgo : (i : Int) < window ∨ (w.excluded.length : Int) < exclude
  · cases hlook : l.committedBlock current.voteInfo.parentId with
    | none => exact .inl ⟨w, fun n => by rw [walk, if_pos hgo, hlook]⟩
    | some b =>
      cases hqc : b.qc with
      | none =>
        refine .inl ⟨w.visit window exclude i current b, fun n => ?_⟩
        rw [walk, if_pos hgo, hlook]
        simp only [hqc]
      | some qc =>
        refine .inr ⟨qc, w.visit window exclude i current b, ?_, fun n => ?_⟩
        · rw [walk, if_pos hgo, hlook]
          simp only [hqc]
        · rw [walk, if_pos hgo, hlook]
          simp only [hqc]
  · exact .inl ⟨w, fun n => by rw [walk, if_neg hgo]⟩

/-- How much fuel there is does not matter to a walk that ends. -/
theorem walk_fuel {window exclude : Int} {l : MemLedger} : ∀ {n m i : Nat} {current : QuorumCert} {w w₁ w₂ : Walk},
    walk window exclude l n i current w = .ok w₁ → walk window exclude l m i current w = .ok w₂ → w₁ = w₂ := by
  intro n
  induction n with
  | zero =>
    intro m i current w w₁ w₂ h₁ h₂
    rcases walk_cases window exclude l i current w with ⟨w', hw'⟩ | ⟨qc, w', herr, -⟩
    · rw [hw'] at h₁ h₂
      exact Except.ok.inj (h₁.symm.trans h₂)
    · rw [herr] at h₁
      cases h₁
  | succ n ih =>
    intro m i current w w₁ w₂ h₁ h₂
    rcases walk_cases window exclude l i current w with ⟨w', hw'⟩ | ⟨qc, w', herr, hturn⟩
    · rw [hw'] at h₁ h₂
      exact Except.ok.inj (h₁.symm.trans h₂)
    · rw [hturn] at h₁
      cases m with
      | zero =>
        rw [herr] at h₂
        cases h₂
      | succ m =>
        rw [hturn] at h₂
        exact ih h₁ h₂

/-- **What an election by the certificate leaves on file**: nothing new when none is due; else the rounds gone by are
dropped, and whom it elects is entered for the round after. -/
def Elects (cr : Crypto) (cfg : Config) (l : MemLedger) (round : UInt64) (qc : QuorumCert)
    (roll roll' : UInt64 → Option UInt32) : Prop :=
  ((qc.voteInfo.parentRound + 1 ≠ qc.voteInfo.round ∨ qc.voteInfo.round + 1 ≠ round) ∧ roll' = roll) ∨
  (qc.voteInfo.parentRound + 1 = qc.voteInfo.round ∧ qc.voteInfo.round + 1 = round ∧
    ∃ fuel w, walk cfg.window cfg.exclude l fuel 0 qc ⟨[], []⟩ = .ok w ∧
      roll' = fun r => if r < round then none
        else if r = round + 1 then (w.leader cr qc.voteInfo.round).or (roll r) else roll r)

section

variable {cr : Crypto} {cfg : Config} {l : MemLedger} {round : UInt64} {qc : QuorumCert}
  {roll roll₁ roll₂ : UInt64 → Option UInt32}

theorem Elects.unique (h₁ : Elects cr cfg l round qc roll roll₁) (h₂ : Elects cr cfg l round qc roll roll₂) :
    roll₁ = roll₂ := by
  rcases h₁ with ⟨hno, rfl⟩ | ⟨hnext, hcur, n, w₁, hw₁, rfl⟩
  · rcases h₂ with ⟨-, rfl⟩ | ⟨hnext, hcur, -⟩
    · rfl
    · exact absurd hno (not_or.2 ⟨not_not.2 hnext, not_not.2 hcur⟩)
  · rcases h₂ with ⟨hno, -⟩ | ⟨-, -, m, w₂, hw₂, rfl⟩
    · exact absurd hno (not_or.2 ⟨not_not.2 hnext, not_not.2 hcur⟩)
    · rw [walk_fuel hw₁ hw₂]

/-- **An election held again elects nobody else.** -/
theorem Elects.again (h₁ : Elects cr cfg l round qc roll roll₁) (h₂ : Elects cr cfg l round qc roll₁ roll₂) :
    roll₂ = roll₁ := by
  rcases h₂ with ⟨-, rfl⟩ | ⟨hnext, hcur, m, w₂, hw₂, rfl⟩
  · rfl
  · rcases h₁ with ⟨hno, -⟩ | ⟨-, -, n, w₁, hw₁, rfl⟩
    · exact absurd hno (not_or.2 ⟨not_not.2 hnext, not_not.2 hcur⟩)
    · rw [walk_fuel hw₁ hw₂]
      funext r
      dsimp only
      by_cases hlt : r < round
      · rw [if_pos hlt, if_pos hlt]
      · rw [if_neg hlt, if_neg hlt]
        by_cases hr : r = round + 1
        · rw [if_pos hr, if_pos hr]
          cases w₂.leader cr qc.voteInfo.round <;> rfl
        · rw [if_neg hr]

/-- Whoever leads the round still does. -/
theorem Elects.leader_eq (h : Elects cr cfg l round qc roll roll₁) (hround : round ≠ round + 1)
    (validators : List UInt32) : rollLeader validators roll₁ round = rollLeader validators roll round := by
  rcases h with ⟨-, rfl⟩ | ⟨-, -, n, w, -, rfl⟩
  · rfl
  · rw [rollLeader, rollLeader, if_neg (UInt64.lt_irrefl round), if_neg hround]

/-- What is pending plays no part. -/
theorem Elects.congr {l' : MemLedger} (hcommitted : l'.committed = l.committed)
    (h : Elects cr cfg l' round qc roll roll₁) : Elects cr cfg l round qc roll roll₁ := by
  rcases h with hno | ⟨hnext, hcur, n, w, hw, hroll⟩
  · exact .inl hno
  · rw [walk_congr (l := l) (fun id => congrArg (AList.lookup id) hcommitted)] at hw
    exact .inr ⟨hnext, hcur, n, w, hw, hroll⟩

/-- **No election is due** by a certificate that is not of the round before. -/
theorem Elects.still (h : Elects cr cfg l round qc roll roll₁) (hround : qc.voteInfo.round + 1 ≠ round) :
    roll₁ = roll := by
  rcases h with ⟨-, hroll⟩ | ⟨-, hcur, -⟩
  · exact hroll
  · exact absurd hcur hround

theorem elects_of_updateLeaders {fuel : Nat} {e e' : LeaderElection}
    (h : e.updateLeaders cr cfg fuel l round qc = .ok e') :
    Elects cr cfg l round qc e.roll e'.roll ∧ e'.validators = e.validators := by
  rcases updateLeaders_ok h with ⟨hno, rfl⟩ | ⟨hnext, hcur, elected, hel, rfl⟩
  · exact ⟨.inl ⟨hno, rfl⟩, rfl⟩
  · refine ⟨.inr ⟨hnext, hcur, fuel, ?_⟩, rfl⟩
    have hroll : ∀ r, LeaderElection.roll
        { e with reputationLeaders := elected.filter (fun r _ => !decide (r < round)) } r =
        if r < round then none else elected.lookup r := by
      intro r
      rw [LeaderElection.roll, Table.lookup_filter]
      by_cases hlt : r < round
      · rw [if_pos hlt]
        cases elected.lookup r <;> simp [hlt]
      · rw [if_neg hlt]
        cases elected.lookup r <;> simp [hlt]
    rcases hel with ⟨hel, rfl⟩ | ⟨id, hel, rfl⟩
    all_goals
      obtain ⟨w, hw, hleader⟩ := electReputationLeader_eq hel
      refine ⟨w, hw, ?_⟩
      funext r
      rw [hroll, hleader]
    · by_cases hr : r = round + 1
      · rw [if_pos hr]
        rfl
      · rw [if_neg hr]
        rfl
    · by_cases hr : r = round + 1
      · rw [if_pos hr, hr, AList.lookup_insert]
        rfl
      · rw [if_neg hr, AList.lookup_insert_ne hr]
        rfl

end

end LeaderElection

/-- **The reputation walk ends**: the blocks it visits are of ever lower rounds. -/
theorem Group.Ready.walk_returns {G : Group} {k : UInt64} {q hc x : QuorumCert} {chain : List Speculated}
    {l : MemLedger} (h : G.Ready k q hc chain l) (hx : G.Stands k q hc l x) (window exclude : Int) {fuel : Nat}
    (hfuel : k.toNat ≤ fuel) (w : Walk) : ∃ r, LeaderElection.walk window exclude l fuel 0 x w = .ok r := by
  -- a bound on the round of the block that is visited next
  refine loop_ends (fun n (s : Nat × QuorumCert × Walk) => LeaderElection.walk window exclude l n s.1 s.2.1 s.2.2)
    (fun k s => ∀ b, l.committedBlock s.2.1.voteInfo.parentId = some b → b.round.toNat < k) ?_ fuel k.toNat (0, x, w)
    (fun b hb => ?_) hfuel
  · rintro n k ⟨i, cur, w⟩ hk
    rcases LeaderElection.walk_turn window exclude l n i cur w with hr | ⟨b, qc, hlook, hqc, hf⟩
    · exact .inl hr
    · refine .inr ⟨b.round.toNat, (i + 1, qc, w.visit window exclude i cur b), hk b hlook, fun b' hb' => ?_, hf⟩
      obtain ⟨hid, hblock, -⟩ := h.falls _ b' hb'
      exact UInt64.lt_iff_toNat_lt.1 ((h.falls _ b hlook).2.2 qc hqc b' hblock hid)
  · obtain ⟨hid, hblock, -⟩ := h.falls _ b hb
    exact UInt64.lt_iff_toNat_lt.1 (hx.sinks b hblock hid)

end Diem

import Diem.Stale
/-!
# Pruning — what `prune` leaves, whatever order its loops run in

`prune` ranges over maps while it deletes from them, and over one of them again and again until a pass deletes nothing.
`pruneIn` is the same loops with the orders as a parameter, `prune` the one run in which the entries come as they stand.
All runs leave the same: of the blocks, the root's subtree above its round; of the votes, those of later rounds, bucket
and slot alike.
-/
namespace Diem
namespace BlockTree

/-- The orders a call of `prune` ranges over its maps in. -/
structure Orders where
  pending : Table.Order (Sigma fun _ : Bytes => Block)
  votes   : Table.Order (Sigma fun _ : Bytes => VoteBucket)
  voters  : Table.Order (Sigma fun _ : VoterKey => Unit)

def Orders.own : Orders := ⟨.own _, .own _, .own _⟩

/-- **`prune` in the orders `o`**; none if `fuel` passes for orphans all find one. -/
def pruneIn (o : Orders) (fuel : Nat) (t : BlockTree) (rootID : Bytes) (rootRound : UInt64) : Option BlockTree :=
  let pending := Table.deleteIf (fun id b => decide (b.round ≤ rootRound) && id != rootID)
    (o.pending.run 0 t.pending.entries) t.pending
  (Table.settle (fun id b => id == rootID || parentID b == rootID) parentID o.pending fuel 1 pending).map fun pending =>
    { t with
      pending
      votes  := Table.deleteIf (fun _ b => decide (b.voteInfo.round ≤ rootRound))
        (o.votes.run 0 t.votes.entries) t.votes
      voters := Table.deleteIf (fun vk _ => decide (vk.round ≤ rootRound)) (o.voters.run 0 t.voters.entries) t.voters }

/-- No pending block is its own ancestor. -/
def Acyclic (t : BlockTree) : Prop := Table.Acyclic parentID t.pending

/-- **What pruning to a root leaves.** -/
structure Pruned (t : BlockTree) (rootID : Bytes) (rootRound : UInt64) (t' : BlockTree) : Prop where
  subtree : t.Acyclic → ∀ id b, t'.pending.lookup id = some b ↔
    t.pending.lookup id = some b ∧ (id = rootID ∨ t.Hangs rootID rootRound id)
  votes   : ∀ idx b, t'.votes.lookup idx = some b ↔ t.votes.lookup idx = some b ∧ rootRound < b.voteInfo.round
  voters  : ∀ vk, (t'.voters.lookup vk).isSome = true ↔ (t.voters.lookup vk).isSome = true ∧ rootRound < vk.round
  highQC  : t'.highQC = t.highQC ∧ t'.highCommitQC = t.highCommitQC

section

variable {t t' : BlockTree} {rootID : Bytes} {rootRound : UInt64}

/-- The first loop spares the root and what is above its round. -/
theorem lookup_above (rootID : Bytes) (rootRound : UInt64) {es : List (Sigma fun _ : Bytes => Block)}
    (hes : es.Perm t.pending.entries) (id : Bytes) (b : Block) :
    (Table.deleteIf (fun id b => decide (b.round ≤ rootRound) && id != rootID) es t.pending).lookup id = some b ↔
      t.pending.lookup id = some b ∧ (id = rootID ∨ rootRound < b.round) := by
  rw [Table.lookup_deleteIf _ hes, Option.filter_eq_some_iff]
  refine and_congr_right (fun _ => ?_)
  simp [or_comm]

/-- Of those, the ones with the root or a child of it among their ancestors are the root and what hangs from it. -/
theorem rooted_iff {m : Table Bytes Block} (hm : ∀ id b, m.lookup id = some b ↔
      t.pending.lookup id = some b ∧ (id = rootID ∨ rootRound < b.round)) {id : Bytes} {b : Block}
    (hb : m.lookup id = some b) :
    m.Rooted (fun id b => id == rootID || parentID b == rootID) parentID id ↔
      id = rootID ∨ t.Hangs rootID rootRound id := by
  constructor
  · intro h
    clear hb
    induction h with
    | @spared id b h hkeep =>
      obtain ⟨hb, hid | hr⟩ := (hm id b).1 h
      · exact .inl hid
      · rw [Bool.or_eq_true, beq_iff_eq, beq_iff_eq] at hkeep
        exact hkeep.imp_right (fun hp => .child hb hr hp)
    | @up id b h _ ih =>
      obtain ⟨hb, hid | hr⟩ := (hm id b).1 h
      · exact .inl hid
      · exact .inr (ih.elim (fun hp => .child hb hr hp) (fun hp => .up hb hr hp))
  · rintro (rfl | h)
    · exact .spared hb (by simp)
    · clear hb
      induction h with
      | child h hr hp => exact .spared ((hm _ _).2 ⟨h, .inr hr⟩) (by simp [hp])
      | up h hr _ ih => exact .up ((hm _ _).2 ⟨h, .inr hr⟩) ih

/-- **One run**: whatever the orders, it ends, and leaves what it should. -/
theorem pruneIn_pruned (o : Orders) {fuel : Nat} (hfuel : t.pending.entries.length < fuel) (rootID : Bytes)
    (rootRound : UInt64) : ∃ t', t.pruneIn o fuel rootID rootRound = some t' ∧ t.Pruned rootID rootRound t' := by
  have habove := lookup_above rootID rootRound (o.pending.perm 0 t.pending.entries)
  generalize hm : Table.deleteIf (fun id b => decide (b.round ≤ rootRound) && id != rootID)
    (o.pending.run 0 t.pending.entries) t.pending = m at habove
  have hlen : m.entries.length < fuel := by
    rw [← hm]
    exact Nat.lt_of_le_of_lt (Table.length_deleteIf_le _ _ _) hfuel
  obtain ⟨m', hm', hs⟩ := Table.settle_settled
    (fun id b => id == rootID || parentID b == rootID) parentID o.pending 1 hlen
  rw [pruneIn, hm, hm', Option.map_some]
  refine ⟨_, rfl, fun hacyclic id b => ?_, fun idx b => ?_, fun vk => ?_, rfl, rfl⟩
  · rw [hs.lookup_iff (hacyclic.sub (fun id b hb => ((habove id b).1 hb).1))]
    constructor
    · rintro ⟨hb, hroot⟩
      exact ⟨((habove id b).1 hb).1, (rooted_iff habove hb).1 hroot⟩
    · rintro ⟨hb, hleft⟩
      have hb' : m.lookup id = some b := by
        refine (habove id b).2 ⟨hb, hleft.imp_right (fun h => ?_)⟩
        obtain ⟨b', hb', hr⟩ := h.lookup
        rw [hb] at hb'
        cases hb'
        exact hr
      exact ⟨hb', (rooted_iff habove hb').2 hleft⟩
  · show (Table.deleteIf _ _ t.votes).lookup idx = some b ↔ _
    rw [Table.lookup_deleteIf _ (o.votes.perm 0 _), Option.filter_eq_some_iff]
    simp
  · show ((Table.deleteIf _ _ t.voters).lookup vk).isSome = true ↔ _
    rw [Table.lookup_deleteIf _ (o.voters.perm 0 _)]
    cases t.voters.lookup vk <;> simp [Option.filter]

/-- In the order the entries stand in it is `prune`. -/
theorem pruneIn_own {fuel : Nat} (hfuel : t.pending.entries.length < fuel) (rootID : Bytes) (rootRound : UInt64) :
    t.pruneIn .own fuel rootID rootRound = some (t.prune rootID rootRound) := by
  have hlen := Nat.lt_of_le_of_lt (Table.length_deleteIf_le (fun id b => decide (b.round ≤ rootRound) && id != rootID)
    t.pending.entries t.pending) hfuel
  simp only [pruneIn, Orders.own, Table.Order.own]
  rw [← Table.Order.own, Table.settle_own _ _ _ hlen, Option.map_some, Table.deleteIf_own, Table.deleteIf_own,
    Table.deleteIf_own]
  rfl

/-- Buckets and slots go by one round, so a bucket that is left has its signers' slots left. -/
theorem Pruned.buckets {G : Group} (h : t.Pruned rootID rootRound t') (ht : t.votes.Holds (BucketInv G t.voters)) :
    t'.votes.Holds (BucketInv G t'.voters) := by
  intro idx b hb
  obtain ⟨hb, hr⟩ := (h.votes idx b).1 hb
  have hinv := ht idx b hb
  exact { hinv with taken := fun s hs => (h.voters _).2 ⟨hinv.taken s hs, hr⟩ }

end

end BlockTree

/-! ## Votes and their slots -/

/-- **A tree that counts accepted votes**, and no others.  Blocks are inserted, certificates replaced and the tree
pruned at will, in any order. -/
inductive Net.Tended (N : Net) (i : UInt32) : BlockTree → Prop
  | start : Net.Tended N i (newBlockTree N.crypto)
  | insert {t : BlockTree} (h : Net.Tended N i t) (b : Block) :
      Net.Tended N i { t with pending := t.pending.insert b.id b }
  | certs {t : BlockTree} (h : Net.Tended N i t) (highQC highCommitQC : QuorumCert) :
      Net.Tended N i { t with highQC, highCommitQC }
  | prune {t t' : BlockTree} (h : Net.Tended N i t) (o : BlockTree.Orders) (fuel : Nat) (rootID : Bytes)
      (rootRound : UInt64) (hfuel : t.pending.entries.length < fuel)
      (hrun : t.pruneIn o fuel rootID rootRound = some t') : Net.Tended N i t'
  | vote {t : BlockTree} (h : Net.Tended N i t) (env : Env) (m : VoteMsg) (he : N.Admits (.vote m)) :
      Net.Tended N i (t.accumulate N.crypto env i N.verifier.quorum m).1

namespace Net.Tended

variable {N : Net} {i : UInt32} {t t' : BlockTree}

theorem buckets (h : N.Tended i t) : t.votes.Holds (BucketInv N.toGroup t.voters) := by
  induction h with
  | start => exact Table.holds_empty _
  | insert h b ih => exact ih
  | certs h q q' ih => exact ih
  | prune h o fuel rootID rootRound hfuel hrun ih =>
    obtain ⟨t'', hrun', hp⟩ := BlockTree.pruneIn_pruned o hfuel rootID rootRound
    rw [hrun] at hrun'
    cases hrun'
    exact hp.buckets ih
  | vote h env m he ih => exact (accumulate_votes ih he rfl).1

/-- Whatever is run on the tree when a certificate is processed leaves it tended. -/
theorem processQC {history fuel : Nat} {l l' : MemLedger} {qc : QuorumCert} {bs : List Block} (h : N.Tended i t)
    (hcall : t.processQC history fuel l (some qc) = .ok (l', t', bs)) : N.Tended i t' := by
  obtain ⟨-, ⟨-, -, rfl⟩ | ⟨-, -, -, rfl⟩⟩ := BlockTree.processQC_ok hcall
  · have hrun := BlockTree.pruneIn_own (Nat.lt_succ_self t.pending.entries.length) qc.voteInfo.parentId
      qc.voteInfo.parentRound
    exact .certs (.prune h _ _ _ _ (Nat.lt_succ_self _) hrun) _ _
  · exact .certs h _ _

end Net.Tended

/-- **The tree of a core that is fed is tended.** -/
theorem Net.Fed.tended {N : Net} {i : UInt32} {P : Env → Core → Event → Prop} {c : Core} (h : N.Fed i P c) :
    N.Tended i c.tree := by
  refine h.invariant (J := fun c => N.Tended i c.tree) (fun env c hnew => ?_) (fun env c e c' eff ih he _ hs => ?_)
  · cases newCore_eq hnew
    exact .start
  · refine Stores.writes_induct (I := fun s => N.Tended i s.tree) (fun s w s' hw _ hI hwrite => ?_)
      (Stores.along_of_forall (fun _ _ => trivial) _ c.stores) ih (Core.step_writes hs)
    obtain ⟨qc, rfl⟩ | ⟨b, rfl, -⟩ | ⟨m, rfl, rfl⟩ := Core.mem_writes_cases hw
    · obtain ⟨bs, hcall⟩ := Stores.write_processQC hwrite
      exact hI.processQC hcall
    · cases hwrite
      exact .insert hI b
    · cases hwrite
      show N.Tended i (s.tree.accumulate N.crypto env (N.config i).id (N.config i).quorum m).1
      rw [N.id_eq, N.quorum_eq]
      exact .vote hI env m he

/-- **`prune` keeps exactly the subtree**: in whatever orders its loops range over the maps it ends; where no block is
its own ancestor it leaves the root and the blocks above its round that hang from it; of buckets and slots it leaves
those of later rounds.  In a tree that counts accepted votes, a signature is left in its bucket exactly if its slot is
left. -/
theorem prune_keeps_subtree (t : BlockTree) (o : BlockTree.Orders) {fuel : Nat}
    (hfuel : t.pending.entries.length < fuel) (rootID : Bytes) (rootRound : UInt64) :
    ∃ t', t.pruneIn o fuel rootID rootRound = some t' ∧ t.Pruned rootID rootRound t' ∧
      ∀ (N : Net) (i : UInt32), N.Tended i t → ∀ m b, N.Admits (.vote m) →
        t.votes.lookup (ledgerCommitDigest N.crypto m.ledgerCommitInfo) = some b → m.sig ∈ b.sigs.elems →
        ((∃ b', t'.votes.lookup (ledgerCommitDigest N.crypto m.ledgerCommitInfo) = some b' ∧ m.sig ∈ b'.sigs.elems) ↔
          (t'.voters.lookup ⟨m.voteInfo.round, m.sender⟩).isSome = true) := by
  obtain ⟨t', hrun, hpruned⟩ := BlockTree.pruneIn_pruned o hfuel rootID rootRound
  refine ⟨t', hrun, hpruned, fun N i ht m b he hb hsig => ?_⟩
  have hinv := ht.buckets _ b hb
  obtain ⟨hvi, -⟩ := hinv.content_eq he
  obtain ⟨hsigner, -⟩ := (N.verifier.verifyVote_iff m).1 he.1
  have hslot := hinv.taken m.sig hsig
  rw [hvi, hsigner] at hslot
  constructor
  · rintro ⟨b', hb', -⟩
    obtain ⟨hb', hr⟩ := (hpruned.votes _ b').1 hb'
    rw [hb] at hb'
    cases hb'
    exact (hpruned.voters _).2 ⟨hslot, hvi ▸ hr⟩
  · intro hleft
    exact ⟨b, (hpruned.votes _ b).2 ⟨hb, hvi ▸ ((hpruned.voters _).1 hleft).2⟩, hsig⟩

namespace Chain

/-- Three blocks of the chain, and two votes: replica 1's for the first and replica 4's for the third. -/
def grove : BlockTree :=
  let t := newBlockTree net.crypto
  let t := { t with pending := t.pending.insert (block 1).id (block 1) }
  let t := { t with pending := t.pending.insert (block 2).id (block 2) }
  let t := { t with pending := t.pending.insert (block 3).id (block 3) }
  let t := (t.accumulate net.crypto env 1 net.verifier.quorum (vote 1 1 (cert 0))).1
  (t.accumulate net.crypto env 1 net.verifier.quorum (vote 3 4 (cert 0))).1

theorem grove_tended : net.Tended 1 grove :=
  .vote (.vote (.insert (.insert (.insert .start _) _) _) env _ (by decide +kernel)) env _ (by decide +kernel)

/-- The maps from behind. -/
def backwards : BlockTree.Orders :=
  ⟨⟨fun _ es => es.reverse, fun _ es => es.reverse_perm⟩, ⟨fun _ es => es.reverse, fun _ es => es.reverse_perm⟩,
    ⟨fun _ es => es.reverse, fun _ es => es.reverse_perm⟩⟩

theorem grove_acyclic : grove.Acyclic := by
  have hrounds : ∀ e ∈ grove.pending.entries, ((grove.pending.lookup (parentID e.2)).elim 0 (fun b => b.round.toNat)) <
      (grove.pending.lookup e.1).elim 0 (fun b => b.round.toNat) := by decide +kernel
  exact Table.acyclic_of_rank (fun id => (grove.pending.lookup id).elim 0 (fun b => b.round.toNat))
    (fun id b hb => hrounds ⟨id, b⟩ (AList.mem_lookup_iff.1 hb))

end Chain

/-- Pruned to block 2, the maps ranged over from behind: block 3 and its vote are left, block 1 and its vote are not. -/
theorem chain_prune : ∃ t', Chain.grove.pruneIn Chain.backwards 4 (Chain.block 2).id 2 = some t' ∧
    t'.pending.lookup (Chain.block 3).id = some (Chain.block 3) ∧ t'.pending.lookup (Chain.block 1).id = none ∧
    (∃ b, t'.votes.lookup (digest 12) = some b ∧ ⟨4, default⟩ ∈ b.sigs.elems) ∧
    (t'.voters.lookup ⟨3, 4⟩).isSome = true ∧ (t'.voters.lookup ⟨1, 1⟩).isSome = false := by
  obtain ⟨t', hrun, hpruned, hslots⟩ := prune_keeps_subtree Chain.grove Chain.backwards
    (by decide +kernel : Chain.grove.pending.entries.length < 4) (Chain.block 2).id 2
  have hleft := hpruned.subtree Chain.grove_acyclic
  have hthird : Chain.grove.pending.lookup (Chain.block 3).id = some (Chain.block 3) := by decide +kernel
  have hslot : (t'.voters.lookup ⟨3, 4⟩).isSome = true := (hpruned.voters _).2 ⟨by decide +kernel, by decide⟩
  have hbucket : ∃ b, Chain.grove.votes.lookup (digest 12) = some b ∧ (⟨4, default⟩ : Signature) ∈ b.sigs.elems := by
    have h : ((Chain.grove.votes.lookup (digest 12)).any
        (fun b => decide ((⟨4, default⟩ : Signature) ∈ b.sigs.elems))) = true := by
      decide +kernel
    obtain ⟨b, hb, hsig⟩ := (Option.any_eq_true _ _).1 h
    exact ⟨b, hb, of_decide_eq_true hsig⟩
  obtain ⟨b, hb, hsig⟩ := hbucket
  have hdigest : ledgerCommitDigest Chain.net.crypto (Chain.vote 3 4 (Chain.cert 0)).ledgerCommitInfo = digest 12 := by
    decide +kernel
  have hvote := hslots Chain.net 1 Chain.grove_tended (Chain.vote 3 4 (Chain.cert 0)) b (by decide +kernel)
    (by rw [hdigest]; exact hb) hsig
  rw [hdigest] at hvote
  refine ⟨t', hrun, (hleft _ _).2 ⟨hthird, .inr (.child hthird (by decide) rfl)⟩, ?_, hvote.2 hslot, hslot, ?_⟩
  · rw [Option.eq_none_iff_forall_ne_some]
    intro x hx
    obtain ⟨hx, hroot | hhangs⟩ := (hleft _ _).1 hx
    · exact absurd hroot (by decide +kernel)
    · obtain ⟨y, hy, hr⟩ := hhangs.lookup
      have hfirst : Chain.grove.pending.lookup (Chain.block 1).id = some (Chain.block 1) := by decide +kernel
      rw [hfirst] at hy
      cases hy
      exact absurd hr (by decide)
  · rw [Bool.eq_false_iff]
    exact fun h => absurd ((hpruned.voters _).1 h).2 (by decide)

end Diem

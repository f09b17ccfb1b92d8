import Diem.Stale
/-!
# Serve — a replica serves what it has executed

Peers ask for blocks by id and the tree answers, so the tree must have what the ledger has.  The two are pruned by
different rules: the ledger keeps what hangs on its frontier and the held blocks that may still come to, the tree what
hangs from the certificate's root.  A commit certificate keeps them together if it is `Orderly`.
-/
namespace Diem

/-- The ledger has the block under the id, speculated or held. -/
def MemLedger.Has (l : MemLedger) (id : Bytes) (b : Block) : Prop :=
  (∃ state, l.pending.lookup id = some ⟨b, state⟩) ∨ l.held.lookup id = some b

namespace Stores

/-- The certificate's parent is the frontier's parent; the tree has the frontier, and the frontier and the blocks
speculated on it are above the parent's round. -/
def OneBehind (s : Stores) (q : QuorumCert) : Prop :=
  ∃ f ∈ s.tree.pending.lookup s.ledger.commitID, parentID f = q.voteInfo.parentId ∧ q.voteInfo.parentRound < f.round ∧
    ∀ e ∈ s.ledger.pending.entries, parentID e.2.block = s.ledger.commitID → q.voteInfo.parentRound < e.2.block.round

/-- **A commit certificate that comes in order.** -/
structure Orderly (s : Stores) (q : QuorumCert) : Prop where
  /-- It commits the frontier, its parent, or a speculated block. -/
  anchor : q.voteInfo.parentId = s.ledger.commitID ∨ (s.ledger.pending.lookup q.voteInfo.parentId).isSome = true ∨
             s.OneBehind q
  /-- Nothing is held, or the commit lets go of all that is. -/
  held   : ∀ e ∈ s.ledger.held.entries, q.voteInfo.parentId ≠ s.ledger.commitID ∧
             ∃ x ∈ s.ledger.pending.lookup q.voteInfo.parentId, qcRound e.2.qc ≤ x.block.round
  /-- What is speculated on the block it commits is above the round it gives for it. -/
  base   : ∀ e ∈ s.ledger.pending.entries, parentID e.2.block = q.voteInfo.parentId →
             q.voteInfo.parentRound < e.2.block.round
  /-- Speculated blocks are above their speculated parents. -/
  rises  : ∀ e ∈ s.ledger.pending.entries, ∀ y ∈ s.ledger.pending.lookup (parentID e.2.block),
             y.block.round < e.2.block.round

instance (s : Stores) (q : QuorumCert) : Decidable (s.OneBehind q) :=
  inferInstanceAs (Decidable (∃ f ∈ s.tree.pending.lookup s.ledger.commitID, _ ∧ _ ∧
    ∀ e ∈ s.ledger.pending.entries, _))

instance (s : Stores) (q : QuorumCert) : Decidable (s.Orderly q) :=
  decidable_of_iff ((_ ∨ _ ∨ s.OneBehind q) ∧ (∀ e ∈ s.ledger.held.entries, _) ∧ (∀ e ∈ s.ledger.pending.entries, _) ∧
    ∀ e ∈ s.ledger.pending.entries, ∀ y ∈ s.ledger.pending.lookup (parentID e.2.block), _)
    ⟨fun h => ⟨h.1, h.2.1, h.2.2.1, h.2.2.2⟩, fun h => ⟨h.anchor, h.held, h.base, h.rises⟩⟩

/-- The write is no commit certificate out of order. -/
def InOrder (s : Stores) : Write → Prop
  | .processQC q        => commits q.ledgerCommitInfo = true → s.Orderly q
  | .executeAndInsert _ => True
  | .accumulate _       => True

instance (s : Stores) : DecidablePred s.InOrder
  | .processQC q        => inferInstanceAs (Decidable (commits q.ledgerCommitInfo = true → s.Orderly q))
  | .executeAndInsert _ => inferInstanceAs (Decidable True)
  | .accumulate _       => inferInstanceAs (Decidable True)

/-- The tree has whatever the ledger has. -/
def Served (s : Stores) : Prop :=
  ∀ id, (s.ledger.pending.lookup id).isSome = true ∨ (s.ledger.held.lookup id).isSome = true →
    (s.tree.pending.lookup id).isSome = true

end Stores

/-- **The stores of a core that is fed full ids and orderly certificates.** -/
structure ServeInv (G : Group) (s : Stores) : Prop extends StoresInv G s where
  full   : s.tree.pending.Holds (fun _ b => (parentID b).len = hashLen)
  served : s.Served

namespace ServeInv

variable {G : Group} {s : Stores} (h : ServeInv G s) {q : QuorumCert} {l : MemLedger}
include h

/-- Where an orderly certificate leaves the ledger: at the block it commits, or, one behind, where it was. -/
theorem commit_cases (ho : s.Orderly q) {history fuel : Nat} {bs : List Block}
    (hc : s.ledger.commit history fuel q.voteInfo.parentId = .ok (l, bs)) :
    l.commitID = q.voteInfo.parentId ∨ (l = s.ledger ∧ s.OneBehind q) := by
  obtain ⟨_, hspine⟩ := h.spine
  by_cases hF : q.voteInfo.parentId = s.ledger.commitID
  · rw [MemLedger.commit, if_pos hF] at hc
    cases hc
    exact .inl hF.symm
  cases hx : s.ledger.pending.lookup q.voteInfo.parentId with
  | none =>
    rw [MemLedger.commit_of_not_pending history fuel hx] at hc
    cases hc
    rcases ho.anchor with ha | ha | ha
    · exact absurd ha hF
    · rw [hx] at ha
      cases ha
    · exact .inr ⟨rfl, ha⟩
  | some x =>
    obtain ⟨chain, -, -, rfl⟩ := hspine.hung.commit_pending hF hx hc
    refine .inl ?_
    rw [(MemLedger.commit_top history s.ledger chain x).1]
    exact (hspine.records.pending _ _ hx).1

/-- An orderly certificate leaves nothing held. -/
theorem held_none (ho : s.Orderly q) {history fuel : Nat} {bs : List Block}
    (hc : s.ledger.commit history fuel q.voteInfo.parentId = .ok (l, bs)) (id : Bytes) : l.held.lookup id = none := by
  obtain ⟨_, hspine⟩ := h.spine
  cases hb : l.held.lookup id with
  | none => rfl
  | some b =>
    obtain ⟨hF, x, hx, hround⟩ := ho.held ⟨id, b⟩ (AList.mem_lookup_iff.1 ((MemLedger.commit_sub hc).2 id b hb))
    obtain ⟨chain, -, -, rfl⟩ := hspine.hung.commit_pending hF hx hc
    -- it is at or below the round of the new frontier
    exact absurd (MemLedger.commit_held history s.ledger chain x id b hb) (UInt64.not_lt.2 hround)

/-- What an orderly certificate leaves pending is above the round it gives for the block it commits. -/
theorem pending_above (ho : s.Orderly q) {history fuel : Nat} {bs : List Block}
    (hc : s.ledger.commit history fuel q.voteInfo.parentId = .ok (l, bs)) :
    ∀ (n : Nat) (id : Bytes) (x : Speculated), l.pending.lookup id = some x → x.block.round.toNat < n →
      q.voteInfo.parentRound < x.block.round := by
  obtain ⟨_, hspine⟩ := h.spine
  have hsub := (MemLedger.commit_sub hc).1
  intro n
  induction n with
  | zero => exact fun _ _ _ hn => absurd hn (Nat.not_lt_zero _)
  | succ n ih =>
    intro id x hx hn
    have hx' := AList.mem_lookup_iff.1 (hsub id x hx)
    rcases hspine.hung.commit hc id x hx with hp | hp
    · -- on the frontier
      rcases h.commit_cases ho hc with htop | ⟨rfl, f, hf, -, -, hchild⟩
      · exact ho.base _ hx' (hp.trans htop)
      · exact hchild _ hx' hp
    · obtain ⟨y, hy⟩ := Option.isSome_iff_exists.1 hp
      have hlt := ho.rises _ hx' y (hsub _ _ hy)
      exact UInt64.lt_trans (ih _ y hy (Nat.lt_of_lt_of_le (UInt64.lt_iff_toNat_lt.1 hlt) (Nat.le_of_lt_succ hn))) hlt

/-- **An orderly certificate keeps ledger and tree together.** -/
theorem served_commit (ho : s.Orderly q) {history fuel : Nat} {bs : List Block}
    (hc : s.ledger.commit history fuel q.voteInfo.parentId = .ok (l, bs)) {id : Bytes} {x : Speculated}
    (hx : l.pending.lookup id = some x) :
    ((s.tree.prune q.voteInfo.parentId q.voteInfo.parentRound).pending.lookup id).isSome = true := by
  obtain ⟨_, hspine⟩ := h.spine
  have hspine' := hspine.commit hc
  have hsub := (MemLedger.commit_sub hc).1
  have hserved : ∀ id, (l.pending.lookup id).isSome = true → (s.tree.pending.lookup id).isSome = true := by
    intro id hid
    obtain ⟨y, hy⟩ := Option.isSome_iff_exists.1 hid
    exact h.served id (.inl (by rw [hsub id y hy]; rfl))
  obtain ⟨b, hb⟩ := Option.isSome_iff_exists.1 (hserved id (by rw [hx]; rfl))
  suffices hkeep : (s.tree.prune q.voteInfo.parentId q.voteInfo.parentRound).pending.lookup id = some b by
    rw [hkeep]
    rfl
  refine BlockTree.prune_keeps (A := fun y => (l.pending.lookup y).isSome = true ∨
    (s.OneBehind q ∧ l = s.ledger ∧ y = s.ledger.commitID)) (fun y c hy hA => ?_) hb (.inl (by rw [hx]; rfl))
  rcases hA with hA | ⟨⟨f, hf, hfp, hfr, -⟩, -, rfl⟩
  · -- the tree's block and the ledger's have one round and one parent
    obtain ⟨z, hz⟩ := Option.isSome_iff_exists.1 hA
    obtain ⟨hcid, hcb⟩ := h.tree _ _ hy
    obtain ⟨hzid, hzb, -⟩ := hspine'.records.pending _ _ hz
    have hround := hcb.round_eq hzb (hcid.trans hzid.symm)
    have hpar := hspine'.parent_eq hz hcb hcid (h.full _ _ hy)
    refine ⟨by rw [hround]; exact h.pending_above ho hc _ y z hz (Nat.lt_succ_self _), ?_⟩
    rw [← hpar]
    rcases hspine'.hung _ z hz with hp | hp
    · rcases h.commit_cases ho hc with htop | ⟨rfl, hone⟩
      · exact .inl (hp.trans htop)
      · refine .inr ⟨.inr ⟨hone, rfl, hp⟩, ?_⟩
        obtain ⟨f, hf, -⟩ := hone
        rw [hp, Option.mem_def.1 hf]
        rfl
    · exact .inr ⟨.inl hp, hserved _ hp⟩
  · cases hy.symm.trans hf
    exact ⟨hfr, .inl hfp⟩

/-- One write keeps them together: an insertion puts the block into both. -/
theorem write {cfg : Config} {env : Env} {s' : Stores} {w : Write}
    (hw : ∀ b, w = .executeAndInsert b → G.IsBlock b ∧ (parentID b).len = hashLen)
    (ho : s.InOrder w) (hs : s.write G.crypto cfg env w = .ok s') : ServeInv G s' := by
  refine { h.toStoresInv.write (fun b hb => (hw b hb).1) hs with full := ?_, served := ?_ }
  · cases w with
    | processQC q =>
      obtain ⟨out, hq⟩ := Stores.write_processQC hs
      exact (BlockTree.processQC_sub hq).holds h.full
    | executeAndInsert b =>
      cases hs
      exact Table.holds_insert h.full (hw b rfl).2
    | accumulate m =>
      cases hs
      rw [BlockTree.accumulate_pending]
      exact h.full
  · obtain ⟨bs, hspine⟩ := h.spine
    cases w with
    | processQC q =>
      obtain ⟨out, hq⟩ := Stores.write_processQC hs
      obtain ⟨l, t⟩ := s'
      rcases (BlockTree.processQC_ok hq).2 with ⟨hcommits, hcommit, rfl⟩ | ⟨-, rfl, -, rfl⟩
      · have horder := ho hcommits
        rintro id (hid | hid)
        · obtain ⟨x, hx⟩ := Option.isSome_iff_exists.1 hid
          exact h.served_commit horder hcommit hx
        · dsimp only at hid
          rw [h.held_none horder hcommit id] at hid
          cases hid
      · exact h.served
    | executeAndInsert b =>
      cases hs
      intro id hid
      show ((s.tree.pending.insert b.id b).lookup id).isSome = true
      by_cases hb : id = b.id
      · rw [hb, AList.lookup_insert]
        rfl
      · rw [AList.lookup_insert_ne hb]
        refine h.served id ((MemLedger.speculate_ids ?_ cfg.execute b hid).resolve_right hb)
        exact fun id x hx => (hspine.records.held id x hx).1
    | accumulate m =>
      cases hs
      rw [Stores.Served, BlockTree.accumulate_pending]
      exact h.served

end ServeInv

namespace Net

/-- **A step that keeps to the order**: a block that was asked for names its parent by a full id, and every commit
certificate is processed in order. -/
def InOrder (N : Net) (i : UInt32) (env : Env) (c : Core) (e : Event) : Prop :=
  (match e with
    | .block b => (parentID b).len = hashLen
    | _        => True) ∧
    c.stores.Along N.crypto (N.config i) env Stores.InOrder (c.writes N.crypto (N.config i) env e)

theorem Fed.serveInv {N : Net} {i : UInt32} {c : Core} (h : N.Fed i (N.InOrder i) c) : ServeInv N.toGroup c.stores := by
  refine h.stores ⟨⟨⟨[], Spine.init N.toGroup⟩, Table.holds_empty _⟩, Table.holds_empty _, fun id hid => ?_⟩
    (fun env c e hP => hP.2) (fun env c e b he hP hb => ⟨he.inserted hb, ?_⟩)
    (fun env s w s' hw hcond hI hs => hI.write hw hcond hs)
  · rcases hid with hid | hid <;> cases hid
  · rcases Core.insert_of_mem_writes hb with rfl | ⟨p, rfl, rfl⟩
    · exact hP.1
    · rw [parentID_eq]
      exact (he.proposed he.proposal_block).2.1.certifiedID_len

end Net

/-- **A replica serves what it has executed**, and what it holds, as long as its steps keep to the order: the tree has a
block under the id, the same as far as the id tells, and a request is answered with it. -/
theorem serves_executed {N : Net} {i : UInt32} {c : Core} (h : N.Fed i (N.InOrder i) c) {id : Bytes} {x : Block}
    (hx : c.ledger.Has id x) :
    ∃ b, c.tree.pending.lookup id = some b ∧ b.id = id ∧ x.id = id ∧ b.bytes = x.bytes ∧
      ∀ env, c.step N.crypto (N.config i) env (.blockRequest id) = .ok (c, [.reply (some b)]) := by
  have hinv := h.serveInv
  obtain ⟨bs, hspine⟩ := hinv.spine
  obtain ⟨hxid, hxb, hsome⟩ : x.id = id ∧ N.IsBlock x ∧ (c.tree.pending.lookup id).isSome = true := by
    rcases hx with ⟨state, hs⟩ | hs
    · obtain ⟨hid, hb, -⟩ := hspine.records.pending _ _ hs
      exact ⟨hid, hb, hinv.served id (.inl (Option.isSome_iff_exists.2 ⟨_, hs⟩))⟩
    · obtain ⟨hid, hb⟩ := hspine.records.held _ _ hs
      exact ⟨hid, hb, hinv.served id (.inr (Option.isSome_iff_exists.2 ⟨_, hs⟩))⟩
  obtain ⟨b, hb⟩ := Option.isSome_iff_exists.1 hsome
  obtain ⟨hbid, hbb⟩ := hinv.tree _ _ hb
  refine ⟨b, hb, hbid, hxid, hbb.bytes_eq hxb (hbid.trans hxid.symm), fun env => ?_⟩
  rw [Core.step, Core.serveBlock, BlockTree.block, hb]

/-! ## The chain of four blocks -/

section

variable {cr : Crypto} {cfg : Config} {env : Env} {cond : Stores → Write → Prop} [∀ s, DecidablePred (cond s)]

instance decidableAlong : ∀ (ws : List Write) (s : Stores), Decidable (s.Along cr cfg env cond ws)
  | [],      _ => .isTrue trivial
  | w :: ws, s =>
    match h : s.write cr cfg env w with
    | .error _ => decidable_of_iff (cond s w) ⟨fun hc => ⟨hc, fun s' h' => by rw [h] at h'; cases h'⟩, And.left⟩
    | .ok s'   =>
      have := decidableAlong ws s'
      decidable_of_iff (cond s w ∧ s'.Along cr cfg env cond ws)
        (and_congr_right' ⟨fun hs s'' h' => by rw [h] at h'; cases h'; exact hs, fun hs => hs s' h⟩)

end

namespace Net

variable (N : Net) [∀ s, Decidable (s ∈ N.hashed)] (i : UInt32) (env : Env)

instance (c : Core) (e : Event) : Decidable (N.InOrder i env c e) :=
  match e with
  | .block b        => inferInstanceAs (Decidable ((parentID b).len = hashLen ∧ _))
  | .proposal _     => inferInstanceAs (Decidable (True ∧ _))
  | .vote _         => inferInstanceAs (Decidable (True ∧ _))
  | .timeout _      => inferInstanceAs (Decidable (True ∧ _))
  | .localTimeout _ => inferInstanceAs (Decidable (True ∧ _))
  | .blockRequest _ => inferInstanceAs (Decidable (True ∧ _))

end Net

/-- Replica 1 gets the four blocks in order, commits the second, and serves the fourth. -/
theorem chain_serves :
    ∃ c b, Chain.net.Fed 1 (Chain.net.InOrder 1) c ∧ c.ledger.commitID = (Chain.block 2).id ∧
      b.bytes = (Chain.block 4).bytes ∧
      c.step Chain.net.crypto (Chain.net.config 1) Chain.env (.blockRequest (Chain.block 4).id) =
        .ok (c, [.reply (some b)]) := by
  have hplay : Core.hears Chain.net.crypto (Chain.net.config 1) Chain.env
      (fun c e => decide (Chain.net.Admits e ∧ Chain.net.InOrder 1 Chain.env c e))
      [.proposal (Chain.proposal 1 (some (Chain.cert 0))), .proposal (Chain.proposal 2 none),
        .proposal (Chain.proposal 3 (some (Chain.cert 2))), .proposal (Chain.proposal 4 none)]
      (fun _ c => (c.ledger.commitID == (Chain.block 2).id) &&
        ((c.ledger.pending.lookup (Chain.block 4).id).map Speculated.block == some (Chain.block 4))) = true := by
    decide +kernel
  obtain ⟨ts, c, hheard, htest⟩ := Core.Heard.of_hears
    (P := fun env c e => Chain.net.Admits e ∧ Chain.net.InOrder 1 env c e) (fun _ _ h => of_decide_eq_true h) hplay
  simp only [Bool.and_eq_true, beq_iff_eq, Option.map_eq_some_iff] at htest
  obtain ⟨hid, s, hs, hblock⟩ := htest
  have hfed : Chain.net.Fed 1 (Chain.net.InOrder 1) c := ⟨ts, hheard⟩
  have hhas : c.ledger.Has (Chain.block 4).id (Chain.block 4) := .inl ⟨s.state, by rw [hs, ← hblock]⟩
  obtain ⟨b, -, -, -, hbytes, hserve⟩ := serves_executed hfed hhas
  exact ⟨c, b, hfed, hid, hbytes, hserve Chain.env⟩

/-- **The tree loses what the ledger holds**: replica 3 gets block 2 without block 1 and holds it; then a vote brings
the certificate of block 1, which commits genesis, the frontier, and the tree drops block 2 as an orphan. -/
theorem held_not_served :
    ∃ σ c, Chain.net.Reached Net.AnyEvent σ ∧ σ.status 3 = .running c ∧
      c.ledger.Has (Chain.block 2).id (Chain.block 2) ∧ c.tree.pending.lookup (Chain.block 2).id = none ∧
      c.step Chain.net.crypto (Chain.net.config 3) Chain.env (.blockRequest (Chain.block 2).id) =
        .ok (c, [.reply none]) := by
  have h : (Chain.book [(1, digest 16), (4, digest 16)]).plays 1 2 Chain.env
      (Chain.opening ++ [.event 3 (.proposal (Chain.proposal 2 none)),
        .event 3 (.vote (Chain.vote 2 1 (Chain.cert 1)))])
      Chain.closing
      (fun σ => σ.check 3 (fun c => (c.ledger.held.lookup (Chain.block 2).id == some (Chain.block 2)) &&
        (c.tree.pending.lookup (Chain.block 2).id).isNone && (c.ledger.committedBlock (Chain.block 2).id).isNone))
      (fun _ => true) = true := by decide +kernel
  obtain ⟨σ, hσ, ho⟩ := (Book.reached h).1 Net.AnyEvent (fun _ _ _ _ => trivial)
  obtain ⟨c, hc, htest⟩ := Sys.running_of_check ho
  simp only [Bool.and_eq_true, beq_iff_eq, Option.isNone_iff_eq_none] at htest
  obtain ⟨⟨hheld, htree⟩, hcommitted⟩ := htest
  refine ⟨σ, c, hσ, hc, .inr hheld, htree, ?_⟩
  rw [Core.step, Core.serveBlock, BlockTree.block, htree]
  exact congrArg (fun r => Except.ok (c, [Effect.reply r])) hcommitted

end Diem

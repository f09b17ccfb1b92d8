import Diem.Play
import Diem.Spine
/-!
# Stale — commit certificates for what is below the frontier

The ledger ignores them.  The tree does not: it is pruned to a root that it has long dropped, and every block that does
not hang from there goes as an orphan.
-/
namespace Diem
namespace BlockTree

/-- **The block of id `root`, and what descends from that id through the tree.** -/
inductive Descends (t : BlockTree) (root : Bytes) : Bytes → Block → Prop
  | root {b : Block} (h : t.pending.lookup root = some b) : Descends t root root b
  | child {id : Bytes} {b : Block} (h : t.pending.lookup id = some b) (hp : parentID b = root) : Descends t root id b
  | up {p id : Bytes} {x b : Block} (hx : Descends t root p x) (h : t.pending.lookup id = some b)
      (hp : parentID b = p) : Descends t root id b

/-- **The block hangs from `rootID`**: through blocks of the tree, all of rounds above `rootRound`. -/
inductive Hangs (t : BlockTree) (rootID : Bytes) (rootRound : UInt64) : Bytes → Prop
  | child {id : Bytes} {b : Block} (h : t.pending.lookup id = some b) (hr : rootRound < b.round)
      (hp : parentID b = rootID) : Hangs t rootID rootRound id
  | up {id : Bytes} {b : Block} (h : t.pending.lookup id = some b) (hr : rootRound < b.round)
      (hp : Hangs t rootID rootRound (parentID b)) : Hangs t rootID rootRound id

theorem Descends.lookup {t : BlockTree} {root id : Bytes} {b : Block} (h : t.Descends root id b) :
    t.pending.lookup id = some b := by
  cases h with
  | root h => exact h
  | child h _ => exact h
  | up _ h _ => exact h

theorem Hangs.lookup {t : BlockTree} {rootID id : Bytes} {rootRound : UInt64} (h : t.Hangs rootID rootRound id) :
    ∃ b, t.pending.lookup id = some b ∧ rootRound < b.round := by
  cases h with
  | child h hr _ => exact ⟨_, h, hr⟩
  | up h hr _ => exact ⟨_, h, hr⟩

/-! ## What `prune` keeps -/

/-- What is left is the root, or is above its round and has its parent, if not the root, left too. -/
theorem prune_left {t : BlockTree} {rootID id : Bytes} {rootRound : UInt64} {b : Block}
    (h : (t.prune rootID rootRound).pending.lookup id = some b) :
    t.pending.lookup id = some b ∧ (id = rootID ∨ (rootRound < b.round ∧
      (parentID b = rootID ∨ ((t.prune rootID rootRound).pending.lookup (parentID b)).isSome = true))) := by
  have hfil := Table.sub_dropOrphans _ _ _ id b h
  rw [Table.lookup_filter, Option.filter_eq_some_iff] at hfil
  refine ⟨hfil.1, ?_⟩
  by_cases hid : id = rootID
  · exact .inl hid
  · refine .inr ⟨?_, ?_⟩
    · simpa [hid] using hfil.2
    · rcases Table.dropOrphans_closed _ _ _ h with hkeep | hparent
      · refine .inl ?_
        simpa [hid] using hkeep
      · exact .inr hparent

/-- A set of blocks above the root's round, closed under parents up to the root, is left. -/
theorem prune_keeps {t : BlockTree} {rootID : Bytes} {rootRound : UInt64} {A : Bytes → Prop}
    (hA : ∀ id b, t.pending.lookup id = some b → A id → rootRound < b.round ∧
      (parentID b = rootID ∨ (A (parentID b) ∧ (t.pending.lookup (parentID b)).isSome = true)))
    {id : Bytes} {b : Block} (hb : t.pending.lookup id = some b) (hid : A id) :
    (t.prune rootID rootRound).pending.lookup id = some b := by
  have hfil : ∀ x y, t.pending.lookup x = some y → A x →
      (t.pending.filter (fun id b => !(decide (b.round ≤ rootRound) && id != rootID))).lookup x = some y := by
    intro x y hxy hx
    rw [Table.lookup_filter, hxy]
    simp [Option.filter, (hA x y hxy hx).1]
  refine Table.Closed.dropOrphans (A := A) (fun x y hxy hx => ?_) (hfil id b hb hid) hid
  have hxy' := Table.sub_filter _ _ x y hxy
  rcases (hA x y hxy' hx).2 with hroot | ⟨hp, hsome⟩
  · exact .inl (by simp [hroot])
  · obtain ⟨z, hz⟩ := Option.isSome_iff_exists.1 hsome
    exact .inr ⟨hp, by rw [hfil _ z hz hp]; rfl⟩

end BlockTree

/-! ## Below the frontier -/

section

variable {G : Group} {t : BlockTree} (ht : t.pending.Holds (fun id b => b.id = id ∧ G.IsBlock b))
include ht

/-- In the tree, a block whose parent is a block has the parent that any block of its id has by a full id. -/
theorem tree_parent_eq {b c p : Block} (hb : t.pending.lookup c.id = some b) (hc : G.IsBlock c)
    (hlen : (parentID c).len = hashLen) (hp : G.IsBlock p) (hpid : p.id = parentID b) : parentID b = parentID c := by
  obtain ⟨hid, hblock⟩ := ht _ _ hb
  exact hblock.parent_eq hc hid (by rw [← hpid, hp.id_len, hlen])

theorem not_genesis_parent {b p : Block} (hb : t.pending.lookup (genesisBlock G.crypto).id = some b)
    (hp : G.IsBlock p) : p.id ≠ parentID b := by
  intro hpid
  have hzero := tree_parent_eq ht hb G.isBlock_genesis (rfl : zeroHash.len = hashLen) hp hpid
  exact hp.id_ne_zeroHash (hpid.trans hzero)

/-- **Nothing on the way up to the frontier descends from it.** -/
theorem not_descends {F : Bytes} (hF : ∃ f, G.IsBlock f ∧ f.id = F) {xs : List Block} {x : Bytes}
    (hx : Path G.IsBlock (genesisBlock G.crypto).id xs x) (hbelow : F ∉ passed (genesisBlock G.crypto).id xs) :
    ∀ y ∈ passed (genesisBlock G.crypto).id xs, ∀ b, ¬ t.Descends F y b := by
  obtain ⟨f, hf, rfl⟩ := hF
  induction hx with
  | nil =>
    intro y hy b hd
    cases List.mem_singleton.1 hy
    generalize hid : (genesisBlock G.crypto).id = y at hd
    cases hd with
    | root h => exact hbelow (hid ▸ List.mem_cons_self)
    | child h hp => exact not_genesis_parent ht (hid ▸ h) hf hp.symm
    | up hd h hp =>
      obtain ⟨hpid, hpb⟩ := ht _ _ hd.lookup
      exact not_genesis_parent ht (hid ▸ h) hpb (hpid.trans hp.symm)
  | @snoc xs c hxs hc ih =>
    rw [passed_append] at hbelow ⊢
    have hbelow' : f.id ∉ passed (genesisBlock G.crypto).id xs := fun hm => hbelow (List.mem_append_left _ hm)
    obtain ⟨p, hp, hpid⟩ := Spine.isBlock_of_passed hxs.forall_mem hxs.top_mem
    have hlen : (parentID c).len = hashLen := by
      rw [← hpid]
      exact hp.id_len
    intro y hy b hd
    rcases List.mem_append.1 hy with hy | hy
    · exact ih hbelow' y hy b hd
    · rw [List.map_singleton, List.mem_singleton] at hy
      subst hy
      generalize hid : c.id = y at hd
      cases hd with
      | root h => exact hbelow (List.mem_append_right _ (by simp [hid]))
      | child h hpar =>
        rw [tree_parent_eq ht (hid ▸ h) hc hlen hf hpar.symm] at hpar
        exact hbelow' (hpar ▸ hxs.top_mem)
      | up hd h hpar =>
        obtain ⟨hzid, hz⟩ := ht _ _ hd.lookup
        rw [← hpar, tree_parent_eq ht (hid ▸ h) hc hlen hz (hzid.trans hpar.symm)] at hd
        exact ih hbelow' _ hxs.top_mem _ hd

/-- **What is left of the way up to the frontier hangs from the root.** -/
theorem hangs_of_left {P : Bytes} {pr : UInt64} {xs : List Block} {x : Bytes}
    (hx : Path G.IsBlock (genesisBlock G.crypto).id xs x) :
    ∀ y ∈ passed (genesisBlock G.crypto).id xs, y ≠ P → ∀ b, (t.prune P pr).pending.lookup y = some b →
    t.Hangs P pr y := by
  induction hx with
  | nil =>
    intro y hy hne b hb
    cases List.mem_singleton.1 hy
    obtain ⟨hb', hid | ⟨hr, hp | hp⟩⟩ := BlockTree.prune_left hb
    · exact absurd hid hne
    · exact .child hb' hr hp
    · obtain ⟨z, hz⟩ := Option.isSome_iff_exists.1 hp
      obtain ⟨hzid, hzb⟩ := ht _ _ (BlockTree.prune_left hz).1
      exact absurd hzid (not_genesis_parent ht hb' hzb)
  | @snoc xs c hxs hc ih =>
    obtain ⟨p, hp, hpid⟩ := Spine.isBlock_of_passed hxs.forall_mem hxs.top_mem
    have hlen : (parentID c).len = hashLen := by
      rw [← hpid]
      exact hp.id_len
    intro y hy hne b hb
    rw [passed_append] at hy
    rcases List.mem_append.1 hy with hy | hy
    · exact ih y hy hne b hb
    · rw [List.map_singleton, List.mem_singleton] at hy
      subst hy
      obtain ⟨hb', hid | ⟨hr, hpar | hpar⟩⟩ := BlockTree.prune_left hb
      · exact absurd hid hne
      · exact .child hb' hr hpar
      · obtain ⟨z, hz⟩ := Option.isSome_iff_exists.1 hpar
        obtain ⟨hzid, hzb⟩ := ht _ _ (BlockTree.prune_left hz).1
        have heq := tree_parent_eq ht hb' hc hlen hzb hzid
        by_cases hroot : parentID b = P
        · exact .child hb' hr hroot
        · refine .up hb' hr ?_
          rw [heq] at hz hroot ⊢
          exact ih _ hxs.top_mem hroot z hz

end

theorem Spine.below_not_pending {G : Group} {l : MemLedger} {bs : List Block} (h : Spine G l bs) {P : Bytes}
    (hP : Relation.TransGen G.Parent l.commitID P) : P ≠ l.commitID ∧ l.pending.lookup P = none := by
  rcases Spine.below_cases h.line hP with hm | rfl
  · exact ⟨fun heq => h.front_not_below (heq ▸ hm), h.not_pending (List.dropLast_subset _ hm)⟩
  · obtain ⟨f, hf, hfid⟩ := Spine.isBlock_of_passed h.line.forall_mem h.line.top_mem
    refine ⟨fun heq => hf.id_ne_zeroHash (hfid.trans heq.symm), ?_⟩
    cases hs : l.pending.lookup zeroHash with
    | none => rfl
    | some s =>
      obtain ⟨hid, hb, -⟩ := h.records.pending _ _ hs
      exact absurd hid hb.id_ne_zeroHash

/-- Nothing below the frontier descends from it in the tree. -/
theorem StoresInv.not_descends_below {G : Group} {s : Stores} (h : StoresInv G s) {P : Bytes}
    (hP : Relation.TransGen G.Parent s.ledger.commitID P) (b : Block) : ¬ s.tree.Descends s.ledger.commitID P b := by
  obtain ⟨bs, hspine⟩ := h.spine
  have hfront := hspine.front_not_below
  have hF := Spine.isBlock_of_passed hspine.line.forall_mem hspine.line.top_mem
  rcases Spine.below_cases hspine.line hP with hm | rfl
  · generalize s.ledger.commitID = F at hfront hF ⊢
    have hline := hspine.line
    generalize s.ledger.commitID = F' at hline
    cases hline with
    | nil => cases hm
    | snoc hxs hc =>
      rw [passed_append, List.map_singleton, List.dropLast_concat] at hm hfront
      exact not_descends h.tree hF hxs hfront P hm b
  · intro hd
    obtain ⟨hid, hb⟩ := h.tree _ _ hd.lookup
    exact hb.id_ne_zeroHash hid

/-- If all that descends from the frontier is left, so is the frontier: it is one of them, or the parent of one. -/
theorem BlockTree.front_left {t : BlockTree} {F P : Bytes} {pr : UInt64} (hne : P ≠ F)
    (hP : ∀ b, ¬ t.Descends F P b) (hkept : ∀ id b, t.Descends F id b → (t.prune P pr).pending.lookup id = some b)
    {id : Bytes} {b : Block} (hd : t.Descends F id b) : ∃ f, (t.prune P pr).pending.lookup F = some f := by
  induction hd with
  | root h => exact ⟨_, hkept _ _ (.root h)⟩
  | @child id b hb hp =>
    have hid : id ≠ P := fun heq => hP b (heq ▸ .child hb hp)
    rcases ((BlockTree.prune_left (hkept id b (.child hb hp))).2.resolve_left hid).2 with hroot | hsome
    · exact absurd (hroot.symm.trans hp) hne
    · rw [hp] at hsome
      exact Option.isSome_iff_exists.1 hsome
  | up _ _ _ ih => exact ih

theorem BlockTree.Hangs.isSome {t : BlockTree} {P x : Bytes} {pr : UInt64} (h : t.Hangs P pr x) :
    (t.pending.lookup x).isSome = true := by
  obtain ⟨z, hz, -⟩ := h.lookup
  rw [hz]
  rfl

/-- One turn down a hanging block. -/
theorem BlockTree.Hangs.parent {t : BlockTree} {P x : Bytes} {pr : UInt64} {y : Block} (h : t.Hangs P pr x)
    (hxy : t.pending.lookup x = some y) : pr < y.round ∧ (parentID y = P ∨ t.Hangs P pr (parentID y)) := by
  cases h with
  | child h' hr hp =>
    cases hxy.symm.trans h'
    exact ⟨hr, .inl hp⟩
  | up h' hr hp =>
    cases hxy.symm.trans h'
    exact ⟨hr, .inr hp⟩

/-- **What descends from a frontier that hangs from the root is kept**, if it is above the root's round. -/
theorem BlockTree.prune_keeps_descends {t : BlockTree} {F P : Bytes} {pr : UInt64} (hF : t.Hangs P pr F)
    (hround : ∀ id b, t.Descends F id b → pr < b.round) {id : Bytes} {b : Block} (hd : t.Descends F id b) :
    (t.prune P pr).pending.lookup id = some b := by
  refine BlockTree.prune_keeps (A := fun x => t.Hangs P pr x ∨ ∃ y, t.Descends F x y) (fun x y hxy hx => ?_) hd.lookup
    (.inr ⟨b, hd⟩)
  have hdown : t.Hangs P pr x → pr < y.round ∧ (parentID y = P ∨
      (t.Hangs P pr (parentID y) ∨ ∃ z, t.Descends F (parentID y) z) ∧
        (t.pending.lookup (parentID y)).isSome = true) := by
    intro hx
    obtain ⟨hr, hp⟩ := hx.parent hxy
    exact ⟨hr, hp.imp_right (fun hp => ⟨.inl hp, hp.isSome⟩)⟩
  rcases hx with hx | ⟨z, hz⟩
  · exact hdown hx
  · cases hxy.symm.trans hz.lookup
    cases hz with
    | root h' => exact hdown hF
    | child h' hp =>
      rw [hp]
      exact ⟨hround x y (.child h' hp), .inr ⟨.inl hF, hF.isSome⟩⟩
    | up hx' h' hp =>
      rw [hp]
      exact ⟨hround x y (.up hx' h' hp), .inr ⟨.inr ⟨_, hx'⟩, by rw [hx'.lookup]; rfl⟩⟩

/-- **Pruned to a root below the frontier**, the tree keeps the frontier and what descends from it exactly if there is
none, or each is above the root's round and the frontier hangs from the root. -/
theorem StoresInv.prune_keeps_iff {G : Group} {s : Stores} (h : StoresInv G s) {P : Bytes} (pr : UInt64)
    (hP : Relation.TransGen G.Parent s.ledger.commitID P) :
    (∀ id b, s.tree.Descends s.ledger.commitID id b → (s.tree.prune P pr).pending.lookup id = some b) ↔
      ∀ id b, s.tree.Descends s.ledger.commitID id b → pr < b.round ∧ s.tree.Hangs P pr s.ledger.commitID := by
  obtain ⟨bs, hspine⟩ := h.spine
  have hne := (hspine.below_not_pending hP).1
  constructor
  · intro hkept id b hd
    have hid : id ≠ P := fun heq => h.not_descends_below hP b (heq ▸ hd)
    have hround := (BlockTree.prune_left (hkept id b hd)).2.resolve_left hid
    obtain ⟨f, hf⟩ := BlockTree.front_left hne (h.not_descends_below hP) hkept hd
    exact ⟨hround.1, hangs_of_left h.tree hspine.line _ hspine.line.top_mem (Ne.symm hne) f hf⟩
  · intro hcond id b hd
    exact BlockTree.prune_keeps_descends (hcond id b hd).2 (fun id b hd => (hcond id b hd).1) hd

/-- The ledger does nothing on a stale commit certificate, and the tree is pruned. -/
theorem StoresInv.processQC_stale {G : Group} {s : Stores} (h : StoresInv G s) {q : QuorumCert}
    (hcommit : commits q.ledgerCommitInfo = true)
    (hstale : Relation.TransGen G.Parent s.ledger.commitID q.voteInfo.parentId) (history fuel : Nat) :
    ∃ t, BlockTree.processQC history fuel s.ledger s.tree (some q) = .ok (s.ledger, t, []) ∧
      t.pending = (s.tree.prune q.voteInfo.parentId q.voteInfo.parentRound).pending := by
  obtain ⟨bs, hspine⟩ := h.spine
  refine ⟨{ s.tree.prune q.voteInfo.parentId q.voteInfo.parentRound with
    highCommitQC := higher q s.tree.highCommitQC, highQC := higher q s.tree.highQC }, ?_, rfl⟩
  rw [BlockTree.processQC, if_pos hcommit,
    MemLedger.commit_of_not_pending history fuel (hspine.below_not_pending hstale).2]
  rfl

/-- **A stale commit certificate**: the ledger does nothing, and the frontier and what descends from it stay in the tree
exactly if there is none, or each is above the round of the certificate's parent and the frontier hangs from there. -/
theorem stale_commit {N : Net} {i : UInt32} {c : Core} (h : N.Fed i (fun _ _ _ => True) c) {q : QuorumCert}
    (hcommit : commits q.ledgerCommitInfo = true)
    (hstale : Relation.TransGen N.Parent c.ledger.commitID q.voteInfo.parentId) (history fuel : Nat) :
    ∃ t, BlockTree.processQC history fuel c.ledger c.tree (some q) = .ok (c.ledger, t, []) ∧
      ((∀ id b, c.tree.Descends c.ledger.commitID id b → t.pending.lookup id = some b) ↔
        ∀ id b, c.tree.Descends c.ledger.commitID id b → q.voteInfo.parentRound < b.round ∧
          c.tree.Hangs q.voteInfo.parentId q.voteInfo.parentRound c.ledger.commitID) := by
  obtain ⟨t, hproc, hpending⟩ := h.storesInv.processQC_stale hcommit hstale history fuel
  refine ⟨t, hproc, ?_⟩
  rw [hpending]
  exact h.storesInv.prune_keeps_iff q.voteInfo.parentRound hstale

/-! ## The chain of four blocks

Replica 1 has committed block 2; the tree has blocks 2, 3 and 4. -/

namespace Chain

/-- The frontier is block 2, the tree has it and nothing of its parent's round or below, and the certificate of block 1
takes it out. -/
def front (c : Core) : Bool :=
  (c.ledger.commitID == (block 2).id) && (c.tree.pending.lookup (block 2).id == some (block 2)) &&
    c.tree.pending.entries.all (fun e => decide (1 < e.2.round)) &&
    match BlockTree.processQC defaultHistory 8 c.ledger c.tree (some (cert 1)) with
    | .ok (_, t, _) => (t.pending.lookup (block 2).id).isNone
    | .error _      => false

theorem opening_front : ∃ σ c, net.Reached Net.AnyEvent σ ∧ σ.status 1 = .running c ∧ front c = true := by
  have h : (book [(1, digest 16), (4, digest 16)]).plays 1 2 env opening closing (fun σ => σ.check 1 front)
      (fun _ => true) = true := by decide +kernel
  obtain ⟨σ, hσ, ho⟩ := (Book.reached h).1 Net.AnyEvent (fun _ _ _ _ => trivial)
  obtain ⟨c, hc, hfront⟩ := Sys.running_of_check ho
  exact ⟨σ, c, hσ, hc, hfront⟩

theorem parent_block (r : Nat) (h : net.IsBlock (block (r + 1))) : net.Parent (block (r + 1)).id (block r).id := by
  refine ⟨_, h, rfl, ?_, len_digest _⟩
  cases r <;> rfl

end Chain

/-- The certificate of block 2 commits block 1, the parent of the frontier: nothing goes. -/
theorem chain_stale_commit :
    ∃ σ c t, Chain.net.Reached Net.AnyEvent σ ∧ σ.status 1 = .running c ∧
      BlockTree.processQC defaultHistory 8 c.ledger c.tree (some (Chain.cert 2)) = .ok (c.ledger, t, []) ∧
      t.pending.lookup c.ledger.commitID = some (Chain.block 2) := by
  obtain ⟨σ, c, hσ, hc, hfront⟩ := Chain.opening_front
  simp only [Chain.front, Bool.and_eq_true, beq_iff_eq, List.all_eq_true, decide_eq_true_eq] at hfront
  obtain ⟨⟨⟨hid, hlook⟩, hround⟩, -⟩ := hfront
  have hblock : Chain.net.IsBlock (Chain.block 2) := by decide +kernel
  have hstale : Relation.TransGen Chain.net.Parent c.ledger.commitID (Chain.cert 2).voteInfo.parentId := by
    rw [hid]
    exact .single (Chain.parent_block 1 hblock)
  obtain ⟨t, hproc, hkeep⟩ := stale_commit (hσ.1.fed 1 c hc) (by decide) hstale defaultHistory 8
  refine ⟨σ, c, t, hσ, hc, hproc, hkeep.2 (fun id b hd => ⟨?_, ?_⟩) _ _ (.root (by rw [hid]; exact hlook))⟩
  · exact hround ⟨id, b⟩ (AList.mem_lookup_iff.1 hd.lookup)
  · exact .child (by rw [hid]; exact hlook) (by decide) rfl

/-- **A stale commit certificate wipes the tree**: the certificate of block 1 commits genesis, two blocks below the
frontier, and takes the frontier out of the tree. -/
theorem stale_commit_wipes :
    ∃ σ c t, Chain.net.Reached Net.AnyEvent σ ∧ σ.status 1 = .running c ∧ Chain.net.AcceptsQC (some (Chain.cert 1)) ∧
      commits (Chain.cert 1).ledgerCommitInfo = true ∧
      Relation.TransGen Chain.net.Parent c.ledger.commitID (Chain.cert 1).voteInfo.parentId ∧
      BlockTree.processQC defaultHistory 8 c.ledger c.tree (some (Chain.cert 1)) = .ok (c.ledger, t, []) ∧
      c.tree.Descends c.ledger.commitID c.ledger.commitID (Chain.block 2) ∧
      t.pending.lookup c.ledger.commitID = none := by
  obtain ⟨σ, c, hσ, hc, hfront⟩ := Chain.opening_front
  simp only [Chain.front, Bool.and_eq_true, beq_iff_eq] at hfront
  obtain ⟨⟨⟨hid, hlook⟩, -⟩, hwipe⟩ := hfront
  have hblocks : ∀ r ∈ [1, 2], Chain.net.IsBlock (Chain.block r) := by decide +kernel
  have hstale : Relation.TransGen Chain.net.Parent c.ledger.commitID (Chain.cert 1).voteInfo.parentId := by
    rw [hid]
    exact (Relation.TransGen.single (Chain.parent_block 1 (hblocks 2 (by simp)))).tail
      (Chain.parent_block 0 (hblocks 1 (by simp)))
  obtain ⟨t, hproc, -⟩ := (hσ.1.fed 1 c hc).storesInv.processQC_stale (by decide) hstale defaultHistory 8
  refine ⟨σ, c, t, hσ, hc, by decide +kernel, by decide, hstale, hproc, .root (by rw [hid]; exact hlook), ?_⟩
  rw [show BlockTree.processQC defaultHistory 8 c.ledger c.tree (some (Chain.cert 1)) =
    .ok (c.ledger, t, []) from hproc]
    at hwipe
  rw [hid]
  exact Option.isNone_iff_eq_none.1 hwipe

end Diem

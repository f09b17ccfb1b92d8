import Diem.Path
import Diem.Stores
/-!
# Spine — the committed chain of a core that is fed anything

What is committed is one chain up from genesis that never comes back to an id, and nothing on it is ever pending again:
a pending block hangs on the frontier, and what hangs below genesis has no block.  Ids must settle their blocks for
this, and nothing more; certificates, their signers and their rounds play no part.
-/
namespace Diem

/-! ## Pending paths -/

namespace MemLedger

variable {l : MemLedger} (htop : l.pending.lookup l.commitID = none)
include htop

/-- One pending path to an id. -/
theorem Rises.unique {chain chain' : List Speculated} {id : Bytes} (h : l.Rises chain id) (h' : l.Rises chain' id) :
    chain = chain' := by
  induction h generalizing chain' with
  | nil =>
    generalize hid : l.commitID = id at h'
    cases h' with
    | nil => rfl
    | snoc _ hs =>
      rw [← hid, htop] at hs
      cases hs
  | @snoc chain id s h hs ih =>
    cases h' with
    | nil =>
      rw [htop] at hs
      cases hs
    | @snoc chain' _ s' h' hs' =>
      rw [hs] at hs'
      cases hs'
      rw [ih h']

omit htop in
theorem Rises.of_mem {chain : List Speculated} {id : Bytes} (h : l.Rises chain id) {s : Speculated} (hs : s ∈ chain) :
    ∃ chain₁ x, chain₁ ++ [s] <+: chain ∧ l.Rises (chain₁ ++ [s]) x ∧ l.pending.lookup x = some s := by
  induction h with
  | nil => cases hs
  | @snoc chain id s' h hs' ih =>
    rcases List.mem_append.1 hs with hs | hs
    · obtain ⟨chain₁, x, hpre, hr, hx⟩ := ih hs
      exact ⟨chain₁, x, hpre.trans (List.prefix_append _ _), hr, hx⟩
    · cases List.mem_singleton.1 hs
      exact ⟨chain, id, List.prefix_rfl, h.snoc hs', hs'⟩

/-- A pending path passes no id twice. -/
theorem Rises.nodup (hids : l.pending.Holds (fun id s => s.block.id = id)) {chain : List Speculated} {id : Bytes}
    (h : l.Rises chain id) : (chain.map (fun s => s.block.id)).Nodup := by
  induction h with
  | nil => exact List.nodup_nil
  | @snoc chain id s h hs ih =>
    rw [List.map_append]
    refine List.nodup_append.2 ⟨ih, by simp, fun x hx y hy hxy => ?_⟩
    obtain ⟨s', hs', rfl⟩ := List.mem_map.1 hx
    rw [List.map_singleton, List.mem_singleton] at hy
    -- the path up to the first of the two would be the whole path
    obtain ⟨chain₁, z, hpre, hr, hz⟩ := h.of_mem hs'
    obtain rfl : z = id := by rw [← hids _ _ hz, ← hids _ _ hs, hxy, hy]
    have hlen := hpre.length_le
    rw [hr.unique htop (h.snoc hs), List.length_append, List.length_singleton] at hlen
    omega

end MemLedger

theorem MemLedger.Records.path {Q : Block → Prop} {R : Bytes → Bytes → Prop} {l : MemLedger} (h : l.Records Q R)
    {chain : List Speculated} {id : Bytes} (hr : l.Rises chain id) :
    Path Q l.commitID (chain.map Speculated.block) id := by
  induction hr with
  | nil => exact .nil
  | snoc _ hs ih =>
    obtain ⟨rfl, hb, -⟩ := h.pending _ _ hs
    rw [List.map_append]
    exact ih.snoc hb

/-! ## The invariant -/

/-- **What is committed and what is pending.** -/
structure Spine (G : Group) (l : MemLedger) (bs : List Block) : Prop where
  records : l.Records G.IsBlock (fun _ _ => True)
  hung    : l.Hung
  line    : Path G.IsBlock (genesisBlock G.crypto).id bs l.commitID
  once    : (passed (genesisBlock G.crypto).id bs).Nodup

namespace Spine

variable {G : Group} {l l' : MemLedger} {bs : List Block}

theorem init (G : Group) : Spine G (newMemLedger G.crypto) [] :=
  ⟨⟨Table.holds_empty _, Table.holds_empty _, trivial⟩, fun _ _ hs => (by cases hs), .nil, List.nodup_singleton _⟩

/-- The ids on a path from genesis are blocks' ids. -/
theorem isBlock_of_passed (h : ∀ b ∈ bs, G.IsBlock b) {x : Bytes} (hx : x ∈ passed (genesisBlock G.crypto).id bs) :
    ∃ b, G.IsBlock b ∧ b.id = x := by
  rcases List.mem_cons.1 hx with rfl | hx
  · exact ⟨_, G.isBlock_genesis, rfl⟩
  · obtain ⟨b, hb, rfl⟩ := List.mem_map.1 hx
    exact ⟨b, h b hb, rfl⟩

variable (h : Spine G l bs)
include h

/-- A pending block's parent is a block. -/
theorem parent_isBlock {id : Bytes} {s : Speculated} (hs : l.pending.lookup id = some s) :
    ∃ p, G.IsBlock p ∧ p.id = parentID s.block := by
  rcases h.hung id s hs with hp | hp
  · rw [hp]
    exact isBlock_of_passed h.line.forall_mem h.line.top_mem
  · obtain ⟨s', hs'⟩ := Option.isSome_iff_exists.1 hp
    obtain ⟨hid, hb, -⟩ := h.records.pending _ _ hs'
    exact ⟨s'.block, hb, hid⟩

/-- A pending block has the parent that any block of its id has by a full id. -/
theorem parent_eq {id : Bytes} {s : Speculated} (hs : l.pending.lookup id = some s) {b : Block} (hb : G.IsBlock b)
    (hid : b.id = id) (hlen : (parentID b).len = hashLen) : parentID s.block = parentID b := by
  obtain ⟨p, hp, hpid⟩ := h.parent_isBlock hs
  obtain ⟨hsid, hsb, -⟩ := h.records.pending _ _ hs
  exact hsb.parent_eq hb (hsid.trans hid.symm) (by rw [← hpid, hp.id_len, hlen])

/-- **Up to the frontier nothing is pending**: pending, a block would have its parent pending, down to genesis. -/
theorem not_pending_below {xs : List Block} {x : Bytes} (hx : Path G.IsBlock (genesisBlock G.crypto).id xs x)
    (hF : l.commitID ∉ (passed (genesisBlock G.crypto).id xs).dropLast) :
    ∀ y ∈ passed (genesisBlock G.crypto).id xs, l.pending.lookup y = none := by
  induction hx with
  | nil =>
    intro y hy
    cases List.mem_singleton.1 hy
    cases hs : l.pending.lookup (genesisBlock G.crypto).id with
    | none => rfl
    | some s =>
      obtain ⟨p, hp, hpid⟩ := h.parent_isBlock hs
      rw [h.parent_eq hs G.isBlock_genesis rfl (rfl : zeroHash.len = hashLen)] at hpid
      exact absurd hpid hp.id_ne_zeroHash
  | @snoc xs c hxs hc ih =>
    rw [passed_append, List.map_singleton, List.dropLast_concat] at hF
    have hbelow := ih (fun hm => hF (List.dropLast_subset _ hm))
    intro y hy
    rw [passed_append] at hy
    rcases List.mem_append.1 hy with hy | hy
    · exact hbelow y hy
    · rw [List.map_singleton, List.mem_singleton] at hy
      subst hy
      cases hs : l.pending.lookup c.id with
      | none => rfl
      | some s =>
        obtain ⟨p, hp, hpid⟩ := isBlock_of_passed hxs.forall_mem hxs.top_mem
        have hpar := h.parent_eq hs hc rfl (by rw [← hpid]; exact hp.id_len)
        rcases h.hung _ s hs with hF' | hpend
        · rw [hpar] at hF'
          exact absurd (hF' ▸ hxs.top_mem) hF
        · rw [hpar, hbelow _ hxs.top_mem] at hpend
          cases hpend

/-- The frontier comes after what is below it. -/
theorem front_not_below : l.commitID ∉ (passed (genesisBlock G.crypto).id bs).dropLast := by
  have honce := h.once
  rw [h.line.passed_eq] at honce
  exact fun hm => (List.nodup_append.1 honce).2.2 _ hm _ (List.mem_singleton.2 rfl) rfl

theorem not_pending {y : Bytes} (hy : y ∈ passed (genesisBlock G.crypto).id bs) : l.pending.lookup y = none :=
  h.not_pending_below h.line h.front_not_below y hy

omit h in
/-- **What is below the frontier** was committed before it, or is the id below genesis that no block has. -/
theorem below_cases {x P : Bytes} {xs : List Block} (hx : Path G.IsBlock (genesisBlock G.crypto).id xs x)
    (hP : Relation.TransGen G.Parent x P) : P ∈ (passed (genesisBlock G.crypto).id xs).dropLast ∨ P = zeroHash := by
  induction hx with
  | nil =>
    obtain ⟨y, hy, hyP⟩ := Relation.TransGen.head'_iff.1 hP
    obtain rfl : y = zeroHash := hy.unique ⟨_, G.isBlock_genesis, rfl, rfl, rfl⟩
    rcases Relation.reflTransGen_iff_eq_or_transGen.1 hyP with rfl | hyP
    · exact .inr rfl
    · obtain ⟨z, ⟨b, hb, hid, -⟩, -⟩ := Relation.TransGen.head'_iff.1 hyP
      exact absurd hid hb.id_ne_zeroHash
  | @snoc xs c hxs hc ih =>
    rw [passed_append, List.map_singleton, List.dropLast_concat]
    obtain ⟨y, hy, hyP⟩ := Relation.TransGen.head'_iff.1 hP
    obtain ⟨p, hp, hpid⟩ := isBlock_of_passed hxs.forall_mem hxs.top_mem
    obtain rfl : y = parentID c := hy.unique ⟨c, hc, rfl, rfl, by rw [← hpid]; exact hp.id_len⟩
    rcases Relation.reflTransGen_iff_eq_or_transGen.1 hyP with rfl | hyP
    · exact .inl hxs.top_mem
    · exact (ih hyP).imp_left (fun hm => List.dropLast_subset _ hm)

theorem speculate (execute : Bytes → Payload → Bytes) {b : Block} (hb : G.IsBlock b) :
    Spine G (l.speculate execute b).1 bs := by
  refine ⟨h.records.speculate (fun _ _ _ _ => trivial) hb, h.hung.speculate execute b, ?_, h.once⟩
  rw [(MemLedger.speculate_frame execute l b).2.1]
  exact h.line

/-- **A commit makes the chain longer.** -/
theorem commit {history fuel : Nat} {id : Bytes} {out : List Block} (hc : l.commit history fuel id = .ok (l', out)) :
    Spine G l' (bs ++ out) := by
  have hrec := (h.records.commit hc).1
  have hhung := h.hung.commit hc
  rcases MemLedger.commit_ok hc with ⟨rfl, rfl⟩ | ⟨chain, hr, rfl, rfl⟩
  · rw [List.append_nil]
    exact h
  · have hid : (((chain.foldl MemLedger.advance l).prune).forget history).commitID = id := by
      cases hr with
      | nil => rfl
      | @snoc chain _ s _ hs =>
        rw [(MemLedger.commit_top history l chain s).1]
        exact (h.records.pending _ _ hs).1
    refine ⟨hrec, hhung, hid ▸ h.line.trans (h.records.path hr), ?_⟩
    rw [passed_append]
    refine List.nodup_append.2 ⟨h.once, ?_, fun x hx y hy hxy => ?_⟩
    · rw [List.map_map]
      exact hr.nodup (h.not_pending h.line.top_mem) (fun id s hs => (h.records.pending id s hs).1)
    · -- what is applied was pending, and nothing committed is
      obtain ⟨b, hb, rfl⟩ := List.mem_map.1 hy
      obtain ⟨s, hs, rfl⟩ := List.mem_map.1 hb
      obtain ⟨chain₁, z, -, -, hz⟩ := hr.of_mem hs
      rw [(h.records.pending _ _ hz).1] at hxy
      rw [h.not_pending (hxy ▸ hx)] at hz
      cases hz

end Spine

/-- **The stores of a core that is fed anything.** -/
structure StoresInv (G : Group) (s : Stores) : Prop where
  spine : ∃ bs, Spine G s.ledger bs
  tree  : s.tree.pending.Holds (fun id b => b.id = id ∧ G.IsBlock b)

theorem StoresInv.write {G : Group} {cfg : Config} {env : Env} {s s' : Stores} {w : Write} (h : StoresInv G s)
    (hw : ∀ b, w = .executeAndInsert b → G.IsBlock b) (hs : s.write G.crypto cfg env w = .ok s') : StoresInv G s' := by
  obtain ⟨bs, hspine⟩ := h.spine
  cases w with
  | processQC qc =>
    obtain ⟨out, hq⟩ := Stores.write_processQC hs
    obtain ⟨l, t⟩ := s'
    rcases (BlockTree.processQC_ok hq).2 with ⟨-, hcommit, rfl⟩ | ⟨-, rfl, -, rfl⟩
    · exact ⟨⟨_, hspine.commit hcommit⟩, (BlockTree.processQC_sub hq).holds h.tree⟩
    · exact ⟨⟨bs, hspine⟩, h.tree⟩
  | executeAndInsert b =>
    cases hs
    exact ⟨⟨bs, hspine.speculate cfg.execute (hw b rfl)⟩, Table.holds_insert h.tree ⟨rfl, hw b rfl⟩⟩
  | accumulate m =>
    cases hs
    refine ⟨⟨bs, hspine⟩, ?_⟩
    rw [BlockTree.accumulate_pending]
    exact h.tree

theorem Net.Fed.storesInv {N : Net} {i : UInt32} {P : Env → Core → Event → Prop} {c : Core} (h : N.Fed i P c) :
    StoresInv N.toGroup c.stores :=
  h.stores ⟨⟨[], Spine.init N.toGroup⟩, Table.holds_empty _⟩
    (fun _ _ _ _ => Stores.along_of_forall (fun _ _ => trivial) _ _) (fun _ _ _ _ he _ hw => he.inserted hw)
    (fun _ _ _ _ hw (_ : True) hI hs => hI.write hw hs)

end Diem

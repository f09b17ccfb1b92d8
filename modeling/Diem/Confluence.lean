import Mathlib.Data.Finset.Card
import Diem.Path
import Diem.Play
/-!
# Confluence — the ledger under any order of calls

A finite tree of blocks under genesis, every one of which is speculated at some point, with commits along one branch in
between.  Whatever came first, the end is the same: the branch was committed in order, and exactly what hangs above it
is pending.  The invariant says where a block that has come can be: above the frontier it is pending or held, and what
is held waits for a parent that has not come.
-/
namespace Diem

/-- **A tree of blocks under genesis**: ids identify its blocks, and a block's certificate is of its parent's round and
below its own. -/
structure IsTree (cr : Crypto) (S : Finset Block) : Prop where
  ids    : ∀ b ∈ S, ∀ b' ∈ S, b.id = b'.id → b = b'
  fresh  : ∀ b ∈ S, b.id ≠ (genesisBlock cr).id
  root   : ∀ b, b = genesisBlock cr ∨ b ∈ S → b.id ≠ parentID (genesisBlock cr)
  parent : ∀ b ∈ S, (parentID b = (genesisBlock cr).id ∧ qcRound b.qc = (genesisBlock cr).round) ∨
             ∃ p ∈ S, parentID b = p.id ∧ qcRound b.qc = p.round
  rises  : ∀ b ∈ S, qcRound b.qc < b.round

namespace MemLedger

inductive Call where
  | speculate (b : Block)
  | commit (id : Bytes)

/-- One call: the ledger, and the blocks passed to `OnCommit`. -/
def call (execute : Bytes → Payload → Bytes) (history fuel : Nat) (l : MemLedger) :
    Call → Except Loop (MemLedger × List Block)
  | .speculate b => .ok ((l.speculate execute b).1, [])
  | .commit id   => l.commit history fuel id

/-- The calls one after the other, and all that was passed to `OnCommit`. -/
def calls (execute : Bytes → Payload → Bytes) (history fuel : Nat) : MemLedger → List Call →
    Except Loop (MemLedger × List Block)
  | l, []      => .ok (l, [])
  | l, x :: xs =>
    match l.call execute history fuel x with
    | .error e     => .error e
    | .ok (l', bs) =>
      match calls execute history fuel l' xs with
      | .error e      => .error e
      | .ok (l'', cs) => .ok (l'', bs ++ cs)

theorem calls_cons_ok {execute : Bytes → Payload → Bytes} {history fuel : Nat} {l l' : MemLedger} {x : Call}
    {xs : List Call} {out : List Block} (h : l.calls execute history fuel (x :: xs) = .ok (l', out)) :
    ∃ l₁ bs cs, l.call execute history fuel x = .ok (l₁, bs) ∧ l₁.calls execute history fuel xs = .ok (l', cs) ∧
      out = bs ++ cs := by
  rw [calls] at h
  split at h
  · cases h
  rename_i l₁ bs hx
  split at h
  · cases h
  rename_i cs hxs
  cases h
  exact ⟨l₁, bs, cs, hx, hxs, rfl⟩

theorem calls_cons {execute : Bytes → Payload → Bytes} {history fuel : Nat} {l l₁ l' : MemLedger} {x : Call}
    {xs : List Call} {bs cs : List Block} (hx : l.call execute history fuel x = .ok (l₁, bs))
    (hxs : l₁.calls execute history fuel xs = .ok (l', cs)) :
    l.calls execute history fuel (x :: xs) = .ok (l', bs ++ cs) := by
  rw [calls, hx]
  simp only [hxs]

end MemLedger

/-- A call on a block of the tree, on genesis, or on an id of the branch. -/
def MemLedger.Call.Within (cr : Crypto) (S : Finset Block) (C : List Block) : MemLedger.Call → Prop
  | .speculate b => b ∈ S ∨ b = genesisBlock cr
  | .commit id   => id = (genesisBlock cr).id ∨ ∃ b ∈ C, b.id = id

/-! ## Paths in a tree -/

namespace IsTree

variable {cr : Crypto} {S : Finset Block}

/-- A block of the tree, genesis among them. -/
def Node (cr : Crypto) (S : Finset Block) (b : Block) : Prop := b = genesisBlock cr ∨ b ∈ S

variable (hS : IsTree cr S)
include hS

theorem node_inj {b b' : Block} (hb : Node cr S b) (hb' : Node cr S b') (hid : b.id = b'.id) : b = b' := by
  rcases hb with rfl | hb <;> rcases hb' with rfl | hb'
  · rfl
  · exact absurd hid.symm (hS.fresh b' hb')
  · exact absurd hid (hS.fresh b hb)
  · exact hS.ids b hb b' hb' hid

theorem node_parent {b : Block} (hb : b ∈ S) :
    ∃ p, Node cr S p ∧ p.id = parentID b ∧ p.round = qcRound b.qc ∧ p.round < b.round := by
  have hrise := hS.rises b hb
  rcases hS.parent b hb with ⟨hp, hround⟩ | ⟨p, hp, hpid, hround⟩
  · exact ⟨_, .inl rfl, hp.symm, hround.symm, hround ▸ hrise⟩
  · exact ⟨p, .inr hp, hpid.symm, hround.symm, hround ▸ hrise⟩

/-- Rounds rise along a path. -/
theorem round_le {b : Block} (hb : Node cr S b) {ds : List Block} {top : Bytes} (h : Path (· ∈ S) b.id ds top) :
    ∀ t, Node cr S t → t.id = top → b.round ≤ t.round ∧ (ds ≠ [] → b.round < t.round) := by
  induction h with
  | nil =>
    intro t ht htop
    cases hS.node_inj ht hb htop
    exact ⟨UInt64.le_refl _, fun h => absurd rfl h⟩
  | @snoc ds c h hc ih =>
    intro t ht htop
    cases hS.node_inj ht (.inr hc) htop
    obtain ⟨p, hp, hpid, -, hround⟩ := hS.node_parent hc
    have hlt := UInt64.lt_of_le_of_lt (ih p hp hpid).1 hround
    exact ⟨UInt64.le_of_lt hlt, fun _ => hlt⟩

/-- No path leads back to where it began. -/
theorem no_cycle {b : Block} (hb : Node cr S b) {ds : List Block} (h : Path (· ∈ S) b.id ds b.id) : ds = [] := by
  by_contra hne
  exact absurd ((hS.round_le hb h b hb rfl).2 hne) (UInt64.lt_irrefl _)

/-- What a path passes on the way up is not above its end. -/
theorem not_above_of_mem {root top : Bytes} {ds ds' : List Block} {c : Block}
    (h : Path (· ∈ S) root ds top) (hc : c ∈ ds) (h' : Path (· ∈ S) top ds' c.id) : ds' = [] := by
  have hcS := h.forall_mem c hc
  obtain ⟨ds₁, ds₂, rfl⟩ := List.append_of_mem hc
  rw [List.append_cons] at h
  obtain ⟨mid, h₁, h₂⟩ := h.split
  obtain ⟨rfl, -, -⟩ := h₁.of_concat
  exact (List.append_eq_nil_iff.1 (hS.no_cycle (.inr hcS) (h₂.trans h'))).2

/-- One path between two blocks. -/
theorem path_unique {b : Block} (hb : Node cr S b) {ds ds' : List Block} {top : Bytes} (h : Path (· ∈ S) b.id ds top)
    (h' : Path (· ∈ S) b.id ds' top) : ds = ds' := by
  have hmap := h.map_unique (f := fun b => b) (fun c c' hc hc' hid => ?_) (fun ds c hp hc hid => ?_) h'
  · simpa using hmap
  · cases hS.ids c hc c' hc' hid
    exact ⟨rfl, rfl⟩
  · cases hS.node_inj (.inr hc) hb hid
    exact absurd (hS.no_cycle (.inr hc) (hp.snoc hc)) (by simp)

/-- A block above another, but not its child, has a certificate of a later round. -/
theorem lt_qcRound {f b : Block} (hf : Node cr S f) (hb : b ∈ S) {ds : List Block} (h : Path (· ∈ S) f.id ds b.id)
    (hne : ds ≠ []) (hchild : parentID b ≠ f.id) : f.round < qcRound b.qc := by
  rcases List.eq_nil_or_concat ds with rfl | ⟨ds', c, rfl⟩
  · exact absurd rfl hne
  · rw [List.concat_eq_append] at h
    obtain ⟨hid, hc, hp⟩ := h.of_concat
    cases hS.ids c hc b hb hid
    obtain ⟨p, hpn, hpid, hround, -⟩ := hS.node_parent hb
    rw [← hround]
    refine (hS.round_le hf hp p hpn hpid).2 ?_
    rintro rfl
    exact hchild hp.eq_of_nil

theorem path_nodup {root top : Bytes} {ds : List Block} (h : Path (· ∈ S) root ds top) : ds.Nodup := by
  induction h with
  | nil => exact List.nodup_nil
  | @snoc ds c h hc ih =>
    refine List.nodup_append.2 ⟨ih, by simp, fun x hx y hy hxy => ?_⟩
    obtain rfl : x = c := hxy.trans (List.mem_singleton.1 hy)
    exact absurd (hS.not_above_of_mem h hx (.single hc rfl)) (by simp)

/-- A path has no more blocks than the tree. -/
theorem path_length {root top : Bytes} {ds : List Block} (h : Path (· ∈ S) root ds top) :
    ds.length ≤ S.card :=
  (List.toFinset_card_of_nodup (hS.path_nodup h)).symm.trans_le
    (Finset.card_le_card (fun x hx => h.forall_mem x (List.mem_toFinset.1 hx)))

end IsTree

/-! ## The invariant -/

open IsTree (Node)

section

variable {cr : Crypto} {S : Finset Block}

/-- What a block's path from genesis leads to. -/
def TreeState (cr : Crypto) (S : Finset Block) (execute : Bytes → Payload → Bytes) (id state : Bytes) : Prop :=
  ∃ bs, Path (· ∈ S) (genesisBlock cr).id bs id ∧ state = replay execute (newMemLedger cr).commitState bs

/-- **Where the blocks are**, when those of `seen` have come and `out` was committed. -/
structure ConfInv (cr : Crypto) (S : Finset Block) (execute : Bytes → Payload → Bytes) (seen : Block → Prop)
    (l : MemLedger) (out : List Block) : Prop where
  records : l.Records (· ∈ S) (TreeState cr S execute)
  hung    : l.Hung
  waits   : l.Waits (fun _ => False)
  path    : Path (· ∈ S) (genesisBlock cr).id out l.commitID
  state   : l.commitState = replay execute (newMemLedger cr).commitState out
  front   : ∃ f, Node cr S f ∧ f.id = l.commitID ∧ f.round = l.commitRound
  above   : ∀ b ∈ S, seen b → (∃ ds, ds ≠ [] ∧ Path (· ∈ S) l.commitID ds b.id) →
              (l.pending.lookup b.id).isSome = true ∨ (l.held.lookup b.id).isSome = true

namespace ConfInv

variable (hS : IsTree cr S) {execute : Bytes → Payload → Bytes} {seen : Block → Prop} {l : MemLedger} {out : List Block}
  (h : ConfInv cr S execute seen l out)
include hS h

/-- A pending block hangs above the frontier, on pending blocks all the way. -/
theorem rises : ∀ (n : Nat) (id : Bytes) (s : Speculated), l.pending.lookup id = some s → s.block.round.toNat < n →
    ∃ chain, l.Rises (chain ++ [s]) id ∧ Path (· ∈ S) l.commitID ((chain ++ [s]).map Speculated.block) id := by
  intro n
  induction n with
  | zero => exact fun _ _ _ hn => absurd hn (Nat.not_lt_zero _)
  | succ n ih =>
    intro id s hs hn
    obtain ⟨rfl, hb, -⟩ := h.records.pending _ _ hs
    rcases h.hung _ s hs with hp | hp
    · have hr : l.Rises [] (parentID s.block) := hp ▸ .nil
      exact ⟨[], hr.snoc hs, .single hb hp⟩
    · obtain ⟨s', hs'⟩ := Option.isSome_iff_exists.1 hp
      obtain ⟨hid', hb', -⟩ := h.records.pending _ _ hs'
      obtain ⟨p, hp, hpid, -, hround⟩ := hS.node_parent hb
      cases hS.node_inj (.inr hb') hp (hid'.trans hpid.symm)
      obtain ⟨chain, hr, hpath⟩ := ih _ s' hs'
        (Nat.lt_of_lt_of_le (UInt64.lt_iff_toNat_lt.1 hround) (Nat.le_of_lt_succ hn))
      refine ⟨chain ++ [s'], hr.snoc hs, ?_⟩
      rw [List.map_append]
      exact hpath.snoc hb

/-- What is pending is above the frontier. -/
theorem pending_above {id : Bytes} {s : Speculated} (hs : l.pending.lookup id = some s) :
    ∃ ds, ds ≠ [] ∧ Path (· ∈ S) l.commitID ds id := by
  obtain ⟨chain, -, hpath⟩ := h.rises hS _ id s hs (Nat.lt_succ_self _)
  exact ⟨_, by simp, hpath⟩

theorem not_pending_front : l.pending.lookup l.commitID = none := by
  cases hs : l.pending.lookup l.commitID with
  | none => rfl
  | some s =>
    obtain ⟨ds, hne, hpath⟩ := h.pending_above hS hs
    obtain ⟨f, hf, hid, -⟩ := h.front
    rw [← hid] at hpath
    exact absurd (hS.no_cycle hf hpath) hne

/-- **Once every block has come, all that is above the frontier is pending**: what is held would wait for a parent that
is pending itself. -/
theorem pending_of_above (hall : ∀ b ∈ S, seen b) {ds : List Block} {id : Bytes} (hpath : Path (· ∈ S) l.commitID ds id)
    (hne : ds ≠ []) : (l.pending.lookup id).isSome = true := by
  induction hpath with
  | nil => exact absurd rfl hne
  | @snoc ds b hp hb ih =>
    have hparent : l.pendingState (parentID b) ≠ none := by
      cases ds with
      | nil =>
        rw [MemLedger.pendingState, if_pos hp.eq_of_nil]
        simp
      | cons d ds => exact MemLedger.pendingState_of_isSome (ih (by simp))
    rcases h.above b hb (hall b hb) ⟨_, hne, hp.snoc hb⟩ with hpend | hheld
    · exact hpend
    · obtain ⟨b', hb'⟩ := Option.isSome_iff_exists.1 hheld
      obtain ⟨hid, hbS⟩ := h.records.held _ _ hb'
      cases hS.ids b' hbS b hb hid
      exact absurd ((h.waits _ _ hb').resolve_right (fun hf => hf)) hparent

/-- A block whose parent has no state is held, or lies off the frontier. -/
theorem speculate_waiting {b : Block} (hb : b ∈ S) (hparent : l.pendingState (parentID b) = none) :
    ∀ x ∈ S, seen x ∨ x = b → (∃ ds, ds ≠ [] ∧ Path (· ∈ S) l.commitID ds x.id) →
      ((l.speculate execute b).1.pending.lookup x.id).isSome = true ∨
      ((l.speculate execute b).1.held.lookup x.id).isSome = true := by
  intro x hx hseen habove
  rw [MemLedger.speculate_of_none execute hparent]
  split
  · by_cases hxb : x.id = b.id
    · exact .inr (by rw [hxb, AList.lookup_insert]; rfl)
    · rcases hseen with hseen | rfl
      · exact (h.above x hx hseen habove).imp_right (fun hh => by rw [AList.lookup_insert_ne hxb]; exact hh)
      · exact absurd rfl hxb
  · rename_i hcut
    rcases hseen with hseen | rfl
    · exact h.above x hx hseen habove
    · -- above the frontier its parent would have a state, or be of a later round than the frontier
      obtain ⟨ds, hne, hpath⟩ := habove
      obtain ⟨f, hf, hfid, hfround⟩ := h.front
      rw [← hfid] at hpath
      refine absurd (hfround ▸ hS.lt_qcRound hf hx hpath hne (fun hchild => ?_)) hcut
      rw [MemLedger.pendingState, if_pos (hchild.trans hfid)] at hparent
      cases hparent

omit hS in
/-- A block whose parent has a state runs, with what waited on it. -/
theorem speculate_running {b : Block} (hparent : l.pendingState (parentID b) ≠ none) :
    ∀ x ∈ S, seen x ∨ x = b → (∃ ds, ds ≠ [] ∧ Path (· ∈ S) l.commitID ds x.id) →
      ((l.speculate execute b).1.pending.lookup x.id).isSome = true ∨
      ((l.speculate execute b).1.held.lookup x.id).isSome = true := by
  intro x hx hseen habove
  have hran := MemLedger.speculate_ran execute hparent
  rcases hseen with hseen | rfl
  · rcases h.above x hx hseen habove with hp | hh
    · exact .inl (hran.pending _ hp)
    · obtain ⟨x', hx'⟩ := Option.isSome_iff_exists.1 hh
      obtain ⟨hxid, hxS⟩ := h.records.held _ _ hx'
      rcases hran.kept _ _ hx' with hk | hk
      · exact .inr (by rw [hk]; rfl)
      · exact .inl (hxid ▸ hk)
  · exact .inl hran.runs

/-- **Speculating a block of the tree**: it runs, with what waited on it, or is held, or lies off the frontier. -/
theorem speculate {b : Block} (hb : b ∈ S) :
    ConfInv cr S execute (fun x => seen x ∨ x = b) (l.speculate execute b).1 out := by
  have hnext : ∀ c prev, c ∈ S → TreeState cr S execute (parentID c) prev →
      TreeState cr S execute c.id (execute prev c.payload) := by
    rintro c prev hc ⟨bs, hbs, rfl⟩
    exact ⟨bs ++ [c], hbs.snoc hc, by rw [replay_append]; rfl⟩
  obtain ⟨-, hid, hstate⟩ := MemLedger.speculate_frame execute l b
  refine ⟨h.records.speculate hnext hb, h.hung.speculate execute b, h.waits.speculate execute b, hid.symm ▸ h.path,
    hstate ▸ h.state, by rw [hid, MemLedger.speculate_round]; exact h.front, ?_⟩
  rw [hid]
  by_cases hparent : l.pendingState (parentID b) = none
  · exact h.speculate_waiting hS hb hparent
  · exact h.speculate_running hparent

omit h in
/-- Genesis is never executed again. -/
theorem speculate_genesis (h : ConfInv cr S execute seen l out) : (l.speculate execute (genesisBlock cr)).1 = l := by
  obtain ⟨f, hf, hfid, -⟩ := h.front
  have hnone : l.pendingState (parentID (genesisBlock cr)) = none := by
    rw [MemLedger.pendingState, if_neg (fun heq => hS.root f hf (hfid.trans heq.symm))]
    cases hs : l.pending.lookup (parentID (genesisBlock cr)) with
    | none => rfl
    | some s =>
      obtain ⟨hid, hb, -⟩ := h.records.pending _ _ hs
      exact absurd hid (hS.root _ (.inr hb))
  have h0 : qcRound (genesisBlock cr).qc = 0 := rfl
  rw [MemLedger.speculate, MemLedger.speculateFuel, hnone]
  dsimp only
  rw [h0, if_neg UInt64.not_lt_zero]

section

variable {chain : List Speculated} {s : Speculated} (hs : l.pending.lookup s.block.id = some s)
  (hpath : Path (· ∈ S) l.commitID ((chain ++ [s]).map Speculated.block) s.block.id)

omit h in
include hpath in
/-- Nothing above its top is on the path that is applied. -/
theorem lookup_above {x : Bytes} {ds : List Block} (hne : ds ≠ []) (hds : Path (· ∈ S) s.block.id ds x) :
    ((chain ++ [s]).foldl MemLedger.advance l).pending.lookup x = l.pending.lookup x := by
  refine MemLedger.lookup_foldl_advance _ l (fun s' hs' hid => hne ?_)
  exact hS.not_above_of_mem hpath (List.mem_map_of_mem hs') (hid ▸ hds)

include hpath in
/-- Above the top of the path that is applied, every pending block's parent is the top or pending too. -/
theorem closed_above :
    Table.Closed (fun _ v => decide (parentID v.block = s.block.id)) (fun v => parentID v.block)
      (fun x => ∃ ds, ds ≠ [] ∧ Path (· ∈ S) s.block.id ds x) ((chain ++ [s]).foldl MemLedger.advance l).pending := by
  rintro k v hk ⟨ds, hne, hds⟩
  rw [lookup_above hS hpath hne hds] at hk
  obtain ⟨rfl, hvb, -⟩ := h.records.pending _ _ hk
  rcases List.eq_nil_or_concat ds with rfl | ⟨ds', c, rfl⟩
  · exact absurd rfl hne
  rw [List.concat_eq_append] at hds
  obtain ⟨hcid, hc, hparent⟩ := hds.of_concat
  cases hS.ids c hc v.block hvb hcid
  cases ds' with
  | nil => exact .inl (decide_eq_true hparent.eq_of_nil)
  | cons d ds' =>
    refine .inr ⟨⟨_, by simp, hparent⟩, ?_⟩
    rw [lookup_above hS hpath (by simp) hparent]
    refine (h.hung _ _ hk).resolve_left (fun hfront => ?_)
    -- the frontier is below the top, not above it
    rw [hfront] at hparent
    obtain ⟨f, hf, hfid, -⟩ := h.front
    rw [← hfid] at hparent hpath
    exact absurd (hS.no_cycle hf (hpath.trans hparent)) (by simp)

include hpath in
/-- **A pending path is applied**: what is pending above its top stays so. -/
theorem pending_commit (history : Nat) {b : Block} {ds : List Block} (hne : ds ≠ [])
    (hds : Path (· ∈ S) s.block.id ds b.id) (hp : (l.pending.lookup b.id).isSome = true) :
    ((((chain ++ [s]).foldl MemLedger.advance l).prune).forget history).pending.lookup b.id =
    l.pending.lookup b.id := by
  obtain ⟨v, hv⟩ := Option.isSome_iff_exists.1 hp
  rw [hv]
  have hkeep := (h.closed_above hS hpath).dropOrphans (by rw [lookup_above hS hpath hne hds]; exact hv) ⟨ds, hne, hds⟩
  have htop : ((chain ++ [s]).foldl MemLedger.advance l).commitID = s.block.id := by rw [List.foldl_append]; rfl
  simpa only [MemLedger.forget, MemLedger.prune, htop] using hkeep

include hs in
/-- What is held above the top of the path stays held. -/
theorem held_commit (history : Nat) {b : Block} (hb : b ∈ S) {ds : List Block} (hne : ds ≠ [])
    (hds : Path (· ∈ S) s.block.id ds b.id) (hh : (l.held.lookup b.id).isSome = true) :
    ((((chain ++ [s]).foldl MemLedger.advance l).prune).forget history).held.lookup b.id = l.held.lookup b.id := by
  obtain ⟨-, hsb, -⟩ := h.records.pending _ _ hs
  obtain ⟨b', hb'⟩ := Option.isSome_iff_exists.1 hh
  obtain ⟨hid, hbS⟩ := h.records.held _ _ hb'
  cases hS.ids b' hbS b hb hid
  have hlt : s.block.round < qcRound b.qc := by
    refine hS.lt_qcRound (.inr hsb) hbS hds hne (fun hchild => ?_)
    have hnone := (h.waits _ _ hb').resolve_right (fun hf => hf)
    rw [hchild] at hnone
    exact MemLedger.pendingState_of_isSome (by rw [hs]; rfl) hnone
  have hround : ((chain ++ [s]).foldl MemLedger.advance l).commitRound = s.block.round :=
    (MemLedger.commit_round history l chain s).1
  have hheld : ((chain ++ [s]).foldl MemLedger.advance l).held = l.held := (MemLedger.foldl_advance _ l).2.1
  simp only [MemLedger.forget, MemLedger.prune, hround, hheld, Table.lookup_filter, hb']
  simp [Option.filter, hlt]

end

/-- **Committing a pending block**: its path from the frontier is applied, and all that is above it stays. -/
theorem commit_pending {id : Bytes} {s : Speculated} (hs : l.pending.lookup id = some s) (history : Nat) {fuel : Nat}
    (hfuel : S.card ≤ fuel) : ∃ l' ds, l.commit history fuel id = .ok (l', ds) ∧ l'.commitID = id ∧
      Path (· ∈ S) l.commitID ds id ∧ ConfInv cr S execute seen l' (out ++ ds) := by
  obtain ⟨chain, hr, hpath⟩ := h.rises hS _ id s hs (Nat.lt_succ_self _)
  obtain ⟨rfl, hsb, bs, hbs, hstate⟩ := h.records.pending _ _ hs
  have hid : s.block.id ≠ l.commitID := by
    intro hid
    rw [hid, h.not_pending_front hS] at hs
    cases hs
  have hlen : (chain ++ [s]).length ≤ fuel := by
    have := hS.path_length hpath
    rw [List.length_map] at this
    omega
  have hwalk := MemLedger.walkBack_rises (h.not_pending_front hS) hr fuel [] hlen
  rw [List.append_nil] at hwalk
  have hcommit : l.commit history fuel s.block.id =
      .ok ((((chain ++ [s]).foldl MemLedger.advance l).prune).forget history, (chain ++ [s]).map Speculated.block) := by
    rw [MemLedger.commit, if_neg hid, hwalk]
  obtain ⟨htop, htopState⟩ := MemLedger.commit_top history l chain s
  obtain ⟨-, hround⟩ := MemLedger.commit_round history l chain s
  refine ⟨_, _, hcommit, htop, hpath, (h.records.commit hcommit).1, h.hung.commit hcommit,
    h.waits.commit hs history, ?_, ?_,
    ⟨s.block, .inr hsb, htop.symm, hround.symm⟩, fun b hb hseen habove => ?_⟩
  · rw [htop]
    exact h.path.trans hpath
  · rw [htopState, hstate, hS.path_unique (b := genesisBlock cr) (.inl rfl) hbs (h.path.trans hpath)]
  · rw [htop] at habove
    obtain ⟨ds, hne, hds⟩ := habove
    rcases h.above b hb hseen ⟨_, by simp, hpath.trans hds⟩ with hp | hh
    · exact .inl (by rw [h.pending_commit hS hpath history hne hds hp]; exact hp)
    · exact .inr (by rw [h.held_commit hS hs history hb hne hds hh]; exact hh)

/-- **A commit along the branch**: it goes up the branch, or does nothing. -/
theorem commit_along {C : List Block} {top id : Bytes} (hC : Path (· ∈ S) (genesisBlock cr).id C top) (hout : out <+: C)
    (hid : id = (genesisBlock cr).id ∨ ∃ b ∈ C, b.id = id) (history : Nat) {fuel : Nat} (hfuel : S.card ≤ fuel) :
    ∃ l' ds, l.commit history fuel id = .ok (l', ds) ∧ ConfInv cr S execute seen l' (out ++ ds) ∧ out ++ ds <+: C := by
  cases hs : l.pending.lookup id with
  | none =>
    rw [MemLedger.commit_of_not_pending history fuel hs]
    exact ⟨l, [], rfl, by rwa [List.append_nil], by rwa [List.append_nil]⟩
  | some s =>
    obtain ⟨l', ds, hcommit, -, hpath, hinv⟩ := h.commit_pending hS hs history hfuel
    obtain ⟨C₁, hC₁, hpath₁⟩ : ∃ C₁, C₁ <+: C ∧ Path (· ∈ S) (genesisBlock cr).id C₁ id := by
      rcases hid with rfl | ⟨b, hb, rfl⟩
      · exact ⟨[], List.nil_prefix, .nil⟩
      · obtain ⟨xs, ys, rfl⟩ := List.append_of_mem hb
        rw [List.append_cons] at hC ⊢
        obtain ⟨mid, h₁, -⟩ := hC.split
        exact ⟨xs ++ [b], List.prefix_append _ _, h₁.of_concat.1 ▸ h₁⟩
    refine ⟨l', ds, hcommit, hinv, ?_⟩
    rw [hS.path_unique (b := genesisBlock cr) (.inl rfl) (h.path.trans hpath) hpath₁]
    exact hC₁

/-- **What is pending, once every block has come**: the strict descendants of the frontier, with their states. -/
theorem pending_iff (hall : ∀ b ∈ S, seen b) (id : Bytes) (s : Speculated) :
    l.pending.lookup id = some s ↔ ∃ ds b, Path (· ∈ S) l.commitID (ds ++ [b]) id ∧
      s = ⟨b, replay execute l.commitState (ds ++ [b])⟩ := by
  have hto : ∀ s, l.pending.lookup id = some s → ∃ ds b, Path (· ∈ S) l.commitID (ds ++ [b]) id ∧
      s = ⟨b, replay execute l.commitState (ds ++ [b])⟩ := by
    intro s hs
    obtain ⟨chain, -, hpath⟩ := h.rises hS _ id s hs (Nat.lt_succ_self _)
    obtain ⟨-, -, bs, hbs, hstate⟩ := h.records.pending _ _ hs
    rw [List.map_append] at hpath
    refine ⟨chain.map Speculated.block, s.block, hpath, ?_⟩
    have heq := hS.path_unique (b := genesisBlock cr) (.inl rfl) hbs (h.path.trans hpath)
    have hs' : s.state = replay execute l.commitState (chain.map Speculated.block ++ [s.block]) := by
      rw [h.state, ← replay_append, hstate, heq]
      rfl
    cases s
    exact congrArg (Speculated.mk _) hs'
  refine ⟨hto s, ?_⟩
  rintro ⟨ds, b, hpath, rfl⟩
  obtain ⟨s', hs'⟩ := Option.isSome_iff_exists.1 (h.pending_of_above hS hall hpath (by simp))
  obtain ⟨ds', b', hpath', rfl⟩ := hto s' hs'
  obtain ⟨f, hf, hfid, -⟩ := h.front
  rw [← hfid] at hpath hpath'
  have heq := hS.path_unique hf hpath hpath'
  obtain ⟨rfl, hb⟩ := List.append_inj' heq rfl
  cases hb
  exact hs'

end ConfInv

theorem ConfInv.mono {execute : Bytes → Payload → Bytes} {seen seen' : Block → Prop} {l : MemLedger} {out : List Block}
    (h : ConfInv cr S execute seen l out) (hsub : ∀ b ∈ S, seen' b → seen b) : ConfInv cr S execute seen' l out :=
  ⟨h.records, h.hung, h.waits, h.path, h.state, h.front, fun b hb hseen => h.above b hb (hsub b hb hseen)⟩

theorem ConfInv.init (cr : Crypto) (S : Finset Block) (execute : Bytes → Payload → Bytes) :
    ConfInv cr S execute (fun _ => False) (newMemLedger cr) [] where
  records := ⟨Table.holds_empty _, Table.holds_empty _, [], .nil, rfl⟩
  hung    := fun id s hs => by cases hs
  waits   := fun id b hb => by cases hb
  path    := .nil
  state   := rfl
  front   := ⟨genesisBlock cr, .inl rfl, rfl, (MemLedger.commitRound_genesis cr).symm⟩
  above   := fun _ _ hf => hf.elim

/-- **One call**: the invariant holds with the block of the call among those that have come. -/
theorem ConfInv.call {execute : Bytes → Payload → Bytes} {seen : Block → Prop} {l : MemLedger} {out C : List Block}
    {top : Bytes} (h : ConfInv cr S execute seen l out) (hS : IsTree cr S)
    (hC : Path (· ∈ S) (genesisBlock cr).id C top) (hout : out <+: C) {x : MemLedger.Call} (hx : x.Within cr S C)
    (history : Nat) {fuel : Nat} (hfuel : S.card ≤ fuel) :
    ∃ l' ds, l.call execute history fuel x = .ok (l', ds) ∧
      ConfInv cr S execute (fun b => seen b ∨ x = .speculate b) l' (out ++ ds) ∧ out ++ ds <+: C := by
  cases x with
  | commit id =>
    obtain ⟨l', ds, hcommit, h', hout'⟩ := h.commit_along hS hC hout hx history hfuel
    exact ⟨l', ds, hcommit, h'.mono (fun b _ hseen => hseen.resolve_right (by simp)), hout'⟩
  | speculate b =>
    refine ⟨_, [], rfl, ?_, by rwa [List.append_nil]⟩
    rw [List.append_nil]
    rcases hx with hb | rfl
    · exact (h.speculate hS hb).mono (fun c _ hc => hc.imp_right (fun heq => by cases heq; rfl))
    · -- genesis is no block of the tree
      rw [h.speculate_genesis hS]
      refine h.mono (fun c hc hseen => hseen.resolve_right fun heq => ?_)
      cases heq
      exact hS.fresh _ hc rfl

/-- **A run of calls**: the invariant holds for whatever came, and what was committed is the beginning of the branch. -/
theorem ConfInv.calls {execute : Bytes → Payload → Bytes} (hS : IsTree cr S) {C : List Block} {top : Bytes}
    (hC : Path (· ∈ S) (genesisBlock cr).id C top) (history : Nat) {fuel : Nat} (hfuel : S.card ≤ fuel)
    (xs : List MemLedger.Call) : ∀ {seen : Block → Prop} {l : MemLedger} {out : List Block},
    ConfInv cr S execute seen l out → out <+: C → (∀ x ∈ xs, x.Within cr S C) →
    ∃ l' ds, l.calls execute history fuel xs = .ok (l', ds) ∧
      ConfInv cr S execute (fun b => seen b ∨ .speculate b ∈ xs) l' (out ++ ds) ∧ out ++ ds <+: C := by
  induction xs with
  | nil =>
    intro seen l out h hout _
    refine ⟨l, [], rfl, ?_, by rwa [List.append_nil]⟩
    rw [List.append_nil]
    exact h.mono (fun b _ hseen => hseen.resolve_right (by simp))
  | cons x xs ih =>
    intro seen l out h hout hcalls
    obtain ⟨l₁, ds₁, hcall, h₁, hout₁⟩ :=
      h.call hS hC hout (hcalls x (List.mem_cons_self ..)) history hfuel
    obtain ⟨l₂, ds₂, hrest, h₂, hout₂⟩ := ih h₁ hout₁ (fun y hy => hcalls y (List.mem_cons_of_mem _ hy))
    refine ⟨l₂, ds₁ ++ ds₂, MemLedger.calls_cons hcall hrest, ?_, by rwa [← List.append_assoc]⟩
    rw [← List.append_assoc]
    refine h₂.mono fun b hb hin => ?_
    rw [List.mem_cons] at hin
    rcases hin with hs | heq | hin
    · exact .inl (.inl hs)
    · exact .inl (.inr heq.symm)
    · exact .inr hin

theorem MemLedger.calls_concat {execute : Bytes → Payload → Bytes} {history fuel : Nat} {x : MemLedger.Call}
    {l₂ : MemLedger} {ds₂ : List Block} (xs : List MemLedger.Call) : ∀ {l l₁ : MemLedger} {ds₁ : List Block},
    l.calls execute history fuel xs = .ok (l₁, ds₁) → l₁.call execute history fuel x = .ok (l₂, ds₂) →
    l.calls execute history fuel (xs ++ [x]) = .ok (l₂, ds₁ ++ ds₂) := by
  induction xs with
  | nil =>
    intro l l₁ ds₁ hxs hx
    cases hxs
    simp [MemLedger.calls, hx]
  | cons y ys ih =>
    intro l l₁ ds₁ hxs hx
    obtain ⟨l₀, bs, cs, hy, hys, rfl⟩ := MemLedger.calls_cons_ok hxs
    rw [List.cons_append, MemLedger.calls_cons hy (ih hys hx), List.append_assoc]

/-- Once every block has come, committing the branch's top commits the rest of the branch. -/
theorem ConfInv.commit_top {execute : Bytes → Payload → Bytes} {seen : Block → Prop} {l : MemLedger}
    {out C : List Block} {top : Bytes} (h : ConfInv cr S execute seen l out) (hS : IsTree cr S) (hall : ∀ b ∈ S, seen b)
    (hC : Path (· ∈ S) (genesisBlock cr).id C top) (hout : out <+: C) (history : Nat) {fuel : Nat}
    (hfuel : S.card ≤ fuel) : ∃ l' ds, l.commit history fuel top = .ok (l', ds) ∧ out ++ ds = C ∧ l'.commitID = top ∧
      ConfInv cr S execute seen l' C := by
  obtain ⟨rest, rfl⟩ := hout
  obtain ⟨mid, h₁, h₂⟩ := hC.split
  cases h₁.top_unique h.path
  cases rest with
  | nil =>
    cases h₂.eq_of_nil
    refine ⟨l, [], ?_, rfl, rfl, by rwa [List.append_nil]⟩
    rw [MemLedger.commit, if_pos rfl]
  | cons d ds =>
    obtain ⟨s, hs⟩ := Option.isSome_iff_exists.1 (h.pending_of_above hS hall h₂ (by simp))
    obtain ⟨l', ds', hcommit, hid, hpath, hinv⟩ := h.commit_pending hS hs history hfuel
    have heq := hS.path_unique (b := genesisBlock cr) (.inl rfl) (h.path.trans hpath) hC
    exact ⟨l', ds', hcommit, heq, hid, heq ▸ hinv⟩

end

/-- **Ledger confluence**: whatever the order of the calls, the branch is committed block by block, the frontier is its
top with the state it leads to, and the blocks above it are pending with theirs. -/
theorem ledger_confluence {cr : Crypto} {S : Finset Block} (hS : IsTree cr S) {C : List Block} {top : Bytes}
    (hC : Path (· ∈ S) (genesisBlock cr).id C top) {xs : List MemLedger.Call} (hcalls : ∀ x ∈ xs, x.Within cr S C)
    (hall : ∀ b ∈ S, .speculate b ∈ xs) (execute : Bytes → Payload → Bytes) (history : Nat) {fuel : Nat}
    (hfuel : S.card ≤ fuel) :
    ∃ l, (newMemLedger cr).calls execute history fuel (xs ++ [.commit top]) = .ok (l, C) ∧ C.Nodup ∧ l.commitID = top ∧
      l.commitState = replay execute (newMemLedger cr).commitState C ∧
      ∀ id s, l.pending.lookup id = some s ↔ ∃ ds b, Path (· ∈ S) top (ds ++ [b]) id ∧
        s = ⟨b, replay execute (newMemLedger cr).commitState (C ++ (ds ++ [b]))⟩ := by
  obtain ⟨l₁, out, hrun, h₁, hout⟩ := (ConfInv.init cr S execute).calls hS hC history hfuel xs
    List.nil_prefix hcalls
  rw [List.nil_append] at h₁ hout
  obtain ⟨l₂, ds, hcommit, rfl, rfl, h₂⟩ := h₁.commit_top hS (fun b hb => .inr (hall b hb)) hC hout history hfuel
  refine ⟨l₂, MemLedger.calls_concat xs hrun hcommit, hS.path_nodup hC, rfl, h₂.state, fun id s => ?_⟩
  rw [h₂.pending_iff hS (fun b hb => .inr (hall b hb)), h₂.state]
  simp only [replay_append]

/-- The first three blocks of the chain. -/
theorem Chain.isTree : IsTree Chain.net.crypto {Chain.block 1, Chain.block 2, Chain.block 3} where
  ids    := by decide +kernel
  fresh  := by decide +kernel
  root   := by
    rintro b (rfl | hb)
    · decide +kernel
    · revert b
      decide +kernel
  parent := by decide +kernel
  rises  := by decide +kernel

/-- Block 3 comes first, commits come before their blocks, and block 1 comes again once it is committed. -/
theorem chain_confluence :
    ∃ l, (newMemLedger Chain.net.crypto).calls (executeHash Chain.net.crypto) 1 3
        ([.speculate (Chain.block 3), .commit (Chain.block 2).id, .speculate (Chain.block 1),
          .commit (Chain.block 1).id, .speculate (Chain.block 2), .speculate (Chain.block 1)] ++
          [.commit (Chain.block 2).id]) = .ok (l, [Chain.block 1, Chain.block 2]) ∧
      l.commitID = (Chain.block 2).id ∧ l.pending.lookup (Chain.block 3).id ≠ none := by
  have h₂ : Path (· ∈ ({Chain.block 1, Chain.block 2, Chain.block 3} : Finset Block)) (genesisBlock Chain.net.crypto).id
      [Chain.block 1, Chain.block 2] (Chain.block 2).id :=
    (Path.single (by decide) (by decide +kernel)).trans (.single (by decide) rfl)
  obtain ⟨l, hrun, -, htop, -, hpending⟩ := ledger_confluence Chain.isTree h₂
    (by simp [MemLedger.Call.Within] : ∀ x ∈ [MemLedger.Call.speculate (Chain.block 3), .commit (Chain.block 2).id,
      .speculate (Chain.block 1), .commit (Chain.block 1).id, .speculate (Chain.block 2),
      .speculate (Chain.block 1)], _)
    (by simp) (executeHash Chain.net.crypto) 1 (by decide : _ ≤ 3)
  refine ⟨l, hrun, htop, fun hnone => ?_⟩
  rw [(hpending _ _).2 ⟨[], Chain.block 3, .single (by decide) rfl, rfl⟩] at hnone
  cases hnone

end Diem

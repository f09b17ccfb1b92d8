import Diem.Retention
/-!
# Shape — the representation invariant of the ledger

Whatever is speculated and committed, in whatever order: what is pending hangs on the frontier, what is held waits above
it for a parent without a state, and what is committed is the end of one chain that the frontier tops.  Nothing is
assumed of the blocks but that ids identify them and that a certificate gives its parent's round, below its block's; a
parent may never come.
-/
namespace Diem

/-- A block, or genesis. -/
def Known (cr : Crypto) (Q : Block → Prop) (b : Block) : Prop := b = genesisBlock cr ∨ Q b

/-- **Blocks to call a ledger with**: ids identify them, and a block's certificate is of its parent's round, where the
parent is one of them, and below its own. -/
structure Coherent (cr : Crypto) (Q : Block → Prop) : Prop where
  ids    : ∀ b b', Known cr Q b → Known cr Q b' → b.id = b'.id → b = b'
  parent : ∀ b p, Q b → Known cr Q p → parentID b = p.id → qcRound b.qc = p.round
  rises  : ∀ b, Q b → qcRound b.qc < b.round

theorem Known.of_mem {cr : Crypto} {Q : Block → Prop} {r x : Block} {bs : List Block} {top : Bytes} (hr : Known cr Q r)
    (h : Path Q r.id bs top) (hx : x ∈ r :: bs) : Known cr Q x := by
  rcases List.mem_cons.1 hx with rfl | hx
  · exact hr
  · exact .inr (h.forall_mem x hx)

namespace Coherent

variable {cr : Crypto} {Q : Block → Prop} (hQ : Coherent cr Q)
include hQ

/-- A parent's round is below its child's. -/
theorem lt_child {b p : Block} (hb : Q b) (hp : Known cr Q p) (hid : parentID b = p.id) : p.round < b.round :=
  hQ.parent b p hb hp hid ▸ hQ.rises b hb

/-- Rounds rise along a path. -/
theorem le_top {r : Block} (hr : Known cr Q r) {bs : List Block} {top : Bytes} (h : Path Q r.id bs top) :
    ∀ p ∈ r :: bs, ∀ t, Known cr Q t → t.id = top → p.round ≤ t.round := by
  induction h with
  | nil =>
    intro p hp t ht htop
    cases hQ.ids t r ht hr htop
    rw [List.mem_singleton.1 hp]
    exact UInt64.le_refl _
  | @snoc bs b h hb ih =>
    intro p hp t ht htop
    cases hQ.ids t b ht (.inr hb) htop
    rw [← List.cons_append] at hp
    rcases List.mem_append.1 hp with hp | hp
    · -- below the parent, and so below the block
      obtain ⟨q, hq, hqid⟩ := List.mem_map.1 (show parentID b ∈ (r :: bs).map Block.id from h.top_mem)
      have hqk := hr.of_mem h hq
      exact UInt64.le_of_lt (UInt64.lt_of_le_of_lt (ih p hp q hqk hqid) (hQ.lt_child hb hqk hqid.symm))
    · rw [List.mem_singleton.1 hp]
      exact UInt64.le_refl _

/-- The blocks of a path, each after its parent and in a later round. -/
theorem isChain {r : Block} (hr : Known cr Q r) {bs : List Block} {top : Bytes} (h : Path Q r.id bs top) :
    (r :: bs).IsChain (fun p b => parentID b = p.id ∧ p.round < b.round) := by
  refine List.IsChain.imp_of_mem_tail_imp (fun p b hp hb hlink => ⟨hlink, ?_⟩) (h.isChain rfl)
  exact hQ.lt_child (h.forall_mem b hb) (hr.of_mem h hp) hlink

/-- A path comes to no id twice. -/
theorem nodup {r : Block} (hr : Known cr Q r) {bs : List Block} {top : Bytes} (h : Path Q r.id bs top) :
    ((r :: bs).map Block.id).Nodup := by
  have hlt : (r :: bs).Pairwise (fun p b => p.round < b.round) := by
    have : IsTrans Block (fun p b => p.round < b.round) := ⟨fun a b c hab hbc => UInt64.lt_trans hab hbc⟩
    exact ((hQ.isChain hr h).imp (fun _ _ hlink => hlink.2)).pairwise
  rw [List.Nodup, List.pairwise_map]
  refine hlt.imp_of_mem (fun {a b} ha hb hab hid => ?_)
  cases hQ.ids a b (hr.of_mem h ha) (hr.of_mem h hb) hid
  exact UInt64.lt_irrefl _ hab

/-- Nor does one from a root that is no block. -/
theorem path_nodup {root top : Bytes} {bs : List Block} (h : Path Q root bs top) : (bs.map Block.id).Nodup := by
  cases bs with
  | nil => exact List.nodup_nil
  | cons b bs =>
    have hcut : Path Q root ([b] ++ bs) top := h
    obtain ⟨mid, h₁, h₂⟩ := hcut.split
    rw [← List.nil_append [b]] at h₁
    obtain ⟨rfl, hb, -⟩ := h₁.of_concat
    exact hQ.nodup (.inr hb) h₂

/-- A path is no longer than a list with all the blocks there are. -/
theorem path_length {root top : Bytes} {bs L : List Block} (h : Path Q root bs top) (hL : ∀ b, Q b → b ∈ L) :
    bs.length ≤ L.length :=
  ((List.Nodup.of_map _ (hQ.path_nodup h)).subperm (fun b hb => hL b (h.forall_mem b hb))).length_le

end Coherent

/-! ## The invariant -/

/-- **The shape of a ledger** that committed `bs` on top of genesis. -/
structure Shape (cr : Crypto) (Q : Block → Prop) (history : Nat) (l : MemLedger) (bs : List Block) : Prop where
  records : l.Records Q (fun _ _ => True)
  hung    : l.Hung
  waits   : l.Waits (fun _ => False)
  above   : l.held.Holds (fun _ b => l.commitRound < qcRound b.qc)
  line    : Path Q (genesisBlock cr).id bs l.commitID
  kept    : l.Retains history (genesisBlock cr :: bs)
  front   : ∃ f, Known cr Q f ∧ f.id = l.commitID ∧ l.committed.lookup l.commitID = some f

namespace Shape

variable {cr : Crypto} {Q : Block → Prop} {history : Nat} {l l' : MemLedger} {bs : List Block}

theorem init (cr : Crypto) (Q : Block → Prop) (history : Nat) : Shape cr Q history (newMemLedger cr) [] where
  records := ⟨Table.holds_empty _, Table.holds_empty _, trivial⟩
  hung    := fun _ _ hs => by cases hs
  waits   := fun _ _ hb => by cases hb
  above   := fun _ _ hb => by cases hb
  line    := .nil
  kept    := MemLedger.Retains.init cr history
  front   := ⟨_, .inl rfl, rfl, MemLedger.committedBlock_genesis cr⟩

theorem commitRound_eq {f : Block} (hf : l.committed.lookup l.commitID = some f) : l.commitRound = f.round := by
  rw [MemLedger.commitRound, hf]

section

variable (hQ : Coherent cr Q) (h : Shape cr Q history l bs)
include hQ h

/-- What was committed is not above the frontier. -/
theorem committed_le {b : Block} (hb : b ∈ genesisBlock cr :: bs) : b.round ≤ l.commitRound := by
  obtain ⟨f, hf, hfid, hlook⟩ := h.front
  rw [commitRound_eq hlook]
  exact hQ.le_top (.inl rfl) h.line b hb f hf hfid

/-- **A pending block is the top of a pending path, and above the frontier.**  Rounds fall towards it. -/
theorem rises : ∀ (n : Nat) (id : Bytes) (s : Speculated), l.pending.lookup id = some s → s.block.round.toNat < n →
    (∃ chain, l.Rises (chain ++ [s]) id) ∧ l.commitRound < s.block.round := by
  intro n
  induction n with
  | zero => exact fun _ _ _ hn => absurd hn (Nat.not_lt_zero _)
  | succ n ih =>
    intro id s hs hn
    obtain ⟨hid, hsb, -⟩ := h.records.pending _ _ hs
    rcases h.hung id s hs with hp | hp
    · obtain ⟨f, hf, hfid, hlook⟩ := h.front
      refine ⟨⟨[], ?_⟩, ?_⟩
      · have hnil : l.Rises [] (parentID s.block) := hp ▸ .nil
        exact hnil.snoc hs
      · rw [commitRound_eq hlook]
        exact hQ.lt_child hsb hf (hp.trans hfid.symm)
    · obtain ⟨p, hp⟩ := Option.isSome_iff_exists.1 hp
      obtain ⟨hpid, hpb, -⟩ := h.records.pending _ _ hp
      have hlt := hQ.lt_child hsb (.inr hpb) hpid.symm
      obtain ⟨⟨chain, hr⟩, hround⟩ := ih _ p hp (by rw [UInt64.lt_iff_toNat_lt] at hlt; omega)
      exact ⟨⟨chain ++ [p], hr.snoc hs⟩, UInt64.lt_trans hround hlt⟩

theorem pending_above {id : Bytes} {s : Speculated} (hs : l.pending.lookup id = some s) :
    l.commitRound < s.block.round :=
  (h.rises hQ _ id s hs (Nat.lt_succ_self _)).2

/-- Above the frontier nothing is committed. -/
theorem lookup_committed_none {b : Block} (hb : Q b) (habove : l.commitRound < b.round) :
    l.committed.lookup b.id = none := by
  cases hc : l.committed.lookup b.id with
  | none => rfl
  | some c =>
    obtain ⟨hmem, hid⟩ := h.kept.back _ _ hc
    have hck : Known cr Q c := Known.of_mem (.inl rfl) h.line hmem
    cases hQ.ids c b hck (.inr hb) hid
    exact absurd (h.committed_le hQ hmem) (UInt64.not_le.2 habove)

theorem not_pending_front : l.pending.lookup l.commitID = none := by
  cases hs : l.pending.lookup l.commitID with
  | none => rfl
  | some s =>
    obtain ⟨hid, hsb, -⟩ := h.records.pending _ _ hs
    have hnone := h.lookup_committed_none hQ hsb (h.pending_above hQ hs)
    obtain ⟨f, -, -, hlook⟩ := h.front
    rw [hid, hlook] at hnone
    cases hnone

/-- What is held is above the frontier. -/
theorem held_above {id : Bytes} {b : Block} (hb : l.held.lookup id = some b) : l.commitRound < b.round :=
  UInt64.lt_trans (h.above id b hb) (hQ.rises b (h.records.held id b hb).2)

/-- What is held is not pending: its parent would have a state. -/
theorem not_held_of_pending {id : Bytes} (hp : (l.pending.lookup id).isSome = true) : l.held.lookup id = none := by
  cases hb : l.held.lookup id with
  | none => rfl
  | some b =>
    obtain ⟨s, hs⟩ := Option.isSome_iff_exists.1 hp
    obtain ⟨hsid, hsb, -⟩ := h.records.pending _ _ hs
    obtain ⟨hbid, hbb⟩ := h.records.held _ _ hb
    cases hQ.ids b s.block (.inr hbb) (.inr hsb) (hbid.trans hsid.symm)
    have hnone := (h.waits id _ hb).resolve_right (fun hf => hf)
    rcases h.hung id s hs with hfront | hpend
    · rw [MemLedger.pendingState, if_pos hfront] at hnone
      cases hnone
    · exact absurd hnone (MemLedger.pendingState_of_isSome hpend)

end

/-! ## The calls -/

theorem speculate (h : Shape cr Q history l bs) (execute : Bytes → Payload → Bytes) {b : Block} (hb : Q b) :
    Shape cr Q history (l.speculate execute b).1 bs := by
  obtain ⟨hcom, hid, -⟩ := MemLedger.speculate_frame execute l b
  refine ⟨h.records.speculate (fun _ _ _ _ => trivial) hb, h.hung.speculate execute b, h.waits.speculate execute b, ?_,
    hid.symm ▸ h.line, h.kept.congr (MemLedger.speculate_order execute l b) hcom, ?_⟩
  · rw [MemLedger.speculate_round]
    by_cases hparent : l.pendingState (parentID b) = none
    · rw [MemLedger.speculate_of_none execute hparent]
      split
      · rename_i hround
        exact Table.holds_insert h.above hround
      · exact h.above
    · exact (MemLedger.speculate_ran execute hparent).held.holds h.above
  · rw [hcom, hid]
    exact h.front

theorem commit (hQ : Coherent cr Q) (h : Shape cr Q history l bs) {fuel : Nat} {id : Bytes} {cs : List Block}
    (hc : l.commit history fuel id = .ok (l', cs)) : Shape cr Q history l' (bs ++ cs) := by
  cases hs : l.pending.lookup id with
  | none =>
    rw [MemLedger.commit_of_not_pending history fuel hs] at hc
    cases hc
    rw [List.append_nil]
    exact h
  | some s =>
    have hne : id ≠ l.commitID := by
      rintro rfl
      rw [h.not_pending_front hQ] at hs
      cases hs
    obtain ⟨rfl, hsb, -⟩ := h.records.pending _ _ hs
    obtain ⟨chain, hr, rfl, rfl⟩ := h.hung.commit_pending hne hs hc
    obtain ⟨htop, -⟩ := MemLedger.commit_top history l chain s
    have hline := h.line.trans (h.records.path hr)
    refine ⟨(h.records.commit hc).1, h.hung.commit hc, h.waits.commit hs history, ?_, htop.symm ▸ hline, ?_, ?_⟩
    · rw [(MemLedger.commit_round history l chain s).2]
      exact MemLedger.commit_held history l chain s
    · refine h.kept.commit hc (hQ.nodup (.inl rfl) hline) ?_
      rw [htop]
      exact hline.getLast?_passed
    · rw [htop]
      exact ⟨s.block, .inr hsb, rfl, MemLedger.commit_front history l chain s⟩

/-- **Committing a pending block**: the walk back ends, and the frontier moves up to the block over the whole pending
path.  A path has no block twice, so the blocks there are bound the walk. -/
theorem commit_pending (hQ : Coherent cr Q) (h : Shape cr Q history l bs) {L : List Block} (hL : ∀ b, Q b → b ∈ L)
    {id : Bytes} {s : Speculated} (hs : l.pending.lookup id = some s) {fuel : Nat} (hfuel : L.length ≤ fuel) :
    ∃ l' cs, l.commit history fuel id = .ok (l', cs ++ [s.block]) ∧ l'.commitID = id ∧
      Path (fun b => ∃ s, l.pending.lookup b.id = some s ∧ s.block = b) l.commitID (cs ++ [s.block]) id := by
  obtain ⟨⟨chain, hr⟩, -⟩ := h.rises hQ _ id s hs (Nat.lt_succ_self _)
  have hpath := h.records.path hr
  have hlen : (chain ++ [s]).length ≤ fuel := by
    have hle := hQ.path_length hpath hL
    rw [List.length_map] at hle
    exact hle.trans hfuel
  have hne : id ≠ l.commitID := by
    rintro rfl
    rw [h.not_pending_front hQ] at hs
    cases hs
  refine ⟨_, chain.map Speculated.block, ?_, (MemLedger.commit_top history l chain s).1.trans ?_, ?_⟩
  · rw [MemLedger.commit, if_neg hne, MemLedger.walkBack_rises (h.not_pending_front hQ) hr fuel [] hlen,
      List.append_nil]
    simp only [List.map_append, List.map_cons, List.map_nil]
  · exact (h.records.pending _ _ hs).1
  · have hmem : ∀ b ∈ (chain ++ [s]).map Speculated.block, ∃ s, l.pending.lookup b.id = some s ∧ s.block = b := by
      intro b hb
      obtain ⟨x, hx, rfl⟩ := List.mem_map.1 hb
      obtain ⟨-, k, -, -, hk⟩ := hr.of_mem hx
      exact ⟨x, by rw [(h.records.pending _ _ hk).1]; exact hk, rfl⟩
    have hpending := hpath.imp hmem
    rwa [List.map_append, List.map_singleton] at hpending

end Shape

/-- **Calls keep the shape and return**, with fuel for the blocks there are. -/
theorem Shape.calls {cr : Crypto} {Q : Block → Prop} (hQ : Coherent cr Q) {L : List Block} (hL : ∀ b, Q b → b ∈ L)
    (execute : Bytes → Payload → Bytes) {history fuel : Nat} (hfuel : L.length ≤ fuel) :
    ∀ (xs : List MemLedger.Call) {l : MemLedger} {bs : List Block}, Shape cr Q history l bs →
      (∀ b, .speculate b ∈ xs → Q b) →
      ∃ l' out, l.calls execute history fuel xs = .ok (l', out) ∧ Shape cr Q history l' (bs ++ out)
  | [],      l, bs, h, _   => ⟨l, [], rfl, by rwa [List.append_nil]⟩
  | x :: xs, l, bs, h, hxs => by
    obtain ⟨l₁, cs, hx, h₁⟩ : ∃ l₁ cs, l.call execute history fuel x = .ok (l₁, cs) ∧
      Shape cr Q history l₁ (bs ++ cs) := by
      cases x with
      | speculate b => exact ⟨_, [], rfl, by rw [List.append_nil]; exact h.speculate execute (hxs b List.mem_cons_self)⟩
      | commit id =>
        cases hs : l.pending.lookup id with
        | none => exact ⟨l, [], MemLedger.commit_of_not_pending history fuel hs, by rwa [List.append_nil]⟩
        | some s =>
          obtain ⟨l', cs, hcommit, -⟩ := h.commit_pending hQ hL hs hfuel
          exact ⟨l', _, hcommit, h.commit hQ hcommit⟩
    obtain ⟨l', out, hrest, h'⟩ := Shape.calls hQ hL execute hfuel xs h₁ (fun b hb => hxs b (List.mem_cons_of_mem _ hb))
    exact ⟨l', cs ++ out, MemLedger.calls_cons hx hrest, by rwa [← List.append_assoc]⟩

/-! ## What it says -/

/-- The last blocks of the committed chain, at most `history` of them. -/
def lastBlocks (cr : Crypto) (history : Nat) (out : List Block) : List Block :=
  (genesisBlock cr :: out).drop (out.length + 1 - history)

/-- **What a ledger holds** after it committed `out`. -/
structure Represents (cr : Crypto) (history : Nat) (l : MemLedger) (out : List Block) : Prop where
  pending   : ∀ id s, l.pending.lookup id = some s → s.block.id = id ∧
                (parentID s.block = l.commitID ∨ (l.pending.lookup (parentID s.block)).isSome = true)
  held      : ∀ id b, l.held.lookup id = some b → b.id = id ∧ l.pendingState (parentID b) = none ∧
                l.commitRound < qcRound b.qc
  apart     : ∀ id, ((l.pending.lookup id).isSome = true → l.held.lookup id = none ∧ l.committed.lookup id = none) ∧
                ((l.held.lookup id).isSome = true → l.committed.lookup id = none)
  front     : (l.committed.lookup l.commitID).map Block.id = some l.commitID
  order     : l.order = (lastBlocks cr history out).map Block.id
  chain     : (lastBlocks cr history out).IsChain (fun p b => parentID b = p.id ∧ p.round < b.round)
  ends      : l.order.getLast? = some l.commitID
  many      : (lastBlocks cr history out).length = min history (out.length + 1)
  committed : ∀ id b, l.committed.lookup id = some b ↔ b ∈ lastBlocks cr history out ∧ b.id = id

theorem Shape.represents {cr : Crypto} {Q : Block → Prop} (hQ : Coherent cr Q) {history : Nat} {l : MemLedger}
    {out : List Block} (h : Shape cr Q history l out) (hpos : 1 ≤ history) : Represents cr history l out := by
  have hsub : lastBlocks cr history out <:+ genesisBlock cr :: out := List.drop_suffix _ _
  have horder : l.order = (lastBlocks cr history out).map Block.id := h.kept.order_eq hpos
  have hmany : (lastBlocks cr history out).length = min history (out.length + 1) := by
    rw [lastBlocks, List.length_drop, List.length_cons]
    omega
  refine ⟨fun id s hs => ?_, fun id b hb => ?_, fun id => ⟨fun hp => ?_, fun hh => ?_⟩, ?_, horder, ?_, ?_, hmany,
    fun id b => ?_⟩
  · exact ⟨(h.records.pending id s hs).1, h.hung id s hs⟩
  · exact ⟨(h.records.held id b hb).1, (h.waits id b hb).resolve_right (fun hf => hf), h.above id b hb⟩
  · refine ⟨h.not_held_of_pending hQ hp, ?_⟩
    obtain ⟨s, hs⟩ := Option.isSome_iff_exists.1 hp
    obtain ⟨rfl, hsb, -⟩ := h.records.pending _ _ hs
    exact h.lookup_committed_none hQ hsb (h.pending_above hQ hs)
  · obtain ⟨b, hb⟩ := Option.isSome_iff_exists.1 hh
    obtain ⟨rfl, hbb⟩ := h.records.held _ _ hb
    exact h.lookup_committed_none hQ hbb (h.held_above hQ hb)
  · obtain ⟨f, -, hfid, hlook⟩ := h.front
    rw [hlook, Option.map_some, hfid]
  · exact (hQ.isChain (.inl rfl) h.line).suffix hsub
  · -- the bound leaves the frontier
    have hne : (lastBlocks cr history out).map Block.id ≠ [] := by
      intro hnil
      rw [List.map_eq_nil_iff.1 hnil, List.length_nil] at hmany
      omega
    obtain ⟨pre, hpre⟩ := hsub.map Block.id
    have hlast := h.line.getLast?_passed
    rw [passed, ← List.map_cons, ← hpre, List.getLast?_append_of_ne_nil _ hne] at hlast
    rw [horder]
    exact hlast
  · constructor
    · intro hb
      obtain ⟨-, rfl⟩ := h.kept.back id b hb
      exact ⟨(h.kept.lookup_iff hpos b).1 hb, rfl⟩
    · rintro ⟨hb, rfl⟩
      exact (h.kept.lookup_iff hpos b).2 hb

/-- The blocks of the calls. -/
def MemLedger.Call.blocks (xs : List MemLedger.Call) : List Block :=
  xs.filterMap (fun x => match x with
    | .speculate b => some b
    | .commit _    => none)

theorem MemLedger.Call.mem_blocks {xs : List MemLedger.Call} {b : Block} (hb : .speculate b ∈ xs) :
    b ∈ MemLedger.Call.blocks xs :=
  List.mem_filterMap.2 ⟨_, hb, rfl⟩

theorem MemLedger.Call.length_blocks (xs : List MemLedger.Call) : (MemLedger.Call.blocks xs).length ≤ xs.length :=
  List.length_filterMap_le _ _

/-- **The ledger's invariant**, whatever the calls and their order; and a commit moves the frontier to the block, over
the whole pending path, or does nothing, if the block is not pending. -/
theorem ledger_represents {cr : Crypto} {xs : List MemLedger.Call} (hxs : Coherent cr (fun b => .speculate b ∈ xs))
    (execute : Bytes → Payload → Bytes) {history : Nat} (hpos : 1 ≤ history) {fuel : Nat} (hfuel : xs.length ≤ fuel) :
    ∃ l out, (newMemLedger cr).calls execute history fuel xs = .ok (l, out) ∧ Represents cr history l out ∧
      ∀ id, (l.pending.lookup id = none ∧ l.commit history fuel id = .ok (l, [])) ∨
        ∃ l' cs, cs ≠ [] ∧ l.commit history fuel id = .ok (l', cs) ∧ l'.commitID = id ∧
          Path (fun b => ∃ s, l.pending.lookup b.id = some s ∧ s.block = b) l.commitID cs id := by
  have hlen := (MemLedger.Call.length_blocks xs).trans hfuel
  obtain ⟨l, out, hrun, h⟩ := (Shape.init cr _ history).calls hxs (fun _ => MemLedger.Call.mem_blocks) execute hlen xs
    (fun _ hb => hb)
  rw [List.nil_append] at h
  refine ⟨l, out, hrun, h.represents hxs hpos, fun id => ?_⟩
  cases hs : l.pending.lookup id with
  | none => exact .inl ⟨rfl, MemLedger.commit_of_not_pending history fuel hs⟩
  | some s =>
    obtain ⟨l', cs, hcommit, htop, hpath⟩ := h.commit_pending hxs (fun _ => MemLedger.Call.mem_blocks) hs hlen
    exact .inr ⟨l', _, by simp, hcommit, htop, hpath⟩

theorem Coherent.mono {cr : Crypto} {Q Q' : Block → Prop} (hQ : Coherent cr Q) (hsub : ∀ b, Q' b → Q b) :
    Coherent cr Q' where
  ids b b' hb hb' := hQ.ids b b' (hb.imp_right (hsub b)) (hb'.imp_right (hsub b'))
  parent b p hb hp := hQ.parent b p (hsub b hb) (hp.imp_right (hsub p))
  rises b hb := hQ.rises b (hsub b hb)

/-- A tree's blocks are coherent. -/
theorem IsTree.coherent {cr : Crypto} {S : Finset Block} (hS : IsTree cr S) : Coherent cr (· ∈ S) where
  ids _ _ hb hb' hid := hS.node_inj hb hb' hid
  parent b p hb hp hid := by
    obtain ⟨q, hq, hqid, hround, -⟩ := hS.node_parent hb
    cases hS.node_inj hp hq (hid.symm.trans hqid.symm)
    exact hround.symm
  rises := hS.rises

/-- Block 3 comes first, and block 2 once block 1 is committed. -/
def Chain.shuffled : List MemLedger.Call :=
  [.speculate (Chain.block 3), .speculate (Chain.block 1), .commit (Chain.block 1).id, .speculate (Chain.block 2),
    .commit (Chain.block 2).id]

theorem Chain.coherent_shuffled : Coherent Chain.net.crypto (fun b => .speculate b ∈ Chain.shuffled) :=
  Chain.isTree.coherent.mono (by simp [Chain.shuffled])

/-- Of two committed blocks a bound of one leaves the later. -/
theorem chain_represents :
    ∃ l, (newMemLedger Chain.net.crypto).calls (executeHash Chain.net.crypto) 1 5 Chain.shuffled =
        .ok (l, [Chain.block 1, Chain.block 2]) ∧
      l.order = [(Chain.block 2).id] ∧ l.committed.lookup (Chain.block 1).id = none := by
  obtain ⟨l, out, hrun, h, -⟩ :=
    ledger_represents Chain.coherent_shuffled (executeHash Chain.net.crypto) (Nat.le_refl 1) (Nat.le_refl 5)
  have hout : (((newMemLedger Chain.net.crypto).calls (executeHash Chain.net.crypto) 1 5 Chain.shuffled).toOption).map
      Prod.snd = some [Chain.block 1, Chain.block 2] := by decide +kernel
  rw [hrun] at hout
  cases hout
  refine ⟨l, hrun, h.order, ?_⟩
  cases hc : l.committed.lookup (Chain.block 1).id with
  | none => rfl
  | some b =>
    obtain ⟨hmem, hid⟩ := (h.committed _ b).1 hc
    rw [List.mem_singleton.1 hmem] at hid
    exact absurd hid (by decide)

end Diem

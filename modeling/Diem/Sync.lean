import Diem.Shape
/-!
# Sync — the block a held block waits for

`Missing` walks back over held blocks, whose rounds fall, to the first id the ledger knows nothing of.  Once the block
of that id comes, all that waited on it runs, or it is held too and the walk goes further back, or it hangs off the
committed chain and nothing above it can ever be committed.
-/
namespace Diem

/-- **Where the walk back from a held block ends**: all that is passed is held, and the ledger knows nothing of the id
it comes to. -/
structure WalksBack (l : MemLedger) (h : Block) (m : Bytes) (bs : List Block) : Prop where
  path      : Path (fun b => l.held.lookup b.id = some b) m (bs ++ [h]) h.id
  held      : l.held.lookup m = none
  pending   : l.pending.lookup m = none
  committed : l.committed.lookup m = none

namespace Shape

variable {cr : Crypto} {Q : Block → Prop} {history : Nat} {l : MemLedger} {out : List Block}

theorem mono {Q' : Block → Prop} (h : Shape cr Q history l out) (hsub : ∀ b, Q b → Q' b) :
    Shape cr Q' history l out where
  records := ⟨fun id s hs => (h.records.pending id s hs).imp_right (And.imp_left (hsub _)),
    fun id b hb => (h.records.held id b hb).imp_right (hsub b), trivial⟩
  hung    := h.hung
  waits   := h.waits
  above   := h.above
  line    := h.line.imp (fun b hb => hsub b (h.line.forall_mem b hb))
  kept    := h.kept
  front   := h.front.imp (fun _ hf => hf.imp_left (Or.imp_right (hsub _)))

section

variable (hQ : Coherent cr Q) (h : Shape cr Q history l out)
include hQ h

/-- **The walk back ends**, after as many turns as it passes blocks: rounds fall. -/
theorem missingLoop : ∀ (n : Nat) (b : Block), l.held.lookup b.id = some b → b.round.toNat < n →
    ∃ m bs, Path (fun b => l.held.lookup b.id = some b) m (bs ++ [b]) b.id ∧ l.held.lookup m = none ∧
      (∃ c, l.held.lookup c.id = some c ∧ parentID c = m) ∧
      ∀ fuel, bs.length ≤ fuel → MemLedger.missingLoop l.held fuel b = .ok m := by
  intro n
  induction n with
  | zero => exact fun _ _ hn => absurd hn (Nat.not_lt_zero _)
  | succ n ih =>
    intro b hb hn
    cases hp : l.held.lookup (parentID b) with
    | none =>
      refine ⟨parentID b, [], .single hb rfl, hp, ⟨b, hb, rfl⟩, fun fuel _ => ?_⟩
      rw [MemLedger.missingLoop, hp]
    | some p =>
      obtain ⟨hpid, hpb⟩ := h.records.held _ _ hp
      have hlt := hQ.lt_child (h.records.held _ _ hb).2 (.inr hpb) hpid.symm
      rw [UInt64.lt_iff_toNat_lt] at hlt
      obtain ⟨m, bs, hpath, hm, hc, hloop⟩ := ih p (hpid ▸ hp) (by omega)
      rw [hpid] at hpath
      refine ⟨m, bs ++ [p], hpath.snoc hb, hm, hc, fun fuel hfuel => ?_⟩
      rw [List.length_append, List.length_singleton] at hfuel
      obtain ⟨k, rfl⟩ := Nat.exists_eq_succ_of_ne_zero (Nat.ne_of_gt (Nat.lt_of_lt_of_le (Nat.succ_pos _) hfuel))
      rw [MemLedger.missingLoop, hp]
      exact hloop k (Nat.le_of_succ_le_succ hfuel)

/-- **`Missing` terminates**, and names an id the ledger knows nothing of. -/
theorem missing {L : List Block} (hL : ∀ b, Q b → b ∈ L) {fuel : Nat} (hfuel : L.length ≤ fuel) {b : Block}
    (hb : l.held.lookup b.id = some b) : ∃ m bs, l.missing fuel b.id = .ok m ∧ WalksBack l b m bs := by
  obtain ⟨m, bs, hpath, hm, ⟨c, hc, hcm⟩, hloop⟩ := h.missingLoop hQ _ b hb (Nat.lt_succ_self _)
  have hnone : l.pendingState m = none := hcm ▸ (h.waits _ c hc).resolve_right (fun hf => hf)
  refine ⟨m, bs, ?_, hpath, hm, ?_, ?_⟩
  · rw [MemLedger.missing, hb]
    have hle := hQ.path_length (hpath.imp (fun x hx => (h.records.held _ x (hpath.forall_mem x hx)).2)) hL
    rw [List.length_append] at hle
    exact hloop fuel (by omega)
  · cases hp : l.pending.lookup m with
    | none => rfl
    | some s => exact absurd hnone (MemLedger.pendingState_of_isSome (by rw [hp]; rfl))
  · cases hx : l.committed.lookup m with
    | none => rfl
    | some x =>
      -- a child of a committed block is not held: its certificate is not above the frontier
      obtain ⟨hmem, hid⟩ := h.kept.back _ _ hx
      have hround := hQ.parent c x (h.records.held _ _ hc).2 (Known.of_mem (.inl rfl) h.line hmem) (hcm.trans hid.symm)
      exact absurd (hround ▸ h.committed_le hQ hmem) (UInt64.not_le.2 (h.above _ c hc))

end

/-- **What waited on a block runs with it.** -/
theorem pendingState_path {l' : MemLedger} {b : Block} (hran : l.Ran b l') (hwaits : l'.Waits (fun _ => False))
    {bs : List Block} {top : Bytes} (hpath : Path (fun b => l.held.lookup b.id = some b) b.id bs top) :
    l'.pendingState top ≠ none ∧ ∀ c ∈ bs, l'.pendingState c.id ≠ none := by
  induction hpath with
  | nil => exact ⟨MemLedger.pendingState_of_isSome hran.runs, fun c hc => absurd hc List.not_mem_nil⟩
  | @snoc bs c _ hc ih =>
    have hrun : l'.pendingState c.id ≠ none := by
      rcases hran.kept _ c hc with hheld | hpend
      · exact absurd ((hwaits _ c hheld).resolve_right (fun hf => hf)) ih.1
      · exact MemLedger.pendingState_of_isSome hpend
    refine ⟨hrun, fun x hx => ?_⟩
    rcases List.mem_append.1 hx with hx | hx
    · exact ih.2 x hx
    · rw [List.mem_singleton.1 hx]
      exact hrun

section

variable (hQ : Coherent cr Q) (h : Shape cr Q history l out) {b M : Block} {m : Bytes} {bs : List Block}
  (hback : WalksBack l b m bs)
include h hback

/-- What the walk passed was called for. -/
theorem path_of_walksBack : Path Q m (bs ++ [b]) b.id :=
  hback.path.imp (fun x hx => (h.records.held _ x (hback.path.forall_mem x hx)).2)

include hQ

/-- **A block that comes and is held too takes the walk further back.** -/
theorem missing_further (hmid : M.id = m) {l' : MemLedger} (hl' : l' = { l with held := l.held.insert M.id M })
    (h' : Shape cr Q history l' out) {L : List Block} (hL : ∀ b, Q b → b ∈ L) {fuel : Nat} (hfuel : L.length ≤ fuel) :
    l'.held.lookup b.id = some b ∧ ∃ m' ds, l'.missing fuel b.id = .ok m' ∧ ds ≠ [] ∧ Path Q m' ds m := by
  have hgrow : ∀ x : Block, l.held.lookup x.id = some x → l'.held.lookup x.id = some x := by
    intro x hx
    have hne : x.id ≠ M.id := by
      intro heq
      rw [heq, hmid, hback.held] at hx
      cases hx
    rw [hl', AList.lookup_insert_ne hne]
    exact hx
  have hb := hgrow b (hback.path.forall_mem b (List.mem_append_right _ (List.mem_singleton.2 rfl)))
  obtain ⟨m', bs', hmiss, hback'⟩ := h'.missing hQ hL hfuel hb
  have hids : ∀ x y, Q x → Q y → x.id = y.id → x = y := fun x y hx hy => hQ.ids x y (.inr hx) (.inr hy)
  refine ⟨hb, m', ?_⟩
  rcases (h.path_of_walksBack hback).meet hids (h'.path_of_walksBack hback') with ⟨ds, hds⟩ | ⟨x, hx, hxm⟩
  · refine ⟨ds, hmiss, ?_, hds⟩
    -- the walk does not end where it ended, for that block is held
    rintro rfl
    have hheld := hback'.held
    rw [← hds.eq_of_nil, hl', ← hmid, AList.lookup_insert] at hheld
    cases hheld
  · have hheld := hgrow x (hback.path.forall_mem x hx)
    rw [hxm, hback'.held] at hheld
    cases hheld

/-- **A block that hangs off the committed chain**: no path leads from the frontier to what waited on it. -/
theorem no_path (hM : Q M) (hmid : M.id = m) (hlow : qcRound M.qc ≤ l.commitRound) (hoff : parentID M ≠ l.commitID)
    (ds : List Block) : ¬ Path Q l.commitID ds b.id := by
  intro hds
  obtain ⟨f, hf, hfid, hlook⟩ := h.front
  have hids : ∀ x y, Q x → Q y → x.id = y.id → x = y := fun x y hx hy => hQ.ids x y (.inr hx) (.inr hy)
  rcases (h.path_of_walksBack hback).meet hids hds with ⟨cs, hcs⟩ | ⟨x, hx, hxid⟩
  · rcases List.eq_nil_or_concat cs with rfl | ⟨cs, c, rfl⟩
    · -- the frontier is committed
      have hnone := hback.committed
      rw [hcs.eq_of_nil, hlook] at hnone
      cases hnone
    · rw [List.concat_eq_append] at hcs
      obtain ⟨hcid, hc, hcs⟩ := hcs.of_concat
      cases hids c M hc hM (hcid.trans hmid.symm)
      rcases List.eq_nil_or_concat cs with rfl | ⟨cs, p, rfl⟩
      · exact hoff hcs.eq_of_nil
      · -- the parent would be above the frontier
        rw [List.concat_eq_append] at hcs
        obtain ⟨hpid, hp, hcs⟩ := hcs.of_concat
        rw [← hfid] at hcs
        obtain ⟨q, hq, hqid⟩ := List.mem_map.1 (show parentID p ∈ (f :: cs).map Block.id from hcs.top_mem)
        have hqk := hf.of_mem hcs hq
        have hle := hQ.le_top hf hcs f List.mem_cons_self q hqk hqid
        have hlt := UInt64.lt_of_le_of_lt hle (hQ.lt_child hp hqk hqid.symm)
        rw [← hQ.parent M p hM (.inr hp) hpid.symm, ← commitRound_eq hlook] at hlt
        exact absurd hlow (UInt64.not_le.2 hlt)
  · -- what the walk passed is held, and the frontier is not
    have hheld := h.lookup_committed_none hQ (h.records.held _ x (hback.path.forall_mem x hx)).2
      (h.held_above hQ (hback.path.forall_mem x hx))
    rw [hxid, hlook] at hheld
    cases hheld

end

end Shape

/-- **Block sync**: the walk back from a held block ends at a block the ledger knows nothing of; and when that comes,
all that waited on it has a state, or the walk goes further back, or it hangs off the committed chain, and what waited
on it never extends the frontier. -/
theorem block_sync {cr : Crypto} {xs : List MemLedger.Call} (hxs : Coherent cr (fun b => .speculate b ∈ xs))
    (execute : Bytes → Payload → Bytes) (history : Nat) {fuel : Nat} (hfuel : xs.length < fuel) :
    ∃ l out, (newMemLedger cr).calls execute history fuel xs = .ok (l, out) ∧
      ∀ id b, l.held.lookup id = some b → ∃ m bs, l.missing fuel id = .ok m ∧ WalksBack l b m bs ∧
        ∀ M, M.id = m → Coherent cr (fun b => .speculate b ∈ xs ∨ b = M) → ∀ l', l' = (l.speculate execute M).1 →
          (∀ c ∈ bs ++ [b], l'.pendingState c.id ≠ none) ∨
          (l'.held.lookup id = some b ∧ ∃ m' ds, l'.missing fuel id = .ok m' ∧ ds ≠ [] ∧
            Path (fun b => .speculate b ∈ xs ∨ b = M) m' ds m) ∨
          (qcRound M.qc ≤ l.commitRound ∧ parentID M ≠ l.commitID ∧
            ∀ ds, ¬ Path (fun b => .speculate b ∈ xs ∨ b = M) l.commitID ds id) := by
  have hlen := MemLedger.Call.length_blocks xs
  obtain ⟨l, out, hrun, h⟩ := (Shape.init cr _ history).calls hxs (fun _ => MemLedger.Call.mem_blocks) execute
    (hlen.trans hfuel.le) xs (fun _ hb => hb)
  refine ⟨l, out, hrun, fun id b hb => ?_⟩
  obtain ⟨rfl, -⟩ := h.records.held _ _ hb
  obtain ⟨m, bs, hmiss, hback⟩ := h.missing hxs (fun _ => MemLedger.Call.mem_blocks) (hlen.trans hfuel.le) hb
  refine ⟨m, bs, hmiss, hback, ?_⟩
  rintro M rfl hM l' rfl
  have hshape : Shape cr (fun b => .speculate b ∈ xs ∨ b = M) history l out := h.mono (fun _ => .inl)
  have hshape' := hshape.speculate execute (b := M) (.inr rfl)
  by_cases hparent : l.pendingState (parentID M) = none
  · have heq := MemLedger.speculate_of_none execute hparent
    split at heq
    · refine .inr (.inl (hshape.missing_further hM hback rfl heq hshape' (L := M :: MemLedger.Call.blocks xs)
        (fun c hc => ?_) ?_))
      · rcases hc with hc | rfl
        · exact List.mem_cons_of_mem _ (MemLedger.Call.mem_blocks hc)
        · exact List.mem_cons_self
      · rw [List.length_cons]
        omega
    · rename_i hlow
      have hoff : parentID M ≠ l.commitID := by
        intro hfront
        rw [MemLedger.pendingState, if_pos hfront] at hparent
        cases hparent
      exact .inr (.inr ⟨UInt64.not_lt.1 hlow, hoff, hshape.no_path hM hback (.inr rfl) rfl (UInt64.not_lt.1 hlow) hoff⟩)
  · exact .inl (Shape.pendingState_path (MemLedger.speculate_ran execute hparent) hshape'.waits hback.path).2

/-- Block 3 comes alone and waits for block 2, which when it comes is held too and waits for block 1. -/
theorem chain_sync :
    ∃ l, (newMemLedger Chain.net.crypto).calls (executeHash Chain.net.crypto) 1 2
    [.speculate (Chain.block 3)] = .ok (l, []) ∧
      WalksBack l (Chain.block 3) (Chain.block 2).id [] ∧
      ∃ m ds, (l.speculate (executeHash Chain.net.crypto) (Chain.block 2)).1.missing 2 (Chain.block 3).id = .ok m ∧
      ds ≠ [] ∧
        Path (fun b => .speculate b ∈ [MemLedger.Call.speculate (Chain.block 3)] ∨ b = Chain.block 2) m ds
          (Chain.block 2).id := by
  have hsub : ∀ b, .speculate b ∈ [MemLedger.Call.speculate (Chain.block 3)] ∨ b = Chain.block 2 →
      b ∈ ({Chain.block 1, Chain.block 2, Chain.block 3} : Finset Block) := by simp
  obtain ⟨l, out, hrun, hsync⟩ := block_sync (Chain.isTree.coherent.mono (fun b hb => hsub b (.inl hb)))
    (executeHash Chain.net.crypto) 1 (Nat.lt_succ_self 1)
  cases hrun
  refine ⟨_, rfl, ?_⟩
  obtain ⟨m, bs, hmiss, hback, hcome⟩ := hsync (Chain.block 3).id (Chain.block 3) (by decide +kernel)
  have hm : (((newMemLedger Chain.net.crypto).speculate (executeHash Chain.net.crypto) (Chain.block 3)).1.missing 2
      (Chain.block 3).id).toOption = some (Chain.block 2).id := by decide +kernel
  rw [hmiss] at hm
  cases hm
  -- nothing lies between: it would be held under the id that is missing
  obtain rfl : bs = [] := by
    rcases List.eq_nil_or_concat bs with rfl | ⟨cs, c, rfl⟩
    · rfl
    · rw [List.concat_eq_append] at hback
      have hc := hback.path.of_concat.2.2.of_concat
      have hnone := hback.held
      rw [← show c.id = (Chain.block 2).id from hc.1, hc.2.1] at hnone
      cases hnone
  refine ⟨hback, ?_⟩
  rcases hcome (Chain.block 2) rfl (Chain.isTree.coherent.mono hsub) _ rfl with hrun | ⟨-, hfurther⟩ | ⟨hlow, -⟩
  · exact absurd (hrun (Chain.block 3) List.mem_cons_self) (by decide +kernel)
  · exact hfurther
  · exact absurd hlow (by decide +kernel)

end Diem

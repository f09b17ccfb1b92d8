import Diem.Confluence
import Diem.Spine
/-!
# Retention — which committed blocks a ledger still has

`order` is the end of the committed chain, `committed` has the blocks of it, and with a bound of at least one nothing
else: exactly the last `History` blocks.
-/
namespace Diem
namespace MemLedger

/-- **What is kept of the committed chain `gs`**: the ids from some block on, with their blocks. -/
structure Keeps (gs : List Block) (order : List Bytes) (committed : Table Bytes Block) : Prop where
  tail  : order <:+ gs.map Block.id
  back  : ∀ x b, committed.lookup x = some b → b ∈ gs ∧ b.id = x
  kept  : ∀ b ∈ gs, b.id ∈ order → committed.lookup b.id = some b

/-- Nothing is kept that is not in order. -/
def Only (order : List Bytes) (committed : Table Bytes Block) : Prop :=
  ∀ x b, committed.lookup x = some b → x ∈ order

section

variable {gs : List Block} {order : List Bytes} {committed : Table Bytes Block}

theorem Keeps.advance (h : Keeps gs order committed) {b : Block} (hnew : b.id ∉ gs.map Block.id) :
    Keeps (gs ++ [b]) (order ++ [b.id]) (committed.insert b.id b) := by
  refine ⟨?_, fun x c hx => ?_, fun c hc hid => ?_⟩
  · obtain ⟨pre, hpre⟩ := h.tail
    exact ⟨pre, by rw [← List.append_assoc, hpre, List.map_append, List.map_singleton]⟩
  · by_cases hxb : x = b.id
    · rw [hxb, AList.lookup_insert] at hx
      cases hx
      exact ⟨List.mem_append_right _ (List.mem_singleton.2 rfl), hxb.symm⟩
    · rw [AList.lookup_insert_ne hxb] at hx
      exact ⟨List.mem_append_left _ (h.back x c hx).1, (h.back x c hx).2⟩
  · rcases List.mem_append.1 hc with hc | hc
    · have hne : c.id ≠ b.id := fun heq => hnew (heq ▸ List.mem_map.2 ⟨c, hc, rfl⟩)
      rw [AList.lookup_insert_ne hne]
      refine h.kept c hc ((List.mem_append.1 hid).resolve_right fun hm => ?_)
      exact hne (List.mem_singleton.1 hm)
    · rw [List.mem_singleton.1 hc, AList.lookup_insert]

theorem Only.advance (h : Only order committed) (b : Block) : Only (order ++ [b.id]) (committed.insert b.id b) := by
  intro x c hx
  by_cases hxb : x = b.id
  · exact List.mem_append_right _ (List.mem_singleton.2 hxb)
  · rw [AList.lookup_insert_ne hxb] at hx
    exact List.mem_append_left _ (h x c hx)

/-- `forget` drops from the front until `history` are left. -/
theorem forgetLoop_order (history : Nat) (commitID : Bytes) : ∀ (order : List Bytes) (committed : Table Bytes Block),
    (forgetLoop history commitID order committed).1 = order.drop (order.length - history)
  | [],          _         => by rw [forgetLoop, List.drop_nil]
  | id :: order, committed => by
    rw [forgetLoop]
    split
    · rename_i hlt
      rw [forgetLoop_order, List.length_cons, Nat.succ_sub (Nat.le_of_lt_succ hlt), List.drop_succ_cons]
    · rename_i hge
      rw [Nat.sub_eq_zero_of_le (Nat.le_of_not_lt hge), List.drop_zero]

theorem Keeps.forgetLoop (history : Nat) (commitID : Bytes) (hnodup : (gs.map Block.id).Nodup) :
    ∀ {order : List Bytes} {committed : Table Bytes Block}, Keeps gs order committed →
      Keeps gs (MemLedger.forgetLoop history commitID order committed).1
        (MemLedger.forgetLoop history commitID order committed).2
  | [],          _,         h => h
  | id :: order, committed, h => by
    rw [MemLedger.forgetLoop]
    split
    · refine Keeps.forgetLoop history commitID hnodup ?_
      have hsuf : order <:+ gs.map Block.id := (List.suffix_cons id order).trans h.tail
      split
      · exact ⟨hsuf, h.back, fun b hb hid => h.kept b hb (List.mem_cons_of_mem _ hid)⟩
      · refine ⟨hsuf, fun x b hx => h.back x b (Table.sub_erase _ _ x b hx), fun b hb hid => ?_⟩
        have hne : b.id ≠ id := by
          rintro rfl
          exact (List.nodup_cons.1 (h.tail.sublist.nodup hnodup)).1 hid
        rw [AList.lookup_erase_ne hne]
        exact h.kept b hb (List.mem_cons_of_mem _ hid)
    · exact h

theorem Only.forgetLoop {history : Nat} (hpos : 1 ≤ history) {commitID : Bytes} :
    ∀ {order : List Bytes} {committed : Table Bytes Block}, order.Nodup → order.getLast? = some commitID →
      Only order committed → Only (MemLedger.forgetLoop history commitID order committed).1
        (MemLedger.forgetLoop history commitID order committed).2
  | [],          _,         _,      _,     h => h
  | id :: order, committed, hnodup, hlast, h => by
    rw [MemLedger.forgetLoop]
    split
    · rename_i hlt
      -- the bound leaves one at least, so what goes is not the frontier
      have hne : order ≠ [] := by
        rintro rfl
        simp only [List.length_singleton] at hlt
        omega
      rw [List.getLast?_cons, List.getLast?_eq_getLast_of_ne_nil hne, Option.getD_some, Option.some.injEq] at hlast
      have hid : id ≠ commitID := by
        rintro rfl
        exact (List.nodup_cons.1 hnodup).1 (hlast ▸ List.getLast_mem hne)
      rw [if_neg hid]
      refine Only.forgetLoop hpos (List.nodup_cons.1 hnodup).2 (by rw [List.getLast?_eq_getLast_of_ne_nil hne, hlast])
        (fun x b hx => ?_)
      rcases List.mem_cons.1 (h x b (Table.sub_erase _ _ x b hx)) with rfl | hx'
      · rw [AList.lookup_erase] at hx
        cases hx
      · exact hx'
    · exact h

end

/-- **The last blocks of the committed chain `gs`**, as many as the bound allows. -/
structure Retains (history : Nat) (gs : List Block) (l : MemLedger) : Prop extends Keeps gs l.order l.committed where
  many : min history gs.length ≤ l.order.length
  few  : 1 ≤ history → l.order.length ≤ history ∧ Only l.order l.committed

theorem foldl_advance_keeps : ∀ (chain : List Speculated) {gs : List Block} {l : MemLedger},
    Keeps gs l.order l.committed → ((gs ++ chain.map Speculated.block).map Block.id).Nodup →
    Keeps (gs ++ chain.map Speculated.block) (chain.foldl advance l).order (chain.foldl advance l).committed ∧
      (chain.foldl advance l).order = l.order ++ chain.map (fun s => s.block.id) ∧
      (Only l.order l.committed → Only (chain.foldl advance l).order (chain.foldl advance l).committed)
  | [],         gs, l, h, _      => by simpa using h
  | s :: chain, gs, l, h, hnodup => by
    have hsplit : gs ++ (s :: chain).map Speculated.block = (gs ++ [s.block]) ++ chain.map Speculated.block := by simp
    have hnew : s.block.id ∉ gs.map Block.id := by
      intro hm
      rw [List.map_append, List.map_cons, List.map_cons] at hnodup
      exact (List.nodup_append.1 hnodup).2.2 _ hm _ List.mem_cons_self rfl
    have hs : Keeps (gs ++ [s.block]) (l.advance s).order (l.advance s).committed := h.advance hnew
    obtain ⟨h1, h2, h3⟩ := foldl_advance_keeps chain hs (hsplit ▸ hnodup)
    rw [hsplit]
    refine ⟨h1, ?_, fun ho => h3 (ho.advance s.block)⟩
    rw [List.foldl_cons, h2, List.map_cons]
    exact List.append_assoc _ _ _

namespace Retains

variable {history : Nat} {gs : List Block} {l l' : MemLedger}

theorem init (cr : Crypto) (history : Nat) : Retains history [genesisBlock cr] (newMemLedger cr) := by
  have hlook : ∀ x b, (newMemLedger cr).committed.lookup x = some b → x = (genesisBlock cr).id ∧
      b = genesisBlock cr := by
    intro x b hx
    have hmem := AList.mem_lookup_iff.1 hx
    cases List.mem_singleton.1 hmem
    exact ⟨rfl, rfl⟩
  refine ⟨⟨List.suffix_rfl, fun x b hx => ?_, fun b hb _ => ?_⟩, Nat.min_le_right _ _, fun hpos =>
    ⟨hpos, fun x b hx => ?_⟩⟩
  · obtain ⟨rfl, rfl⟩ := hlook x b hx
    exact ⟨List.mem_singleton.2 rfl, rfl⟩
  · rw [List.mem_singleton.1 hb]
    exact MemLedger.committedBlock_genesis cr
  · rw [(hlook x b hx).1]
    exact List.mem_singleton.2 rfl

theorem congr (h : Retains history gs l) (ho : l'.order = l.order) (hc : l'.committed = l.committed) :
    Retains history gs l' :=
  ⟨by rw [ho, hc]; exact h.toKeeps, by rw [ho]; exact h.many, by rw [ho, hc]; exact h.few⟩

/-- **A commit keeps the last blocks of the longer chain.** -/
theorem commit (h : Retains history gs l) {fuel : Nat} {id : Bytes} {bs : List Block}
    (hc : l.commit history fuel id = .ok (l', bs)) (hnodup : ((gs ++ bs).map Block.id).Nodup)
    (hlast : ((gs ++ bs).map Block.id).getLast? = some l'.commitID) : Retains history (gs ++ bs) l' := by
  rcases commit_ok hc with ⟨rfl, rfl⟩ | ⟨chain, -, rfl, rfl⟩
  · rw [List.append_nil]
    exact h
  obtain ⟨hkeeps, horder, honly⟩ := foldl_advance_keeps chain h.toKeeps hnodup
  have hlen : (((chain.foldl advance l).prune).forget history).order =
      (chain.foldl advance l).order.drop ((chain.foldl advance l).order.length - history) := forgetLoop_order _ _ _ _
  have hcount : (chain.foldl advance l).order.length = l.order.length + chain.length := by
    rw [horder, List.length_append, List.length_map]
  have hmany := h.many
  refine ⟨hkeeps.forgetLoop history _ hnodup, ?_, fun hpos => ⟨?_, ?_⟩⟩
  · rw [hlen, List.length_drop, hcount, List.length_append, List.length_map]
    omega
  · rw [hlen, List.length_drop, hcount]
    omega
  · refine Only.forgetLoop hpos (hkeeps.tail.sublist.nodup hnodup) ?_ (honly (h.few hpos).2)
    have hne : (chain.foldl advance l).order ≠ [] := by
      intro hnil
      rw [hnil, List.length_nil] at hcount
      have hgs : gs = [] := List.length_eq_zero_iff.1 (by omega)
      have hchain : chain = [] := List.length_eq_zero_iff.1 (by omega)
      rw [hgs, hchain] at hlast
      cases hlast
    obtain ⟨pre, hpre⟩ := hkeeps.tail
    rw [← hpre, List.getLast?_append_of_ne_nil _ hne] at hlast
    exact hlast

theorem order_eq (h : Retains history gs l) (hpos : 1 ≤ history) :
    l.order = (gs.drop (gs.length - history)).map Block.id := by
  obtain ⟨pre, hpre⟩ := h.tail
  have hlen := congrArg List.length hpre
  rw [List.length_append, List.length_map] at hlen
  have hmany := h.many
  have hfew := (h.few hpos).1
  rw [List.map_drop, ← hpre, List.drop_append_of_le_length (by omega), List.drop_eq_nil_of_le (by omega),
    List.nil_append]

/-- With a bound of one at least, a block of the chain is kept exactly if it is one of the last. -/
theorem lookup_iff (h : Retains history gs l) (hpos : 1 ≤ history) (b : Block) :
    l.committed.lookup b.id = some b ↔ b ∈ gs.drop (gs.length - history) := by
  have horder := h.order_eq hpos
  constructor
  · intro hb
    have hmem := (h.few hpos).2 _ _ hb
    rw [horder] at hmem
    obtain ⟨c, hc, hid⟩ := List.mem_map.1 hmem
    have hcb := h.kept c (List.mem_of_mem_drop hc) (by rw [horder]; exact List.mem_map.2 ⟨c, hc, rfl⟩)
    rw [hid, hb] at hcb
    cases hcb
    exact hc
  · intro hb
    exact h.kept b (List.mem_of_mem_drop hb) (by rw [horder]; exact List.mem_map.2 ⟨b, hb, rfl⟩)

theorem lookup_none (h : Retains history gs l) (hpos : 1 ≤ history) (hnodup : (gs.map Block.id).Nodup) {b : Block}
    (hb : b ∈ gs.take (gs.length - history)) : l.committed.lookup b.id = none := by
  cases hc : l.committed.lookup b.id with
  | none => rfl
  | some c =>
    obtain ⟨hcg, hcid⟩ := h.back _ _ hc
    obtain rfl := List.inj_on_of_nodup_map hnodup hcg (List.mem_of_mem_take hb) hcid
    have hdrop := (h.lookup_iff hpos c).1 hc
    exact absurd hdrop (List.disjoint_take_drop (List.Nodup.of_map _ hnodup) (Nat.le_refl _) hb)

/-- A chain that is not longer than the bound is kept whole. -/
theorem lookup_whole (h : Retains history gs l) (hpos : 1 ≤ history) (hlen : gs.length ≤ history)
    (id : Bytes) (b : Block) : l.committed.lookup id = some b ↔ b ∈ gs ∧ b.id = id := by
  have hiff := h.lookup_iff hpos b
  rw [Nat.sub_eq_zero_of_le hlen, List.drop_zero] at hiff
  constructor
  · exact fun hb => h.back _ _ hb
  · rintro ⟨hb, rfl⟩
    exact hiff.2 hb

end Retains

end MemLedger

/-! ## Two bounds -/

namespace MemLedger

/-- The same ledger, but for what is kept of the committed chain below the frontier. -/
structure Alike (l L : MemLedger) : Prop where
  pending     : L.pending = l.pending
  held        : L.held = l.held
  commitID    : L.commitID = l.commitID
  commitState : L.commitState = l.commitState
  front       : L.committed.lookup L.commitID = l.committed.lookup l.commitID

namespace Alike

variable {l L : MemLedger}

theorem refl (l : MemLedger) : Alike l l := ⟨rfl, rfl, rfl, rfl, rfl⟩

theorem commitRound (h : Alike l L) : L.commitRound = l.commitRound := by
  rw [MemLedger.commitRound, MemLedger.commitRound, h.front]

theorem pendingState (h : Alike l L) (id : Bytes) : L.pendingState id = l.pendingState id := by
  rw [MemLedger.pendingState, MemLedger.pendingState, h.commitID, h.commitState, h.pending]

theorem speculateFuel (execute : Bytes → Payload → Bytes) : ∀ (n : Nat) {l L : MemLedger} (b : Block), Alike l L →
    Alike (MemLedger.speculateFuel execute n l b) (MemLedger.speculateFuel execute n L b) := by
  intro n
  induction n with
  | zero => exact fun _ h => h
  | succ n ih =>
    intro l L b h
    rw [MemLedger.speculateFuel_succ, MemLedger.speculateFuel_succ, h.pendingState, h.commitRound, h.held]
    split
    · split
      · exact ⟨h.pending, rfl, h.commitID, h.commitState, h.front⟩
      · exact h
    · rename_i prev _
      refine List.foldl_rel ⟨by rw [h.pending], rfl, h.commitID, h.commitState, h.front⟩ (fun e _ l L h => ?_)
      rw [MemLedger.release, MemLedger.release, h.held]
      split
      · exact h
      · split
        · exact ih _ ⟨h.pending, rfl, h.commitID, h.commitState, h.front⟩
        · exact h

theorem speculate (h : Alike l L) (execute : Bytes → Payload → Bytes) (b : Block) :
    Alike (l.speculate execute b).1 (L.speculate execute b).1 := by
  rw [MemLedger.speculate, MemLedger.speculate, h.held]
  exact speculateFuel execute _ b h

theorem walkBack (h : Alike l L) : ∀ (n : Nat) (id : Bytes) (chain : List Speculated),
    L.walkBack n id chain = l.walkBack n id chain := by
  intro n
  induction n with
  | zero =>
    intro id chain
    rw [MemLedger.walkBack, MemLedger.walkBack, h.commitID, h.pending]
  | succ n ih =>
    intro id chain
    rw [MemLedger.walkBack, MemLedger.walkBack, h.commitID, h.pending]
    simp only [ih]

theorem foldl_advance : ∀ (chain : List Speculated) {l L : MemLedger}, Alike l L →
    Alike (chain.foldl advance l) (chain.foldl advance L)
  | [],         _, _, h => h
  | s :: chain, l, L, h => by
    refine foldl_advance chain ⟨?_, h.held, rfl, rfl, ?_⟩
    · simp only [advance, h.pending]
    · simp [advance]

/-- The bound makes no other difference to a commit. -/
theorem commit (h : Alike l L) (history : Nat) {bound fuel : Nat} {id : Bytes} {l' : MemLedger} {out : List Block}
    (hc : l.commit bound fuel id = .ok (l', out)) :
    ∃ L', L.commit history fuel id = .ok (L', out) ∧ Alike l' L' := by
  rw [MemLedger.commit] at hc ⊢
  rw [h.commitID, h.walkBack]
  split at hc
  · rename_i hid
    cases hc
    rw [if_pos hid]
    exact ⟨L, rfl, h⟩
  · rename_i hid
    rw [if_neg hid]
    split at hc
    · cases hc
    · cases hc
      exact ⟨L, rfl, h⟩
    · rename_i chain _
      cases hc
      refine ⟨_, rfl, ?_⟩
      have hf := foldl_advance chain h
      refine ⟨?_, ?_, hf.commitID, hf.commitState, ?_⟩
      · simp only [forget, prune, hf.pending, hf.commitID]
      · simp only [forget, prune, hf.held, hf.commitRound]
      · simp only [forget, lookup_forgetLoop]
        exact hf.front

theorem calls {execute : Bytes → Payload → Bytes} (history : Nat) {bound fuel : Nat} (xs : List Call) :
    ∀ {l L l' : MemLedger} {out : List Block}, Alike l L → l.calls execute bound fuel xs = .ok (l', out) →
      ∃ L', L.calls execute history fuel xs = .ok (L', out) ∧ Alike l' L' := by
  induction xs with
  | nil =>
    intro l L l' out h hxs
    cases hxs
    exact ⟨L, rfl, h⟩
  | cons x xs ih =>
    intro l L l' out h hxs
    obtain ⟨l₁, out₁, out₂, hx, hrest, rfl⟩ := MemLedger.calls_cons_ok hxs
    obtain ⟨L₁, hX, h₁⟩ : ∃ L₁, L.call execute history fuel x = .ok (L₁, out₁) ∧ Alike l₁ L₁ := by
      cases x with
      | speculate b =>
        cases hx
        exact ⟨_, rfl, h.speculate execute b⟩
      | commit id => exact h.commit history hx
    obtain ⟨L₂, hrest', h₂⟩ := ih h₁ hrest
    exact ⟨L₂, calls_cons hX hrest', h₂⟩

end Alike
end MemLedger

/-- **The committed chain `bs` over genesis, and what the ledger still has of it.** -/
structure Archive (G : Group) (history : Nat) (l : MemLedger) (bs : List Block) : Prop extends Spine G l bs where
  retains : l.Retains history (genesisBlock G.crypto :: bs)

namespace Archive

variable {G : Group} {history : Nat} {l l' : MemLedger} {bs : List Block}

theorem init (G : Group) (history : Nat) : Archive G history (newMemLedger G.crypto) [] :=
  ⟨Spine.init G, MemLedger.Retains.init G.crypto history⟩

theorem speculate (h : Archive G history l bs) (execute : Bytes → Payload → Bytes) {b : Block} (hb : G.IsBlock b) :
    Archive G history (l.speculate execute b).1 bs :=
  ⟨h.toSpine.speculate execute hb,
    h.retains.congr (MemLedger.speculate_order execute l b) (MemLedger.speculate_frame execute l b).1⟩

theorem commit (h : Archive G history l bs) {fuel : Nat} {id : Bytes} {out : List Block}
    (hc : l.commit history fuel id = .ok (l', out)) : Archive G history l' (bs ++ out) := by
  have hspine := h.toSpine.commit hc
  refine ⟨hspine, h.retains.commit hc hspine.once ?_⟩
  show (passed (genesisBlock G.crypto).id (bs ++ out)).getLast? = some l'.commitID
  exact hspine.line.getLast?_passed

/-- **Whatever is called**, on validly identified blocks. -/
theorem calls {execute : Bytes → Payload → Bytes} {fuel : Nat} (xs : List MemLedger.Call) :
    ∀ {l l' : MemLedger} {bs out : List Block}, Archive G history l bs → (∀ b, .speculate b ∈ xs → G.IsBlock b) →
      l.calls execute history fuel xs = .ok (l', out) → Archive G history l' (bs ++ out) := by
  induction xs with
  | nil =>
    intro l l' bs out h _ hxs
    cases hxs
    rw [List.append_nil]
    exact h
  | cons x xs ih =>
    intro l l' bs out h hblocks hxs
    obtain ⟨l₁, out₁, out₂, hx, hrest, rfl⟩ := MemLedger.calls_cons_ok hxs
    rw [← List.append_assoc]
    refine ih ?_ (fun b hb => hblocks b (List.mem_cons_of_mem _ hb)) hrest
    cases x with
    | speculate b =>
      cases hx
      rw [List.append_nil]
      exact h.speculate execute (hblocks b List.mem_cons_self)
    | commit id => exact h.commit hx

end Archive
end Diem

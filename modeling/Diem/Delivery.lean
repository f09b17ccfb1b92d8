import Mathlib.Data.List.Flatten
import Mathlib.Data.List.Sort
import Diem.Authors
import Diem.Mempool
/-!
# Delivery — from a replica's pool to every log (`core.go`, `mempool.go`)

A leader calls `Transactions` once in the new-round event and puts the batch it gets in the block it proposes; a batch
whose block is not signed, or not certified, is gone.  Proposals are made in rising rounds and logs rise in rounds, so
an honest replica's blocks stand in a log in the order in which it proposed them, and their transactions in the order in
which its pool accepted them: none twice, and none that it did not accept.
-/
namespace Diem

/-! ## The batches a core draws -/

theorem proposedBlocks_append (eff eff' : List Effect) :
    proposedBlocks (eff ++ eff') = proposedBlocks eff ++ proposedBlocks eff' := List.filterMap_append

theorem proposedBlocks_eq_nil {eff : List Effect} (h : ∀ p, .proposal p ∉ eff) : proposedBlocks eff = [] := by
  refine List.eq_nil_iff_forall_not_mem.2 (fun b hb => ?_)
  obtain ⟨p, hp, -⟩ := mem_proposedBlocks.1 hb
  exact h p hp

theorem Settling.proposedBlocks {eff : List Effect} (h : Settling eff) : proposedBlocks eff = [] := by
  refine proposedBlocks_eq_nil (fun p hp => ?_)
  rcases h _ hp with ⟨b, hb⟩ | ⟨q, hq⟩
  · cases hb
  · cases hq

theorem map_round_proposedBlocks (eff : List Effect) : (proposedBlocks eff).map Block.round = proposedRounds eff := by
  rw [proposedBlocks, proposedRounds, List.map_filterMap]
  congr 1
  funext x
  cases x <;> rfl

namespace Core

section

variable (cr : Crypto) (cfg : Config) (env : Env)

/-- What the new-round event gets from `Transactions`: a batch, if the replica leads. -/
def drawn (c : Core) : List Payload :=
  if c.leaders.getLeader c.pacemaker.currentRound ≠ cfg.id then [] else [env.txns]

/-- All the batches a core drew, in `Start` and in its turns. -/
def batches (c : Core) (ts : List Turn) : List Payload :=
  (c.start cr cfg env).1.drawn cfg env ++ ts.flatMap (fun t =>
    match t.core.newRound cr cfg t.env t.event with
    | none         => []
    | some (c', _) => c'.drawn cfg t.env)

/-- **A core and its source of transactions**: the run of a core, with the batches it drew, in order. -/
def Supplied (c : Core) (tr : List Effect) (drew : List Payload) : Prop :=
  ∃ env c₀ ts, newCore cr cfg = some c₀ ∧ Heard cr cfg (fun _ c e => Unwrapped c e) ts c ∧
    tr = c₀.trace cr cfg env ts ∧ drew = c₀.batches cr cfg env ts

end

variable {cr : Crypto} {cfg : Config} {env : Env} {c c' : Core} {tr eff : List Effect} {drew : List Payload} {e : Event}

theorem batches_turn (c : Core) (ts : List Turn) (t : Turn) :
    c.batches cr cfg env (ts ++ [t]) = c.batches cr cfg env ts ++
      match t.core.newRound cr cfg t.env t.event with
      | none         => []
      | some (c', _) => c'.drawn cfg t.env := by
  rw [batches, batches, List.flatMap_append, List.flatMap_singleton, List.append_assoc]

theorem Supplied.start (env : Env) (hnew : newCore cr cfg = some c) :
    Supplied cr cfg (c.start cr cfg env).1 (c.start cr cfg env).2 ((c.start cr cfg env).1.drawn cfg env) :=
  ⟨env, c, [], hnew, .start env c hnew, (List.append_nil _).symm, (List.append_nil _).symm⟩

theorem Supplied.step (h : Supplied cr cfg c tr drew) (hu : Unwrapped c e) (hs : c.step cr cfg env e = .ok (c', eff)) :
    ∃ drew', Supplied cr cfg c' (tr ++ eff) drew' := by
  obtain ⟨env₀, c₀, ts, hnew, hheard, rfl, -⟩ := h
  refine ⟨_, env₀, c₀, _, hnew, hheard.turn env e c' eff hu hs, ?_, rfl⟩
  rw [trace_turn]

/-- The new-round event proposes one block at most: of the current round, with the batch it drew. -/
theorem proposedBlocks_newRound (cr : Crypto) (cfg : Config) (env : Env) (c : Core) (tc : Option TimeoutCert) :
    proposedBlocks (c.processNewRoundEvent cr cfg env tc) = [] ∨
      ∃ b, proposedBlocks (c.processNewRoundEvent cr cfg env tc) = [b] ∧ b.round = c.pacemaker.currentRound ∧
        c.drawn cfg env = [b.payload] := by
  simp only [processNewRoundEvent, drawn]
  split
  · exact .inl rfl
  · rename_i hleader
    split
    · exact .inl rfl
    · exact .inr ⟨_, rfl, rfl, rfl⟩

/-- **What a turn proposes**: nothing, or one block, of a round above the one before, with the batch it drew. -/
theorem step_proposes (hv : VotesUnwrapped c.tree) (hu : Unwrapped c e) (hs : c.step cr cfg env e = .ok (c', eff)) :
    proposedBlocks eff = [] ∨ ∃ b c₁ tc, proposedBlocks eff = [b] ∧ c.pacemaker.currentRound < b.round ∧
      c.newRound cr cfg env e = some (c₁, tc) ∧ c₁.drawn cfg env = [b.payload] := by
  obtain ⟨eff₀, hno, ⟨-, rfl⟩ | ⟨tc, hnew, rfl⟩⟩ := step_newRound hs
  · exact .inl (proposedBlocks_eq_nil hno)
  · rw [proposedBlocks_append, proposedBlocks_eq_nil hno, List.nil_append]
    rcases proposedBlocks_newRound cr cfg env c' tc with hnone | ⟨b, hone, hround, hdrawn⟩
    · exact .inl hnone
    · refine .inr ⟨b, c', tc, hone, ?_, hnew, hdrawn⟩
      rw [hround]
      exact newRound_rises hv hu hs (by rw [hnew]; rfl)

/-- **Proposals rise in rounds, and carry what was drawn**, in order; a batch may be lost. -/
theorem Heard.proposals {c₀ : Core} {ts : List Turn} (hnew : newCore cr cfg = some c₀)
    (h : Heard cr cfg (fun _ c e => Unwrapped c e) ts c) :
    (proposedBlocks (c₀.trace cr cfg env ts)).Pairwise (fun a b => a.round < b.round) ∧
      ((proposedBlocks (c₀.trace cr cfg env ts)).map Block.payload).Sublist (c₀.batches cr cfg env ts) := by
  induction h with
  | start =>
    rw [trace, batches, List.flatMap_nil, List.append_nil, List.flatMap_nil, List.append_nil, Core.start]
    rcases proposedBlocks_newRound cr cfg env (c₀.start cr cfg env).1 none with hnone | ⟨b, hone, -, hdrawn⟩
    · rw [Core.start] at hnone
      rw [hnone]
      exact ⟨List.Pairwise.nil, List.nil_sublist _⟩
    · rw [Core.start] at hone hdrawn
      rw [hone, hdrawn]
      exact ⟨List.pairwise_singleton _ _, List.Sublist.refl _⟩
  | turn env' e c' eff h hu hs ih =>
    have hinv : RunInv _ (c₀.trace cr cfg env _) := h.runInv hnew
    rw [trace_turn, batches_turn, proposedBlocks_append, List.map_append]
    rcases step_proposes hinv.votes hu hs with hnone | ⟨b, c₁, tc, hone, hround, hentered, hdrawn⟩
    · rw [hnone, List.append_nil, List.map_nil, List.append_nil]
      exact ⟨ih.1, ih.2.trans (List.sublist_append_left _ _)⟩
    · simp only [hone, hentered, hdrawn]
      refine ⟨List.pairwise_append.2 ⟨ih.1, List.pairwise_singleton _ _, fun a ha z hz => ?_⟩,
        ih.2.append (List.Sublist.refl _)⟩
      have hpast := hinv.past a.round (map_round_proposedBlocks _ ▸ List.mem_map_of_mem ha)
      rw [List.mem_singleton.1 hz]
      exact UInt64.lt_of_le_of_lt hpast hround

theorem Supplied.proposals (h : Supplied cr cfg c tr drew) :
    (proposedBlocks tr).Pairwise (fun a b => a.round < b.round) ∧
      ((proposedBlocks tr).map Block.payload).Sublist drew := by
  obtain ⟨env, c₀, ts, hnew, hheard, rfl, rfl⟩ := h
  exact hheard.proposals hnew

end Core

/-! ## The batches of a replica -/

/-- **The batches a replica of a run drew**: those of a core that has come to where the replica is, and did what it did.
One that is caught in a step has drawn nothing in it. -/
def Net.Drew (N : Net) (σ : Sys) (i : UInt32) (drew : List Payload) : Prop :=
  match σ.status i with
  | .fresh     => σ.effects i = [] ∧ drew = []
  | .running c => Core.Supplied N.crypto (N.config i) c (σ.effects i) drew
  | .stuck     => ∃ c tr env e s, Core.Supplied N.crypto (N.config i) c tr drew ∧
      c.step N.crypto (N.config i) env e = .error s ∧ σ.effects i = tr ++ s.done

/-- Every replica of a run whose rounds do not wrap drew some. -/
theorem Net.Run.drew {N : Net} {σ : Sys} (h : N.Run (fun _ c e => c.Unwrapped e) σ) (i : UInt32) :
    ∃ drew, N.Drew σ i drew := by
  obtain ⟨hfresh, hrunning, hstuck⟩ := h.running
    (J := fun i tr c => ∃ drew, Core.Supplied N.crypto (N.config i) c tr drew)
    (fun _ env _ hnew => ⟨_, .start env hnew⟩)
    (fun _ _ _ _ _ _ _ _ hu ⟨_, hsup⟩ hs => hsup.step hu hs) i
  unfold Net.Drew
  cases hs : σ.status i with
  | fresh => exact ⟨[], hfresh hs, rfl⟩
  | running c =>
    obtain ⟨drew, hsup⟩ := hrunning c hs
    exact ⟨drew, hsup⟩
  | stuck =>
    obtain ⟨tr, c, env, e, s, ⟨drew, hsup⟩, hstep, heff⟩ := hstuck hs
    exact ⟨drew, c, tr, env, e, s, hsup, hstep, heff⟩

theorem Net.Drew.proposals {N : Net} {σ : Sys} {i : UInt32} {drew : List Payload} (h : N.Drew σ i drew) :
    (proposedBlocks (σ.effects i)).Pairwise (fun a b => a.round < b.round) ∧
      ((proposedBlocks (σ.effects i)).map Block.payload).Sublist drew := by
  unfold Net.Drew at h
  split at h
  · rw [h.1]
    exact ⟨List.Pairwise.nil, List.nil_sublist _⟩
  · exact h.proposals
  · obtain ⟨c, tr, env, e, s, hsup, hstep, heff⟩ := h
    rw [heff, proposedBlocks_append, (Core.step_settling hstep).proposedBlocks, List.append_nil]
    exact hsup.proposals

/-! ## From pool to log -/

/-- A log's blocks by one author. -/
def blocksBy (i : UInt32) (bs : List Block) : List Block := bs.filter (fun b => b.author == i)

/-- **An honest replica's blocks stand in every log in the order in which it proposed them.** -/
theorem Net.Run.log_sublist {N : Net} {σ : Sys} (h : N.Run (fun _ c e => c.Unwrapped e) σ)
    (hu : N.Unforgeable (signedLog σ.trace)) {i : UInt32} (hi : N.Honest i) (j : UInt32) :
    ((blocksBy i (committedBlocks (σ.effects j))).map Block.entry).Sublist
      ((proposedBlocks (σ.effects i)).map Block.entry) := by
  obtain ⟨drew, hdrew⟩ := h.drew i
  let before : (Bytes × UInt32 × UInt64 × Payload) → (Bytes × UInt32 × UInt64 × Payload) → Prop :=
    fun x y => x.2.2.1 < y.2.2.1
  have : Std.Antisymm before := ⟨fun x y hxy hyx => absurd hxy (UInt64.lt_asymm hyx)⟩
  have hlog : ((blocksBy i (committedBlocks (σ.effects j))).map Block.entry).Pairwise before :=
    List.pairwise_map.2 ((List.pairwise_cons.1 (h.log_rises hu j)).2.filter _)
  have hproposed : ((proposedBlocks (σ.effects i)).map Block.entry).Pairwise before :=
    List.pairwise_map.2 hdrew.proposals.1
  have honce : ((blocksBy i (committedBlocks (σ.effects j))).map Block.entry).Nodup :=
    hlog.imp (fun {x y} (hlt : x.2.2.1 < y.2.2.1) heq => by
      rw [heq] at hlt
      exact UInt64.lt_irrefl _ hlt)
  -- both lists rise in rounds, so what is in the other is in it in order
  refine List.sublist_of_subperm_of_pairwise (honce.subperm (fun x hx => ?_)) hlog hproposed
  obtain ⟨b, hb, rfl⟩ := List.mem_map.1 hx
  obtain ⟨hmem, hauthor⟩ := List.mem_filter.1 hb
  obtain rfl : b.author = i := by simpa using hauthor
  obtain ⟨b', hb', heq⟩ := h.log_authored hu hmem hi
  exact heq ▸ List.mem_map_of_mem hb'

/-- The batches a pool has handed out are the first transactions it accepted. -/
theorem FIFOPool.Used.handed_first {capacity batch : Nat} {accepted : List Bytes} {handed : List (List Bytes)}
    {taking : Option (List Bytes)} {p : FIFOPool} (h : FIFOPool.Used capacity batch accepted handed taking p) :
    handed.flatten <+: accepted :=
  ⟨taking.getD [] ++ p.q.pending, by rw [← List.append_assoc]; exact h.ran.fifo⟩

/-- **Delivery in order, at most once, and of nothing else**: in every run whose rounds do not wrap, whatever its
Byzantine replicas, its network and the clients of its pools do, the blocks of an honest replica stand in every log in
the order in which it proposed them; and if it drew its batches from a pool of its own, their transactions are some of
those the pool accepted, each at most as often as it was accepted, and in that order. -/
theorem delivered_in_order {N : Net} {σ : Sys} (h : N.Run (fun _ c e => c.Unwrapped e) σ)
    (hu : N.Unforgeable (signedLog σ.trace)) {i : UInt32} (hi : N.Honest i) (j : UInt32) :
    ((blocksBy i (committedBlocks (σ.effects j))).map Block.entry).Sublist
      ((proposedBlocks (σ.effects i)).map Block.entry) ∧
    (∃ drew, N.Drew σ i drew) ∧
    ∀ drew, N.Drew σ i drew →
      ((blocksBy i (committedBlocks (σ.effects j))).map Block.payload).Sublist drew ∧
      ∀ capacity batch accepted handed taking p, FIFOPool.Used capacity batch accepted handed taking p →
        drew.map Slice.elems = handed →
        ((blocksBy i (committedBlocks (σ.effects j))).flatMap (fun b => b.payload.elems)).Sublist accepted := by
  have hblocks := h.log_sublist hu hi j
  refine ⟨hblocks, h.drew i, fun drew hdrew => ?_⟩
  have hpayloads : ((blocksBy i (committedBlocks (σ.effects j))).map Block.payload).Sublist drew := by
    have hmap := hblocks.map (fun x => x.2.2.2)
    rw [List.map_map, List.map_map] at hmap
    exact hmap.trans hdrew.proposals.2
  refine ⟨hpayloads, fun capacity batch accepted handed taking p hpool hdrawn => ?_⟩
  have hflat := (hpayloads.map Slice.elems).flatten
  rw [hdrawn, List.map_map, ← List.flatMap_def] at hflat
  exact hflat.trans hpool.handed_first.sublist

namespace Solo

def unwraps (_ : Sys) : Move → Bool
  | .start _   => true
  | .event _ e => Core.unwraps e

/-- The turns of the validator, by what its pool would return. -/
def hear (c : Core) : Option (List Turn × Core) :=
  let hear (r : Nat) := Core.hear net.crypto (net.config 1) (env r) (fun _ e => Core.unwraps e)
  (hear 1 ([], (c.start net.crypto (net.config 1) (env 1)).1) [.proposal (proposal 1)]).bind (fun s =>
    (hear 2 s [.vote (vote 1), .proposal (proposal 2)]).bind (fun s => hear 3 s [.vote (vote 2)]))

theorem heard_of_hear {c c' : Core} {ts : List Turn} (hnew : newCore net.crypto (net.config 1) = some c)
    (h : hear c = some (ts, c')) : Core.Heard net.crypto (net.config 1) (fun _ c e => Core.Unwrapped c e) ts c' := by
  obtain ⟨⟨ts₁, c₁⟩, h₁, h⟩ := Option.bind_eq_some_iff.1 h
  obtain ⟨⟨ts₂, c₂⟩, h₂, h₃⟩ := Option.bind_eq_some_iff.1 h
  have hfirst := (Core.Heard.start (P := fun _ c e => Core.Unwrapped c e) (env 1) c hnew).hear
    Core.unwrapped_of_unwraps h₁
  exact (hfirst.hear Core.unwrapped_of_unwraps h₂).hear Core.unwrapped_of_unwraps h₃

/-- A pool of four, one transaction to a batch: three were accepted, and all are handed out. -/
theorem pool_used : ∃ p, FIFOPool.Used 4 1 [digest 1, digest 2, digest 3]
    [[digest 1], [digest 2], [digest 3]] none p := by
  have hnew : FIFOPool.Used 4 1 [] [] none (newFIFOPool 4 1) := .new
  have h := FIFOPool.Used.accept (.accept (.accept hnew (digest 1) rfl) (digest 2) rfl) (digest 3) rfl
  exact ⟨_, h.getTransactions.getTransactions.getTransactions⟩

end Solo

/-- The validator on its own draws three transactions from its pool, and commits the first. -/
theorem solo_delivered : ∃ σ p, Solo.net.Run (fun _ c e => c.Unwrapped e) σ ∧
    FIFOPool.Used 4 1 [digest 1, digest 2, digest 3] [[digest 1], [digest 2], [digest 3]] none p ∧
    Solo.net.Drew σ 1 ([1, 2, 3].map Solo.payload) ∧
    (blocksBy 1 (committedBlocks (σ.effects 1))).flatMap (fun b => b.payload.elems) = [digest 1] ∧
    ((blocksBy 1 (committedBlocks (σ.effects 1))).flatMap (fun b => b.payload.elems)).Sublist
      [digest 1, digest 2, digest 3] := by
  have hplay : Solo.book.playsIf 1 2 Solo.unwraps Solo.moves []
      (fun σ => Solo.book.covers (signedLog σ.trace) &&
        decide ((blocksBy 1 (committedBlocks (σ.effects 1))).flatMap (fun b => b.payload.elems) = [digest 1]) &&
        (newCore Solo.net.crypto (Solo.net.config 1)).any (fun c₀ => (Solo.hear c₀).any (fun s =>
          decide (σ.effects 1 = c₀.trace Solo.net.crypto (Solo.net.config 1) (Solo.env 1) s.1 ∧
            [1, 2, 3].map Solo.payload = c₀.batches Solo.net.crypto (Solo.net.config 1) (Solo.env 1) s.1) &&
          σ.check 1 (fun c => decide (c = s.2)))))
      (fun _ => true) = true := by decide +kernel
  obtain ⟨σ, ⟨hrun, -⟩, htest⟩ := (Book.reachedIf hplay).1 (fun _ c e => c.Unwrapped e)
    (fun _ _ _ e _ h c _ => Core.unwrapped_of_unwraps c e h)
  rw [Bool.and_eq_true, Bool.and_eq_true, decide_eq_true_eq] at htest
  obtain ⟨⟨hcovers, hfirst⟩, htest⟩ := htest
  obtain ⟨c₀, hnew, htest⟩ := (Option.any_eq_true _ _).1 htest
  obtain ⟨⟨ts, c⟩, hhear, htest⟩ := (Option.any_eq_true _ _).1 htest
  rw [Bool.and_eq_true, decide_eq_true_eq] at htest
  obtain ⟨⟨heff, hdrawn⟩, hstatus⟩ := htest
  have hdrew : Solo.net.Drew σ 1 ([1, 2, 3].map Solo.payload) := by
    obtain ⟨c', hc', heq⟩ := Sys.running_of_check hstatus
    rw [Net.Drew, hc', of_decide_eq_true heq]
    exact ⟨Solo.env 1, c₀, ts, hnew, Solo.heard_of_hear hnew hhear, heff, hdrawn⟩
  obtain ⟨p, hp⟩ := Solo.pool_used
  have hu : Solo.net.Unforgeable (signedLog σ.trace) := Book.unforgeable hcovers
  obtain ⟨-, -, hall⟩ := delivered_in_order hrun hu (by decide : Solo.net.Honest 1) 1
  exact ⟨σ, p, hrun, hp, hdrew, hfirst, (hall _ hdrew).2 _ _ _ _ _ p hp rfl⟩

end Diem

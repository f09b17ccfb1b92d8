import Diem.Table
import Diem.Verify
/-!
# Ledger — the in-memory ledger (`ledger.go`)

A tree of speculative states over the last committed block.  `speculate` executes a block whose parent has a state and
then every held block that waited on it; a block whose parent has none is held.  `commit` walks back from a block to the
frontier and applies the path forward, one `OnCommit` a block.  The three loops of the source with no bound of their own
(`walkBack`, `missingLoop` and the reputation walk of `Leader.lean`) take fuel, and running out of it is an error that
names the loop: a run that never leaves the loop errs with every fuel.
-/
namespace Diem

/-- The loops of the source that can run forever. -/
inductive Loop where
  | commit | missing | reputation
deriving DecidableEq

structure Speculated where
  block : Block
  state : Bytes
deriving DecidableEq

structure MemLedger where
  pending     : Table Bytes Speculated
  held        : Table Bytes Block
  committed   : Table Bytes Block
  order       : List Bytes
  commitID    : Bytes
  commitState : Bytes
deriving DecidableEq

def defaultHistory : Nat := 512

/-- Genesis is committed, with a state id that is not the bottom. -/
def newMemLedger (cr : Crypto) : MemLedger where
  pending     := ∅
  held        := ∅
  committed   := AList.singleton (genesisBlock cr).id (genesisBlock cr)
  order       := [(genesisBlock cr).id]
  commitID    := (genesisBlock cr).id
  commitState := executeHash cr zeroHash default

namespace MemLedger

def commitRound (l : MemLedger) : UInt64 :=
  match l.committed.lookup l.commitID with
  | none   => 0
  | some b => b.round

/-- The last committed block answers too: its children extend it, and it is no longer pending. -/
def pendingState (l : MemLedger) (id : Bytes) : Option Bytes :=
  if id = l.commitID then some l.commitState else (l.pending.lookup id).map Speculated.state

/-- Every call but the first takes a block out of `held`, so `held` and one more bounds the depth. -/
def speculateFuel (execute : Bytes → Payload → Bytes) : Nat → MemLedger → Block → MemLedger
  | 0,     l, _ => l
  | n + 1, l, b =>
    match l.pendingState (parentID b) with
    | none      => if l.commitRound < qcRound b.qc then { l with held := l.held.insert b.id b } else l
    | some prev =>
      l.held.entries.foldl (fun l e =>
        -- the loop ranges over a map the calls it makes delete from
        match l.held.lookup e.1 with
        | none   => l
        | some h =>
          if parentID h = b.id then speculateFuel execute n { l with held := l.held.erase e.1 } h else l)
        { l with pending := l.pending.insert b.id ⟨b, execute prev b.payload⟩ }

/-- The ledger, and the state `Speculate` returns. -/
def speculate (execute : Bytes → Payload → Bytes) (l : MemLedger) (b : Block) : MemLedger × Bytes :=
  (speculateFuel execute (l.held.entries.length + 1) l b,
    match l.pendingState (parentID b) with
    | none      => zeroHash
    | some prev => execute prev b.payload)

def missingLoop (held : Table Bytes Block) : Nat → Block → Except Loop Bytes
  | n, b =>
    match held.lookup (parentID b) with
    | none    => .ok (parentID b)
    | some b' =>
      match n with
      | 0     => .error .missing
      | n + 1 => missingLoop held n b'

/-- The oldest ancestor of a held block this ledger has never seen; empty, which is nil, if the block is not held. -/
def missing (fuel : Nat) (l : MemLedger) (id : Bytes) : Except Loop Bytes :=
  match l.held.lookup id with
  | none   => .ok default
  | some b => missingLoop l.held fuel b

/-- The pending path from the frontier up to `id`, oldest first; `none` if `id` does not descend from the frontier. -/
def walkBack (l : MemLedger) : Nat → Bytes → List Speculated → Except Loop (Option (List Speculated))
  | n, id, chain =>
    if id = l.commitID then .ok (some chain)
    else match l.pending.lookup id with
      | none   => .ok none
      | some s =>
        match n with
        | 0     => .error .commit
        | n + 1 => walkBack l n (parentID s.block) (s :: chain)

/-- One turn of the forward loop of `Commit`. -/
def advance (l : MemLedger) (s : Speculated) : MemLedger :=
  { l with
    pending     := l.pending.erase s.block.id
    committed   := l.committed.insert s.block.id s.block
    order       := l.order ++ [s.block.id]
    commitID    := s.block.id
    commitState := s.state }

def prune (l : MemLedger) : MemLedger :=
  { l with
    held    := l.held.filter (fun _ b => !decide (qcRound b.qc ≤ l.commitRound))
    pending := l.pending.dropOrphans (fun _ s => decide (parentID s.block = l.commitID)) (fun s => parentID s.block) }

def forgetLoop (history : Nat) (commitID : Bytes) :
    List Bytes → Table Bytes Block → List Bytes × Table Bytes Block
  | [],          committed => ([], committed)
  | id :: order, committed =>
    if history < (id :: order).length then
      forgetLoop history commitID order (if id = commitID then committed else committed.erase id)
    else (id :: order, committed)

/-- Drops the oldest committed blocks past the retention bound. -/
def forget (history : Nat) (l : MemLedger) : MemLedger :=
  let r := forgetLoop history l.commitID l.order l.committed
  { l with order := r.1, committed := r.2 }

/-- The ledger, and the blocks passed to `OnCommit`, in order. -/
def commit (history fuel : Nat) (l : MemLedger) (id : Bytes) : Except Loop (MemLedger × List Block) :=
  if id = l.commitID then .ok (l, [])
  else match l.walkBack fuel id [] with
    | .error e         => .error e
    | .ok none         => .ok (l, [])
    | .ok (some chain) => .ok (((chain.foldl advance l).prune).forget history, chain.map Speculated.block)

def committedBlock (l : MemLedger) (id : Bytes) : Option Block := l.committed.lookup id

/-! ## What the operations keep -/

theorem committedBlock_genesis (cr : Crypto) :
    (newMemLedger cr).committed.lookup (genesisBlock cr).id = some (genesisBlock cr) :=
  AList.mem_lookup_iff.2 (List.mem_singleton.2 rfl)

theorem commitRound_genesis (cr : Crypto) : (newMemLedger cr).commitRound = (genesisBlock cr).round := by
  have hfront : (newMemLedger cr).commitID = (genesisBlock cr).id := rfl
  rw [commitRound, hfront, committedBlock_genesis]

/-- One turn of the loop of `Speculate` over the held blocks. -/
def release (execute : Bytes → Payload → Bytes) (n : Nat) (b : Block) (l : MemLedger)
    (e : Sigma fun _ : Bytes => Block) :
    MemLedger :=
  match l.held.lookup e.1 with
  | none   => l
  | some h => if parentID h = b.id then speculateFuel execute n { l with held := l.held.erase e.1 } h else l

theorem speculateFuel_succ (execute : Bytes → Payload → Bytes) (n : Nat) (l : MemLedger) (b : Block) :
    speculateFuel execute (n + 1) l b =
      match l.pendingState (parentID b) with
      | none      => if l.commitRound < qcRound b.qc then { l with held := l.held.insert b.id b } else l
      | some prev =>
        l.held.entries.foldl (release execute n b)
          { l with pending := l.pending.insert b.id ⟨b, execute prev b.payload⟩ } :=
  rfl

section

variable {execute : Bytes → Payload → Bytes} {I : MemLedger → Prop} {Q : Block → Prop}

/-- **The rule of `Speculate`**: it holds blocks, executes blocks over a state, and takes blocks out of `held`. -/
theorem speculateFuel_induct (hhold : ∀ l b, I l → Q b → I { l with held := l.held.insert b.id b })
    (hrun : ∀ l b prev, I l → Q b → l.pendingState (parentID b) = some prev →
      I { l with pending := l.pending.insert b.id ⟨b, execute prev b.payload⟩ })
    (hdrop : ∀ l k, I l → I { l with held := l.held.erase k })
    (hheld : ∀ l k b, I l → l.held.lookup k = some b → Q b) :
    ∀ (n : Nat) (l : MemLedger) (b : Block), I l → Q b → I (speculateFuel execute n l b) := by
  intro n
  induction n with
  | zero => intro l b hl _; exact hl
  | succ n ih =>
    intro l b hl hb
    rw [speculateFuel_succ]
    split
    · split
      · exact hhold l b hl hb
      · exact hl
    · rename_i prev hprev
      refine List.foldlRecOn _ _ (hrun l b prev hl hb hprev) (fun l hl e _ => ?_)
      unfold release
      split
      · exact hl
      · rename_i h hlook
        split
        · exact ih _ h (hdrop l e.1 hl) (hheld l e.1 h hl hlook)
        · exact hl

end

/-- `Speculate` leaves the committed part alone. -/
theorem speculate_frame (execute : Bytes → Payload → Bytes) (l : MemLedger) (b : Block) :
    (l.speculate execute b).1.committed = l.committed ∧ (l.speculate execute b).1.commitID = l.commitID ∧
      (l.speculate execute b).1.commitState = l.commitState :=
  speculateFuel_induct (I := fun l' => l'.committed = l.committed ∧ l'.commitID = l.commitID ∧
    l'.commitState = l.commitState) (Q := fun _ => True) (fun _ _ h _ => h) (fun _ _ _ h _ _ => h) (fun _ _ h => h)
    (fun _ _ _ _ _ => trivial) _ l b ⟨rfl, rfl, rfl⟩ trivial

theorem speculate_order (execute : Bytes → Payload → Bytes) (l : MemLedger) (b : Block) :
    (l.speculate execute b).1.order = l.order :=
  speculateFuel_induct (I := fun l' => l'.order = l.order) (Q := fun _ => True) (fun _ _ h _ => h)
    (fun _ _ _ h _ _ => h)
    (fun _ _ h => h) (fun _ _ _ _ _ => trivial) _ l b rfl trivial

theorem speculate_round (execute : Bytes → Payload → Bytes) (l : MemLedger) (b : Block) :
    (l.speculate execute b).1.commitRound = l.commitRound := by
  obtain ⟨hcom, hid, -⟩ := speculate_frame execute l b
  rw [commitRound, commitRound, hcom, hid]

/-! ## What `Speculate` releases -/

/-- Everything held waits for a parent without a state, or for one in `X`, whose children are still being released. -/
def Waits (X : Bytes → Prop) (l : MemLedger) : Prop :=
  ∀ id h, l.held.lookup id = some h → l.pendingState (parentID h) = none ∨ X (parentID h)

/-- **A block was executed, and all that waited on it**: nothing pending is lost, and what is no longer held is
pending. -/
structure Ran (l : MemLedger) (b : Block) (l' : MemLedger) : Prop where
  frame   : l'.commitID = l.commitID ∧ l'.commitState = l.commitState
  pending : ∀ id, (l.pending.lookup id).isSome = true → (l'.pending.lookup id).isSome = true
  runs    : (l'.pending.lookup b.id).isSome = true
  held    : Table.Sub l'.held l.held
  size    : l'.held.entries.length ≤ l.held.entries.length
  kept    : ∀ id h, l.held.lookup id = some h →
              l'.held.lookup id = some h ∨ (l'.pending.lookup h.id).isSome = true

theorem pendingState_of_isSome {l : MemLedger} {id : Bytes} (h : (l.pending.lookup id).isSome = true) :
    l.pendingState id ≠ none := by
  obtain ⟨s, hs⟩ := Option.isSome_iff_exists.1 h
  rw [pendingState]
  split <;> simp [hs]

/-- A held block is taken out and run. -/
theorem Ran.release {l m m' : MemLedger} {b h : Block} {id : Bytes} (hm : Ran l b m) (hlook : m.held.lookup id = some h)
    (hr : Ran { m with held := m.held.erase id } h m') : Ran l b m' := by
  refine ⟨⟨hr.frame.1.trans hm.frame.1, hr.frame.2.trans hm.frame.2⟩, fun k hk => hr.pending k (hm.pending k hk),
    hr.pending _ hm.runs, (hr.held.trans (Table.sub_erase _ _)).trans hm.held, ?_, fun k x hk => ?_⟩
  · exact (hr.size.trans (Table.length_erase_le _ _)).trans hm.size
  · rcases hm.kept k x hk with hk | hk
    · by_cases hkid : k = id
      · subst hkid
        rw [hlook] at hk
        cases hk
        exact .inr hr.runs
      · exact hr.kept k x (by rw [← hk]; exact AList.lookup_erase_ne hkid)
    · exact .inr (hr.pending _ hk)

/-- Midway through the loop: the children of `b` are held only if the loop has yet to come to them. -/
def Due (X : Bytes → Prop) (b : Block) (es : List (Sigma fun _ : Bytes => Block)) (l : MemLedger) : Prop :=
  ∀ id h, l.held.lookup id = some h →
    l.pendingState (parentID h) = none ∨ X (parentID h) ∨ parentID h = b.id ∧ id ∈ es.map Sigma.fst

section

variable {X : Bytes → Prop} {l m m' : MemLedger} {b : Block} {e : Sigma fun _ : Bytes => Block}
  {es : List (Sigma fun _ : Bytes => Block)}

theorem Due.waits (h : Due X b [] m) : Waits X m := by
  intro id x hx
  rcases h id x hx with hnone | hX | ⟨-, hmem⟩
  · exact .inl hnone
  · exact .inr hX
  · cases hmem

/-- The loop passes what is no child of `b`, or no longer held. -/
theorem Due.pass (h : Due X b (e :: es) m) (hno : ∀ x, m.held.lookup e.1 = some x → parentID x ≠ b.id) :
    Due X b es m := by
  intro id x hx
  refine (h id x hx).imp_right (Or.imp_right ?_)
  rintro ⟨hp, hmem⟩
  refine ⟨hp, (List.mem_cons.1 hmem).resolve_left ?_⟩
  rintro rfl
  exact hno x hx hp

/-- The loop takes out a child of `b`, and what the call leaves held was held before it, under another key. -/
theorem Due.call (h : Due X b (e :: es) m) (hm : Ran l b m) (hheld : Table.Sub m'.held (m.held.erase e.1))
    (hw : ∀ X, Waits X { m with held := m.held.erase e.1 } → Waits X m') : Due X b es m' := by
  have hwaits : Waits (fun x => X x ∨ x = b.id) { m with held := m.held.erase e.1 } := by
    intro k x hk
    rcases h k x (Table.sub_erase _ _ k x hk) with hnone | hX | ⟨hp, -⟩
    · exact .inl hnone
    · exact .inr (.inl hX)
    · exact .inr (.inr hp)
  intro id x hx
  have hkept := hheld id x hx
  have hne : id ≠ e.1 := by
    rintro rfl
    rw [AList.lookup_erase] at hkept
    cases hkept
  rw [AList.lookup_erase_ne hne] at hkept
  refine (hw _ hwaits id x hx).imp_right (fun hX => ?_)
  rcases hX with hX | hp
  · exact .inl hX
  · -- a child of `b`, which has a state: it is held because the loop has yet to come to it
    rcases h id x hkept with hnone | hX | ⟨-, hmem⟩
    · rw [hp] at hnone
      exact absurd hnone (pendingState_of_isSome hm.runs)
    · exact .inl hX
    · exact .inr ⟨hp, (List.mem_cons.1 hmem).resolve_left hne⟩

theorem ran_insert (l : MemLedger) (b : Block) (s : Bytes) :
    Ran l b { l with pending := l.pending.insert b.id ⟨b, s⟩ } := by
  refine ⟨⟨rfl, rfl⟩, fun id hid => ?_, by simp, Table.Sub.refl _, Nat.le_refl _, fun id h hh => .inl hh⟩
  by_cases hb : id = b.id
  · rw [hb]
    simp
  · rw [AList.lookup_insert_ne hb]
    exact hid

theorem Waits.insert (h : Waits X l) (b : Block) (s : Bytes) :
    Due X b l.held.entries { l with pending := l.pending.insert b.id ⟨b, s⟩ } := by
  intro id x hx
  rcases h id x hx with hnone | hX
  · by_cases hp : parentID x = b.id
    · exact .inr (.inr ⟨hp, List.mem_map.2 ⟨⟨id, x⟩, AList.mem_lookup_iff.1 hx, rfl⟩⟩)
    · refine .inl ?_
      rw [pendingState] at hnone ⊢
      rw [AList.lookup_insert_ne hp]
      exact hnone
  · exact .inr (.inl hX)

end

/-- **The block's parent has a state, so the block runs** and the held blocks above it with it; whatever is then held
still waits. -/
theorem speculateFuel_ran (execute : Bytes → Payload → Bytes) : ∀ (n : Nat) (l : MemLedger) (b : Block),
    l.held.entries.length < n → l.pendingState (parentID b) ≠ none →
    Ran l b (speculateFuel execute n l b) ∧ ∀ X, Waits X l → Waits X (speculateFuel execute n l b) := by
  intro n
  induction n with
  | zero => exact fun l b hn => absurd hn (Nat.not_lt_zero _)
  | succ n ih =>
    intro l b hn hparent
    -- along the loop, `Ran` from `l` and, for each `X`, what is `Due`
    have hloop : ∀ (es : List (Sigma fun _ : Bytes => Block)) (m : MemLedger), Ran l b m →
        Ran l b (es.foldl (release execute n b) m) ∧
          ∀ X, Due X b es m → Waits X (es.foldl (release execute n b) m) := by
      intro es
      induction es with
      | nil => exact fun m hm => ⟨hm, fun X hX => hX.waits⟩
      | cons e es ihes =>
        intro m hm
        rw [List.foldl_cons, release]
        split
        · rename_i hnone
          obtain ⟨hr, hw⟩ := ihes m hm
          exact ⟨hr, fun X hX => hw X (hX.pass (fun x hx => by rw [hnone] at hx; cases hx))⟩
        · rename_i h hlook
          split
          · rename_i hchild
            have hlen : (m.held.erase e.1).entries.length < n := by
              have hlt := Table.length_erase_lt (AList.mem_lookup_iff.1 hlook)
              have hle := hm.size
              dsimp only at hlt
              omega
            have hstate : { m with held := m.held.erase e.1 }.pendingState (parentID h) ≠ none := by
              rw [hchild]
              exact pendingState_of_isSome hm.runs
            obtain ⟨hran, hwait⟩ := ih { m with held := m.held.erase e.1 } h hlen hstate
            obtain ⟨hr, hw⟩ := ihes _ (hm.release hlook hran)
            exact ⟨hr, fun X hX => hw X (hX.call hm hran.held hwait)⟩
          · rename_i hchild
            obtain ⟨hr, hw⟩ := ihes m hm
            refine ⟨hr, fun X hX => hw X (hX.pass (fun x hx => ?_))⟩
            rw [hlook] at hx
            cases hx
            exact hchild
    rw [speculateFuel_succ]
    split
    · rename_i hnone
      exact absurd hnone hparent
    · rename_i prev hprev
      obtain ⟨hr, hw⟩ := hloop l.held.entries _ (ran_insert l b (execute prev b.payload))
      exact ⟨hr, fun X hX => hw X (hX.insert b _)⟩

/-- A block whose parent has no state is held, unless the frontier is past its parent's round. -/
theorem speculate_of_none (execute : Bytes → Payload → Bytes) {l : MemLedger} {b : Block}
    (hparent : l.pendingState (parentID b) = none) : (l.speculate execute b).1 =
      if l.commitRound < qcRound b.qc then { l with held := l.held.insert b.id b } else l := by
  rw [speculate, speculateFuel, hparent]

theorem speculate_ran (execute : Bytes → Payload → Bytes) {l : MemLedger} {b : Block}
    (hparent : l.pendingState (parentID b) ≠ none) : Ran l b (l.speculate execute b).1 :=
  (speculateFuel_ran execute _ l b (Nat.lt_succ_self _) hparent).1

/-- **Between calls everything held waits for a parent without a state.** -/
theorem Waits.speculate {X : Bytes → Prop} {l : MemLedger} (h : l.Waits X)
    (execute : Bytes → Payload → Bytes) (b : Block) : (l.speculate execute b).1.Waits X := by
  by_cases hparent : l.pendingState (parentID b) = none
  · rw [speculate_of_none execute hparent]
    split
    · intro id c hc
      dsimp only at hc
      by_cases hcb : id = b.id
      · rw [hcb, AList.lookup_insert] at hc
        cases hc
        exact .inl hparent
      · rw [AList.lookup_insert_ne hcb] at hc
        exact h id c hc
    · exact h
  · exact (speculateFuel_ran execute _ l b (Nat.lt_succ_self _) hparent).2 X h

/-- **What is pending hangs on the frontier**: every pending block's parent is the frontier or pending too. -/
def Hung (l : MemLedger) : Prop :=
  ∀ id s, l.pending.lookup id = some s →
    parentID s.block = l.commitID ∨ (l.pending.lookup (parentID s.block)).isSome = true

theorem pendingState_ne_none {l : MemLedger} {id : Bytes} (h : l.pendingState id ≠ none) :
    id = l.commitID ∨ (l.pending.lookup id).isSome = true := by
  rw [pendingState] at h
  split at h
  · exact .inl ‹_›
  · refine .inr ?_
    cases hl : l.pending.lookup id with
    | none => rw [hl] at h; exact absurd rfl h
    | some s => rfl

theorem Hung.speculate {l : MemLedger} (h : l.Hung) (execute : Bytes → Payload → Bytes) (b : Block) :
    (l.speculate execute b).1.Hung := by
  refine speculateFuel_induct (I := Hung) (Q := fun _ => True) (fun _ _ hl _ => hl) ?_ (fun _ _ hl => hl)
    (fun _ _ _ _ _ => trivial) _ l b h trivial
  intro l b prev hl _ hprev id s hs
  have hgrow : ∀ id, (l.pending.lookup id).isSome = true →
      ((l.pending.insert b.id ⟨b, execute prev b.payload⟩).lookup id).isSome = true := by
    intro id hid
    by_cases hb : id = b.id
    · rw [hb]
      simp
    · rw [AList.lookup_insert_ne hb]
      exact hid
  dsimp only at hs ⊢
  by_cases hid : id = b.id
  · rw [hid, AList.lookup_insert] at hs
    cases hs
    exact (pendingState_ne_none (by rw [hprev]; simp)).imp_right (hgrow _)
  · rw [AList.lookup_insert_ne hid] at hs
    exact (hl id s hs).imp_right (hgrow _)

/-- `Speculate` files nothing under an id but the block's and those that were there. -/
theorem speculate_ids {l : MemLedger} (hheld : l.held.Holds (fun id b => b.id = id)) (execute : Bytes → Payload → Bytes)
    (b : Block) {id : Bytes} (hid : ((l.speculate execute b).1.pending.lookup id).isSome = true ∨
      ((l.speculate execute b).1.held.lookup id).isSome = true) :
    ((l.pending.lookup id).isSome = true ∨ (l.held.lookup id).isSome = true) ∨ id = b.id := by
  let K (x : Bytes) : Prop := ((l.pending.lookup x).isSome = true ∨ (l.held.lookup x).isSome = true) ∨ x = b.id
  have hins : ∀ {V : Type} (m : Table Bytes V) (k : Bytes) (v : V), (∀ x, (m.lookup x).isSome = true → K x) → K k →
      ∀ x, ((m.insert k v).lookup x).isSome = true → K x := by
    intro V m k v hm hk x hx
    by_cases hxk : x = k
    · exact hxk ▸ hk
    · rw [AList.lookup_insert_ne hxk] at hx
      exact hm x hx
  have h : (∀ x, ((l.speculate execute b).1.pending.lookup x).isSome = true → K x) ∧
      (∀ x, ((l.speculate execute b).1.held.lookup x).isSome = true → K x) ∧
      (l.speculate execute b).1.held.Holds (fun id b => b.id = id) := by
    refine speculateFuel_induct (I := fun l' => (∀ x, (l'.pending.lookup x).isSome = true → K x) ∧
      (∀ x, (l'.held.lookup x).isSome = true → K x) ∧ l'.held.Holds (fun id b => b.id = id)) (Q := fun b => K b.id)
      ?_ ?_ ?_ ?_ _ l b ⟨fun x hx => .inl (.inl hx), fun x hx => .inl (.inr hx), hheld⟩ (.inr rfl)
    · exact fun l' b' hl hb => ⟨hl.1, hins _ _ _ hl.2.1 hb, Table.holds_insert hl.2.2 rfl⟩
    · exact fun l' b' prev hl hb _ => ⟨hins _ _ _ hl.1 hb, hl.2⟩
    · refine fun l' k hl => ⟨hl.1, fun x hx => ?_, (Table.sub_erase _ _).holds hl.2.2⟩
      obtain ⟨y, hy⟩ := Option.isSome_iff_exists.1 hx
      exact hl.2.1 x (by rw [Table.sub_erase _ _ x y hy]; rfl)
    · intro l' k b' hl hk
      rw [hl.2.2 k b' hk]
      exact hl.2.1 k (by rw [hk]; rfl)
  exact hid.elim (h.1 id) (h.2.1 id)

/-- **A pending path from the frontier up to `id`.** -/
inductive Rises (l : MemLedger) : List Speculated → Bytes → Prop
  | nil : Rises l [] l.commitID
  | snoc {chain : List Speculated} {id : Bytes} {s : Speculated} (h : Rises l chain (parentID s.block))
      (hs : l.pending.lookup id = some s) : Rises l (chain ++ [s]) id

theorem walkBack_some (l : MemLedger) : ∀ (n : Nat) (id : Bytes) (acc chain : List Speculated),
    l.walkBack n id acc = .ok (some chain) → ∃ pre, chain = pre ++ acc ∧ l.Rises pre id := by
  intro n
  induction n with
  | zero =>
    intro id acc chain h
    rw [walkBack] at h
    split at h
    · rename_i hid
      cases h
      exact ⟨[], rfl, by rw [hid]; exact .nil⟩
    · split at h <;> cases h
  | succ n ih =>
    intro id acc chain h
    rw [walkBack] at h
    split at h
    · rename_i hid
      cases h
      exact ⟨[], rfl, by rw [hid]; exact .nil⟩
    · split at h
      · cases h
      · rename_i s hs
        obtain ⟨pre, rfl, hpre⟩ := ih _ _ _ h
        exact ⟨pre ++ [s], by simp, hpre.snoc hs⟩

/-- The walk back finds a pending path, with fuel for its length. -/
theorem walkBack_rises {l : MemLedger} (htop : l.pending.lookup l.commitID = none)
    {chain : List Speculated} {id : Bytes} (h : l.Rises chain id) :
    ∀ (n : Nat) (acc : List Speculated), chain.length ≤ n →
      l.walkBack n id acc = .ok (some (chain ++ acc)) := by
  induction h with
  | nil =>
    intro n acc _
    rw [walkBack, if_pos rfl]
    rfl
  | @snoc chain id s _ hs ih =>
    intro n acc hn
    have hid : id ≠ l.commitID := by
      rintro rfl
      rw [htop] at hs
      cases hs
    rw [List.length_append] at hn
    obtain ⟨m, rfl⟩ : ∃ m, n = m + 1 :=
      Nat.exists_eq_succ_of_ne_zero (by simp only [List.length_singleton] at hn; omega)
    rw [walkBack, if_neg hid, hs, List.append_assoc]
    exact ih m (s :: acc) (by simp only [List.length_singleton] at hn; omega)

/-- One turn of the walk back: it stops, or goes on from the parent of a pending block. -/
theorem walkBack_turn (l : MemLedger) (n : Nat) (id : Bytes) (acc : List Speculated) :
    (∃ r, l.walkBack n id acc = .ok r) ∨ ∃ s, l.pending.lookup id = some s ∧
      ∀ m, n = m + 1 → l.walkBack n id acc = l.walkBack m (parentID s.block) (s :: acc) := by
  rw [walkBack]
  by_cases hid : id = l.commitID
  · rw [if_pos hid]
    exact .inl ⟨_, rfl⟩
  · rw [if_neg hid]
    cases hs : l.pending.lookup id with
    | none => exact .inl ⟨_, rfl⟩
    | some s => exact .inr ⟨s, rfl, fun m hm => by subst hm; rfl⟩

/-- What is pending descends from the frontier, as far as the walk back can tell. -/
theorem Hung.walkBack_ne_none {l : MemLedger} (h : l.Hung) : ∀ (n : Nat) (id : Bytes) (acc : List Speculated),
    (l.pending.lookup id).isSome = true → l.walkBack n id acc ≠ .ok none := by
  intro n
  induction n with
  | zero =>
    intro id acc hid
    obtain ⟨s, hs⟩ := Option.isSome_iff_exists.1 hid
    rw [walkBack, hs]
    split <;> simp
  | succ n ih =>
    intro id acc hid
    obtain ⟨s, hs⟩ := Option.isSome_iff_exists.1 hid
    rw [walkBack, hs]
    split
    · simp
    · show l.walkBack n (parentID s.block) (s :: acc) ≠ .ok none
      rcases h id s hs with hp | hp
      · rw [hp, walkBack, if_pos rfl]
        simp
      · exact ih _ _ hp

/-- One turn of the search for what is missing. -/
theorem missingLoop_turn (held : Table Bytes Block) (n : Nat) (b : Block) :
    (∃ r, missingLoop held n b = .ok r) ∨ ∃ b', held.lookup (parentID b) = some b' ∧
      ∀ m, n = m + 1 → missingLoop held n b = missingLoop held m b' := by
  rw [missingLoop]
  cases hs : held.lookup (parentID b) with
  | none => exact .inl ⟨_, rfl⟩
  | some b' => exact .inr ⟨b', rfl, fun m hm => by subst hm; rfl⟩

/-- `Commit` does nothing on what is not pending. -/
theorem commit_of_not_pending (history fuel : Nat) {l : MemLedger} {id : Bytes} (hs : l.pending.lookup id = none) :
    l.commit history fuel id = .ok (l, []) := by
  rw [commit]
  split
  · rfl
  · rename_i hne
    rw [walkBack, if_neg hne, hs]

/-- **What `Commit` does**: nothing, or it applies a pending path from the frontier, each block once. -/
theorem commit_ok {history fuel : Nat} {l l' : MemLedger} {id : Bytes} {bs : List Block}
    (h : l.commit history fuel id = .ok (l', bs)) :
    (l' = l ∧ bs = []) ∨ ∃ chain, l.Rises chain id ∧ bs = chain.map Speculated.block ∧
      l' = ((chain.foldl advance l).prune).forget history := by
  unfold commit at h
  split at h
  · cases h; exact .inl ⟨rfl, rfl⟩
  · split at h
    · cases h
    · cases h; exact .inl ⟨rfl, rfl⟩
    · rename_i chain hw
      cases h
      obtain ⟨pre, rfl, hpre⟩ := walkBack_some l _ _ _ _ hw
      rw [List.append_nil]
      exact .inr ⟨pre, hpre, rfl, rfl⟩

theorem sub_forgetLoop (history : Nat) (commitID : Bytes) : ∀ (order : List Bytes) (committed : Table Bytes Block),
    Table.Sub (forgetLoop history commitID order committed).2 committed
  | [], committed => Table.Sub.refl committed
  | id :: order, committed => by
    rw [forgetLoop]
    split
    · refine (sub_forgetLoop history commitID order _).trans ?_
      split
      · exact Table.Sub.refl committed
      · exact Table.sub_erase committed id
    · exact Table.Sub.refl committed

theorem foldl_advance (chain : List Speculated) : ∀ (l : MemLedger),
    Table.Sub (chain.foldl advance l).pending l.pending ∧ (chain.foldl advance l).held = l.held ∧
    (∀ P : Bytes → Block → Prop, l.committed.Holds P → (∀ s ∈ chain, P s.block.id s.block) →
      (chain.foldl advance l).committed.Holds P) := by
  induction chain with
  | nil => intro l; exact ⟨Table.Sub.refl _, rfl, fun P h _ => h⟩
  | cons s chain ih =>
    intro l
    obtain ⟨h1, h2, h3⟩ := ih (l.advance s)
    rw [List.foldl_cons]
    refine ⟨h1.trans (Table.sub_erase _ _), h2, fun P hP hs => h3 P ?_ (fun x hx => hs x (List.mem_cons_of_mem _ hx))⟩
    exact Table.holds_insert hP (hs s List.mem_cons_self)

/-- A path applied: what was pending or held may go, and what is committed was committed or is on the path. -/
theorem commit_tables (history : Nat) (l : MemLedger) (chain : List Speculated) :
    Table.Sub (((chain.foldl advance l).prune).forget history).pending l.pending ∧
    Table.Sub (((chain.foldl advance l).prune).forget history).held l.held ∧
    (∀ P : Bytes → Block → Prop, l.committed.Holds P → (∀ s ∈ chain, P s.block.id s.block) →
      (((chain.foldl advance l).prune).forget history).committed.Holds P) := by
  obtain ⟨h1, h2, h3⟩ := foldl_advance chain l
  refine ⟨(Table.sub_dropOrphans _ _ _).trans h1, ?_, fun P hP hs => ?_⟩
  · have hsub : Table.Sub (chain.foldl advance l).held l.held := by rw [h2]; exact Table.Sub.refl _
    exact (Table.sub_filter _ _).trans hsub
  · exact (sub_forgetLoop _ _ _ _).holds (h3 P hP hs)

/-- `Commit` only takes away from what is pending and what is held. -/
theorem commit_sub {history fuel : Nat} {l l' : MemLedger} {id : Bytes} {bs : List Block}
    (h : l.commit history fuel id = .ok (l', bs)) : Table.Sub l'.pending l.pending ∧ Table.Sub l'.held l.held := by
  rcases commit_ok h with ⟨rfl, -⟩ | ⟨chain, -, -, rfl⟩
  · exact ⟨Table.Sub.refl _, Table.Sub.refl _⟩
  · obtain ⟨h1, h2, -⟩ := commit_tables history l chain
    exact ⟨h1, h2⟩

/-- A path applied leaves no orphan behind. -/
theorem hung_commit (history : Nat) (l : MemLedger) (chain : List Speculated) :
    (((chain.foldl advance l).prune).forget history).Hung := by
  intro id s hs
  exact (Table.dropOrphans_closed _ _ _ hs).imp_left (fun hkeep => of_decide_eq_true hkeep)

theorem Hung.commit {history fuel : Nat} {l l' : MemLedger} {id : Bytes} {bs : List Block} (h : l.Hung)
    (hc : l.commit history fuel id = .ok (l', bs)) : l'.Hung := by
  rcases commit_ok hc with ⟨rfl, -⟩ | ⟨chain, -, -, rfl⟩
  · exact h
  · exact hung_commit history l chain

/-- Committing a pending block applies a path that ends with it. -/
theorem Hung.commit_pending {history fuel : Nat} {l l' : MemLedger} {id : Bytes} {s : Speculated} {bs : List Block}
    (h : l.Hung) (hne : id ≠ l.commitID) (hs : l.pending.lookup id = some s)
    (hc : l.commit history fuel id = .ok (l', bs)) :
    ∃ chain, l.Rises (chain ++ [s]) id ∧ bs = (chain ++ [s]).map Speculated.block ∧
      l' = (((chain ++ [s]).foldl advance l).prune).forget history := by
  rw [MemLedger.commit, if_neg hne] at hc
  split at hc
  · cases hc
  · rename_i hnone
    exact absurd hnone (h.walkBack_ne_none fuel id [] (by rw [hs]; rfl))
  · rename_i chain hw
    cases hc
    obtain ⟨pre, rfl, hpre⟩ := walkBack_some l _ _ _ _ hw
    rw [List.append_nil]
    cases hpre with
    | nil => exact absurd rfl hne
    | @snoc chain _ s' hr hs' =>
      rw [hs] at hs'
      cases hs'
      exact ⟨chain, hr.snoc hs, rfl, rfl⟩

theorem lookup_foldl_advance {id : Bytes} : ∀ (chain : List Speculated) (l : MemLedger),
    (∀ s ∈ chain, s.block.id ≠ id) → (chain.foldl advance l).pending.lookup id = l.pending.lookup id
  | [],         _, _ => rfl
  | s :: chain, l, h => by
    obtain ⟨hs, hchain⟩ := List.forall_mem_cons.1 h
    rw [List.foldl_cons, lookup_foldl_advance chain _ hchain]
    exact AList.lookup_erase_ne hs.symm

/-- The frontier's own block is never forgotten. -/
theorem lookup_forgetLoop (history : Nat) (commitID : Bytes) : ∀ (order : List Bytes) (committed : Table Bytes Block),
    (forgetLoop history commitID order committed).2.lookup commitID = committed.lookup commitID
  | [],          committed => rfl
  | id :: order, committed => by
    rw [forgetLoop]
    split
    · rw [lookup_forgetLoop]
      split
      · rfl
      · rename_i hne
        exact AList.lookup_erase_ne (Ne.symm hne)
    · rfl

/-- The top of a path applied is committed. -/
theorem commit_front (history : Nat) (l : MemLedger) (chain : List Speculated) (s : Speculated) :
    ((((chain ++ [s]).foldl advance l).prune).forget history).committed.lookup s.block.id = some s.block := by
  rw [List.foldl_append]
  simp only [forget, prune, List.foldl_cons, List.foldl_nil, advance, lookup_forgetLoop, AList.lookup_insert]

/-- A path applied ends in the round of its top. -/
theorem commit_round (history : Nat) (l : MemLedger) (chain : List Speculated) (s : Speculated) :
    (((chain ++ [s]).foldl advance l).prune).commitRound = s.block.round ∧
    ((((chain ++ [s]).foldl advance l).prune).forget history).commitRound = s.block.round := by
  have h : (((chain ++ [s]).foldl advance l).prune).commitRound = s.block.round := by
    rw [List.foldl_append]
    simp [commitRound, prune, advance]
  refine ⟨h, ?_⟩
  rw [← h]
  simp only [commitRound, forget, lookup_forgetLoop]

/-- What is held once a path is applied waits for a parent above it. -/
theorem commit_held (history : Nat) (l : MemLedger) (chain : List Speculated) (s : Speculated) :
    ((((chain ++ [s]).foldl advance l).prune).forget history).held.Holds (fun _ b => s.block.round < qcRound b.qc) := by
  intro id b hb
  simp only [forget, prune, Table.lookup_filter, Option.filter_eq_some_iff, Bool.not_eq_true',
    decide_eq_false_iff_not] at hb
  have hround : ((chain ++ [s]).foldl advance l).commitRound = s.block.round := (commit_round history l chain s).1
  rw [← hround]
  exact UInt64.not_le.1 hb.2

/-- A path applied ends at its top, with the top's state. -/
theorem commit_top (history : Nat) (l : MemLedger) (chain : List Speculated) (s : Speculated) :
    ((((chain ++ [s]).foldl advance l).prune).forget history).commitID = s.block.id ∧
    ((((chain ++ [s]).foldl advance l).prune).forget history).commitState = s.state := by
  rw [List.foldl_append]
  exact ⟨rfl, rfl⟩

/-- A path applied gives a state to no block that had none. -/
theorem Waits.commit {X : Bytes → Prop} {l : MemLedger} (h : l.Waits X) {chain : List Speculated} {s : Speculated}
    (hs : l.pending.lookup s.block.id = some s) (history : Nat) :
    ((((chain ++ [s]).foldl advance l).prune).forget history).Waits X := by
  obtain ⟨hpending, hheld, -⟩ := commit_tables history l (chain ++ [s])
  intro id b hb
  refine (h id b (hheld id b hb)).imp_left (fun hnone => ?_)
  by_contra hstate
  refine pendingState_of_isSome ?_ hnone
  rcases pendingState_ne_none hstate with htop | hp
  · rw [htop, (commit_top history l chain s).1, hs]
    rfl
  · obtain ⟨x, hx⟩ := Option.isSome_iff_exists.1 hp
    rw [hpending _ x hx]
    rfl

/-! ## What the states are -/

/-- **Blocks are filed under their ids, and every state is one `R` allows for its id**; `Q` is what is known of the
blocks. -/
structure Records (Q : Block → Prop) (R : Bytes → Bytes → Prop) (l : MemLedger) : Prop where
  pending : l.pending.Holds (fun id s => s.block.id = id ∧ Q s.block ∧ R id s.state)
  held    : l.held.Holds (fun id b => b.id = id ∧ Q b)
  top     : R l.commitID l.commitState

namespace Records

variable {Q : Block → Prop} {R : Bytes → Bytes → Prop} {l l' : MemLedger}

theorem pendingState (h : l.Records Q R) {id state : Bytes} (hs : l.pendingState id = some state) : R id state := by
  rw [MemLedger.pendingState] at hs
  split at hs
  · rename_i hid
    cases hs
    rw [hid]
    exact h.top
  · obtain ⟨s, hl, rfl⟩ := Option.map_eq_some_iff.1 hs
    exact (h.pending id s hl).2.2

theorem speculate (h : l.Records Q R) {execute : Bytes → Payload → Bytes}
    (hnext : ∀ b prev, Q b → R (parentID b) prev → R b.id (execute prev b.payload)) {b : Block} (hb : Q b) :
    (l.speculate execute b).1.Records Q R := by
  refine speculateFuel_induct (I := Records Q R) (Q := Q) ?_ ?_ ?_ ?_ _ l b h hb
  · exact fun l b hl hb => ⟨hl.pending, Table.holds_insert hl.held ⟨rfl, hb⟩, hl.top⟩
  · intro l b prev hl hb hprev
    exact ⟨Table.holds_insert hl.pending ⟨rfl, hb, hnext b prev hb (hl.pendingState hprev)⟩, hl.held, hl.top⟩
  · exact fun l k hl => ⟨hl.pending, (Table.sub_erase _ _).holds hl.held, hl.top⟩
  · exact fun l k b hl hk => (hl.held k b hk).2

/-- `Commit` takes the state of the block it moves to along. -/
theorem commit (h : l.Records Q R) {history fuel : Nat} {id : Bytes} {bs : List Block}
    (hc : l.commit history fuel id = .ok (l', bs)) :
    l'.Records Q R ∧ (l'.commitID = l.commitID ∨ l'.commitID = id) := by
  rcases commit_ok hc with ⟨rfl, -⟩ | ⟨chain, hr, -, rfl⟩
  · exact ⟨h, .inl rfl⟩
  · obtain ⟨hp, hh, -⟩ := commit_tables history l chain
    cases hr with
    | nil => exact ⟨⟨hp.holds h.pending, hh.holds h.held, h.top⟩, .inl rfl⟩
    | @snoc chain id s _ hs =>
      obtain ⟨hid, -, hstate⟩ := h.pending _ _ hs
      obtain ⟨h1, h2⟩ := commit_top history l chain s
      refine ⟨⟨hp.holds h.pending, hh.holds h.held, ?_⟩, .inr (h1.trans hid)⟩
      rw [h1, h2, hid]
      exact hstate

end Records

end MemLedger

end Diem

import Diem.System
/-!
# Play — runs that can be computed

The assumptions on cryptography speak of the strings that are hashed and of what was signed, so a table of both is
cryptography enough: a `Book` numbers its strings, and a string's digest is its number.  Over a book what the edge lets
in and what a step may sign can be decided, and a list of moves is played, or refused.  A state that was played is
reached (`Book.reached`), so a computation tells of a run.
-/
namespace Diem

open Encode (leBytes)

/-! ## What can be decided -/

section

variable {G : Group} [∀ s, Decidable (s ∈ G.hashed)]

instance (qc : Option QuorumCert) : Decidable (G.KnownQC qc) :=
  inferInstanceAs (Decidable (∀ q ∈ qc, q.voteInfo.round ≠ 0 →
    voteInfoBytes q.voteInfo ∈ G.hashed ∧ ledgerCommitBytes q.ledgerCommitInfo ∈ G.hashed))

instance (tc : Option TimeoutCert) : Decidable (G.KnownTC tc) :=
  inferInstanceAs (Decidable (∀ t ∈ tc, ∀ w ∈ t.votes, timeoutBytes t.round w.highQcRound ∈ G.hashed))

instance (qc : Option QuorumCert) : Decidable (G.AcceptsQC qc) :=
  inferInstanceAs (Decidable (_ ∧ _))

instance (tc : Option TimeoutCert) : Decidable (G.AcceptsTC tc) :=
  inferInstanceAs (Decidable (_ ∧ _))

instance (b : Block) : Decidable (G.IsBlock b) :=
  inferInstanceAs (Decidable (_ ∧ _))

instance (i : UInt32) : Decidable (G.Honest i) :=
  inferInstanceAs (Decidable (_ ∧ _))

end

section

variable {N : Net} [∀ s, Decidable (s ∈ N.hashed)]

theorem exists_verifyBlock_iff (v : Verifier) (b : Block) :
    (∃ id, v.verifyBlock b id = true) ↔ v.verifyBlock b b.id = true := by
  refine ⟨fun ⟨id, h⟩ => ?_, fun h => ⟨b.id, h⟩⟩
  obtain ⟨rfl, -⟩ := (v.verifyBlock_iff b id).1 h
  exact h

instance : DecidablePred N.Admits
  | .proposal _     => inferInstanceAs (Decidable (_ ∧ _ ∧ _ ∧ _))
  | .vote _         => inferInstanceAs (Decidable (_ ∧ _ ∧ _ ∧ _))
  | .timeout _      => inferInstanceAs (Decidable (_ ∧ _ ∧ _ ∧ _ ∧ _))
  | .localTimeout _ => inferInstanceAs (Decidable True)
  | .block b        => decidable_of_iff (N.verifier.verifyBlock b b.id = true ∧ b.bytes ∈ N.hashed)
                         (and_congr_left' (exists_verifyBlock_iff _ b).symm)
  | .blockRequest _ => inferInstanceAs (Decidable True)

/-- The strings a signature is over, the one it covers first. -/
def Signed.strings : Signed → List (List UInt8)
  | .vote m => [ledgerCommitBytes m.ledgerCommitInfo, voteInfoBytes m.voteInfo]
  | x       => [x.bytes]

omit [∀ s, Decidable (s ∈ N.hashed)] in
theorem legit_iff (i : UInt32) (x : Effect) : N.Legit i x ↔
    ∀ p ∈ x.signature, N.crypto.verify i (N.crypto.sha256 p.1.bytes) p.2 = true ∧ ∀ s ∈ p.1.strings, s ∈ N.hashed := by
  constructor
  · rintro h ⟨y, s⟩ hy
    obtain ⟨hv, hb, hm⟩ := h y s hy
    refine ⟨hv, fun t ht => ?_⟩
    cases y with
    | vote m =>
      rcases List.mem_cons.1 ht with rfl | ht
      · exact hb
      · rw [List.mem_singleton.1 ht]
        exact hm m rfl
    | timeout m => rw [List.mem_singleton.1 ht]; exact hb
    | block b => rw [List.mem_singleton.1 ht]; exact hb
    | sigs s => rw [List.mem_singleton.1 ht]; exact hb
  · intro h y s hy
    obtain ⟨hv, hs⟩ := h (y, s) hy
    refine ⟨hv, ?_, ?_⟩
    · cases y <;> exact hs _ List.mem_cons_self
    · rintro m rfl
      exact hs _ (List.mem_cons_of_mem _ List.mem_cons_self)

instance (i : UInt32) (x : Effect) : Decidable (N.Legit i x) := decidable_of_iff _ (legit_iff i x).symm

end

/-! ## Moves -/

inductive Move where
  | start (i : UInt32)
  | event (i : UInt32) (e : Event)

/-- Replica `i` runs, and its core passes `test`. -/
def Sys.check (σ : Sys) (i : UInt32) (test : Core → Bool) : Bool :=
  match σ.status i with
  | .running c => test c
  | _          => false

theorem Sys.running_of_check {σ : Sys} {i : UInt32} {test : Core → Bool} (h : σ.check i test = true) :
    ∃ c, σ.status i = .running c ∧ test c = true := by
  unfold check at h
  split at h
  · rename_i c hc
    exact ⟨c, hc, h⟩
  · cases h

namespace Net

variable (N : Net) [∀ s, Decidable (s ∈ N.hashed)] (env : Env)

/-- One move; none if it is not one the system can make, or its step does not return. -/
def move (σ : Sys) : Move → Option Sys
  | .start i =>
    match σ.status i, newCore N.crypto (N.config i) with
    | .fresh, some c =>
      let r := c.start N.crypto (N.config i) env
      if N.Honest i ∧ ∀ x ∈ r.2, N.Legit i x then some (σ.set i (.running r.1) r.2) else none
    | _, _ => none
  | .event i e =>
    match σ.status i with
    | .running c =>
      if N.Honest i ∧ N.Admits e then
        match c.step N.crypto (N.config i) env e with
        | .ok (c', eff) => if ∀ x ∈ eff, N.Legit i x then some (σ.set i (.running c') eff) else none
        | .error _      => none
      else none
    | _ => none

/-- The moves one after the other, each with what its step takes from outside, while they pass `test`. -/
def play (test : Sys → Move → Bool) : Sys → List (Env × Move) → Option Sys
  | σ, []             => some σ
  | σ, (env, m) :: ms => if test σ m then (N.move env σ m).bind (fun σ => play test σ ms) else none

variable {N env} {P : UInt32 → Core → Event → Prop}

theorem move_step {σ σ' : Sys} {m : Move} (hP : ∀ i e, m = .event i e → ∀ c, σ.status i = .running c → P i c e)
    (h : N.move env σ m = some σ') : N.Step P σ σ' := by
  cases m with
  | start i =>
    simp only [move] at h
    split at h
    · rename_i c hf hnew
      split at h
      · rename_i hok
        cases h
        exact .start σ i env c hok.1 hf hnew hok.2
      · cases h
    · cases h
  | event i e =>
    simp only [move] at h
    split at h
    · rename_i c hc
      split at h
      · rename_i hok
        split at h
        · rename_i c' eff hs
          split at h
          · rename_i hl
            cases h
            exact .event σ i env c e c' eff hok.1 hc hok.2 (hP i e rfl c hc) hs hl
          · cases h
        · cases h
      · cases h
    · cases h

/-- **What is played is a run**, restricted to events like those played. -/
theorem play_steps {test : Sys → Move → Bool} {σ' : Sys} : ∀ {ms : List (Env × Move)} {σ : Sys},
    (∀ σ env i e, (env, .event i e) ∈ ms → test σ (.event i e) = true → ∀ c, σ.status i = .running c → P i c e) →
    N.play test σ ms = some σ' → Relation.ReflTransGen (N.Step P) σ σ'
  | [],             σ, _,  h => by cases h; exact .refl
  | (env, m) :: ms, σ, hP, h => by
    rw [play] at h
    split at h
    · rename_i htest
      obtain ⟨σ₁, hm, hms⟩ := Option.bind_eq_some_iff.1 h
      refine .head (move_step (fun i e he => ?_) hm)
        (play_steps (fun σ env i e he => hP σ env i e (List.mem_cons_of_mem _ he)) hms)
      subst he
      exact hP σ env i e List.mem_cons_self htest
    · cases h

end Net

/-! ## Books -/

/-- The digest of number `n`. -/
def digest (n : Nat) : Bytes := ⟨leBytes 32 n, by simp⟩

theorem len_digest (n : Nat) : (digest n).len = hashLen := by
  rw [Slice.len, digest, Encode.length_leBytes, hashLen]

theorem digest_inj {n m : Nat} (hn : n < 256 ^ 32) (hm : m < 256 ^ 32) (h : digest n = digest m) : n = m := by
  rw [digest, digest, Slice.mk.injEq] at h
  exact Encode.leBytes_inj hn hm h

theorem zeroHash_eq_digest : zeroHash = digest 0 := by decide

/-- **Cryptography written down**: the strings that are hashed, and who signs which digests.  Byzantine keys sign
anything.  The VM has one state unless the book says otherwise. -/
structure Book where
  validators : List UInt32
  byzantine  : Finset UInt32
  strings    : List (List UInt8)
  signed     : List (UInt32 × Bytes)
  execute    : Bytes → Payload → Bytes := fun _ _ => digest 2
  distinct   : validators.Nodup
  few        : byzantine.card ≤ faulty validators.length
  fits       : strings.length < 2 ^ 63
  genesis    : blockBytes 0 0 default (some genesisSeedQC) ∈ strings

namespace Book

variable (B : Book)

def crypto : Crypto where
  sha256 s     := digest (B.strings.idxOf s + 1)
  sha256_len _ := len_digest _
  verify i d _ := decide (i ∈ B.validators) && (decide (i ∈ B.byzantine) || decide ((i, d) ∈ B.signed))

theorem collisionFree : CollisionFree B.crypto {s | s ∈ B.strings} := by
  have hfits : ∀ s ∈ B.strings, B.strings.idxOf s + 1 < 256 ^ 32 := fun s hs =>
    calc B.strings.idxOf s + 1 ≤ B.strings.length := List.idxOf_lt_length_iff.2 hs
      _ < 2 ^ 63 := B.fits
      _ < 256 ^ 32 := by decide
  refine ⟨fun s hs t ht h => ?_, fun s hs h => ?_⟩
  · have hidx := digest_inj (hfits s hs) (hfits t ht) h
    exact (List.idxOf_inj hs).1 (Nat.succ.inj hidx)
  · rw [zeroHash_eq_digest] at h
    exact absurd (digest_inj (hfits s hs) (by decide) h) (Nat.succ_ne_zero _)

/-- The group of the book's validators, with the book's VM. -/
def net (window exclude : Int) : Net where
  crypto        := B.crypto
  validators    := B.validators
  distinct      := B.distinct
  registered    := fun i d s h => by
    simp only [crypto, Bool.and_eq_true, decide_eq_true_eq] at h
    exact h.1
  byzantine     := B.byzantine
  few           := B.few
  hashed        := {s | s ∈ B.strings}
  collisionFree := B.collisionFree
  genesis       := B.genesis
  config i      :=
    { id := i, validators := B.validators, windowSize := window, excludeSize := exclude, history := defaultHistory
      execute := B.execute }
  id_eq _       := rfl
  members _     := rfl

variable {B} {window exclude : Int}

instance (s : List UInt8) : Decidable (s ∈ (B.net window exclude).hashed) :=
  inferInstanceAs (Decidable (s ∈ B.strings))

variable (B) in
/-- Every signature the book has of an honest key is in the log. -/
def covers (log : List (UInt32 × Signed)) : Bool :=
  B.signed.all (fun e => log.any (fun x => x.1 == e.1 && B.crypto.sha256 x.2.bytes == e.2))

theorem unforgeable {log : List (UInt32 × Signed)} (h : B.covers log = true) :
    (B.net window exclude).Unforgeable log := by
  intro i hi d s hv
  have hmem : (i, d) ∈ B.signed := by
    have hv' : B.crypto.verify i d s = true := hv
    simp only [crypto, Bool.and_eq_true, Bool.or_eq_true, decide_eq_true_eq] at hv'
    exact hv'.2.resolve_left hi.2
  have hany := List.all_eq_true.1 h (i, d) hmem
  obtain ⟨⟨j, x⟩, hx, heq⟩ := List.any_eq_true.1 hany
  simp only [Bool.and_eq_true, beq_iff_eq] at heq
  obtain ⟨rfl, hd⟩ := heq
  exact ⟨x, hx, hd⟩

variable (B window exclude) in
/-- `moves`, while they pass `only`, lead to a state that passes `test`, and `rest` from there to one that passes
`test'`, by when all that the book has signed is signed. -/
def playsIf (only : Sys → Move → Bool) (moves rest : List (Env × Move)) (test test' : Sys → Bool) : Bool :=
  match (B.net window exclude).play only Sys.init moves with
  | none   => false
  | some σ =>
    test σ && match (B.net window exclude).play (fun _ _ => true) σ rest with
      | none    => false
      | some σ' => test' σ' && B.covers (signedLog σ'.trace)

/-- **What is played is reached**, the signatures unforgeable. -/
theorem reachedIf {only : Sys → Move → Bool} {moves rest : List (Env × Move)} {test test' : Sys → Bool}
    (h : B.playsIf window exclude only moves rest test test' = true) :
    (∀ P : UInt32 → Core → Event → Prop, (∀ σ env i e, (env, .event i e) ∈ moves → only σ (.event i e) = true →
        ∀ c, σ.status i = .running c → P i c e) →
      ∃ σ, (B.net window exclude).Reached P σ ∧ test σ = true) ∧
    ∃ σ, (B.net window exclude).Reached Net.AnyEvent σ ∧ test' σ = true := by
  unfold playsIf at h
  split at h
  · cases h
  · rename_i σ hσ
    rw [Bool.and_eq_true] at h
    obtain ⟨htest, h⟩ := h
    split at h
    · cases h
    · rename_i σ' hσ'
      rw [Bool.and_eq_true] at h
      have hu : (B.net window exclude).Unforgeable (signedLog σ'.trace) := unforgeable h.2
      have hrest := Net.play_steps (P := Net.AnyEvent) (fun _ _ _ _ _ _ _ _ => trivial) hσ'
      refine ⟨fun P hP => ⟨σ, ⟨Net.play_steps hP hσ, σ', hrest, hu⟩, htest⟩, σ', ⟨?_, σ', .refl, hu⟩, h.1⟩
      exact (Net.play_steps (fun _ _ _ _ _ _ _ _ => trivial) hσ).trans hrest

variable (B window exclude) in
/-- Any moves, all with the same from outside. -/
def plays (env : Env) (moves rest : List Move) (test test' : Sys → Bool) : Bool :=
  B.playsIf window exclude (fun _ _ => true) (moves.map (Prod.mk env)) (rest.map (Prod.mk env)) test test'

theorem reached {env : Env} {moves rest : List Move} {test test' : Sys → Bool}
    (h : B.plays window exclude env moves rest test test' = true) :
    (∀ P : UInt32 → Core → Event → Prop, (∀ i e, .event i e ∈ moves → ∀ c, P i c e) →
      ∃ σ, (B.net window exclude).Reached P σ ∧ test σ = true) ∧
    ∃ σ, (B.net window exclude).Reached Net.AnyEvent σ ∧ test' σ = true := by
  obtain ⟨hmoves, hrest⟩ := reachedIf h
  refine ⟨fun P hP => hmoves P (fun _ env' i e he _ c _ => hP i e ?_ c), hrest⟩
  obtain ⟨m, hm, heq⟩ := List.mem_map.1 he
  cases heq
  exact hm

end Book

/-! ## A chain of four blocks

Four validators, the second Byzantine, and a block a round, certified by the other two behind it.  Digest `3r + 1` is
the id of block `r`, `3r + 2` and `3r + 3` are those of its vote; genesis is block 0. -/

namespace Chain

def sigs : Slice Signature := ⟨[⟨1, default⟩, ⟨2, default⟩, ⟨4, default⟩], by decide⟩

def info (r : Nat) : VoteInfo :=
  { id := digest (3 * r + 1), round := r.toUInt64, parentId := digest (3 * (r - 1) + 1), parentRound := (r - 1).toUInt64
    execStateId := digest 2 }

def commit (r : Nat) : LedgerCommitInfo := { commitStateId := digest 2, voteInfoHash := digest (3 * r + 2) }

/-- The certificate of block `r`, put together by the Byzantine validator. -/
def cert : Nat → QuorumCert
  | 0     => zeroQC (digest 1)
  | r + 1 =>
    { voteInfo := info (r + 1), ledgerCommitInfo := commit (r + 1), signatures := sigs, author := 2
      authorSig := some ⟨2, default⟩ }

def block (r : Nat) : Block :=
  { author := if r = 1 then 1 else 2, round := r.toUInt64, payload := default, qc := some (cert (r - 1))
    id := digest (3 * r + 1) }

def proposal (r : Nat) (highCommitQc : Option QuorumCert) : ProposalMsg :=
  { block := some (block r), lastRoundTc := none, highCommitQc, sender := (block r).author
    sig := ⟨(block r).author, default⟩ }

def vote (r : Nat) (i : UInt32) (highCommitQc : QuorumCert) : VoteMsg :=
  { voteInfo := info r, ledgerCommitInfo := commit r, highCommitQc := some highCommitQc, sender := i,
    sig := ⟨i, default⟩ }

/-- The certificate of the replicas that give up on round 4. -/
def tc : TimeoutCert := { round := 4, votes := [⟨3, ⟨1, default⟩⟩, ⟨3, ⟨2, default⟩⟩, ⟨3, ⟨4, default⟩⟩] }

/-- Beyond the chain, replicas time out of round 4 over block 3, and replica 3 proposes in round 4 over block 4. -/
def strings : List (List UInt8) :=
  blockBytes 0 0 default (some genesisSeedQC) :: executeBytes zeroHash default :: qcSigsBytes sigs ::
    [1, 2, 3, 4].flatMap (fun r => [(block r).bytes, voteInfoBytes (info r), ledgerCommitBytes (commit r)]) ++
    [timeoutBytes 4 3, blockBytes 3 4 default (some (cert 4))]

/-- Replicas 1 and 4 vote for every block, 1 proposes the first; `more` is what else is signed. -/
def book (more : List (UInt32 × Bytes)) : Book where
  validators := [1, 2, 3, 4]
  byzantine  := {2}
  strings    := strings
  signed     := (1, digest 4) :: [1, 2, 3, 4].flatMap (fun r => [(1, digest (3 * r + 3)), (4, digest (3 * r + 3))]) ++
    more
  distinct   := by decide
  few        := by decide
  fits       := by decide
  genesis    := List.mem_cons_self

def env : Env := ⟨fun _ => some default, default, 8⟩

/-- Everyone starts, replicas 1 and 4 vote for the first three blocks, and 1 for the fourth. -/
def opening : List Move :=
  [.start 1, .start 3, .start 4,
   .event 1 (.proposal (proposal 1 (some (cert 0)))), .event 4 (.proposal (proposal 1 (some (cert 0)))),
   .event 1 (.proposal (proposal 2 none)), .event 4 (.proposal (proposal 2 none)),
   .event 1 (.proposal (proposal 3 (some (cert 2)))), .event 4 (.proposal (proposal 3 (some (cert 2)))),
   .event 1 (.proposal (proposal 4 none))]

/-- Replica 4 votes for the fourth block too, and both give up on its round. -/
def closing : List Move :=
  [.event 4 (.proposal (proposal 4 none)), .event 1 (.localTimeout 4), .event 4 (.localTimeout 4)]

abbrev net : Net := (book [(1, digest 16), (4, digest 16)]).net 1 2

/-- Replica 3 as `New` makes it. -/
def replica : Core where
  ledger    := newMemLedger net.crypto
  tree      := newBlockTree net.crypto
  safety    := newSafety
  pacemaker := newPacemaker
  leaders   := newLeaderElection (net.config 3)

/-- Replica 1 has proposed, voted, and committed a block more than replica 4 has. -/
def Opened (σ : Sys) : Prop :=
  (1, .proposal (proposal 1 (some (cert 0)))) ∈ σ.trace ∧ (1, .vote (vote 2 1 (cert 1)) 2) ∈ σ.trace ∧
    (1, .onCommit (block 2)) ∈ σ.trace ∧ (4, .onCommit (block 1)) ∈ σ.trace ∧ (4, .onCommit (block 2)) ∉ σ.trace ∧
    σ.check 1 (fun _ => true) = true

instance : DecidablePred Opened := fun _ => inferInstanceAs (Decidable (_ ∧ _ ∧ _ ∧ _ ∧ _ ∧ _))

theorem opening_reached (P : UInt32 → Core → Event → Prop) (hP : ∀ i e, .event i e ∈ opening → ∀ c, P i c e) :
    ∃ σ, net.Reached P σ ∧ Opened σ := by
  have h : (book [(1, digest 16), (4, digest 16)]).plays 1 2 env opening closing (fun σ => decide (Opened σ))
      (fun _ => true) = true := by decide +kernel
  obtain ⟨σ, hσ, ho⟩ := (Book.reached h).1 P hP
  exact ⟨σ, hσ, of_decide_eq_true ho⟩

end Chain

/-! ## A validator on its own

It leads every round, and every block brings a transaction and a state of its own.  Digest `4r` is the id of block `r`,
`4r + 1` and `4r + 2` are those of its vote, `4r + 3` is its state. -/

namespace Solo

def sigs : Slice Signature := ⟨[⟨1, default⟩], by decide⟩

def id : Nat → Bytes
  | 0     => digest 1
  | r + 1 => digest (4 * (r + 1))

def state : Nat → Bytes
  | 0     => digest 2
  | r + 1 => digest (4 * (r + 1) + 3)

def info (r : Nat) : VoteInfo :=
  { id := id r, round := r.toUInt64, parentId := id (r - 1), parentRound := (r - 1).toUInt64, execStateId := state r }

def commit (r : Nat) : LedgerCommitInfo := { commitStateId := state (r - 1), voteInfoHash := digest (4 * r + 1) }

def cert : Nat → QuorumCert
  | 0     => zeroQC (digest 1)
  | r + 1 =>
    { voteInfo := info (r + 1), ledgerCommitInfo := commit (r + 1), signatures := sigs, author := 1
      authorSig := some ⟨1, default⟩ }

def payload (r : Nat) : Payload := ⟨[digest r], by simp⟩

def block (r : Nat) : Block :=
  { author := 1, round := r.toUInt64, payload := payload r, qc := some (cert (r - 1)), id := id r }

def proposal (r : Nat) : ProposalMsg :=
  { block := some (block r), lastRoundTc := none, highCommitQc := some (cert (r - 1)), sender := 1,
    sig := ⟨1, default⟩ }

def vote (r : Nat) : VoteMsg :=
  { voteInfo := info r, ledgerCommitInfo := commit r, highCommitQc := some (cert (r - 1)), sender := 1
    sig := ⟨1, default⟩ }

def strings : List (List UInt8) :=
  blockBytes 0 0 default (some genesisSeedQC) :: executeBytes zeroHash default :: qcSigsBytes sigs ::
    [1, 2, 3].flatMap (fun r =>
      [(block r).bytes, voteInfoBytes (info r), ledgerCommitBytes (commit r), executeBytes (state (r - 1)) (payload r)])

/-- Two blocks are voted for, and the third is proposed. -/
def book : Book where
  validators := [1]
  byzantine  := ∅
  strings    := strings
  signed     := (1, digest 3) :: [4, 6, 8, 10, 12].map (fun n => (1, digest n))
  execute s p := digest (strings.idxOf (executeBytes s p) + 1)
  distinct   := by decide
  few        := by decide
  fits       := by decide
  genesis    := List.mem_cons_self

abbrev net : Net := book.net 1 2

/-- `Transactions` would return the transaction of round `r`. -/
def env (r : Nat) : Env := ⟨fun _ => some default, payload r, 8⟩

/-- It proposes, gets its proposal and its vote, and is in the next round. -/
def moves : List (Env × Move) :=
  [(env 1, .start 1), (env 1, .event 1 (.proposal (proposal 1))), (env 2, .event 1 (.vote (vote 1))),
   (env 2, .event 1 (.proposal (proposal 2))), (env 3, .event 1 (.vote (vote 2)))]

end Solo

end Diem

import Mathlib.Algebra.GroupWithZero.Nat
import Diem.Signer
import Diem.Transport
/-!
# Replica — a replica's goroutines around its core (`replica/replica.go`, `diem/loop.go`)

The core runs on one goroutine, which takes its events from a bounded queue.  Handlers, timers and fetches push into the
queue from goroutines of their own and wait where it is full; a sender goroutine empties the outbound queue.  An `Act`
is what one of them does next, and acts come in any order.  `stop` reads on, and throws away, until the queue is empty.

Measuring is left out: the stamps of proposals and their latencies.  `declined` is what the observer mirrors.
-/
namespace Diem

/-- What `New` is given.  `peers` are the ids there is an address for; `server`, if there is one, comes with a peer
configuration of its own. -/
structure ReplicaConfig (PublicKey PrivateKey : Type) where
  id        : UInt32
  peers     : List UInt32
  server    : Option (List UInt32)
  key       : PrivateKey
  keys      : Table UInt32 PublicKey
  queueSize : Int

def defaultQueueSize : Int := 4096

/-- **What the consensus goroutine is at**: waiting for its peers, in the loop, in a step that never returns, in `stop`,
or through with it. -/
inductive Life where
  | waiting (c : Core)
  | looping (c : Core)
  | stuck
  | stopping (c : Core)
  | stopped (c : Core)

/-- The core, unless a step has it. -/
def Life.core : Life → Option Core
  | .waiting c  => some c
  | .looping c  => some c
  | .stuck      => none
  | .stopping c => some c
  | .stopped c  => some c

/-- `fetching` has the ids of the fetches that are under way. -/
structure Replica where
  life     : Life
  queue    : Chan Event
  high     : Nat
  handler  : Handler
  net      : Transport
  fetching : List Bytes
  commits  : List Block
  commands : UInt64
  declined : UInt64

namespace ReplicaConfig

variable {PublicKey PrivateKey : Type} (cfg : ReplicaConfig PublicKey PrivateKey)

def signer : Signer PublicKey PrivateKey := ⟨cfg.key, cfg.keys⟩

/-- The sorted ids of the keys. -/
def validators : List UInt32 := cfg.keys.keys.insertionSort (· ≤ ·)

/-- The core's configuration: the ledger and the sizes are the defaults. -/
def core (cr : Crypto) : Config where
  id          := cfg.id
  validators  := cfg.validators
  windowSize  := 0
  excludeSize := 0
  history     := defaultHistory
  execute     := executeHash cr

def queueCap : Int := if cfg.queueSize = 0 then defaultQueueSize else cfg.queueSize

end ReplicaConfig

/-- `New`; none is one of its panics: peers and keys of different numbers, no key of its own, a queue of negative size,
or a ledger too short for the core. -/
def newReplica {PublicKey PrivateKey : Type} (E : Ecdsa PublicKey PrivateKey) (sha : Crypto)
    (cfg : ReplicaConfig PublicKey PrivateKey) : Option Replica :=
  if cfg.peers.length ≠ 0 ∧ cfg.peers.length ≠ cfg.keys.keys.length then none
  else if (cfg.keys.lookup cfg.id).isNone then none
  else if cfg.queueCap < 0 then none
  else
    let cr := cfg.signer.crypto E sha
    (newCore cr (cfg.core cr)).map (fun c =>
      { life     := .waiting c
        queue    := Chan.make cfg.queueCap.toNat
        high     := 0
        handler  := ⟨⟨cr, quorumSize cfg.validators.length⟩, 0⟩
        net      := ⟨cfg.server.getD cfg.peers, Chan.make defaultOutQueue, 0⟩
        fetching := []
        commits  := []
        commands := 0
        declined := 0 })

/-- What a goroutine does next. -/
inductive Act where
  | receive (m : Inbound)
  | fire (epoch : UInt64)
  | fetched (id : Bytes) (replies : List Block)
  | send
  | start (env : Env)
  | abandon
  | tick (env : Env)
  | cancel
  | discard
  | halt

/-- What a step of the core takes from outside. -/
def Act.env : Act → Option Env
  | .start env => some env
  | .tick env  => some env
  | _          => none

/-- **What comes of an act**: the replica, the event that was pushed into the queue and the one taken out of it, what
the core did, and the call the sender performed. -/
structure Outcome where
  replica : Replica
  took    : Option Event := none
  gave    : Option Event := none
  eff     : List Effect := []
  done    : Option Call := none

namespace Replica

/-- The ledger's `OnCommit`. -/
def commit (r : Replica) (b : Block) : Replica :=
  { r with commits := r.commits ++ [b], commands := r.commands + b.payload.len.toUInt64 }

/-- What the core does outside is a call on the transport or on the log.  A reply goes into a channel that has room for
it. -/
def perform (r : Replica) : Effect → Replica
  | .proposal p      => { r with net := r.net.proposal p }
  | .vote v dest     => { r with net := r.net.vote v dest }
  | .timeout m       => { r with net := r.net.timeout m }
  | .requestBlock id => { r with net := r.net.requestBlock id }
  | .reply _         => r
  | .onCommit b      => r.commit b
  | .assembled _     => r

def dispatch (r : Replica) (eff : List Effect) : Replica := eff.foldl perform r

/-- `Queue.Push`: waits where the queue is full. -/
def push (r : Replica) (e : Event) : Replica := { r with queue := r.queue.send e }

/-- `Loop.step`: notes how deep the queue is, then runs the event, after which the observer is called. -/
def step (cr : Crypto) (cfg : Config) (env : Env) (r : Replica) (c : Core) (e : Event) : Outcome :=
  let r := { r with high := max r.high r.queue.buf.length }
  match c.step cr cfg env e with
  | .ok (c', eff) =>
    { replica := { r.dispatch eff with life := .looping c', declined := c'.safety.declinedMissingAncestor }
      gave    := some e
      eff }
  | .error s      => { replica := { r.dispatch s.done with life := .stuck }, gave := some e, eff := s.done }

def receive (r : Replica) (m : Inbound) : Outcome :=
  match r.handler.receive m with
  | (handler, none)   => { replica := { r with handler } }
  | (handler, some e) => { replica := { r with handler }.push e, took := some e }

/-- The end of a fetch: its block, if any reply was it, is pushed. -/
def fetched (r : Replica) (id : Bytes) (replies : List Block) : Outcome :=
  let r := { r with fetching := r.fetching.erase id }
  match r.handler.fetch id replies with
  | none   => { replica := r }
  | some e => { replica := r.push e, took := some e }

/-- A fetch starts when its call is performed, unless it reaches nobody. -/
def fetches (nodes : List UInt32) : Call → List Bytes
  | .requestBlock id => if nodes.isEmpty then [] else [id]
  | _                => []

/-- **An act**; none if it cannot be made.  A handler or a timer that is under way when `stop` returns still pushes. -/
def act (cr : Crypto) (cfg : Config) (r : Replica) : Act → Option Outcome
  | .receive m => some (r.receive m)
  | .fire epoch =>
    match r.life with
    | .waiting _ => none
    | _          => some { replica := r.push (.localTimeout epoch), took := some (.localTimeout epoch) }
  | .fetched id replies => if id ∈ r.fetching then some (r.fetched id replies) else none
  | .send => r.net.drain.map (fun d =>
      { replica := { r with net := d.2, fetching := r.fetching ++ fetches r.net.nodes d.1 }, done := some d.1 })
  | .start env =>
    match r.life with
    | .waiting c =>
      let s := c.start cr cfg env
      some { replica := { r.dispatch s.2 with life := .looping s.1 }, eff := s.2 }
    | _ => none
  | .abandon =>
    match r.life with
    | .waiting c => some { replica := { r with life := .stopping c } }
    | _          => none
  | .tick env =>
    match r.life, r.queue.recv with
    | .looping c, some (e, queue) => some ({ r with queue }.step cr cfg env c e)
    | _, _                        => none
  | .cancel =>
    match r.life with
    | .looping c => some { replica := { r with life := .stopping c.stop } }
    | _          => none
  | .discard =>
    match r.life, r.queue.recv with
    | .stopping _, some (e, queue) => some { replica := { r with queue }, gave := some e }
    | _, _                         => none
  | .halt =>
    match r.life with
    | .stopping c => if r.queue.buf = [] then some { replica := { r with life := .stopped c } } else none
    | _           => none

/-- **A history of a replica**: the events pushed and those taken out, what the core did, the calls performed, and the
replica as it is. -/
inductive Ran (cr : Crypto) (cfg : Config) (r₀ : Replica) :
    List Event → List Event → List Effect → List Call → Replica → Prop
  | new : Ran cr cfg r₀ [] [] [] [] r₀
  | act {took gave : List Event} {eff : List Effect} {done : List Call} {r : Replica} {o : Outcome}
      (h : Ran cr cfg r₀ took gave eff done r) (a : Act) (ha : r.act cr cfg a = some o) :
      Ran cr cfg r₀ (took ++ o.took.toList) (gave ++ o.gave.toList) (eff ++ o.eff) (done ++ o.done.toList) o.replica

/-! ## What an act can do -/

/-- The life of a replica over an act that leaves its core and its queue alone. -/
inductive Winds : Life → Life → Prop
  | stay (life : Life) : Winds life life
  | abandon (c : Core) : Winds (.waiting c) (.stopping c)
  | cancel (c : Core) : Winds (.looping c) (.stopping c.stop)
  | halt (c : Core) : Winds (.stopping c) (.stopped c)

/-- **What an act can do**, by what happens to the queue and the core. -/
inductive Moves (cr : Crypto) (cfg : Config) (r : Replica) : Option Env → Outcome → Prop
  | rest (life : Life) (rejected : UInt64) (fetching : List Bytes) (hlife : Winds r.life life)
      (hfetching : fetching ⊆ r.fetching) :
      Moves cr cfg r none { replica := { r with life, handler := { r.handler with rejected }, fetching } }
  | push (e : Event) (fetching : List Bytes) (he : e.Verified r.handler.ver)
      (hblock : ∀ b, e = .block b → ∃ id ∈ r.fetching, r.handler.ver.verifyBlock b id = true)
      (hfetching : fetching ⊆ r.fetching) :
      Moves cr cfg r none { replica := { r with fetching }.push e, took := some e }
  | send (call : Call) (net : Transport) (hd : r.net.drain = some (call, net)) :
      Moves cr cfg r none
        { replica := { r with net, fetching := r.fetching ++ fetches r.net.nodes call }, done := some call }
  | start (env : Env) (c : Core) (hlife : r.life = .waiting c) :
      Moves cr cfg r (some env)
        { replica := { r.dispatch (c.start cr cfg env).2 with life := .looping (c.start cr cfg env).1 }
          eff     := (c.start cr cfg env).2 }
  | tick (env : Env) (c : Core) (e : Event) (queue : Chan Event) (hlife : r.life = .looping c)
      (hq : r.queue.recv = some (e, queue)) : Moves cr cfg r (some env) ({ r with queue }.step cr cfg env c e)
  | discard (c : Core) (e : Event) (queue : Chan Event) (hlife : r.life = .stopping c)
      (hq : r.queue.recv = some (e, queue)) : Moves cr cfg r none { replica := { r with queue }, gave := some e }

variable {cr : Crypto} {cfg : Config} {r : Replica} {o : Outcome}

theorem receive_moves (r : Replica) (m : Inbound) : Moves cr cfg r none (r.receive m) := by
  unfold receive
  split
  · rename_i h hr
    have hver : h.ver = r.handler.ver := by
      have := Handler.receive_ver r.handler m
      rwa [hr] at this
    have heq : h = { r.handler with rejected := h.rejected } := by
      cases h
      cases hver
      rfl
    rw [heq]
    exact .rest r.life h.rejected r.fetching (.stay _) (List.Subset.refl _)
  · rename_i h e hr
    obtain ⟨he, rfl⟩ := Handler.receive_verified hr
    refine .push e r.fetching he (fun b hb => ?_) (List.Subset.refl _)
    subst hb
    exact absurd hr (Handler.receive_ne_block r.handler m b)

theorem fetched_moves {id : Bytes} (hid : id ∈ r.fetching) (replies : List Block) :
    Moves cr cfg r none (r.fetched id replies) := by
  unfold fetched
  dsimp only
  split
  · exact .rest r.life r.handler.rejected _ (.stay _) List.erase_subset
  · rename_i e hf
    obtain ⟨b, rfl, hb⟩ := Handler.fetch_some hf
    refine .push _ _ ⟨id, hb⟩ (fun b' hb' => ?_) List.erase_subset
    cases hb'
    exact ⟨id, hid, hb⟩

theorem winds_moves {life : Life} (h : Winds r.life life) : Moves cr cfg r none { replica := { r with life } } :=
  .rest life r.handler.rejected r.fetching h (List.Subset.refl _)

/-- **Every act is one of these.** -/
theorem act_moves {a : Act} (h : r.act cr cfg a = some o) : Moves cr cfg r a.env o := by
  cases a with
  | receive m =>
    cases h
    exact receive_moves r m
  | fire epoch =>
    rw [act] at h
    split at h
    · cases h
    · cases h
      exact .push _ r.fetching trivial (fun b hb => by cases hb) (List.Subset.refl _)
  | fetched id replies =>
    rw [act] at h
    split at h
    · rename_i hid
      cases h
      exact fetched_moves hid replies
    · cases h
  | send =>
    obtain ⟨⟨call, net⟩, hd, rfl⟩ := Option.map_eq_some_iff.1 h
    exact .send call net hd
  | start env =>
    rw [act] at h
    split at h
    · rename_i c hlife
      cases h
      exact .start env c hlife
    · cases h
  | abandon =>
    rw [act] at h
    split at h
    · rename_i c hlife
      cases h
      exact winds_moves (hlife ▸ .abandon c)
    · cases h
  | tick env =>
    rw [act] at h
    split at h
    · rename_i c e queue hlife hq
      cases h
      exact .tick env c e queue hlife hq
    · cases h
  | cancel =>
    rw [act] at h
    split at h
    · rename_i c hlife
      cases h
      exact winds_moves (hlife ▸ .cancel c)
    · cases h
  | discard =>
    rw [act] at h
    split at h
    · rename_i c e queue hlife hq
      cases h
      exact .discard c e queue hlife hq
    · cases h
  | halt =>
    rw [act] at h
    split at h
    · rename_i c hlife
      split at h
      · cases h
        exact winds_moves (hlife ▸ .halt c)
      · cases h
    · cases h

end Replica

/-! ## What a core does outside -/

/-- The blocks passed to `OnCommit`. -/
def committedBlocks (eff : List Effect) : List Block :=
  eff.filterMap (fun x => match x with
    | .onCommit b => some b
    | _           => none)

/-- The commands of the blocks, counted as an `uint64` counts. -/
def countCommands (n : UInt64) (bs : List Block) : UInt64 := bs.foldl (fun n b => n + b.payload.len.toUInt64) n

theorem countCommands_append (n : UInt64) (bs bs' : List Block) :
    countCommands n (bs ++ bs') = countCommands (countCommands n bs) bs' := List.foldl_append

theorem toNat_countCommands (n : UInt64) (bs : List Block) :
    (countCommands n bs).toNat = (n.toNat + (bs.map (fun b => b.payload.len)).sum) % 2 ^ 64 := by
  induction bs generalizing n with
  | nil => exact (Nat.mod_eq_of_lt n.toNat_lt).symm
  | cons b bs ih =>
    have hlen : b.payload.len.toUInt64.toNat = b.payload.len % 2 ^ 64 := rfl
    rw [countCommands, List.foldl_cons, ← countCommands, ih, UInt64.toNat_add, hlen, List.map_cons, List.sum_cons]
    omega

namespace Replica

variable {cr : Crypto} {cfg : Config} {r : Replica}

/-- **All that a core does outside**: its calls go to the transport, in order, and its commits to the log. -/
theorem dispatch_eq (r : Replica) (eff : List Effect) :
    r.dispatch eff =
      { r with
        net      := (eff.filterMap Effect.call).foldl Transport.enqueue r.net
        commits  := r.commits ++ committedBlocks eff
        commands := countCommands r.commands (committedBlocks eff) } := by
  induction eff generalizing r with
  | nil => simp [dispatch, committedBlocks, countCommands]
  | cons x eff ih =>
    rw [dispatch, List.foldl_cons, ← dispatch, ih]
    cases x with
    | onCommit b =>
      have hblocks : committedBlocks (.onCommit b :: eff) = b :: committedBlocks eff := rfl
      have hcalls : (Effect.onCommit b :: eff).filterMap Effect.call = eff.filterMap Effect.call := rfl
      rw [hblocks, hcalls, List.append_cons]
      rfl
    | _ => rfl

end Replica

theorem Transport.Ran.enqueues {nodes : List UInt32} {cap : Nat} {calls done : List Call} {t : Transport}
    (h : Ran nodes cap calls done t) (more : List Call) :
    Ran nodes cap (calls ++ more) done (more.foldl Transport.enqueue t) := by
  induction more generalizing calls t with
  | nil => rwa [List.append_nil]
  | cons call more ih =>
    rw [List.append_cons]
    exact ih (h.enqueue call)

namespace Replica

variable (cr : Crypto) (cfg : Config)

/-- **A core that was run on its events**: started, then stepped on each of them, and `eff` is all that it did. -/
def Stepped (es : List Event) (eff : List Effect) (c : Core) : Prop :=
  ∃ env c₀ ts, newCore cr cfg = some c₀ ∧
    Core.Heard cr cfg (fun _ _ e => e.Verified (Core.verifier cr cfg)) ts c ∧ ts.map Turn.event = es ∧
    eff = c₀.trace cr cfg env ts

/-- The core of `stop`: never started, or stepped on an initial part of what was taken out; the rest was thrown away. -/
def Ceased (gave : List Event) (eff : List Effect) (c : Core) : Prop :=
  (newCore cr cfg = some c ∧ eff = []) ∨ ∃ es c', es <+: gave ∧ Stepped cr cfg es eff c' ∧ c = c'.stop

/-- **Where the consensus goroutine is**, by what was taken out of the queue: in the loop its core has stepped on all of
it; if it is caught in a step, on all but the last event, and the step on that one does not return. -/
def Stands (gave : List Event) (eff : List Effect) : Life → Prop
  | .waiting c  => newCore cr cfg = some c ∧ gave = [] ∧ eff = []
  | .looping c  => Stepped cr cfg gave eff c
  | .stuck      => ∃ es e eff₀ c env s, gave = es ++ [e] ∧ Stepped cr cfg es eff₀ c ∧
      c.step cr cfg env e = .error s ∧ eff = eff₀ ++ s.done
  | .stopping c => Ceased cr cfg gave eff c
  | .stopped c  => Ceased cr cfg gave eff c

/-- **What a history keeps.** -/
structure Kept (cap : Nat) (nodes : List UInt32) (took gave : List Event) (eff : List Effect) (done : List Call)
    (r : Replica) : Prop where
  queue    : Chan.Ran cap took gave r.queue
  high     : r.high ≤ cap
  ver      : r.handler.ver = Core.verifier cr cfg
  verified : ∀ e ∈ took, e.Verified (Core.verifier cr cfg)
  stands   : Stands cr cfg gave eff r.life
  commits  : r.commits = committedBlocks eff
  commands : r.commands = countCommands 0 (committedBlocks eff)
  net      : Transport.Ran nodes defaultOutQueue (eff.filterMap Effect.call) done r.net
  fetching : ∀ id ∈ r.fetching, .requestBlock id ∈ done
  asked    : ∀ b, .block b ∈ took → .requestBlock b.id ∈ eff

variable {cr cfg} {cap : Nat} {nodes : List UInt32} {took gave : List Event} {eff : List Effect} {done : List Call}
  {r : Replica} {o : Outcome}

theorem Stepped.turn {env : Env} {c c' : Core} {e : Event} {more : List Effect} (h : Stepped cr cfg gave eff c)
    (he : e.Verified (Core.verifier cr cfg)) (hs : c.step cr cfg env e = .ok (c', more)) :
    Stepped cr cfg (gave ++ [e]) (eff ++ more) c' := by
  obtain ⟨env₀, c₀, ts, hnew, hheard, rfl, rfl⟩ := h
  refine ⟨env₀, c₀, _, hnew, hheard.turn env e c' more he hs, ?_, ?_⟩
  · rw [List.map_append, List.map_singleton]
  · rw [Core.trace_turn]

/-- A core that is stopped does not miss what is taken out after. -/
theorem Ceased.taken {c : Core} (h : Ceased cr cfg gave eff c) (e : Event) : Ceased cr cfg (gave ++ [e]) eff c := by
  rcases h with hnew | ⟨es, c', hpre, hstepped, hc⟩
  · exact .inl hnew
  · exact .inr ⟨es, c', hpre.trans (List.prefix_append _ _), hstepped, hc⟩

theorem eq_of_mem_fetches {call : Call} {id : Bytes} (h : id ∈ fetches nodes call) : .requestBlock id = call := by
  cases call with
  | requestBlock id' =>
    rw [fetches] at h
    split at h
    · cases h
    · rw [List.mem_singleton.1 h]
  | _ => cases h

theorem Stands.winds {life life' : Life} (h : Stands cr cfg gave eff life) (hw : Winds life life') :
    Stands cr cfg gave eff life' := by
  cases hw with
  | stay => exact h
  | abandon c => exact .inl ⟨h.1, h.2.2⟩
  | cancel c => exact .inr ⟨gave, c, List.prefix_refl _, h, rfl⟩
  | halt c => exact h

namespace Kept

/-- What was done outside reaches the log and the transport; with it the consensus goroutine has come from `gave` to
`gave'`. -/
theorem dispatch (h : Kept cr cfg cap nodes took gave eff done r) {gave' : List Event} {queue : Chan Event} {high : Nat}
    (hqueue : Chan.Ran cap took gave' queue) (hhigh : high ≤ cap) (more : List Effect) (life : Life) (declined : UInt64)
    (hlife : Stands cr cfg gave' (eff ++ more) life) :
    Kept cr cfg cap nodes took gave' (eff ++ more) done
      { { r with queue, high }.dispatch more with life, declined } := by
  have hblocks : committedBlocks (eff ++ more) = committedBlocks eff ++ committedBlocks more := List.filterMap_append
  rw [dispatch_eq]
  refine ⟨hqueue, hhigh, h.ver, h.verified, hlife, ?_, ?_, ?_, h.fetching,
    fun b hb => List.mem_append_left _ (h.asked b hb)⟩
  · rw [hblocks, ← h.commits]
  · rw [hblocks, countCommands_append, ← h.commands]
  · rw [List.filterMap_append]
    exact h.net.enqueues _

/-- An event is taken out of the queue. -/
theorem recv (h : Kept cr cfg cap nodes took gave eff done r) {e : Event} {queue : Chan Event}
    (hq : r.queue.recv = some (e, queue)) (life : Life) (hlife : Stands cr cfg (gave ++ [e]) eff life) :
    Kept cr cfg cap nodes took (gave ++ [e]) eff done { r with queue, life } :=
  ⟨h.queue.recv hq, h.high, h.ver, h.verified, hlife, h.commits, h.commands, h.net, h.fetching, h.asked⟩

/-- What is being fetched, the core asked for. -/
theorem requested (h : Kept cr cfg cap nodes took gave eff done r) {id : Bytes} (hid : id ∈ r.fetching) :
    .requestBlock id ∈ eff := by
  obtain ⟨-, -, hsub, -⟩ := h.net.accounts
  have hmem := hsub.subset (List.mem_append_left _ (h.fetching id hid))
  obtain ⟨x, hx, hcall⟩ := List.mem_filterMap.1 hmem
  cases x with
  | requestBlock id' =>
    cases hcall
    exact hx
  | _ => cases hcall

theorem mem_of_recv (h : Kept cr cfg cap nodes took gave eff done r) {e : Event} {queue : Chan Event}
    (hq : r.queue.recv = some (e, queue)) : e ∈ took := by
  rw [← h.queue.fifo, (Chan.recv_eq_some hq).1]
  simp

/-- **Every act keeps it.** -/
theorem act (h : Kept cr cfg cap nodes took gave eff done r) {a : Act} (ha : r.act cr cfg a = some o) :
    Kept cr cfg cap nodes (took ++ o.took.toList) (gave ++ o.gave.toList) (eff ++ o.eff) (done ++ o.done.toList)
      o.replica := by
  have hmoves := act_moves ha
  generalize a.env = env at hmoves
  cases hmoves with
  | rest life rejected fetching hlife hfetching =>
    simp only [Option.toList_none, List.append_nil]
    exact ⟨h.queue, h.high, h.ver, h.verified, h.stands.winds hlife, h.commits, h.commands, h.net,
      fun id hid => h.fetching id (hfetching hid), h.asked⟩
  | push e fetching he hblock hfetching =>
    simp only [Option.toList_none, Option.toList_some, List.append_nil]
    refine ⟨h.queue.send e, h.high, h.ver, fun e' he' => ?_, h.stands, h.commits, h.commands, h.net,
      fun id hid => h.fetching id (hfetching hid), fun b hb => ?_⟩
    · rcases List.mem_append.1 he' with he' | he'
      · exact h.verified e' he'
      · rw [List.mem_singleton.1 he', ← h.ver]
        exact he
    · rcases List.mem_append.1 hb with hb | hb
      · exact h.asked b hb
      · obtain ⟨id, hid, hver⟩ := hblock b (List.mem_singleton.1 hb).symm
        rw [((r.handler.ver.verifyBlock_iff b id).1 hver).1]
        exact h.requested hid
  | send call net hd =>
    simp only [Option.toList_none, Option.toList_some, List.append_nil]
    refine ⟨h.queue, h.high, h.ver, h.verified, h.stands, h.commits, h.commands, h.net.drain hd,
      fun id hid => ?_, h.asked⟩
    rcases List.mem_append.1 hid with hid | hid
    · exact List.mem_append_left _ (h.fetching id hid)
    · refine List.mem_append_right _ (List.mem_singleton.2 ?_)
      exact eq_of_mem_fetches hid
  | start env c hlife =>
    simp only [Option.toList_none, List.append_nil]
    have hstands := h.stands
    rw [hlife] at hstands
    obtain ⟨hnew, rfl, rfl⟩ := hstands
    refine h.dispatch h.queue h.high _ _ _ ⟨env, c, [], hnew, .start env c hnew, rfl, ?_⟩
    rw [Core.trace, List.nil_append, List.flatMap_nil, List.append_nil]
  | tick env c e queue hlife hq =>
    have hmem := h.verified e (h.mem_of_recv hq)
    have hstands := h.stands
    rw [hlife] at hstands
    -- the depth is noted before the step
    have hdeep : max r.high queue.buf.length ≤ cap := by
      refine max_le h.high ?_
      rw [← (h.queue.recv hq).cap_eq]
      exact queue.fits
    rw [step]
    split
    · rename_i c' more hs
      simp only [Option.toList_none, Option.toList_some, List.append_nil]
      exact h.dispatch (h.queue.recv hq) hdeep more (.looping c') _ (hstands.turn hmem hs)
    · rename_i s hs
      simp only [Option.toList_none, Option.toList_some, List.append_nil]
      exact h.dispatch (h.queue.recv hq) hdeep s.done .stuck _ ⟨gave, e, eff, c, env, s, rfl, hstands, hs, rfl⟩
  | discard c e queue hlife hq =>
    simp only [Option.toList_none, Option.toList_some, List.append_nil]
    have hstands := h.stands
    rw [hlife] at hstands
    have hrecv := h.recv hq (.stopping c) (hstands.taken e)
    rw [← hlife] at hrecv
    exact hrecv

end Kept

/-- What every act keeps, every history keeps. -/
theorem Ran.kept {r₀ : Replica} (h₀ : Kept cr cfg cap nodes [] [] [] [] r₀) (h : Ran cr cfg r₀ took gave eff done r) :
    Kept cr cfg cap nodes took gave eff done r := by
  induction h with
  | new => exact h₀
  | act h a ha ih => exact ih.act ha

/-- When `stop` returns, nobody is parked: the senders are let in before the buffer runs dry. -/
theorem halt_pending {c : Core} (hcap : 0 < r.queue.cap) (hlife : r.life = .stopping c)
    (h : r.act cr cfg .halt = some o) : r.queue.pending = [] := by
  rw [act, hlife] at h
  dsimp only at h
  split at h
  · rename_i hbuf
    rw [Chan.pending, hbuf, Chan.parked_eq_nil hcap hbuf, List.append_nil]
  · cases h

end Replica

section

variable {PublicKey PrivateKey : Type} {E : Ecdsa PublicKey PrivateKey} {sha : Crypto}
  {cfg : ReplicaConfig PublicKey PrivateKey}

/-- **A replica as `New` made it.** -/
theorem newReplica_eq {r₀ : Replica} (h : newReplica E sha cfg = some r₀) :
    0 < cfg.queueCap ∧ (cfg.keys.lookup cfg.id).isSome = true ∧
    ∃ c, newCore (cfg.signer.crypto E sha) (cfg.core (cfg.signer.crypto E sha)) = some c ∧
      r₀ = { life := .waiting c, queue := Chan.make cfg.queueCap.toNat, high := 0
             handler := ⟨⟨cfg.signer.crypto E sha, quorumSize cfg.validators.length⟩, 0⟩
             net := ⟨cfg.server.getD cfg.peers, Chan.make defaultOutQueue, 0⟩, fetching := []
             commits := [], commands := 0, declined := 0 } := by
  unfold newReplica at h
  split at h
  · cases h
  split at h
  · cases h
  rename_i hkey
  split at h
  · cases h
  rename_i hcap
  obtain ⟨c, hc, rfl⟩ := Option.map_eq_some_iff.1 h
  refine ⟨?_, Option.isSome_iff_ne_none.2 (by simpa using hkey), c, hc, rfl⟩
  -- the default takes the place of a size of 0
  unfold ReplicaConfig.queueCap at hcap ⊢
  split
  · decide
  · rw [if_neg ‹_›] at hcap
    omega

theorem newReplica_kept {r₀ : Replica} (h : newReplica E sha cfg = some r₀) :
    Replica.Kept (cfg.signer.crypto E sha) (cfg.core (cfg.signer.crypto E sha)) cfg.queueCap.toNat
      (cfg.server.getD cfg.peers) [] [] [] [] r₀ := by
  obtain ⟨-, -, c, hc, rfl⟩ := newReplica_eq h
  exact ⟨.make, Nat.zero_le _, rfl, fun e he => absurd he List.not_mem_nil, ⟨hc, rfl, rfl⟩, rfl, rfl, .new,
    fun id hid => absurd hid List.not_mem_nil, fun b hb => absurd hb List.not_mem_nil⟩

end

/-- **A replica loses nothing it accepted, and accounts for all that it does**, whatever its goroutines do in whatever
order.  The events pushed into the queue are those taken out and those that wait, in order, all of them verified, and
every block among them was asked for.  In the loop the core has stepped on exactly those taken out; if it is caught in a
step, on all but the last, on which it does not return; in `stop`, which throws events away, on an initial part.  The
log is what the core passed to `OnCommit`, and its counter the commands in it.  Of the core's calls on the transport
those performed and those that wait are in order, and the counter is of the others.  When `stop` returns, no producer is
left waiting. -/
theorem replica_conserves {PublicKey PrivateKey : Type} {E : Ecdsa PublicKey PrivateKey} {sha cr : Crypto}
    {cfg : ReplicaConfig PublicKey PrivateKey} {r₀ r : Replica} {took gave : List Event} {eff : List Effect}
    {done : List Call} (hcr : cr = cfg.signer.crypto E sha) (hnew : newReplica E sha cfg = some r₀)
    (h : Replica.Ran cr (cfg.core cr) r₀ took gave eff done r) :
    gave ++ r.queue.pending = took ∧ r.queue.buf.length ≤ cfg.queueCap.toNat ∧ r.high ≤ cfg.queueCap.toNat ∧
    (∀ e ∈ took, e.Verified r₀.handler.ver) ∧ (∀ b, .block b ∈ took → .requestBlock b.id ∈ eff) ∧
    Replica.Stands cr (cfg.core cr) gave eff r.life ∧ r.commits = committedBlocks eff ∧
    r.commands.toNat = ((committedBlocks eff).map (fun b => b.payload.len)).sum % 2 ^ 64 ∧
    (done ++ r.net.out.pending).Sublist (eff.filterMap Effect.call) ∧
    r.net.dropped.toNat = ((eff.filterMap Effect.call).length - (done ++ r.net.out.pending).length +
      (Transport.unheard (cfg.server.getD cfg.peers) done).length) % 2 ^ 64 ∧
    ∀ c o, r.life = .stopping c → r.act cr (cfg.core cr) .halt = some o → gave = took := by
  subst hcr
  obtain ⟨hcap, -, c₀, hc₀, hr₀⟩ := newReplica_eq hnew
  have hkept := h.kept (newReplica_kept hnew)
  have hqcap := hkept.queue.cap_eq
  obtain ⟨-, -, hcalls, hdropped⟩ := hkept.net.accounts
  refine ⟨hkept.queue.fifo, hqcap ▸ r.queue.fits, hkept.high, fun e he => ?_, hkept.asked, hkept.stands, hkept.commits,
    ?_, hcalls, hdropped, fun c o hlife hhalt => ?_⟩
  · rw [hr₀]
    exact hkept.verified e he
  · rw [hkept.commands, toNat_countCommands, UInt64.toNat_zero, Nat.zero_add]
  · have hpending := Replica.halt_pending (by rw [hqcap]; omega) hlife hhalt
    rw [← hkept.queue.fifo, hpending, List.append_nil]

/-- The acts one after the other, with all that came of them; none if one cannot be made. -/
def Replica.plays (cr : Crypto) (cfg : Config) :
    List Act → List Event × List Event × List Effect × List Call × Replica →
      Option (List Event × List Event × List Effect × List Call × Replica)
  | [],      s                           => some s
  | a :: as, (took, gave, eff, done, r) =>
    match r.act cr cfg a with
    | none   => none
    | some o =>
      plays cr cfg as (took ++ o.took.toList, gave ++ o.gave.toList, eff ++ o.eff, done ++ o.done.toList, o.replica)

theorem Replica.Ran.plays {cr : Crypto} {cfg : Config} {r₀ r' : Replica} {took' gave' : List Event} {eff' : List Effect}
    {done' : List Call} : ∀ {as : List Act} {took gave : List Event} {eff : List Effect} {done : List Call}
    {r : Replica},
      Ran cr cfg r₀ took gave eff done r →
      Replica.plays cr cfg as (took, gave, eff, done, r) = some (took', gave', eff', done', r') →
      Ran cr cfg r₀ took' gave' eff' done' r'
  | [],      took, gave, eff, done, r, h, hs => by cases hs; exact h
  | a :: as, took, gave, eff, done, r, h, hs => by
    rw [Replica.plays] at hs
    split at hs
    · cases hs
    · rename_i o ho
      exact Replica.Ran.plays (h.act a ho) hs

namespace Chain

/-- The first replica, on an event queue of one. -/
def sole : ReplicaConfig Unit Unit := ⟨1, [1, 2, 3, 4], none, (), signer.keys, 1⟩

def soleCrypto : Crypto := sole.signer.crypto ecdsa net.crypto

/-- Two requests come before it starts, and the second is parked.  It proposes, and answers the first; it is stopped and
throws the second away. -/
def day : List Act :=
  [.receive (.requestBlock (digest 1)), .receive (.requestBlock (digest 4)),
   .start ⟨fun _ => some low, default, 8⟩, .send, .tick ⟨fun _ => some low, default, 8⟩, .cancel, .discard]

end Chain

/-- That day: the queue is empty in the end, and one event out of two was stepped on. -/
theorem chain_day :
    ∃ r₀ took gave eff done r, newReplica Chain.ecdsa Chain.net.crypto Chain.sole = some r₀ ∧
      Replica.Ran Chain.soleCrypto (Chain.sole.core Chain.soleCrypto) r₀ took gave eff done r ∧
      took.length = 2 ∧ eff.length = 2 ∧ done.length = 1 ∧ gave = took ∧
      Replica.Stands Chain.soleCrypto (Chain.sole.core Chain.soleCrypto) gave eff r.life := by
  have hplay : ((newReplica Chain.ecdsa Chain.net.crypto Chain.sole).any (fun r₀ =>
      (Replica.plays Chain.soleCrypto (Chain.sole.core Chain.soleCrypto) Chain.day ([], [], [], [], r₀)).any (fun s =>
        s.1.length == 2 && s.2.2.1.length == 2 && s.2.2.2.1.length == 1 &&
          s.2.2.2.2.queue.pending.isEmpty))) = true := by
    decide +kernel
  obtain ⟨r₀, hnew, hplay⟩ := (Option.any_eq_true _ _).1 hplay
  obtain ⟨⟨took, gave, eff, done, r⟩, hacts, hcheck⟩ := (Option.any_eq_true _ _).1 hplay
  simp only [Bool.and_eq_true, beq_iff_eq, List.isEmpty_iff] at hcheck
  obtain ⟨⟨⟨htook, heff⟩, hdone⟩, hempty⟩ := hcheck
  have hran := Replica.Ran.new.plays hacts
  obtain ⟨hfifo, -, -, -, -, hstands, -⟩ := replica_conserves rfl hnew hran
  rw [hempty, List.append_nil] at hfifo
  exact ⟨r₀, took, gave, eff, done, r, hnew, hran, htook, heff, hdone, hfifo, hstands⟩

end Diem

import Diem.Chan
import Diem.History
/-!
# Transport — the edge of a replica (`diemnet/server.go`, `diemnet/gorums.go`)

Inbound, a message is verified before it is sunk, on a goroutine of its own; one that fails is counted and forgotten.
Outbound, a call is put into a bounded queue, or dropped and counted; a sender goroutine takes the calls out again, in
order.  The two halves differ on purpose: an event that was accepted is never dropped, a message to be sent may be.
-/
namespace Diem

/-- What one replica asks of another: the four calls of the service. -/
inductive Inbound where
  | proposal (m : ProposalMsg)
  | vote (m : VoteMsg)
  | timeout (m : TimeoutMsg)
  | requestBlock (id : Bytes)

/-! ## Inbound -/

structure Handler where
  ver      : Verifier
  rejected : UInt64

namespace Handler

/-- A one-way handler: what fails its check is counted, what passes is the event to sink. -/
def check (h : Handler) (ok : Bool) (e : Event) : Handler × Option Event :=
  if ok then (h, some e) else ({ h with rejected := h.rejected + 1 }, none)

def proposal (h : Handler) (m : ProposalMsg) : Handler × Option Event := h.check (h.ver.verifyProposal m) (.proposal m)

def vote (h : Handler) (m : VoteMsg) : Handler × Option Event := h.check (h.ver.verifyVote m) (.vote m)

def timeout (h : Handler) (m : TimeoutMsg) : Handler × Option Event := h.check (h.ver.verifyTimeout m) (.timeout m)

/-- A request is sunk as it is; its answer is the core's. -/
def requestBlock (h : Handler) (id : Bytes) : Handler × Option Event := (h, some (.blockRequest id))

def receive (h : Handler) : Inbound → Handler × Option Event
  | .proposal m      => h.proposal m
  | .vote m          => h.vote m
  | .timeout m       => h.timeout m
  | .requestBlock id => h.requestBlock id

/-- The first of the replies that is the block asked for; the others are dropped. -/
def fetch (h : Handler) (id : Bytes) (replies : List Block) : Option Event :=
  (replies.find? (fun b => h.ver.verifyBlock b id)).map Event.block

/-! ## What is sunk -/

variable {h h' : Handler} {e : Event}

theorem check_some {ok : Bool} {e' : Event} (hc : h.check ok e' = (h', some e)) : ok = true ∧ e = e' ∧ h' = h := by
  unfold check at hc
  split at hc
  · rename_i hok
    cases hc
    exact ⟨hok, rfl, rfl⟩
  · cases hc

/-- **The edge sinks nothing it has not verified.** -/
theorem receive_verified {m : Inbound} (hr : h.receive m = (h', some e)) : e.Verified h.ver ∧ h' = h := by
  cases m with
  | proposal m =>
    obtain ⟨hok, rfl, rfl⟩ := check_some hr
    exact ⟨hok, rfl⟩
  | vote m =>
    obtain ⟨hok, rfl, rfl⟩ := check_some hr
    exact ⟨hok, rfl⟩
  | timeout m =>
    obtain ⟨hok, rfl, rfl⟩ := check_some hr
    exact ⟨hok, rfl⟩
  | requestBlock id =>
    cases hr
    exact ⟨trivial, rfl⟩

theorem receive_ver (h : Handler) (m : Inbound) : (h.receive m).1.ver = h.ver := by
  have hcheck : ∀ ok e, (h.check ok e).1.ver = h.ver := by
    intro ok e
    unfold check
    split <;> rfl
  cases m with
  | proposal m => exact hcheck _ _
  | vote m => exact hcheck _ _
  | timeout m => exact hcheck _ _
  | requestBlock id => rfl

/-- A block comes of a fetch, and of nothing a peer sends. -/
theorem receive_ne_block (h : Handler) (m : Inbound) (b : Block) : h.receive m ≠ (h', some (.block b)) := by
  have hcheck : ∀ ok e, (∀ b, e ≠ .block b) → h.check ok e ≠ (h', some (.block b)) := by
    intro ok e he hc
    exact he b (check_some hc).2.1.symm
  cases m with
  | proposal m => exact hcheck _ _ (fun b hb => by cases hb)
  | vote m => exact hcheck _ _ (fun b hb => by cases hb)
  | timeout m => exact hcheck _ _ (fun b hb => by cases hb)
  | requestBlock id => exact fun hc => by cases hc

theorem fetch_some {id : Bytes} {replies : List Block} (hf : h.fetch id replies = some e) :
    ∃ b, e = .block b ∧ h.ver.verifyBlock b id = true := by
  obtain ⟨b, hb, rfl⟩ := Option.map_eq_some_iff.1 hf
  exact ⟨b, rfl, by simpa using List.find?_some hb⟩

end Handler

/-! ## Outbound -/

/-- What the sender goroutine is to do: one of the four transport calls. -/
inductive Call where
  | proposal (p : ProposalMsg)
  | vote (v : VoteMsg) (dest : UInt32)
  | timeout (m : TimeoutMsg)
  | requestBlock (id : Bytes)

/-- `nodes` are the ids of the peer configuration, this replica's own included. -/
structure Transport where
  nodes   : List UInt32
  out     : Chan Call
  dropped : UInt64

def defaultOutQueue : Nat := 1024

namespace Transport

/-- Never blocks: a call that finds the queue full is dropped, and counted. -/
def enqueue (t : Transport) (call : Call) : Transport :=
  match t.out.trySend call with
  | some out => { t with out }
  | none     => { t with dropped := t.dropped + 1 }

def proposal (t : Transport) (p : ProposalMsg) : Transport := t.enqueue (.proposal p)

def vote (t : Transport) (v : VoteMsg) (dest : UInt32) : Transport := t.enqueue (.vote v dest)

def timeout (t : Transport) (m : TimeoutMsg) : Transport := t.enqueue (.timeout m)

def requestBlock (t : Transport) (id : Bytes) : Transport := t.enqueue (.requestBlock id)

/-- What a call puts on the wire; nothing without peers, nor for a vote to somebody who is none of them. -/
def packets (nodes : List UInt32) : Call → List (UInt32 × Inbound)
  | .proposal p      => nodes.map (fun n => (n, .proposal p))
  | .vote v dest     => if dest ∈ nodes then [(dest, .vote v)] else []
  | .timeout m       => nodes.map (fun n => (n, .timeout m))
  | .requestBlock id => nodes.map (fun n => (n, .requestBlock id))

/-- One turn of the sender goroutine: the call it performed; one that reaches nobody counts as dropped. -/
def drain (t : Transport) : Option (Call × Transport) :=
  t.out.recv.map (fun r => (r.1,
    { t with
      out     := r.2
      dropped := if (packets t.nodes r.1).isEmpty then t.dropped + 1 else t.dropped }))

end Transport

/-- The transport call an effect is. -/
def Effect.call : Effect → Option Call
  | .proposal p      => some (.proposal p)
  | .vote v dest     => some (.vote v dest)
  | .timeout m       => some (.timeout m)
  | .requestBlock id => some (.requestBlock id)
  | .reply _         => none
  | .onCommit _      => none
  | .assembled _     => none

namespace Transport

/-- **A history of the transport**: the calls made on it, those its sender performed, and the transport as it is. -/
inductive Ran (nodes : List UInt32) (cap : Nat) : List Call → List Call → Transport → Prop
  | new : Ran nodes cap [] [] ⟨nodes, Chan.make cap, 0⟩
  | enqueue {calls done : List Call} {t : Transport} (h : Ran nodes cap calls done t) (call : Call) :
      Ran nodes cap (calls ++ [call]) done (t.enqueue call)
  | drain {calls done : List Call} {t t' : Transport} {call : Call} (h : Ran nodes cap calls done t)
      (hd : t.drain = some (call, t')) : Ran nodes cap calls (done ++ [call]) t'

/-- The calls that reached nobody. -/
def unheard (nodes : List UInt32) (done : List Call) : List Call := done.filter (fun c => (packets nodes c).isEmpty)

theorem drain_eq_some {t t' : Transport} {call : Call} (h : t.drain = some (call, t')) :
    ∃ out, t.out.recv = some (call, out) ∧
      t' = { t with out, dropped := if (packets t.nodes call).isEmpty then t.dropped + 1 else t.dropped } := by
  obtain ⟨⟨c, out⟩, hr, heq⟩ := Option.map_eq_some_iff.1 h
  cases heq
  exact ⟨out, hr, rfl⟩

theorem toNat_succ_of_mod {x : UInt64} {n : Nat} (h : x.toNat = n % 2 ^ 64) : (x + 1).toNat = (n + 1) % 2 ^ 64 := by
  rw [UInt64.toNat_add, h]
  exact Nat.mod_add_mod n (2 ^ 64) 1

/-- **Every call is performed, waits, or is counted**: those performed and those that wait are calls in the order they
were made, and the counter is the number of the others and of those that reached nobody. -/
theorem Ran.accounts {nodes : List UInt32} {cap : Nat} {calls done : List Call} {t : Transport}
    (h : Ran nodes cap calls done t) :
    t.nodes = nodes ∧ t.out.cap = cap ∧ (done ++ t.out.pending).Sublist calls ∧
      t.dropped.toNat = (calls.length - (done ++ t.out.pending).length + (unheard nodes done).length) % 2 ^ 64 := by
  induction h with
  | new => exact ⟨rfl, rfl, .refl _, rfl⟩
  | @enqueue calls done t h call ih =>
    obtain ⟨hnodes, hcap, hsub, hdropped⟩ := ih
    have hle := hsub.length_le
    have hcalls : (calls ++ [call]).length = calls.length + 1 := List.length_append
    unfold Transport.enqueue
    split
    · rename_i out hout
      obtain ⟨-, rfl⟩ := Chan.trySend_eq_some hout
      have hkept : done ++ (t.out.send call).pending = done ++ t.out.pending ++ [call] := by
        rw [Chan.pending_send, List.append_assoc]
      have hlen : (done ++ t.out.pending ++ [call]).length = (done ++ t.out.pending).length + 1 := List.length_append
      refine ⟨hnodes, by rw [Chan.cap_send, hcap], ?_, ?_⟩
      · rw [hkept]
        exact hsub.append (.refl _)
      · rw [hkept, hlen, hcalls, Nat.add_sub_add_right]
        exact hdropped
    · refine ⟨hnodes, hcap, hsub.trans (List.sublist_append_left _ _), ?_⟩
      rw [hcalls, Nat.sub_add_comm hle, Nat.add_right_comm]
      exact toNat_succ_of_mod hdropped
  | @drain calls done t t' call h hd ih =>
    obtain ⟨hnodes, hcap, hsub, hdropped⟩ := ih
    obtain ⟨out, hr, rfl⟩ := drain_eq_some hd
    obtain ⟨hpending, hcap'⟩ := Chan.recv_eq_some hr
    have hmoved : done ++ t.out.pending = done ++ [call] ++ out.pending := by
      rw [hpending, List.append_assoc, List.singleton_append]
    rw [hmoved] at hsub hdropped
    refine ⟨hnodes, hcap'.trans hcap, hsub, ?_⟩
    dsimp only
    rw [hnodes]
    by_cases hempty : (packets nodes call).isEmpty = true
    · have hone : (unheard nodes (done ++ [call])).length = (unheard nodes done).length + 1 := by
        simp [unheard, List.filter_append, hempty]
      rw [if_pos hempty, hone]
      exact toNat_succ_of_mod hdropped
    · have hnone : (unheard nodes (done ++ [call])).length = (unheard nodes done).length := by
        simp [unheard, List.filter_append, hempty]
      rw [if_neg hempty, hnone]
      exact hdropped

end Transport

end Diem

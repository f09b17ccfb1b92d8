import Diem.Chan
import Diem.Wire
/-!
# Mempool — the bounded pool a leader draws its payload from (`mempool.go`)

Clients call `Add` from goroutines of their own, also while `GetTransactions` is at work: its loop receives one
transaction at a time and returns at the first turn that finds none.  So a history takes the loop apart (`turn`), and
whatever comes between two turns, the batches handed out are the accepted transactions in the order of acceptance.
-/
namespace Diem

structure FIFOPool where
  q     : Chan Bytes
  batch : Nat

def newFIFOPool (capacity batch : Nat) : FIFOPool := ⟨Chan.make capacity, batch⟩

namespace FIFOPool

/-- Offers a transaction; false when the buffer is full. -/
def add (p : FIFOPool) (txn : Bytes) : FIFOPool × Bool :=
  match p.q.trySend txn with
  | some q => ({ p with q }, true)
  | none   => (p, false)

/-- One turn of the loop of `GetTransactions`, with `out` so far; none if it returns `out`. -/
def turn (p : FIFOPool) (out : List Bytes) : Option (FIFOPool × List Bytes) :=
  if out.length < p.batch then p.q.recv.map (fun r => ({ p with q := r.2 }, out ++ [r.1])) else none

/-- `GetTransactions` when nothing comes between its turns. -/
def getTransactions (p : FIFOPool) : FIFOPool × List Bytes :=
  loop p.batch p []
where
  loop : Nat → FIFOPool → List Bytes → FIFOPool × List Bytes
    | 0,     p, out => (p, out)
    | n + 1, p, out =>
      match p.turn out with
      | none          => (p, out)
      | some (p, out) => loop n p out

/-- **A pool in use**: the transactions it accepted, the batches it handed out, and the one that a call is putting
together. -/
inductive Used (capacity batch : Nat) : List Bytes → List (List Bytes) → Option (List Bytes) → FIFOPool → Prop
  | new : Used capacity batch [] [] none (newFIFOPool capacity batch)
  | accept {accepted : List Bytes} {handed : List (List Bytes)} {taking : Option (List Bytes)} {p p' : FIFOPool}
      (h : Used capacity batch accepted handed taking p) (txn : Bytes) (ha : p.add txn = (p', true)) :
      Used capacity batch (accepted ++ [txn]) handed taking p'
  | refuse {accepted : List Bytes} {handed : List (List Bytes)} {taking : Option (List Bytes)} {p p' : FIFOPool}
      (h : Used capacity batch accepted handed taking p) (txn : Bytes) (ha : p.add txn = (p', false)) :
      Used capacity batch accepted handed taking p'
  | call {accepted : List Bytes} {handed : List (List Bytes)} {p : FIFOPool}
      (h : Used capacity batch accepted handed none p) : Used capacity batch accepted handed (some []) p
  | turn {accepted : List Bytes} {handed : List (List Bytes)} {out out' : List Bytes} {p p' : FIFOPool}
      (h : Used capacity batch accepted handed (some out) p) (ht : p.turn out = some (p', out')) :
      Used capacity batch accepted handed (some out') p'
  | finish {accepted : List Bytes} {handed : List (List Bytes)} {out : List Bytes} {p : FIFOPool}
      (h : Used capacity batch accepted handed (some out) p) (ht : p.turn out = none) :
      Used capacity batch accepted (handed ++ [out]) none p

variable {p p' : FIFOPool} {txn : Bytes} {out out' : List Bytes}

theorem add_accepts (h : p.add txn = (p', true)) : p.q.buf.length < p.q.cap ∧ p' = { p with q := p.q.send txn } := by
  unfold add at h
  split at h
  · rename_i q hq
    obtain ⟨hlt, rfl⟩ := Chan.trySend_eq_some hq
    cases h
    exact ⟨hlt, rfl⟩
  · cases h

theorem add_refuses (h : p.add txn = (p', false)) : p.q.buf.length = p.q.cap ∧ p' = p := by
  unfold add at h
  split at h
  · cases h
  · rename_i hq
    cases h
    exact ⟨Chan.trySend_eq_none.1 hq, rfl⟩

theorem turn_eq_some (h : p.turn out = some (p', out')) :
    out.length < p.batch ∧ ∃ txn q, p.q.recv = some (txn, q) ∧ p' = { p with q } ∧ out' = out ++ [txn] := by
  unfold turn at h
  split at h
  · rename_i hlt
    obtain ⟨⟨txn, q⟩, hr, heq⟩ := Option.map_eq_some_iff.1 h
    cases heq
    exact ⟨hlt, txn, q, hr, rfl, rfl⟩
  · cases h

/-- A call returns with a full batch or from an empty pool. -/
theorem turn_eq_none (h : p.turn out = none) : p.batch ≤ out.length ∨ p.q.pending = [] := by
  unfold turn at h
  split at h
  · exact .inr (Chan.recv_eq_none.1 (Option.map_eq_none_iff.1 h))
  · rename_i hlt
    exact .inl (Nat.not_lt.1 hlt)

namespace Used

variable {capacity batch : Nat} {accepted : List Bytes} {handed : List (List Bytes)} {taking : Option (List Bytes)}

theorem batch_eq (h : Used capacity batch accepted handed taking p) : p.batch = batch := by
  induction h with
  | new => rfl
  | accept h txn ha ih => rw [(add_accepts ha).2, ← ih]
  | refuse h txn ha ih => rw [(add_refuses ha).2, ← ih]
  | call h ih => exact ih
  | turn h ht ih =>
    obtain ⟨-, txn, q, -, rfl, -⟩ := turn_eq_some ht
    exact ih
  | finish h ht ih => exact ih

/-- The pool's channel has taken in what was accepted and given out the batches. -/
theorem ran (h : Used capacity batch accepted handed taking p) :
    Chan.Ran capacity accepted (handed.flatten ++ taking.getD []) p.q := by
  induction h with
  | new => exact .make
  | accept h txn ha ih =>
    rw [(add_accepts ha).2]
    exact ih.send txn
  | refuse h txn ha ih =>
    rw [(add_refuses ha).2]
    exact ih
  | call h ih => exact ih
  | turn h ht ih =>
    obtain ⟨-, txn, q, hr, rfl, rfl⟩ := turn_eq_some ht
    have hrecv := ih.recv hr
    rwa [List.append_assoc] at hrecv
  | finish h ht ih => simpa using ih

/-- `Add` never parks a client. -/
theorem nobody_parked (h : Used capacity batch accepted handed taking p) : p.q.parked = [] := by
  induction h with
  | new => rfl
  | @accept _ _ _ p _ h txn ha ih =>
    obtain ⟨hlt, rfl⟩ := add_accepts ha
    show (p.q.send txn).parked = []
    rw [Chan.send, dif_pos hlt]
    exact ih
  | refuse h txn ha ih =>
    rw [(add_refuses ha).2]
    exact ih
  | call h ih => exact ih
  | turn h ht ih =>
    obtain ⟨-, txn, q, hr, rfl, -⟩ := turn_eq_some ht
    exact Chan.parked_of_recv hr ih
  | finish h ht ih => exact ih

/-- No batch outgrows the bound, and a short one was all there was. -/
theorem batches (h : Used capacity batch accepted handed taking p) :
    (∀ out ∈ handed, out.length ≤ batch) ∧ ∀ out ∈ taking, out.length ≤ batch := by
  induction h with
  | new => exact ⟨fun _ h => absurd h List.not_mem_nil, fun _ h => by cases h⟩
  | accept h txn ha ih => exact ih
  | refuse h txn ha ih => exact ih
  | call h ih =>
    refine ⟨ih.1, fun out hout => ?_⟩
    cases hout
    exact Nat.zero_le _
  | turn h ht ih =>
    refine ⟨ih.1, fun out hout => ?_⟩
    cases hout
    obtain ⟨hlt, txn, q, -, -, rfl⟩ := turn_eq_some ht
    rw [h.batch_eq] at hlt
    rw [List.length_append]
    exact hlt
  | finish h ht ih =>
    refine ⟨fun out hout => ?_, fun out hout => by cases hout⟩
    rcases List.mem_append.1 hout with hout | hout
    · exact ih.1 out hout
    · rw [List.mem_singleton.1 hout]
      exact ih.2 _ rfl

/-- A call that nothing comes between is a history of its turns. -/
theorem getTransactions (h : Used capacity batch accepted handed none p) :
    Used capacity batch accepted (handed ++ [p.getTransactions.2]) none p.getTransactions.1 := by
  have hloop : ∀ (n : Nat) (p : FIFOPool) (out : List Bytes), p.batch ≤ out.length + n →
      Used capacity batch accepted handed (some out) p →
      Used capacity batch accepted (handed ++ [(getTransactions.loop n p out).2]) none
      (getTransactions.loop n p out).1 := by
    intro n
    induction n with
    | zero =>
      intro p out hn h
      have hnone : p.turn out = none := if_neg (Nat.not_lt.2 hn)
      exact .finish h hnone
    | succ n ih =>
      intro p out hn h
      rw [getTransactions.loop]
      split
      · rename_i hnone
        exact .finish h hnone
      · rename_i p' out' hsome
        obtain ⟨-, txn, q, -, rfl, rfl⟩ := turn_eq_some hsome
        refine ih _ _ ?_ (.turn h hsome)
        rw [List.length_append, List.length_singleton, Nat.add_assoc, Nat.add_comm 1 n]
        exact hn
  exact hloop p.batch p [] (Nat.le_of_eq (Nat.zero_add p.batch).symm) (.call h)

end Used

end FIFOPool

/-- **The pool hands out what it accepted**: whatever comes between what, the batches handed out, the one being put
together and the buffer are the accepted transactions, each once and in order.  No more than `capacity` wait, nobody
waits to be let in, no batch is larger than `batch`, and a call returns a smaller one only when nothing was waiting. -/
theorem pool_conserves {capacity batch : Nat} {accepted : List Bytes} {handed : List (List Bytes)}
    {taking : Option (List Bytes)} {p : FIFOPool} (h : FIFOPool.Used capacity batch accepted handed taking p) :
    handed.flatten ++ taking.getD [] ++ p.q.buf = accepted ∧ p.q.buf.length ≤ capacity ∧ p.q.parked = [] ∧
    (∀ out ∈ handed, out.length ≤ batch) ∧
    (∀ out ∈ taking, p.turn out = none → out.length = batch ∨ p.q.buf = []) ∧
    ∀ txn, (p.add txn).2 = decide (p.q.buf.length < capacity) := by
  have hran := h.ran
  have hparked := h.nobody_parked
  have hpending : p.q.pending = p.q.buf := by rw [Chan.pending, hparked, List.append_nil]
  have hcap := hran.cap_eq
  refine ⟨?_, ?_, hparked, h.batches.1, fun out hout hnone => ?_, fun txn => ?_⟩
  · rw [← hpending]
    exact hran.fifo
  · rw [← hcap]
    exact p.q.fits
  · rcases FIFOPool.turn_eq_none hnone with hfull | hempty
    · rw [h.batch_eq] at hfull
      exact .inl (Nat.le_antisymm (h.batches.2 out hout) hfull)
    · rw [hpending] at hempty
      exact .inr hempty
  · cases hadd : p.add txn with
    | mk p' ok =>
      cases ok with
      | true =>
        have hlt := (FIFOPool.add_accepts hadd).1
        rw [hcap] at hlt
        exact (decide_eq_true hlt).symm
      | false =>
        have heq := (FIFOPool.add_refuses hadd).1
        rw [hcap] at heq
        exact (decide_eq_false (Nat.not_lt.2 (Nat.le_of_eq heq.symm))).symm

/-- A pool of two that hands out two at a time.  A third transaction is refused while the pool is full, and accepted
between the turns of the call that empties it. -/
theorem pool_of_two : ∃ p, FIFOPool.Used 2 2 [zeroHash, default, zeroHash] [[zeroHash, default]] none p ∧
    [[zeroHash, default]].flatten ++ p.q.buf = [zeroHash, default, zeroHash] := by
  have hnew : FIFOPool.Used 2 2 [] [] none (newFIFOPool 2 2) := .new
  have h := FIFOPool.Used.refuse (.accept (.accept hnew zeroHash rfl) default rfl) zeroHash rfl
  have hturns := FIFOPool.Used.finish (.turn (.accept (.turn (.call h) rfl) zeroHash rfl) rfl) rfl
  exact ⟨_, hturns, (pool_conserves hturns).1⟩

end Diem

import Mathlib.Data.List.Basic
/-!
# Chan — a bounded channel, with the senders parked behind it

A Go channel that is never closed: a buffer of at most `cap` values, and behind it the values of the senders that found
it full, in the order they came.  Senders park only at a full buffer, and a receiver lets the first of them in.  Both
are fields of the structure, so every channel there is keeps them.  What a channel gives out is what it took in, in
order (`Ran.fifo`).
-/

/-- **A channel.** -/
structure Chan (α : Type) where
  cap    : Nat
  buf    : List α
  parked : List α
  fits   : buf.length ≤ cap
  full   : parked ≠ [] → buf.length = cap

namespace Chan

variable {α : Type} {c c' : Chan α} {a : α}

def make (cap : Nat) : Chan α := ⟨cap, [], [], Nat.zero_le _, fun h => absurd rfl h⟩

/-- What is still to be received, in order. -/
def pending (c : Chan α) : List α := c.buf ++ c.parked

/-- `c <- a`: into the buffer, or parked behind it. -/
def send (c : Chan α) (a : α) : Chan α :=
  if h : c.buf.length < c.cap then
    { c with
      buf  := c.buf ++ [a]
      fits := by rw [List.length_append]; exact h
      full := fun hp => absurd (c.full hp) (Nat.ne_of_lt h) }
  else
    { c with
      parked := c.parked ++ [a]
      full   := fun _ => Nat.le_antisymm c.fits (Nat.not_lt.1 h) }

/-- A `select` with the send and a default: none is the default. -/
def trySend (c : Chan α) (a : α) : Option (Chan α) := if c.buf.length < c.cap then some (c.send a) else none

/-- The first value, and the channel with the first parked sender let in; none if nothing is there. -/
def recv (c : Chan α) : Option (α × Chan α) :=
  match hb : c.buf, hp : c.parked with
  | [], []          => none
  | [], p :: ps     => some (p,
      { c with
        parked := ps
        full   := fun _ => c.full (by rw [hp]; exact List.cons_ne_nil _ _) })
  | a :: buf, []    => some (a,
      { c with
        buf  := buf
        fits := by have := c.fits; rw [hb] at this; exact Nat.le_of_succ_le this
        full := fun h => absurd hp h })
  | a :: buf, p :: ps => some (a,
      { c with
        buf    := buf ++ [p]
        parked := ps
        fits   := by have := c.fits; rw [hb] at this; rw [List.length_append]; exact this
        full   := fun _ => by
          have := c.full (by rw [hp]; exact List.cons_ne_nil _ _)
          rw [hb] at this
          rw [List.length_append]
          exact this })

@[simp] theorem cap_send (c : Chan α) (a : α) : (c.send a).cap = c.cap := by
  unfold send
  split <;> rfl

/-- A sender comes last. -/
@[simp] theorem pending_send (c : Chan α) (a : α) : (c.send a).pending = c.pending ++ [a] := by
  unfold send
  split
  · rename_i h
    have hnone : c.parked = [] := by
      by_contra hp
      exact absurd (c.full hp) (Nat.ne_of_lt h)
    simp [pending, hnone]
  · simp [pending]

theorem trySend_eq_some (h : c.trySend a = some c') : c.buf.length < c.cap ∧ c' = c.send a := by
  unfold trySend at h
  split at h
  · rename_i hlt
    exact ⟨hlt, (Option.some.inj h).symm⟩
  · cases h

theorem trySend_eq_none : c.trySend a = none ↔ c.buf.length = c.cap := by
  unfold trySend
  have := c.fits
  split
  · simp only [reduceCtorEq, false_iff]
    omega
  · simp only [true_iff]
    omega

/-- **The first in is the first out.** -/
theorem recv_eq_some (h : c.recv = some (a, c')) : c.pending = a :: c'.pending ∧ c'.cap = c.cap := by
  unfold recv at h
  split at h
  · cases h
  · rename_i hb hp
    cases h
    simp [pending, hb, hp]
  · rename_i hb hp
    cases h
    simp [pending, hb, hp]
  · rename_i hb hp
    cases h
    simp [pending, hb, hp]

theorem recv_eq_none : c.recv = none ↔ c.pending = [] := by
  unfold recv
  split <;> rename_i hb hp <;> simp [pending, hb, hp]

/-- A receiver parks nobody. -/
theorem parked_of_recv (h : c.recv = some (a, c')) (hp : c.parked = []) : c'.parked = [] := by
  unfold recv at h
  split at h
  · cases h
  · rename_i hb hp'
    rw [hp] at hp'
    cases hp'
  · cases h
    exact hp
  · rename_i hb hp'
    rw [hp] at hp'
    cases hp'

/-- Whoever is parked is seen in the length of the buffer. -/
theorem parked_eq_nil (hcap : 0 < c.cap) (h : c.buf = []) : c.parked = [] := by
  by_contra hp
  have := c.full hp
  rw [h, List.length_nil] at this
  omega

/-! ## Histories -/

/-- **A history of a channel**: what was taken in, what was given out, and the channel as it is. -/
inductive Ran (cap : Nat) : List α → List α → Chan α → Prop
  | make : Ran cap [] [] (make cap)
  | send {sent got : List α} {c : Chan α} (h : Ran cap sent got c) (a : α) : Ran cap (sent ++ [a]) got (c.send a)
  | recv {sent got : List α} {c c' : Chan α} {a : α} (h : Ran cap sent got c) (hr : c.recv = some (a, c')) :
      Ran cap sent (got ++ [a]) c'

namespace Ran

variable {cap : Nat} {sent got : List α}

theorem cap_eq (h : Ran cap sent got c) : c.cap = cap := by
  induction h with
  | make => rfl
  | send h a ih => rw [cap_send, ih]
  | recv h hr ih => rw [(recv_eq_some hr).2, ih]

/-- **Nothing is lost, made up or overtaken**: what was given out and what is still there are what was taken in. -/
theorem fifo (h : Ran cap sent got c) : got ++ c.pending = sent := by
  induction h with
  | make => rfl
  | send h a ih => rw [pending_send, ← List.append_assoc, ih]
  | recv h hr ih => rw [← ih, (recv_eq_some hr).1, List.append_assoc, List.singleton_append]

end Ran

end Chan

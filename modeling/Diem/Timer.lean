import Diem.Turns
/-!
# Timer — the round timer, its epochs and its queue (`pacemaker.go`, `core.go`)

A timer fires off the core's goroutine and only enqueues the epoch it captured; the event waits behind whatever else is
queued, while the core re-arms and stops.  Every `Pacemaker.Stop` raises the epoch, so a captured epoch is the current
one exactly when no `Stop` came since, up to the 2^64 calls after which the counter is back where it was.
-/
namespace Diem

open Pacemaker (Op)

/-- An armed timer: the epoch its callback captured, and how often `Stop` had been called by then. -/
structure Armed where
  epoch : UInt64
  stops : Nat

namespace Pacemaker

/-- Whether an operation arms a timer. -/
def Op.arms (p : Pacemaker) : Op → Bool
  | .file _            => false
  | .advanceRoundQC qc => (p.advanceRoundQC (some qc)).2
  | .advanceRoundTC tc => (p.advanceRoundTC (some tc)).2
  | .localTimeoutRound => true
  | .amplify           => true

/-- How often an operation calls `Stop`: once for each timer it arms, and once more to amplify. -/
def Op.stops (p : Pacemaker) : Op → Nat
  | .amplify => 2
  | op       => if op.arms p then 1 else 0

end Pacemaker

/-- **A core and its timers.**  Timers are numbered in the order they were armed; the queue holds the numbers of the
fired ones whose event has not been stepped. -/
structure Timed where
  core   : Core
  stops  : Nat
  timers : List Armed
  fired  : List Nat
  queued : List Nat
  ran    : List Nat       -- whose event ran `LocalTimeoutRound`
  halted : Option Nat     -- how many had been armed when `Core.Stop` was last called

namespace Timed

/-- One operation: the `Stop` calls it makes, and the timer it arms. -/
def operate (τ : Timed) (op : Op) : Timed :=
  let p := τ.core.pacemaker.perform op
  let stops := τ.stops + op.stops τ.core.pacemaker
  { τ with
    core   := { τ.core with pacemaker := p }
    stops  := stops
    timers := τ.timers ++ if op.arms τ.core.pacemaker then p.timer.toList.map (fun epoch => ⟨epoch, stops⟩) else [] }

/-- A whole step: its operations, and whatever else it left in the core. -/
def turn (τ : Timed) (ops : List Op) (c : Core) : Timed := { ops.foldl operate τ with core := c }

def fire (τ : Timed) (n : Nat) : Timed := { τ with fired := n :: τ.fired, queued := n :: τ.queued }

/-- The event of timer `n` is stepped. -/
def deliver (τ : Timed) (n : Nat) (a : Armed) (ops : List Op) (c : Core) : Timed :=
  { τ.turn ops c with
    queued := τ.queued.erase n
    ran    := if a.epoch = τ.core.pacemaker.epoch then n :: τ.ran else τ.ran }

def stop (τ : Timed) : Timed := { τ with core := τ.core.stop, stops := τ.stops + 1, halted := some τ.timers.length }

variable (cr : Crypto) (cfg : Config) (P : Event → Prop)

/-- **One move**: `Step` on an event from outside (of a kind `P`), a firing, `Step` on a queued event, or `Core.Stop`.
-/
inductive Step : Timed → Timed → Prop
  | step {τ : Timed} (env : Env) (e : Event) (c : Core) (eff : List Effect) :
      P e → (∀ epoch, e ≠ .localTimeout epoch) → τ.core.step cr cfg env e = .ok (c, eff) →
      Step τ (τ.turn (τ.core.ops cr cfg env e) c)
  | fire {τ : Timed} (n : Nat) : n < τ.timers.length → n ∉ τ.fired → Step τ (τ.fire n)
  | deliver {τ : Timed} (env : Env) (n : Nat) (a : Armed) (c : Core) (eff : List Effect) :
      n ∈ τ.queued → τ.timers[n]? = some a → τ.core.step cr cfg env (.localTimeout a.epoch) = .ok (c, eff) →
      Step τ (τ.deliver n a (τ.core.ops cr cfg env (.localTimeout a.epoch)) c)
  | stop {τ : Timed} : Step τ τ.stop

/-- A core that was started; its first timer is armed by `Start`. -/
def start (env : Env) (c : Core) : Timed :=
  { operate ⟨c, 0, [], [], [], [], none⟩ (.advanceRoundQC (genesisQC cr)) with core := (c.start cr cfg env).1 }

inductive Run : Timed → Prop
  | start (env : Env) (c : Core) : newCore cr cfg = some c → Run (start cr cfg env c)
  | next {τ τ' : Timed} : Run τ → Step cr cfg P τ τ' → Run τ'

/-! ## The invariant -/

/-- **What holds between any two moves**: the epoch counts the `Stop` calls, the timers were armed one `Stop` apart at
least, each fires once and is stepped once, and until `Core.Stop` the last one is live. -/
structure Inv (τ : Timed) : Prop where
  epoch  : τ.core.pacemaker.epoch = UInt64.ofNat τ.stops
  timers : ∀ a ∈ τ.timers, a.epoch = UInt64.ofNat a.stops ∧ a.stops ≤ τ.stops
  sorted : τ.timers.Pairwise (fun a b => a.stops < b.stops)
  fired  : ∀ n ∈ τ.fired, n < τ.timers.length
  queued : τ.queued.Nodup ∧ ∀ n ∈ τ.queued, n ∈ τ.fired
  ran    : τ.ran.Nodup ∧ ∀ n ∈ τ.ran, n ∈ τ.fired ∧ n ∉ τ.queued
  halted : ∀ k, τ.halted = some k → k ≤ τ.timers.length ∧ ∀ a ∈ τ.timers.take k, a.stops < τ.stops
  live   : τ.halted = none → ∃ a, τ.timers.getLast? = some a ∧ a.stops = τ.stops ∧
             τ.core.pacemaker.timer = some a.epoch ∧
             (τ.timers.length - 1 ∈ τ.fired → τ.timers.length - 1 ∈ τ.queued)

variable {cr cfg P}

/-- **What an operation does to the timer**: nothing, or it arms one with the epoch its `Stop` calls lead to. -/
theorem perform_cases (p : Pacemaker) (op : Op) :
    (op.arms p = false ∧ op.stops p = 0 ∧ (p.perform op).timer = p.timer ∧ (p.perform op).epoch = p.epoch) ∨
    (op.arms p = true ∧ 0 < op.stops p ∧ (p.perform op).epoch = p.epoch + UInt64.ofNat (op.stops p) ∧
      (p.perform op).timer = some (p.perform op).epoch) := by
  cases op with
  | file info => exact .inl ⟨rfl, rfl, rfl, rfl⟩
  | advanceRoundQC qc =>
    by_cases hlt : qc.voteInfo.round < p.currentRound
    · simp [Op.arms, Op.stops, Pacemaker.perform, Pacemaker.advanceRoundQC_eq, hlt]
    · simp [Op.arms, Op.stops, Pacemaker.perform, Pacemaker.advanceRoundQC_eq, hlt, Pacemaker.startTimer,
        Pacemaker.stop]
  | advanceRoundTC tc =>
    by_cases hlt : tc.round < p.currentRound
    · simp [Op.arms, Op.stops, Pacemaker.perform, Pacemaker.advanceRoundTC_eq, hlt]
    · simp [Op.arms, Op.stops, Pacemaker.perform, Pacemaker.advanceRoundTC_eq, hlt, Pacemaker.startTimer,
        Pacemaker.stop]
  | localTimeoutRound => exact .inr ⟨rfl, Nat.one_pos, rfl, rfl⟩
  | amplify =>
    refine .inr ⟨rfl, Nat.two_pos, ?_, rfl⟩
    show p.epoch + 1 + 1 = p.epoch + 2
    rw [UInt64.add_assoc]
    rfl

theorem operate_of_arms {τ : Timed} {op : Op} (hep : τ.core.pacemaker.epoch = UInt64.ofNat τ.stops)
    (ha : op.arms τ.core.pacemaker = true) :
    τ.operate op = { τ with
      core   := { τ.core with pacemaker := τ.core.pacemaker.perform op }
      stops  := τ.stops + op.stops τ.core.pacemaker
      timers := τ.timers ++
        [⟨UInt64.ofNat (τ.stops + op.stops τ.core.pacemaker), τ.stops + op.stops τ.core.pacemaker⟩] } := by
  rcases perform_cases τ.core.pacemaker op with ⟨hn, -⟩ | ⟨-, -, he, ht⟩
  · rw [ha] at hn
    cases hn
  · rw [hep, ← UInt64.ofNat_add] at he
    simp [Timed.operate, ha, ht, he]

/-- **An operation keeps the invariant**: a timer it arms is the last, with a number beyond all that fired. -/
theorem Inv.operate {τ : Timed} (h : Inv τ) (op : Op) : Inv (τ.operate op) := by
  rcases perform_cases τ.core.pacemaker op with ⟨harms, hs, ht, he⟩ | ⟨harms, hpos, he, ht⟩
  · have heq : τ.operate op = { τ with core := { τ.core with pacemaker := τ.core.pacemaker.perform op } } := by
      simp [Timed.operate, harms, hs]
    rw [heq]
    refine ⟨he.trans h.epoch, h.timers, h.sorted, h.fired, h.queued, h.ran, h.halted, fun hh => ?_⟩
    obtain ⟨a, hlast, hstops, htimer, hq⟩ := h.live hh
    exact ⟨a, hlast, hstops, ht.trans htimer, hq⟩
  · rw [h.epoch, ← UInt64.ofNat_add] at he
    rw [he] at ht
    rw [operate_of_arms h.epoch harms]
    have hold : ∀ a ∈ τ.timers, a.stops < τ.stops + op.stops τ.core.pacemaker := by
      intro a ha
      have := (h.timers a ha).2
      omega
    refine ⟨he, ?_, ?_, ?_, h.queued, h.ran, ?_, fun _ => ⟨_, List.getLast?_concat, rfl, ht, ?_⟩⟩
    · intro a ha
      rcases List.mem_append.1 ha with ha | ha
      · exact ⟨(h.timers a ha).1, Nat.le_of_lt (hold a ha)⟩
      · cases List.mem_singleton.1 ha
        exact ⟨rfl, Nat.le_refl _⟩
    · refine List.pairwise_append.2 ⟨h.sorted, List.pairwise_singleton _ _, fun a ha b hb => ?_⟩
      cases List.mem_singleton.1 hb
      exact hold a ha
    · intro n hn
      rw [List.length_append]
      exact Nat.lt_of_lt_of_le (h.fired n hn) (Nat.le_add_right _ _)
    · intro k hk
      obtain ⟨hlen, hlt⟩ := h.halted k hk
      refine ⟨hlen.trans (by simp), fun a ha => ?_⟩
      rw [List.take_append_of_le_length hlen] at ha
      exact hold a (List.mem_of_mem_take ha)
    · intro hf
      rw [List.length_append, List.length_singleton, Nat.add_sub_cancel] at hf
      exact absurd (h.fired _ hf) (Nat.lt_irrefl _)

theorem Inv.operates {τ : Timed} (h : Inv τ) (ops : List Op) : Inv (ops.foldl Timed.operate τ) := by
  induction ops generalizing τ with
  | nil => exact h
  | cons op ops ih => exact ih (h.operate op)

/-- The invariant reads the pacemaker alone. -/
theorem Inv.of_pacemaker {τ : Timed} (h : Inv τ) {c : Core} (hc : c.pacemaker = τ.core.pacemaker) :
    Inv { τ with core := c } := by
  refine ⟨hc ▸ h.epoch, h.timers, h.sorted, h.fired, h.queued, h.ran, h.halted, fun hh => ?_⟩
  obtain ⟨a, hlast, hstops, htimer, hq⟩ := h.live hh
  exact ⟨a, hlast, hstops, hc ▸ htimer, hq⟩

theorem operates_pacemaker (τ : Timed) (ops : List Op) :
    (ops.foldl operate τ).core.pacemaker = τ.core.pacemaker.performs ops := by
  induction ops generalizing τ with
  | nil => rfl
  | cons op ops ih => exact ih _

theorem Inv.turn {τ : Timed} (h : Inv τ) {ops : List Op} {c : Core} (hc : c.pacemaker = τ.core.pacemaker.performs ops) :
    Inv (τ.turn ops c) :=
  (h.operates ops).of_pacemaker (hc.trans (operates_pacemaker τ ops).symm)

theorem operates_frame (τ : Timed) (ops : List Op) :
    (ops.foldl operate τ).fired = τ.fired ∧ (ops.foldl operate τ).queued = τ.queued ∧
      (ops.foldl operate τ).ran = τ.ran ∧ (ops.foldl operate τ).halted = τ.halted := by
  induction ops generalizing τ with
  | nil => exact ⟨rfl, rfl, rfl, rfl⟩
  | cons op ops ih => exact ih _

theorem Inv.start {env : Env} {c : Core} (hnew : newCore cr cfg = some c) : Inv (start cr cfg env c) := by
  cases newCore_eq hnew
  have hempty : ∀ {Q : Nat → Prop}, ∀ n ∈ ([] : List Nat), Q n := fun n hn => absurd hn List.not_mem_nil
  refine ⟨rfl, fun a ha => ?_, List.pairwise_singleton _ _, hempty, ⟨List.nodup_nil, hempty⟩, ⟨List.nodup_nil, hempty⟩,
    fun k hk => (nomatch hk), fun _ => ⟨_, rfl, rfl, rfl, fun hf => absurd hf List.not_mem_nil⟩⟩
  cases List.mem_singleton.1 ha
  exact ⟨rfl, Nat.le_refl _⟩

theorem Inv.fire {τ : Timed} (h : Inv τ) {n : Nat} (hn : n < τ.timers.length) (hnew : n ∉ τ.fired) :
    Inv (τ.fire n) := by
  refine ⟨h.epoch, h.timers, h.sorted, ?_, ⟨?_, ?_⟩, ⟨h.ran.1, fun k hk => ⟨?_, ?_⟩⟩, h.halted, fun hh => ?_⟩
  · intro k hk
    rcases List.mem_cons.1 hk with rfl | hk
    · exact hn
    · exact h.fired k hk
  · exact List.nodup_cons.2 ⟨fun hq => hnew (h.queued.2 n hq), h.queued.1⟩
  · intro k hk
    rcases List.mem_cons.1 hk with rfl | hk
    · exact List.mem_cons_self
    · exact List.mem_cons_of_mem _ (h.queued.2 k hk)
  · exact List.mem_cons_of_mem _ (h.ran.2 k hk).1
  · intro hq
    rcases List.mem_cons.1 hq with rfl | hq
    · exact hnew (h.ran.2 k hk).1
    · exact (h.ran.2 k hk).2 hq
  · obtain ⟨a, hlast, hstops, htimer, hq⟩ := h.live hh
    refine ⟨a, hlast, hstops, htimer, fun hf => ?_⟩
    rcases List.mem_cons.1 hf with hf | hf
    · rw [hf]
      exact List.mem_cons_self
    · exact List.mem_cons_of_mem _ (hq hf)

theorem Inv.stop {τ : Timed} (h : Inv τ) : Inv τ.stop := by
  refine ⟨?_, fun a ha => ⟨(h.timers a ha).1, Nat.le_succ_of_le (h.timers a ha).2⟩, h.sorted, h.fired, h.queued, h.ran,
    ?_, fun hh => by cases hh⟩
  · show τ.core.pacemaker.epoch + 1 = UInt64.ofNat (τ.stops + 1)
    rw [h.epoch, UInt64.ofNat_add]
    rfl
  · intro k hk
    cases hk
    exact ⟨Nat.le_refl _, fun a ha => Nat.lt_succ_of_le (h.timers a (List.mem_of_mem_take ha)).2⟩

/-- An event taken from the queue, whatever the step made of the core: it is the timer's only one, and if it is the live
timer's, then the core arms another. -/
theorem Inv.deliver {τ : Timed} (h : Inv τ) {env : Env} {n : Nat} {a : Armed} {c : Core} {eff : List Effect}
    (hq : n ∈ τ.queued) (ha : τ.timers[n]? = some a)
    (hstep : τ.core.step cr cfg env (.localTimeout a.epoch) = .ok (c, eff)) :
    Inv (τ.deliver n a (τ.core.ops cr cfg env (.localTimeout a.epoch)) c) := by
  have h' := h.turn (Core.step_performs hstep)
  obtain ⟨hf, hqd, hr, hh⟩ := operates_frame τ (τ.core.ops cr cfg env (.localTimeout a.epoch))
  have hmem : ∀ k ∈ τ.queued.erase n, k ∈ τ.queued := fun k hk => List.mem_of_mem_erase hk
  refine ⟨h'.epoch, h'.timers, h'.sorted, h'.fired, ⟨h.queued.1.erase n, fun k hk => ?_⟩, ?_, h'.halted,
    fun hnone => ?_⟩
  · exact hf ▸ h.queued.2 k (hmem k hk)
  · have hold : ∀ k ∈ τ.ran, k ∈ (τ.turn (τ.core.ops cr cfg env (.localTimeout a.epoch)) c).fired ∧
        k ∉ τ.queued.erase n := fun k hk => ⟨hf ▸ (h.ran.2 k hk).1, fun he => (h.ran.2 k hk).2 (hmem k he)⟩
    unfold Timed.deliver
    dsimp only
    split
    · refine ⟨List.nodup_cons.2 ⟨fun hn => (h.ran.2 n hn).2 hq, h.ran.1⟩, fun k hk => ?_⟩
      rcases List.mem_cons.1 hk with rfl | hk
      · exact ⟨hf ▸ h.queued.2 k hq, h.queued.1.not_mem_erase⟩
      · exact hold k hk
    · exact ⟨h.ran.1, hold⟩
  · obtain ⟨b, hlast, hstops, htimer, hlive⟩ := h'.live hnone
    refine ⟨b, hlast, hstops, htimer, fun hfired => ?_⟩
    by_cases hep : a.epoch = τ.core.pacemaker.epoch
    · -- the event runs `LocalTimeoutRound`, whose timer cannot have fired
      have hlen : (τ.turn (τ.core.ops cr cfg env (.localTimeout a.epoch)) c).timers.length = τ.timers.length + 1 := by
        simp [Core.ops, hep, Timed.turn, Timed.operate, Op.arms, Pacemaker.perform, Pacemaker.startTimer]
      unfold Timed.deliver at hfired
      rw [hlen, Nat.add_sub_cancel] at hfired
      exact absurd (h.fired _ (hf ▸ hfired)) (Nat.lt_irrefl _)
    · -- the event is dropped, so it was not the live timer's
      have hops : τ.core.ops cr cfg env (.localTimeout a.epoch) = [] := by rw [Core.ops, if_neg hep]
      rw [hops] at hlast hstops hlive hfired ⊢
      refine (List.mem_erase_of_ne (fun hn => hep ?_)).2 (hlive hfired)
      have hb : τ.timers[τ.timers.length - 1]? = some b := by rw [← List.getLast?_eq_getElem?]; exact hlast
      have hn' : τ.timers.length - 1 = n := hn
      rw [hn', ha] at hb
      cases hb
      rw [(h.timers a (List.mem_of_getElem? ha)).1, h.epoch]
      exact congrArg UInt64.ofNat hstops

theorem Run.inv {τ : Timed} (h : Run cr cfg P τ) : Inv τ := by
  induction h with
  | start env c hnew => exact Inv.start hnew
  | next _ hs ih =>
    cases hs with
    | step env e c eff _ _ hstep => exact ih.turn (Core.step_performs hstep)
    | fire n hn hnew => exact ih.fire hn hnew
    | deliver env n a c eff hq ha hstep => exact ih.deliver hq ha hstep
    | stop => exact ih.stop

/-! ## Live timers -/

/-- Timer `n` is armed, or fired and its event still queued, with the current epoch: stepped now, its event would run
`LocalTimeoutRound`. -/
def Live (τ : Timed) (n : Nat) : Prop :=
  (n ∉ τ.fired ∨ n ∈ τ.queued) ∧ ∃ a, τ.timers[n]? = some a ∧ a.epoch = τ.core.pacemaker.epoch

/-- The epoch has not gone all the way round since timer `n` was armed. -/
def Young (τ : Timed) (n : Nat) : Prop := ∀ a, τ.timers[n]? = some a → τ.stops < a.stops + 2 ^ 64

theorem eq_of_ofNat_eq {m n : Nat} (h : UInt64.ofNat m = UInt64.ofNat n) (hle : m ≤ n) (hlt : n < m + 2 ^ 64) :
    m = n := by
  have h' := congrArg UInt64.toNat h
  simp only [UInt64.toNat_ofNat'] at h'
  omega

/-- **A young timer with the current epoch was armed by the last `Stop`**, so it is the last one. -/
theorem Inv.last_of_live {τ : Timed} (h : Inv τ) {n : Nat} (hn : τ.Live n) (hy : τ.Young n) :
    n + 1 = τ.timers.length ∧ ∀ k, τ.halted = some k → k ≤ n := by
  obtain ⟨-, a, ha, hep⟩ := hn
  obtain ⟨hepoch, hle⟩ := h.timers a (List.mem_of_getElem? ha)
  have hstops : a.stops = τ.stops := eq_of_ofNat_eq (by rw [← hepoch, hep, h.epoch]) hle (hy a ha)
  obtain ⟨hlt, hget⟩ := List.getElem?_eq_some_iff.1 ha
  constructor
  · by_contra hne
    have hlt' : n + 1 < τ.timers.length := by omega
    have hpair := List.pairwise_iff_getElem.1 h.sorted n (n + 1) hlt hlt' (Nat.lt_succ_self n)
    have hbound := (h.timers _ (List.getElem_mem hlt')).2
    rw [hget] at hpair
    omega
  · intro k hk
    by_contra hnk
    have hmem : a ∈ τ.timers.take k := by
      rw [List.mem_take_iff_getElem]
      exact ⟨n, by omega, hget⟩
    have := (h.halted k hk).2 a hmem
    omega

/-- The live timer fires and its event is stepped: the core arms the next, and the rest of the queue waits on. -/
theorem Run.rearm {τ : Timed} (h : Run cr cfg P τ) (env : Env) (hh : τ.halted = none)
    (hf : τ.timers.length - 1 ∉ τ.fired) :
    ∃ τ' a, Run cr cfg P τ' ∧ τ'.halted = none ∧ τ'.stops = τ.stops + 1 ∧ τ'.timers = τ.timers ++ [a] ∧
      τ'.timers.length - 1 ∉ τ'.fired ∧ τ'.queued = τ.queued := by
  obtain ⟨a, hlast, hstops, -⟩ := h.inv.live hh
  have ha : τ.timers[τ.timers.length - 1]? = some a := by rw [← List.getLast?_eq_getElem?]; exact hlast
  have hlen : τ.timers.length - 1 < τ.timers.length := (List.getElem?_eq_some_iff.1 ha).1
  have hep : a.epoch = τ.core.pacemaker.epoch := by
    rw [(h.inv.timers a (List.mem_of_getElem? ha)).1, hstops, h.inv.epoch]
  have hfire := h.next (.fire _ hlen hf)
  have hstep : τ.core.step cr cfg env (.localTimeout a.epoch) = .ok (τ.core.localTimeoutRound cr cfg env) := by
    rw [Core.step, if_pos hep]
  have hops : τ.core.ops cr cfg env (.localTimeout a.epoch) = [.localTimeoutRound] := by rw [Core.ops, if_pos hep]
  have hrun := hfire.next (.deliver env _ a _ _ List.mem_cons_self ha hstep)
  rw [fire, hops] at hrun
  refine ⟨_, ⟨τ.core.pacemaker.epoch + 1, τ.stops + 1⟩, hrun, hh, rfl, rfl, fun hmem => ?_, List.erase_cons_head _ _⟩
  -- the new timer's number is the old ones' count
  have hlt : (τ.timers ++ [(⟨τ.core.pacemaker.epoch + 1, τ.stops + 1⟩ : Armed)]).length - 1 < τ.timers.length :=
    hfire.inv.fired _ hmem
  rw [List.length_append] at hlt
  exact absurd hlt (Nat.lt_irrefl _)

end Timed

/-- Replica 3, started, with its first timer. -/
def Chain.timed : Timed := Timed.start Chain.net.crypto (Chain.net.config 3) Chain.env Chain.replica

abbrev Chain.TimedRun : Timed → Prop := Timed.Run Chain.net.crypto (Chain.net.config 3) Chain.net.Admits

theorem Chain.timed_run : Chain.TimedRun Chain.timed := .start Chain.env Chain.replica (if_neg (by decide))

/-- Block 2 arrives in round 1, and its certificate enters round 2. -/
theorem Chain.timed_enters {τ : Timed} (h : Chain.TimedRun τ) (hround : ¬ 1 < τ.core.pacemaker.currentRound)
    (hok : (τ.core.step Chain.net.crypto (Chain.net.config 3) Chain.env
      (.proposal (Chain.proposal 2 none))).isOk = true) :
    ∃ τ', Chain.TimedRun τ' ∧ τ'.timers = τ.timers ++ [⟨UInt64.ofNat (τ.stops + 1), τ.stops + 1⟩] ∧
      τ'.stops = τ.stops + 1 ∧ τ'.fired = τ.fired ∧ τ'.queued = τ.queued ∧ τ'.halted = τ.halted := by
  have he : Chain.net.Admits (.proposal (Chain.proposal 2 none)) := by decide +kernel
  have harms : Pacemaker.Op.arms τ.core.pacemaker (.advanceRoundQC (Chain.cert 1)) = true := by
    have hcert : (Chain.cert 1).voteInfo.round = 1 := rfl
    rw [Pacemaker.Op.arms, Pacemaker.advanceRoundQC_eq, hcert, if_neg hround]
  have hstops : Pacemaker.Op.stops τ.core.pacemaker (.advanceRoundQC (Chain.cert 1)) = 1 := by
    simp [Pacemaker.Op.stops, harms]
  cases hs : τ.core.step Chain.net.crypto (Chain.net.config 3) Chain.env (.proposal (Chain.proposal 2 none)) with
  | error s =>
    rw [hs] at hok
    cases hok
  | ok r =>
    have hop := Timed.operate_of_arms h.inv.epoch harms
    rw [hstops] at hop
    have hturn : τ.turn (τ.core.ops Chain.net.crypto (Chain.net.config 3) Chain.env
        (.proposal (Chain.proposal 2 none))) r.1 =
        { τ.operate (.advanceRoundQC (Chain.cert 1)) with core := r.1 } := rfl
    refine ⟨_, h.next (.step Chain.env _ r.1 r.2 he (fun _ hl => by cases hl) hs), ?_⟩
    rw [hturn, hop]
    exact ⟨rfl, rfl, rfl, rfl, rfl⟩

/-! ## The discipline -/

/-- **Round timer discipline**: the event of a young timer runs `LocalTimeoutRound` only if no timer was armed and
`Core.Stop` not called since it was armed; no timer's event ever does so twice; and until `Core.Stop` the timer armed
last is live, the only young one that is, and the pacemaker's. -/
theorem timer_discipline {cr : Crypto} {cfg : Config} {P : Event → Prop} {τ : Timed} (h : Timed.Run cr cfg P τ) :
    (∀ n ∈ τ.queued, τ.Live n → τ.Young n → n + 1 = τ.timers.length ∧ ∀ k, τ.halted = some k → k ≤ n) ∧
    τ.ran.Nodup ∧ (∀ n ∈ τ.ran, n ∉ τ.queued) ∧
    (τ.halted = none → τ.Live (τ.timers.length - 1) ∧ τ.core.pacemaker.timer = some τ.core.pacemaker.epoch ∧
      ∀ n, τ.Live n → τ.Young n → n = τ.timers.length - 1) := by
  have hinv := h.inv
  refine ⟨fun n _ hn hy => hinv.last_of_live hn hy, hinv.ran.1, fun n hn => (hinv.ran.2 n hn).2, fun hh => ?_⟩
  obtain ⟨a, hlast, hstops, htimer, hq⟩ := hinv.live hh
  have hep : a.epoch = τ.core.pacemaker.epoch := by
    rw [(hinv.timers a (List.mem_of_getLast? hlast)).1, hstops, hinv.epoch]
  refine ⟨⟨?_, a, by rw [← List.getLast?_eq_getElem?]; exact hlast, hep⟩, by rw [htimer, hep], fun n hn hy => ?_⟩
  · by_cases hf : τ.timers.length - 1 ∈ τ.fired
    · exact .inr (hq hf)
    · exact .inl hf
  · exact Nat.eq_sub_of_add_eq (hinv.last_of_live hn hy).1

/-- The first timer's event is queued when block 2 arrives: only the second timer is live. -/
theorem chain_timer :
    ∃ τ, Chain.TimedRun τ ∧ τ.timers.length = 2 ∧ 0 ∈ τ.queued ∧ τ.Live 1 ∧ ¬ τ.Live 0 := by
  have hrun : Chain.TimedRun (Chain.timed.fire 0) := Chain.timed_run.next (.fire 0 (by decide) (by decide))
  obtain ⟨τ, hτ, ht, hs, -, hq, hh⟩ := Chain.timed_enters hrun (by decide) (by decide +kernel)
  have hlen : τ.timers.length = 2 := by rw [ht]; rfl
  obtain ⟨-, -, -, hlive⟩ := timer_discipline hτ
  obtain ⟨hlast, -, honly⟩ := hlive hh
  rw [hlen] at hlast honly
  refine ⟨τ, hτ, hlen, by rw [hq]; exact List.mem_cons_self, hlast, fun h0 => ?_⟩
  refine absurd (honly 0 h0 (fun a ha => ?_)) (by decide)
  rw [hs]
  exact Nat.lt_of_lt_of_le (by decide : Chain.timed.stops + 1 < 2 ^ 64) (Nat.le_add_left _ _)

/-- The live timer fires and is stepped, over and over, with the first timer's event at the back of the queue. -/
theorem Chain.timed_waits (k : Nat) :
    ∃ τ, Chain.TimedRun τ ∧ τ.halted = none ∧ τ.stops = 2 + k ∧ τ.timers.length = 2 + k ∧
      τ.timers[0]? = some ⟨1, 1⟩ ∧ 0 ∈ τ.queued ∧ τ.timers.length - 1 ∉ τ.fired := by
  induction k with
  | zero =>
    have hrun : Chain.TimedRun (Chain.timed.fire 0) := Chain.timed_run.next (.fire 0 (by decide) (by decide))
    obtain ⟨τ, hτ, ht, hs, hf, hq, hh⟩ := Chain.timed_enters hrun (by decide) (by decide +kernel)
    refine ⟨τ, hτ, hh, hs, by rw [ht]; rfl, by rw [ht]; rfl, by rw [hq]; exact List.mem_cons_self, ?_⟩
    rw [ht, hf]
    decide
  | succ k ih =>
    obtain ⟨τ, hτ, hh, hs, hlen, h0, hq, hf⟩ := ih
    obtain ⟨τ', a, hτ', hh', hs', ht', hf', hq'⟩ := hτ.rearm Chain.env hh hf
    refine ⟨τ', hτ', hh', by rw [hs', hs]; rfl, by rw [ht', List.length_append, hlen]; rfl, ?_, hq' ▸ hq, hf'⟩
    rw [ht', List.getElem?_append_left (by omega), h0]

/-- **The discipline has two limits**: a core that is stepped after `Core.Stop` arms timers again, and their events run
`LocalTimeoutRound`; and an event that waits while the epoch goes all the way round runs it, though other timers were
armed since. -/
theorem timer_limits :
    (∃ τ k, Chain.TimedRun τ ∧ τ.halted = some k ∧ ∃ n ∈ τ.queued, τ.Live n) ∧
    ∃ τ, Chain.TimedRun τ ∧ τ.halted = none ∧ ∃ n ∈ τ.queued, τ.Live n ∧ n + 1 < τ.timers.length := by
  constructor
  · have hrun : Chain.TimedRun Chain.timed.stop := Chain.timed_run.next .stop
    obtain ⟨τ, hτ, ht, hs, hf, -, hh⟩ := Chain.timed_enters hrun (by decide) (by decide +kernel)
    have hfire : Chain.TimedRun (τ.fire 1) := hτ.next (.fire 1 (by rw [ht]; decide) (by rw [hf]; decide))
    refine ⟨τ.fire 1, 1, hfire, hh, 1, List.mem_cons_self, .inr List.mem_cons_self, ⟨3, 3⟩, ?_, ?_⟩
    · show τ.timers[1]? = _
      rw [ht]
      rfl
    · rw [hfire.inv.epoch]
      show (3 : UInt64) = UInt64.ofNat τ.stops
      rw [hs]
      rfl
  · obtain ⟨τ, hτ, hh, hs, hlen, h0, hq, -⟩ := Chain.timed_waits (2 ^ 64 - 1)
    refine ⟨τ, hτ, hh, 0, hq, ⟨.inr hq, ⟨1, 1⟩, h0, ?_⟩, by rw [hlen]; omega⟩
    rw [hτ.inv.epoch, hs]
    decide

end Diem

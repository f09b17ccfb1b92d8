import Mathlib.Data.Finset.Card
import Mathlib.Logic.Relation
/-!
# Ballot — voters with two counters, and what their quorums cannot do

A voter signs votes and timeouts.  It remembers the last round it signed for and the highest certified round it has
voted over, and that alone orders its history (`Recorded`, `Before`).  A set of voters is a quorum when any two quorums
share an honest one.  From the two, with nothing about messages or time:
- a round has one certified content (`certified_unique`);
- a quorum of timeouts for a round after `r` reports a certified round of at least `r`, once a vote over `r` in the
  next round is certified (`timedOut_remembers`);
- no certified content at or above such an `r` lies off the chain through what `r` certified (`certified_extends`).
-/
namespace Ballot

/-! ## One voter's history -/

/-- A vote for `v` in `round` over the certified round `below`, or a timeout of `round` that reports `high`. -/
inductive Act (V : Type) where
  | vote (round below : Nat) (v : V)
  | timeout (round high : Nat)

variable {V : Type}

/-- What an earlier act asks of a later one. -/
def Act.Before : Act V → Act V → Prop
  | .vote r _ _,  .vote r' _ _  => r < r'
  | .timeout r _, .vote r' _ _  => r < r'
  | .vote _ q _,  .timeout _ h  => q ≤ h
  | .timeout _ _, .timeout _ _  => True

/-- The act is covered by the two counters. -/
def Act.Within (voted certified : Nat) : Act V → Prop
  | .vote r q _  => r ≤ voted ∧ q ≤ certified
  | .timeout r _ => r ≤ voted

/-- **The counters record the history.** -/
structure Recorded (voted certified : Nat) (hist : List (Act V)) : Prop where
  within  : ∀ a ∈ hist, a.Within voted certified
  ordered : hist.Pairwise Act.Before

theorem Recorded.nil (voted certified : Nat) : Recorded voted certified ([] : List (Act V)) :=
  ⟨by simp, List.Pairwise.nil⟩

theorem Act.Within.mono {a : Act V} {n c n' c' : Nat} (hn : n ≤ n') (hc : c ≤ c') (h : a.Within n c) :
    a.Within n' c' := by
  cases a with
  | vote r q v => exact ⟨Nat.le_trans h.1 hn, Nat.le_trans h.2 hc⟩
  | timeout r q => exact Nat.le_trans h hn

theorem Recorded.mono {n c n' c' : Nat} {hist : List (Act V)} (hn : n ≤ n') (hc : c ≤ c') (h : Recorded n c hist) :
    Recorded n' c' hist := ⟨fun a ha => (h.within a ha).mono hn hc, h.ordered⟩

theorem Recorded.snoc {n c n' c' : Nat} {hist : List (Act V)} {a : Act V} (h : Recorded n c hist) (hn : n ≤ n')
    (hc : c ≤ c') (ha : a.Within n' c') (hb : ∀ x ∈ hist, x.Before a) : Recorded n' c' (hist ++ [a]) := by
  refine ⟨fun x hx => ?_, ?_⟩
  · rcases List.mem_append.1 hx with hx | hx
    · exact (h.within x hx).mono hn hc
    · rw [List.mem_singleton.1 hx]; exact ha
  · refine List.pairwise_append.2 ⟨h.ordered, List.pairwise_singleton _ _, fun x hx y hy => ?_⟩
    rw [List.mem_singleton.1 hy]
    exact hb x hx

/-- A vote in a round above the first counter keeps the record; it raises both counters. -/
theorem Recorded.vote {n c : Nat} {hist : List (Act V)} (h : Recorded n c hist) (r q : Nat) (v : V) (hr : n < r) :
    Recorded r (max c q) (hist ++ [.vote r q v]) := by
  refine h.snoc (by omega) (by omega) ⟨Nat.le_refl r, by omega⟩ (fun x hx => ?_)
  have hx := h.within x hx
  cases x with
  | vote r' q' v' => exact Nat.lt_of_le_of_lt hx.1 hr
  | timeout r' h' => exact Nat.lt_of_le_of_lt hx hr

/-- A timeout of a round no lower than the first counter, reporting no less than the second, keeps it too. -/
theorem Recorded.timeout {n c : Nat} {hist : List (Act V)} (h : Recorded n c hist) (r q : Nat) (hr : n ≤ r)
    (hq : c ≤ q) : Recorded r c (hist ++ [.timeout r q]) := by
  refine h.snoc hr (Nat.le_refl c) (Nat.le_refl r) (fun x hx => ?_)
  have hx := h.within x hx
  cases x with
  | vote r' q' v' => exact Nat.le_trans hx.2 hq
  | timeout r' h' => trivial

/-! ## Quorums -/

/-- Two sets of `q` out of `n`, with `n + f < 2 q`, share more than `f` members. -/
theorem lt_card_inter {ι : Type} [DecidableEq ι] {S A B : Finset ι} {q f : Nat} (hA : A ⊆ S) (hB : B ⊆ S)
    (hqA : q ≤ A.card) (hqB : q ≤ B.card) (hq : S.card + f < 2 * q) : f < (A ∩ B).card := by
  have hu := Finset.card_le_card (Finset.union_subset hA hB)
  have hi := Finset.card_union_add_card_inter A B
  omega

/-- **The bound is sharp**: two sets of `k` need not share more than `f`, if `2 k` is at most `n + f`. -/
theorem exists_card_inter_le {ι : Type} [DecidableEq ι] {S : Finset ι} {k f : Nat} (hk : k ≤ S.card)
    (h : 2 * k ≤ S.card + f) : ∃ A ⊆ S, ∃ B ⊆ S, A.card = k ∧ B.card = k ∧ (A ∩ B).card ≤ f := by
  obtain ⟨A, hA, hcA⟩ := Finset.exists_subset_card_eq hk
  have hrest : (S \ A).card = S.card - k := by rw [Finset.card_sdiff_of_subset hA, hcA]
  by_cases hle : k ≤ S.card - k
  · -- there is room for a second set beside the first
    obtain ⟨B, hB, hcB⟩ := Finset.exists_subset_card_eq (hrest.symm ▸ hle)
    refine ⟨A, hA, B, hB.trans Finset.sdiff_subset, hcA, hcB, ?_⟩
    have hdisj : Disjoint A B := Finset.disjoint_of_subset_right hB Finset.disjoint_sdiff
    rw [Finset.disjoint_iff_inter_eq_empty.1 hdisj]
    exact Nat.zero_le f
  · -- the second set takes all that the first leaves, and the rest of it from the first
    obtain ⟨B, hrestB, hB, hcB⟩ := Finset.exists_subsuperset_card_eq (Finset.sdiff_subset (s := S) (t := A))
      (by omega : (S \ A).card ≤ k) hk
    refine ⟨A, hA, B, hB, hcA, hcB, ?_⟩
    have hout : S \ A ⊆ B \ A := fun x hx => Finset.mem_sdiff.2 ⟨hrestB hx, (Finset.mem_sdiff.1 hx).2⟩
    have hcard := Finset.card_le_card hout
    have hsplit := Finset.card_sdiff_add_card_inter B A
    rw [Finset.inter_comm] at hsplit
    omega

/-- More than `f` members are not all among `f`. -/
theorem exists_notMem_of_card_lt {ι : Type} [DecidableEq ι] {A F : Finset ι} (h : F.card < A.card) :
    ∃ i ∈ A, i ∉ F := by
  by_contra hn
  push Not at hn
  exact absurd (Finset.card_le_card hn) (by omega)

/-- **Voters, and the sets of them that count as a quorum**: any two share an honest voter, and every honest voter's
history is one its two counters allow. -/
structure Election (ι V : Type) where
  hist    : ι → List (Act V)
  honest  : Set ι
  quorum  : Set (Finset ι)
  meet    : ∀ A ∈ quorum, ∀ B ∈ quorum, ∃ i ∈ honest, i ∈ A ∧ i ∈ B
  ordered : ∀ i ∈ honest, (hist i).Pairwise Act.Before

namespace Election

variable {ι : Type} (E : Election ι V)

/-- Every honest member of some quorum voted so. -/
def Certified (r q : Nat) (v : V) : Prop :=
  ∃ A ∈ E.quorum, ∀ i ∈ A, i ∈ E.honest → Act.vote r q v ∈ E.hist i

/-- Every honest member of some quorum gave up on round `t`, reporting `H` at most. -/
def TimedOut (t H : Nat) : Prop :=
  ∃ A ∈ E.quorum, ∀ i ∈ A, i ∈ E.honest → ∃ h ≤ H, Act.timeout t h ∈ E.hist i

theorem eq_or_before {i : ι} (hi : i ∈ E.honest) {a b : Act V} (ha : a ∈ E.hist i) (hb : b ∈ E.hist i) :
    a = b ∨ a.Before b ∨ b.Before a := by
  have hp := E.ordered i hi
  generalize E.hist i = l at hp ha hb
  induction l with
  | nil => cases ha
  | cons x l ih =>
    have hx : ∀ y ∈ l, x.Before y := fun y hy => List.rel_of_pairwise_cons hp hy
    rcases List.mem_cons.1 ha with rfl | hal
    · rcases List.mem_cons.1 hb with rfl | hbl
      · exact .inl rfl
      · exact .inr (.inl (hx b hbl))
    · rcases List.mem_cons.1 hb with rfl | hbl
      · exact .inr (.inr (hx a hal))
      · exact ih hp.of_cons hal hbl

/-- **One content a round.** -/
theorem certified_unique {r q q' : Nat} {v v' : V} (h : E.Certified r q v) (h' : E.Certified r q' v') :
    q = q' ∧ v = v' := by
  obtain ⟨A, hA, hv⟩ := h
  obtain ⟨B, hB, hv'⟩ := h'
  obtain ⟨i, hi, hiA, hiB⟩ := E.meet A hA B hB
  rcases E.eq_or_before hi (hv i hiA hi) (hv' i hiB hi) with heq | hlt | hlt
  · cases heq; exact ⟨rfl, rfl⟩
  · exact absurd hlt (Nat.lt_irrefl r)
  · exact absurd hlt (Nat.lt_irrefl r)

/-- **A quorum of timeouts remembers**: a voter common to both quorums either voted first, and reports what it voted
over, or gave up first, and then could not have voted in `r + 1`. -/
theorem timedOut_remembers {r t H : Nat} {v : V} (h : E.Certified (r + 1) r v) (ht : E.TimedOut t H) (hrt : r < t) :
    r ≤ H := by
  obtain ⟨A, hA, hv⟩ := h
  obtain ⟨B, hB, hto⟩ := ht
  obtain ⟨i, hi, hiA, hiB⟩ := E.meet A hA B hB
  obtain ⟨h, hH, hto⟩ := hto i hiB hi
  rcases E.eq_or_before hi (hv i hiA hi) hto with heq | hle | hlt
  · cases heq
  · exact Nat.le_trans hle hH
  · have : t < r + 1 := hlt
    omega

/-! ## The chain below a certificate -/

section Chain

variable {I : Type} (id parent : V → I) (root : I)

/-- Round `q` certifies the content named `p`; round 0 certifies the root. -/
def Backed (q : Nat) (p : I) : Prop :=
  (q = 0 ∧ p = root) ∨ ∃ q' w, E.Certified q q' w ∧ id w = p

/-- **The rule an honest vote obeys**: it is over a lower certified round, which is the round directly below or is no
lower than anything a quorum of timeouts of that round reported. -/
def Justified : Prop :=
  ∀ i ∈ E.honest, ∀ r q v, Act.vote r q v ∈ E.hist i →
    q < r ∧ E.Backed id root q (parent v) ∧ (r = q + 1 ∨ ∃ t H, t + 1 = r ∧ H ≤ q ∧ E.TimedOut t H)

/-- One step down the chain, from a certified content to its parent. -/
def Link (x y : I) : Prop := ∃ r q w, E.Certified r q w ∧ id w = x ∧ parent w = y

variable {id parent root}

theorem Justified.of_certified (hj : E.Justified id parent root) {r q : Nat} {v : V} (h : E.Certified r q v) :
    q < r ∧ E.Backed id root q (parent v) ∧ (r = q + 1 ∨ ∃ t H, t + 1 = r ∧ H ≤ q ∧ E.TimedOut t H) := by
  obtain ⟨A, hA, hv⟩ := h
  obtain ⟨i, hi, hiA, -⟩ := E.meet A hA A hA
  exact hj i hi r q v (hv i hiA hi)

/-- **Certified contents do not fork off a directly committed one**: once a vote in round `r + 1` over round `r` is
certified, every certified content from round `r` on has what `r` certified on its chain. -/
theorem certified_extends (hj : E.Justified id parent root) {r₀ : Nat} {c : V} (hc : E.Certified (r₀ + 1) r₀ c) :
    ∀ (r q : Nat) (v : V), r₀ ≤ r → E.Certified r q v → Relation.ReflTransGen (E.Link id parent) (id v) (parent c) := by
  intro r
  -- down the rounds: the certificate a vote is over is of a lower round, and still of round `r₀` or more
  induction r using Nat.strong_induction_on with
  | _ r ih =>
    intro q v hr hv
    obtain ⟨hqr, hback, hwhy⟩ := hj.of_certified E hv
    have hstep : E.Link id parent (id v) (parent v) := ⟨r, q, v, hv, rfl, rfl⟩
    rcases Nat.lt_trichotomy r (r₀ + 1) with hlt | heq | hgt
    · obtain rfl : r = r₀ := by omega
      obtain ⟨-, hbc, -⟩ := hj.of_certified E hc
      rcases hbc with ⟨h0, -⟩ | ⟨q', w, hw, hid⟩
      · omega
      · obtain ⟨-, rfl⟩ := E.certified_unique hv hw
        rw [hid]
    · subst heq
      obtain ⟨-, rfl⟩ := E.certified_unique hv hc
      exact .single hstep
    · have hrq : r₀ ≤ q := by
        rcases hwhy with h | ⟨t, H, htr, hH, ht⟩
        · omega
        · have := E.timedOut_remembers hc ht (by omega)
          omega
      rcases hback with ⟨h0, hroot⟩ | ⟨q', w, hw, hid⟩
      · obtain ⟨-, hbc, -⟩ := hj.of_certified E hc
        rcases hbc with ⟨-, hroot'⟩ | ⟨q', w, hw, -⟩
        · rw [hroot', ← hroot]; exact .single hstep
        · have := (hj.of_certified E hw).1
          omega
      · refine .head hstep ?_
        rw [← hid]
        exact ih q hqr q' w hrq hw

end Chain

end Election

end Ballot

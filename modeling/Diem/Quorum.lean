import Mathlib.Algebra.Ring.Int.Defs
import Mathlib.Order.Bounds.Defs
import Diem.Ballot
import Diem.Verify
/-!
# Quorum — the two sizes (`quorum.go`)

`Faulty` and `QuorumSize` are two divisions that drop remainders.  For every `n`, and not only `3f + 1`, they fit: any
two quorums share more than `f` members, and no smaller size will do.  Both are Go `int`s, and numbers here; up to the
size at which the sum overflows they compute the same (`quorumSize_int64`), and ids of 32 bits give no group that large.
-/
namespace Diem

theorem lt_two_quorumSize (n : Nat) : n + faulty n < 2 * quorumSize n := by unfold quorumSize; omega

theorem faulty_lt_quorumSize (n : Nat) : faulty n < quorumSize n := by unfold quorumSize faulty; omega

/-- What is left when the faulty are silent is still a quorum. -/
theorem quorumSize_le {n : Nat} (hn : 1 ≤ n) : quorumSize n ≤ n - faulty n := by unfold quorumSize faulty; omega

/-- The faulty are a minority of every quorum. -/
theorem two_faulty_lt_quorumSize {n : Nat} (hn : 1 ≤ n) : 2 * faulty n < quorumSize n := by
  unfold quorumSize faulty; omega

/-- A size below the quorum's is too small for two sets of it to overlap by more than `f`. -/
theorem two_mul_le_of_lt_quorumSize {n k : Nat} (h : k < quorumSize n) : 2 * k ≤ n + faulty n := by
  unfold quorumSize at h; omega

/-- **`int` computes the sizes**, short of overflow. -/
theorem quorumSize_int64 {n : Int64} (h1 : 1 ≤ n.toInt) (hn : n.toInt + (n.toInt - 1) / 3 + 2 < 2 ^ 63) :
    ((n + (n - 1) / 3 + 2) / 2).toInt = quorumSize n.toInt.toNat := by
  have hsub : (n - 1).toInt = n.toInt - 1 := by
    rw [Int64.toInt_sub, show (1 : Int64).toInt = 1 from rfl]
    exact Int.bmod_eq_of_le (by omega) (by omega)
  have hfaulty : ((n - 1) / 3).toInt = (n.toInt - 1) / 3 := by
    rw [Int64.toInt_div, show (3 : Int64).toInt = 3 from rfl, hsub, Int.tdiv_eq_ediv_of_nonneg (by omega)]
    exact Int.bmod_eq_of_le (by omega) (by omega)
  have hadd : (n + (n - 1) / 3).toInt = n.toInt + (n.toInt - 1) / 3 := by
    rw [Int64.toInt_add, hfaulty]
    exact Int.bmod_eq_of_le (by omega) (by omega)
  have hsum : (n + (n - 1) / 3 + 2).toInt = n.toInt + (n.toInt - 1) / 3 + 2 := by
    rw [Int64.toInt_add, hadd, show (2 : Int64).toInt = 2 from rfl]
    exact Int.bmod_eq_of_le (by omega) (by omega)
  rw [Int64.toInt_div, show (2 : Int64).toInt = 2 from rfl, hsum, Int.tdiv_eq_ediv_of_nonneg (by omega),
    Int.bmod_eq_of_le (by omega) (by omega), quorumSize, faulty]
  omega

/-- **Quorums of any group.**  Two quorums share `f + 1` validators; whichever `f` are silent, the others hold a quorum;
whichever `f` are Byzantine, every quorum holds `f + 1` others; and two sets of one size are sure to share `f + 1` only
from the size of a quorum on. -/
theorem quorums_intersect {ι : Type} [DecidableEq ι] (V : Finset ι) (hV : 1 ≤ V.card) :
    (∀ A ⊆ V, ∀ B ⊆ V, quorumSize V.card ≤ A.card → quorumSize V.card ≤ B.card → faulty V.card + 1 ≤ (A ∩ B).card) ∧
    (∀ A ⊆ V, V.card - faulty V.card ≤ A.card → ∃ Q ⊆ A, Q.card = quorumSize V.card) ∧
    (∀ A ⊆ V, quorumSize V.card ≤ A.card → ∀ F : Finset ι, F.card ≤ faulty V.card → faulty V.card + 1 ≤ (A \ F).card) ∧
    IsLeast {k | ∀ A ⊆ V, ∀ B ⊆ V, A.card = k → B.card = k → faulty V.card + 1 ≤ (A ∩ B).card} (quorumSize V.card) := by
  have hmeet : ∀ A ⊆ V, ∀ B ⊆ V, quorumSize V.card ≤ A.card → quorumSize V.card ≤ B.card →
      faulty V.card + 1 ≤ (A ∩ B).card := fun A hA B hB hqA hqB =>
    Ballot.lt_card_inter hA hB hqA hqB (lt_two_quorumSize _)
  refine ⟨hmeet, fun A _ hlen => ?_, fun A _ hq F hF => ?_, fun A hA B hB hqA hqB => hmeet A hA B hB hqA.ge hqB.ge,
    fun k hk => ?_⟩
  · exact Finset.exists_subset_card_eq ((quorumSize_le hV).trans hlen)
  · have hsub := Finset.le_card_sdiff F A
    have hminor := two_faulty_lt_quorumSize hV
    omega
  · by_contra hlt
    -- below the size of a quorum there are two sets that overlap by `f` at most
    have hsmall := two_mul_le_of_lt_quorumSize (Nat.lt_of_not_le hlt)
    have hfit := quorumSize_le hV
    obtain ⟨A, hA, B, hB, hcA, hcB, hinter⟩ := Ballot.exists_card_inter_le (S := V) (by omega) hsmall
    have hshare := hk A hA B hB hcA hcB
    omega

/-- Six validators tolerate one faulty, and four is the least size of a quorum, not three. -/
theorem six_quorums : 1 ≤ (Finset.range 6).card ∧
    IsLeast {k | ∀ A ⊆ Finset.range 6, ∀ B ⊆ Finset.range 6, A.card = k → B.card = k → 2 ≤ (A ∩ B).card} 4 :=
  ⟨by decide, (quorums_intersect (Finset.range 6) (by decide)).2.2.2⟩

end Diem

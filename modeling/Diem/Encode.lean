import Mathlib.Algebra.Group.Nat.Defs
import Mathlib.Data.List.Basic
import Mathlib.Data.List.Forall2
/-!
# Encode — byte strings that can be read back

Fixed-width big-endian numbers, and fields put one after the other so that the concatenation determines them: a field
behind its own length (`frame_append_inj`), and a list of such fields behind their number (`frames_append_inj`).  Each
injectivity lemma leaves the rest of the string on the right, so fields are peeled off from the left one by one.
-/
namespace Encode

/-- `v` in `k` bytes, big-endian; the higher bytes are dropped. -/
def beBytes : Nat → Nat → List UInt8
  | 0,     _ => []
  | k + 1, v => beBytes k (v / 256) ++ [UInt8.ofNat v]

/-- The number a big-endian string spells. -/
def beNat (l : List UInt8) : Nat := l.foldl (fun acc b => acc * 256 + b.toNat) 0

@[simp] theorem length_beBytes : ∀ (k v : Nat), (beBytes k v).length = k
  | 0,     _ => rfl
  | k + 1, v => by simp [beBytes, length_beBytes k]

theorem beNat_beBytes : ∀ (k v : Nat), beNat (beBytes k v) = v % 256 ^ k
  | 0,     v => by simp [beBytes, beNat, Nat.mod_one]
  | k + 1, v => by
    have ih := beNat_beBytes k (v / 256)
    unfold beNat at ih ⊢
    rw [beBytes, List.foldl_append, ih]
    have h256 : 256 ^ (k + 1) = 256 * 256 ^ k := Nat.pow_succ'
    simp only [List.foldl_cons, List.foldl_nil, UInt8.toNat_ofNat', h256, Nat.mod_mul]
    omega

/-- The highest byte first: the rest is the number without it. -/
theorem beBytes_succ : ∀ (k v : Nat), beBytes (k + 1) v = UInt8.ofNat (v / 256 ^ k) :: beBytes k v
  | 0,     v => by simp [beBytes]
  | k + 1, v => by
    rw [beBytes, beBytes_succ k, beBytes, List.cons_append, Nat.div_div_eq_div_mul, ← Nat.pow_succ']

theorem beBytes_inj {k v w : Nat} (hv : v < 256 ^ k) (hw : w < 256 ^ k) (h : beBytes k v = beBytes k w) : v = w := by
  have e := congrArg beNat h
  rwa [beNat_beBytes, beNat_beBytes, Nat.mod_eq_of_lt hv, Nat.mod_eq_of_lt hw] at e

/-- `v` in `k` bytes, lowest first. -/
def leBytes : Nat → Nat → List UInt8
  | 0,     _ => []
  | k + 1, v => UInt8.ofNat v :: leBytes k (v / 256)

theorem reverse_leBytes : ∀ (k v : Nat), (leBytes k v).reverse = beBytes k v
  | 0,     _ => rfl
  | k + 1, v => by rw [leBytes, List.reverse_cons, reverse_leBytes k, beBytes]

@[simp] theorem length_leBytes (k v : Nat) : (leBytes k v).length = k := by
  rw [← List.length_reverse, reverse_leBytes, length_beBytes]

theorem leBytes_inj {k v w : Nat} (hv : v < 256 ^ k) (hw : w < 256 ^ k) (h : leBytes k v = leBytes k w) : v = w := by
  refine beBytes_inj hv hw ?_
  rw [← reverse_leBytes, ← reverse_leBytes, h]

theorem be_append_inj {k v w : Nat} {r s : List UInt8} (hv : v < 256 ^ k) (hw : w < 256 ^ k)
    (h : beBytes k v ++ r = beBytes k w ++ s) : v = w ∧ r = s := by
  obtain ⟨h1, h2⟩ := List.append_inj h (by simp)
  exact ⟨beBytes_inj hv hw h1, h2⟩

/-- A byte string behind its own length, in eight bytes. -/
def frame (b : List UInt8) : List UInt8 := beBytes 8 b.length ++ b

theorem frame_append_inj {a b r s : List UInt8} (ha : a.length < 2 ^ 64) (hb : b.length < 2 ^ 64)
    (h : frame a ++ r = frame b ++ s) : a = b ∧ r = s := by
  unfold frame at h
  rw [List.append_assoc, List.append_assoc] at h
  obtain ⟨hl, h⟩ := be_append_inj (by simpa using ha) (by simpa using hb) h
  exact List.append_inj h hl

/-- The items of a list, each written by `w`, behind their number in eight bytes. -/
def frames {α : Type} (w : α → List UInt8) (l : List α) : List UInt8 := beBytes 8 l.length ++ l.flatMap w

/-- **Items that are each read off the front are read off one after the other**, once their number is known. -/
theorem flatMap_append_inj {α : Type} (w : α → List UInt8)
    (hw : ∀ a b r s, w a ++ r = w b ++ s → a = b ∧ r = s) :
    ∀ (l m : List α) (r s : List UInt8), l.length = m.length → l.flatMap w ++ r = m.flatMap w ++ s → l = m ∧ r = s
  | [],     [],     _, _, _,  h => ⟨rfl, by simpa using h⟩
  | a :: l, b :: m, r, s, hl, h => by
    simp only [List.flatMap_cons, List.append_assoc] at h
    obtain ⟨hab, h⟩ := hw _ _ _ _ h
    obtain ⟨hlm, hrs⟩ := flatMap_append_inj w hw l m r s (by simpa using hl) h
    exact ⟨by rw [hab, hlm], hrs⟩

theorem frames_append_inj {α : Type} (w : α → List UInt8)
    (hw : ∀ a b r s, w a ++ r = w b ++ s → a = b ∧ r = s) {l m : List α} {r s : List UInt8}
    (hl : l.length < 2 ^ 64) (hm : m.length < 2 ^ 64) (h : frames w l ++ r = frames w m ++ s) : l = m ∧ r = s := by
  unfold frames at h
  rw [List.append_assoc, List.append_assoc] at h
  obtain ⟨hlen, h⟩ := be_append_inj (by simpa using hl) (by simpa using hm) h
  exact flatMap_append_inj w hw l m r s hlen h

end Encode

import Mathlib.Algebra.Ring.Int.Defs
import Mathlib.Data.Nat.Log
import Diem.Encode
/-!
# Der — a pair of integers in the distinguished encoding of ASN.1

A SEQUENCE of two INTEGERs, written as DER has it and read as Go's `encoding/asn1` reads it: `unmarshal` insists on the
shortest lengths and the shortest integers, but not on where the string ends, neither inside the sequence nor behind it.
So it reads back what `marshal` wrote (`unmarshal_marshal`), and it reads other strings too.  Lengths of 2³¹ and more
are not read at all.
-/
namespace Der

open Encode (beBytes beNat)

/-! ## Integers -/

/-- The bytes of a number in two's complement: the fewest that leave a bit for the sign. -/
def width : Int → Nat
  | .ofNat m   => (m.log2 + 1) / 8 + 1
  | .negSucc m => (m.log2 + 1) / 8 + 1

/-- The content of an INTEGER: two's complement, big-endian, no longer than it must be. -/
def content (n : Int) : List UInt8 := beBytes (width n) (n % 256 ^ width n).toNat

/-- Empty, or its first nine bits all alike: not an integer in DER. -/
def minimal : List UInt8 → Bool
  | []          => false
  | [_]         => true
  | a :: b :: _ => !(a == 0 && decide (b < 128) || a == 255 && decide (128 ≤ b))

/-- What content octets spell, in two's complement. -/
def value : List UInt8 → Int
  | []      => 0
  | b :: bs => if 128 ≤ b then (beNat (b :: bs) : Int) - 256 ^ (bs.length + 1) else beNat (b :: bs)

def parseBigInt (bs : List UInt8) : Option Int := if minimal bs then some (value bs) else none

/-- **The width fits**, and one byte less would not. -/
theorem width_spec (n : Int) : ∃ j, width n = j + 1 ∧ -(128 * 256 ^ j) ≤ n ∧ n < 128 * 256 ^ j ∧
    ∀ i, j = i + 1 → n < -(128 * 256 ^ i) ∨ 128 * 256 ^ i ≤ n := by
  -- a number and its complement have the same width
  have hmag : ∀ m : Nat, ∃ j, (m.log2 + 1) / 8 + 1 = j + 1 ∧ (m : Int) < 128 * 256 ^ j ∧
      ∀ i, j = i + 1 → 128 * 256 ^ i ≤ (m : Int) := by
    intro m
    refine ⟨(m.log2 + 1) / 8, rfl, ?_, fun i hi => ?_⟩
    · have hlt : m < 128 * 256 ^ ((m.log2 + 1) / 8) :=
        calc m < 2 ^ (m.log2 + 1) := Nat.lt_log2_self
          _ ≤ 2 ^ (7 + 8 * ((m.log2 + 1) / 8)) := Nat.pow_le_pow_right (by decide) (by omega)
          _ = 128 * 256 ^ ((m.log2 + 1) / 8) := by rw [Nat.pow_add, Nat.pow_mul]
      exact_mod_cast hlt
    · have hne : m ≠ 0 := by
        rintro rfl
        simp at hi
      have hle : 128 * 256 ^ i ≤ m :=
        calc 128 * 256 ^ i = 2 ^ (7 + 8 * i) := by rw [Nat.pow_add, Nat.pow_mul]
          _ ≤ 2 ^ m.log2 := Nat.pow_le_pow_right (by decide) (by omega)
          _ ≤ m := Nat.log2_self_le hne
      exact_mod_cast hle
  cases n with
  | ofNat m =>
    obtain ⟨j, hj, hlt, hle⟩ := hmag m
    rw [Int.ofNat_eq_natCast]
    exact ⟨j, hj, by omega, hlt, fun i hi => .inr (hle i hi)⟩
  | negSucc m =>
    obtain ⟨j, hj, hlt, hle⟩ := hmag m
    rw [Int.negSucc_eq]
    exact ⟨j, hj, by omega, by omega, fun i hi => .inl (by have := hle i hi; omega)⟩

/-- The content's number: its first byte says the sign, and its first two that it is not too long. -/
theorem content_spec (n : Int) : ∃ j u, content n = beBytes (j + 1) u ∧ u < 256 ^ (j + 1) ∧
    ((0 ≤ n ∧ (u : Int) = n ∧ n < 128 * 256 ^ j) ∨ (n < 0 ∧ (u : Int) = n + 256 ^ (j + 1) ∧ -(128 * 256 ^ j) ≤ n)) ∧
    ∀ i, j = i + 1 → n < -(128 * 256 ^ i) ∨ 128 * 256 ^ i ≤ n := by
  obtain ⟨j, hj, hlow, hhigh, htight⟩ := width_spec n
  have hpos : (0 : Int) < 256 ^ j := Int.pow_pos (by decide)
  have hsucc : (256 : Int) ^ (j + 1) = 256 * 256 ^ j := by rw [Int.pow_succ, Int.mul_comm]
  have hmod : n % 256 ^ (j + 1) = if 0 ≤ n then n else n + 256 ^ (j + 1) := by
    rw [hsucc]
    split
    · exact Int.emod_eq_of_lt (by omega) (by omega)
    · rw [← Int.add_emod_right]
      exact Int.emod_eq_of_lt (by omega) (by omega)
  refine ⟨j, (n % 256 ^ (j + 1)).toNat, by rw [content, hj], ?_, ?_, htight⟩
  · have h : (n % 256 ^ (j + 1)).toNat < (256 : Int) ^ (j + 1) := by
      rw [hmod, hsucc]
      split <;> omega
    exact_mod_cast h
  · rw [hmod]
    split
    · exact .inl ⟨by omega, by omega, hhigh⟩
    · exact .inr ⟨by omega, by omega, hlow⟩

/-- The highest of `j + 1` bytes. -/
theorem toNat_top {j u : Nat} (hu : u < 256 ^ (j + 1)) : (UInt8.ofNat (u / 256 ^ j)).toNat = u / 256 ^ j := by
  rw [UInt8.toNat_ofNat']
  refine Nat.mod_eq_of_lt ?_
  rw [Nat.div_lt_iff_lt_mul (Nat.pow_pos (by decide))]
  rw [Nat.pow_succ'] at hu
  exact hu

theorem value_content (n : Int) : value (content n) = n := by
  obtain ⟨j, u, hc, hu, hsign, -⟩ := content_spec n
  have hnat : beNat (beBytes (j + 1) u) = u := by rw [Encode.beNat_beBytes, Nat.mod_eq_of_lt hu]
  have htop : 128 ≤ UInt8.ofNat (u / 256 ^ j) ↔ (128 * 256 ^ j : Int) ≤ u := by
    rw [UInt8.le_iff_toNat_le, toNat_top hu, show (128 : UInt8).toNat = 128 from rfl,
      Nat.le_div_iff_mul_le (Nat.pow_pos (by decide))]
    exact_mod_cast Iff.rfl
  rw [Encode.beBytes_succ] at hnat
  rw [hc, Encode.beBytes_succ, value, hnat, Encode.length_beBytes]
  have hpos : (0 : Int) < 256 ^ j := Int.pow_pos (by decide)
  have hsucc : (256 : Int) ^ (j + 1) = 256 * 256 ^ j := by rw [Int.pow_succ, Int.mul_comm]
  rw [hsucc] at hsign ⊢
  split
  · rename_i hneg
    have hlarge := htop.1 hneg
    omega
  · rename_i hneg
    have hsmall : ¬ (128 * 256 ^ j : Int) ≤ u := fun hlarge => hneg (htop.2 hlarge)
    omega

theorem minimal_content (n : Int) : minimal (content n) = true := by
  obtain ⟨j, u, hc, hu, hsign, htight⟩ := content_spec n
  cases j with
  | zero =>
    rw [hc]
    rfl
  | succ i =>
    have hpos : 0 < 256 ^ i := Nat.pow_pos (by decide)
    have hpos' : (0 : Int) < 256 ^ i := Int.pow_pos (by decide)
    have hsucc : (256 : Int) ^ (i + 1) = 256 * 256 ^ i := by rw [Int.pow_succ, Int.mul_comm]
    have hsucc' : (256 : Int) ^ (i + 1 + 1) = 65536 * 256 ^ i := by rw [Int.pow_succ, hsucc]; omega
    rw [hsucc, hsucc'] at hsign
    have htight := htight i rfl
    have htop : (UInt8.ofNat (u / 256 ^ (i + 1))).toNat = u / 256 ^ i / 256 := by
      rw [toNat_top hu, Nat.pow_succ, Nat.div_div_eq_div_mul]
    have hsecond : (UInt8.ofNat (u / 256 ^ i)).toNat = u / 256 ^ i % 256 := UInt8.toNat_ofNat'
    rw [hc, Encode.beBytes_succ, Encode.beBytes_succ, minimal]
    by_contra hnot
    simp only [Bool.not_eq_true, Bool.not_eq_false', Bool.or_eq_true, Bool.and_eq_true, beq_iff_eq,
      decide_eq_true_eq] at hnot
    rcases hnot with ⟨h0, h1⟩ | ⟨h0, h1⟩
    · -- nine zeros: a number this small takes a byte less
      rw [← UInt8.toNat_inj, htop] at h0
      rw [UInt8.lt_iff_toNat_lt, hsecond] at h1
      have hsmall : u < 128 * 256 ^ i := (Nat.div_lt_iff_lt_mul hpos).1 (by
        change u / 256 ^ i / 256 = 0 at h0
        change u / 256 ^ i % 256 < 128 at h1
        omega)
      have hsmall' : (u : Int) < 128 * 256 ^ i := by exact_mod_cast hsmall
      omega
    · -- nine ones: likewise below zero
      rw [← UInt8.toNat_inj, htop] at h0
      rw [UInt8.le_iff_toNat_le, hsecond] at h1
      have hlarge : 65408 * 256 ^ i ≤ u := (Nat.le_div_iff_mul_le hpos).1 (by
        change u / 256 ^ i / 256 = 255 at h0
        change 128 ≤ u / 256 ^ i % 256 at h1
        omega)
      have hlarge' : 65408 * 256 ^ i ≤ (u : Int) := by exact_mod_cast hlarge
      omega

/-- **An integer is read back.** -/
theorem parseBigInt_content (n : Int) : parseBigInt (content n) = some n := by
  rw [parseBigInt, if_pos (minimal_content n), value_content]

/-! ## Lengths -/

/-- A length: one byte if it is below 128, and else behind the number of its bytes. -/
def lengthBytes (n : Nat) : List UInt8 :=
  if n < 128 then [UInt8.ofNat n] else UInt8.ofNat (128 + (n.log2 / 8 + 1)) :: beBytes (n.log2 / 8 + 1) n

/-- The bytes of a long length: no leading zeros, no length that has a short form, and none that has to be shifted
beyond 31 bits. -/
def readLong : Nat → Nat → List UInt8 → Option (Nat × List UInt8)
  | 0,     n, bs      => if n < 128 then none else some (n, bs)
  | _ + 1, _, []      => none
  | k + 1, n, b :: bs =>
    if 2 ^ 23 ≤ n then none
    else if n * 256 + b.toNat = 0 then none
    else readLong k (n * 256 + b.toNat) bs

def readLength : List UInt8 → Option (Nat × List UInt8)
  | []      => none
  | b :: bs =>
    if b < 128 then some (b.toNat, bs)
    else if b = 128 then none
    else readLong (b.toNat - 128) 0 bs

/-- The bytes still to come and the number so far are those of `n`. -/
theorem readLong_beBytes {n : Nat} (hn : 128 ≤ n) (rest : List UInt8) : ∀ k, 256 ^ k ≤ n →
    readLong (k + 1) (n / 256 ^ (k + 1)) (beBytes (k + 1) n ++ rest) = if n < 2 ^ 31 then some (n, rest) else none := by
  have hstep : ∀ k, n / 256 ^ (k + 1) * 256 + (UInt8.ofNat (n / 256 ^ k)).toNat = n / 256 ^ k := by
    intro k
    rw [UInt8.toNat_ofNat', Nat.pow_succ, ← Nat.div_div_eq_div_mul]
    omega
  intro k
  induction k with
  | zero =>
    intro _
    rw [Encode.beBytes_succ, List.cons_append, readLong, hstep]
    simp only [Nat.zero_add, Nat.pow_one, Nat.pow_zero, Nat.div_one, beBytes, List.nil_append, readLong]
    split
    · rw [if_neg (by omega)]
    · rw [if_neg (by omega), if_neg (by omega), if_pos (by omega)]
  | succ k ih =>
    intro hk
    rw [Encode.beBytes_succ, List.cons_append, readLong, hstep]
    have hpos : 0 < 256 ^ k := Nat.pow_pos (by decide)
    have hne : n / 256 ^ (k + 1) ≠ 0 := by
      rw [Nat.div_ne_zero_iff]
      exact ⟨(Nat.pow_pos (by decide)).ne', hk⟩
    rw [if_neg hne, ih (Nat.le_trans (Nat.pow_le_pow_right (by decide) (Nat.le_succ k)) hk)]
    split
    · rename_i hlarge
      rw [Nat.le_div_iff_mul_le (Nat.pow_pos (by decide)), Nat.pow_succ, Nat.pow_succ] at hlarge
      rw [if_neg]
      have := Nat.mul_le_mul_left (2 ^ 23) (show 1 * 256 * 256 ≤ 256 ^ k * 256 * 256 by omega)
      omega
    · rfl

/-- **A length is read back**, if it is below 2³¹. -/
theorem readLength_lengthBytes {n : Nat} (hn : n < 2 ^ 63) (rest : List UInt8) :
    readLength (lengthBytes n ++ rest) = if n < 2 ^ 31 then some (n, rest) else none := by
  rw [lengthBytes]
  split
  · rename_i hshort
    have hnat : (UInt8.ofNat n).toNat = n := by rw [UInt8.toNat_ofNat']; omega
    rw [List.singleton_append, readLength, hnat, if_pos (by rw [UInt8.lt_iff_toNat_lt, hnat]; exact hshort),
      if_pos (by omega)]
  · rename_i hlong
    have hne : n ≠ 0 := by omega
    have hlog : n.log2 < 63 := (Nat.log2_lt hne).2 hn
    have hnat : (UInt8.ofNat (128 + (n.log2 / 8 + 1))).toNat = 128 + (n.log2 / 8 + 1) := by
      rw [UInt8.toNat_ofNat']
      omega
    have hlow : 256 ^ (n.log2 / 8) ≤ n :=
      calc 256 ^ (n.log2 / 8) = 2 ^ (8 * (n.log2 / 8)) := by rw [Nat.pow_mul]
        _ ≤ 2 ^ n.log2 := Nat.pow_le_pow_right (by decide) (by omega)
        _ ≤ n := Nat.log2_self_le hne
    have hhigh : n < 256 ^ (n.log2 / 8 + 1) :=
      calc n < 2 ^ (n.log2 + 1) := Nat.lt_log2_self
        _ ≤ 2 ^ (8 * (n.log2 / 8 + 1)) := Nat.pow_le_pow_right (by decide) (by omega)
        _ = 256 ^ (n.log2 / 8 + 1) := by rw [Nat.pow_mul]
    have hread := readLong_beBytes (by omega) rest (n.log2 / 8) hlow
    rw [Nat.div_eq_of_lt hhigh] at hread
    rw [List.cons_append, readLength, hnat, Nat.add_sub_cancel_left, hread, if_neg, if_neg]
    · intro h
      rw [← UInt8.toNat_inj, hnat] at h
      change 128 + (n.log2 / 8 + 1) = 128 at h
      omega
    · rw [UInt8.lt_iff_toNat_lt, hnat]
      change ¬ 128 + (n.log2 / 8 + 1) < 128
      omega

/-! ## Elements -/

def integerTag : UInt8 := 0x02

/-- SEQUENCE, constructed. -/
def sequenceTag : UInt8 := 0x30

def element (tag : UInt8) (bs : List UInt8) : List UInt8 := tag :: (lengthBytes bs.length ++ bs)

/-- The content of an element with this tag, and what comes after it. -/
def readElement (tag : UInt8) : List UInt8 → Option (List UInt8 × List UInt8)
  | []      => none
  | t :: bs =>
    if t ≠ tag then none
    else match readLength bs with
      | none         => none
      | some (n, bs) => if bs.length < n then none else some (bs.take n, bs.drop n)

def readInteger (bs : List UInt8) : Option (Int × List UInt8) :=
  match readElement integerTag bs with
  | none              => none
  | some (body, rest) => (parseBigInt body).map (fun n => (n, rest))

theorem readElement_element (tag : UInt8) {bs : List UInt8} (hbs : bs.length < 2 ^ 63) (rest : List UInt8) :
    readElement tag (element tag bs ++ rest) = if bs.length < 2 ^ 31 then some (bs, rest) else none := by
  rw [element, List.cons_append, List.append_assoc, readElement, if_neg (not_not.2 rfl), readLength_lengthBytes hbs]
  split
  · rename_i hnone
    split at hnone
    · cases hnone
    · rename_i hlarge
      rw [if_neg hlarge]
  · rename_i n bs' hsome
    split at hsome
    · rename_i hsmall
      cases hsome
      rw [if_pos hsmall, if_neg (by rw [List.length_append]; omega), List.take_left, List.drop_left]
    · cases hsome

theorem readInteger_element {n : Int} (hn : (content n).length < 2 ^ 31) (rest : List UInt8) :
    readInteger (element integerTag (content n) ++ rest) = some (n, rest) := by
  rw [readInteger, readElement_element _ (by omega), if_pos hn]
  dsimp only
  rw [parseBigInt_content, Option.map_some]

/-! ## Pairs -/

/-- The two integers, one after the other. -/
def body (x : Int × Int) : List UInt8 := element integerTag (content x.1) ++ element integerTag (content x.2)

/-- **The distinguished encoding** of a structure of two integers. -/
def marshal (x : Int × Int) : List UInt8 := element sequenceTag (body x)

/-- **What is read as one**: more may follow the integers in the sequence, and more may follow the sequence. -/
def unmarshal (bs : List UInt8) : Option (Int × Int) := do
  let (inner, _) ← readElement sequenceTag bs
  let (r, inner) ← readInteger inner
  let (s, _) ← readInteger inner
  some (r, s)

theorem length_element (tag : UInt8) (bs : List UInt8) : bs.length < (element tag bs).length := by
  rw [element, List.length_cons, List.length_append]
  omega

/-- **A pair is read back**, if its encoding is not of 2³¹ bytes and more. -/
theorem unmarshal_marshal {x : Int × Int} (hx : (marshal x).length < 2 ^ 63) :
    unmarshal (marshal x) = if (body x).length < 2 ^ 31 then some x else none := by
  have hlen := length_element sequenceTag (body x)
  have hread := readElement_element sequenceTag (Nat.lt_trans hlen hx) []
  rw [List.append_nil] at hread
  rw [unmarshal, marshal, hread]
  split
  · rename_i hsmall
    have hparts : (body x).length = (element integerTag (content x.1)).length +
        (element integerTag (content x.2)).length :=
      List.length_append
    have hr := length_element integerTag (content x.1)
    have hs := length_element integerTag (content x.2)
    have hsecond := readInteger_element (show (content x.2).length < 2 ^ 31 by omega) []
    rw [List.append_nil] at hsecond
    simp only [Option.bind_eq_bind, Option.bind_some]
    rw [body, readInteger_element (by omega), Option.bind_some, hsecond, Option.bind_some]
  · rfl

theorem eq_of_unmarshal_marshal {x y : Int × Int} (hx : (marshal x).length < 2 ^ 63)
    (h : unmarshal (marshal x) = some y) : y = x ∧ (body x).length < 2 ^ 31 := by
  rw [unmarshal_marshal hx] at h
  split at h
  · rename_i hsmall
    cases h
    exact ⟨rfl, hsmall⟩
  · cases h

/-! ## Sizes -/

theorem log2_mono {m n : Nat} (h : m ≤ n) : m.log2 ≤ n.log2 := by
  rw [Nat.log2_eq_log_two, Nat.log2_eq_log_two]
  exact Nat.log_mono_right h

theorem length_lengthBytes (n : Nat) : (lengthBytes n).length = if n < 128 then 1 else n.log2 / 8 + 2 := by
  rw [lengthBytes]
  split
  · rfl
  · rw [List.length_cons, Encode.length_beBytes]

theorem length_element_mono {tag : UInt8} {as bs : List UInt8} (h : as.length ≤ bs.length) :
    (element tag as).length ≤ (element tag bs).length := by
  have hlog := log2_mono h
  rw [element, element, List.length_cons, List.length_cons, List.length_append, List.length_append, length_lengthBytes,
    length_lengthBytes]
  split <;> split <;> omega

/-- A smaller second number is not longer. -/
theorem length_body_mono (r : Int) {a b : Int} (ha : 0 ≤ a) (hab : a ≤ b) :
    (body (r, a)).length ≤ (body (r, b)).length := by
  obtain ⟨m, rfl⟩ := Int.eq_ofNat_of_zero_le ha
  obtain ⟨n, rfl⟩ := Int.eq_ofNat_of_zero_le (Int.le_trans ha hab)
  have hlog := log2_mono (Int.ofNat_le.1 hab)
  have hcontent : (content m).length ≤ (content n).length := by
    rw [content, content, Encode.length_beBytes, Encode.length_beBytes]
    show (m.log2 + 1) / 8 + 1 ≤ (n.log2 + 1) / 8 + 1
    omega
  rw [body, body, List.length_append, List.length_append]
  exact Nat.add_le_add_left (length_element_mono hcontent) _

theorem length_marshal_lt {x : Int × Int} (h : (body x).length < 2 ^ 31) : (marshal x).length < 2 ^ 63 := by
  have hlog : (body x).length.log2 ≤ 31 := by
    have := log2_mono (Nat.le_of_lt h)
    rwa [Nat.log2_two_pow] at this
  rw [marshal, element, List.length_cons, List.length_append, length_lengthBytes]
  split <;> omega

end Der

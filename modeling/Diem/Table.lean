import Mathlib.Data.List.AList
import Mathlib.Data.List.Perm.Subperm
import Mathlib.Logic.Relation
import Mathlib.Order.WellFoundedSet
/-!
# Table — finite maps that are looped over while they change

Mathlib's `AList` is a Go map here: at most one value a key, in some order the loops run through.  Added are the two
loops that delete from the map they range over: `filter` drops the entries that fail a test, and `dropOrphans` drops the
entries whose parent entry is gone, pass after pass, until a pass drops nothing.  `Settled` is what is left then, and it
does not depend on the order of the passes: `deleteIf` and `settle` are the two loops in any order.  `Holds` is "every
entry satisfies", kept by every operation.
-/
abbrev Table (K V : Type) := AList (fun _ : K => V)

/-- Tables are compared by their entries, so that the comparison can be evaluated. -/
instance {K V : Type} [DecidableEq K] [DecidableEq V] : DecidableEq (Table K V) :=
  fun m m' => decidable_of_iff (m.entries = m'.entries) AList.ext_iff.symm

namespace Table

variable {K V : Type} [DecidableEq K]

def filter (p : K → V → Bool) (m : Table K V) : Table K V where
  entries   := m.entries.filter (fun e => p e.1 e.2)
  nodupKeys := m.nodupKeys.sublist List.filter_sublist

theorem lookup_filter (p : K → V → Bool) (m : Table K V) (k : K) :
    (m.filter p).lookup k = (m.lookup k).filter (p k) := by
  apply Option.ext
  intro v
  rw [← Option.mem_def, AList.mem_lookup_iff, Option.filter_eq_some_iff, ← Option.mem_def, AList.mem_lookup_iff]
  simp [filter]

/-- One pass: every entry of `es` that `keep` does not spare goes if its parent has no entry by then. -/
def sweep (keep : K → V → Bool) (parent : V → K) (es : List (Sigma fun _ : K => V)) (m : Table K V) :
    Table K V × Bool :=
  es.foldl (fun acc e =>
    if keep e.1 e.2 then acc
    else if (acc.1.lookup (parent e.2)).isSome then acc
    else (acc.1.erase e.1, true)) (m, false)

/-- Passes until one changes nothing, `n` at most. -/
def sweeps (keep : K → V → Bool) (parent : V → K) : Nat → Table K V → Table K V
  | 0,     m => m
  | n + 1, m =>
    let r := sweep keep parent m.entries m
    if r.2 then sweeps keep parent n r.1 else r.1

/-- Every pass but the last drops an entry, so there are no more passes than entries and one. -/
def dropOrphans (keep : K → V → Bool) (parent : V → K) (m : Table K V) : Table K V :=
  sweeps keep parent (m.entries.length + 1) m

/-- Every entry of `m` is one of `m'`. -/
def Sub (m m' : Table K V) : Prop := ∀ k v, m.lookup k = some v → m'.lookup k = some v

/-- **Every entry satisfies `P`.** -/
def Holds (P : K → V → Prop) (m : Table K V) : Prop := ∀ k v, m.lookup k = some v → P k v

theorem Sub.refl (m : Table K V) : Sub m m := fun _ _ h => h

theorem Sub.trans {a b c : Table K V} (h1 : Sub a b) (h2 : Sub b c) : Sub a c := fun k v h => h2 k v (h1 k v h)

theorem Sub.holds {P : K → V → Prop} {m m' : Table K V} (hs : Sub m m') (h : Holds P m') : Holds P m :=
  fun k v hk => h k v (hs k v hk)

theorem sub_erase (m : Table K V) (k : K) : Sub (m.erase k) m := by
  intro j v hj
  by_cases hjk : j = k
  · subst hjk; rw [AList.lookup_erase] at hj; cases hj
  · rwa [AList.lookup_erase_ne hjk] at hj

theorem sub_filter (p : K → V → Bool) (m : Table K V) : Sub (m.filter p) m := by
  intro k v h
  rw [lookup_filter, Option.filter_eq_some_iff] at h
  exact h.1

theorem sub_sweep (keep : K → V → Bool) (parent : V → K) (es : List (Sigma fun _ : K => V)) (m : Table K V) :
    Sub (sweep keep parent es m).1 m := by
  -- the accumulator only ever loses entries
  suffices h : ∀ (es : List (Sigma fun _ : K => V)) (acc : Table K V × Bool), Sub acc.1 m →
      Sub (es.foldl (fun acc e =>
        if keep e.1 e.2 then acc
        else if (acc.1.lookup (parent e.2)).isSome then acc
        else (acc.1.erase e.1, true)) acc).1 m from h es (m, false) (Sub.refl m)
  intro es
  induction es with
  | nil => intro acc h; exact h
  | cons e es ih =>
    intro acc h
    rw [List.foldl_cons]
    refine ih _ ?_
    by_cases h1 : keep e.1 e.2 = true
    · rw [if_pos h1]; exact h
    · rw [if_neg h1]
      by_cases h2 : (acc.1.lookup (parent e.2)).isSome = true
      · rw [if_pos h2]; exact h
      · rw [if_neg h2]; exact (sub_erase acc.1 e.1).trans h

/-! ## What `dropOrphans` keeps -/

theorem length_erase_le (m : Table K V) (k : K) : (m.erase k).entries.length ≤ m.entries.length :=
  (List.kerase_sublist k m.entries).length_le

theorem length_erase_lt {m : Table K V} {e : Sigma fun _ : K => V} (h : e ∈ m.entries) :
    (m.erase e.1).entries.length < m.entries.length := by
  obtain ⟨b, l₁, l₂, -, heq, herase⟩ := List.exists_of_kerase (List.mem_keys_of_mem h)
  show (List.kerase e.1 m.entries).length < m.entries.length
  rw [herase, heq]
  simp

/-- A pass over all the entries, in whatever order, says whether it dropped anything: if not, every entry has its
parent, and if so, the table got smaller. -/
theorem sweep_spec (keep : K → V → Bool) (parent : V → K) {m : Table K V} {es : List (Sigma fun _ : K => V)}
    (hes : es.Perm m.entries) :
    ((sweep keep parent es m).2 = false → (sweep keep parent es m).1 = m ∧
      ∀ e ∈ m.entries, keep e.1 e.2 = true ∨ (m.lookup (parent e.2)).isSome = true) ∧
    ((sweep keep parent es m).2 = true → (sweep keep parent es m).1.entries.length < m.entries.length) := by
  -- up to the first drop the accumulator is the table itself
  suffices h : ∀ (es : List (Sigma fun _ : K => V)), (∀ e ∈ es, e ∈ m.entries) → ∀ acc : Table K V × Bool,
      (acc.2 = false → acc.1 = m) → (acc.2 = true → acc.1.entries.length < m.entries.length) →
      let r := es.foldl (fun acc e =>
        if keep e.1 e.2 then acc
        else if (acc.1.lookup (parent e.2)).isSome then acc
        else (acc.1.erase e.1, true)) acc
      (r.2 = false → acc.2 = false ∧ r.1 = m ∧
        ∀ e ∈ es, keep e.1 e.2 = true ∨ (m.lookup (parent e.2)).isSome = true) ∧
      (r.2 = true → r.1.entries.length < m.entries.length) by
    obtain ⟨h1, h2⟩ := h es (fun _ he => hes.mem_iff.1 he) (m, false) (fun _ => rfl) (fun hf => by cases hf)
    exact ⟨fun hr => ⟨(h1 hr).2.1, fun e he => (h1 hr).2.2 e (hes.mem_iff.2 he)⟩, h2⟩
  intro es
  induction es with
  | nil => exact fun _ acc hsame hless => ⟨fun hr => ⟨hr, hsame hr, fun e he => absurd he List.not_mem_nil⟩, hless⟩
  | cons e es ih =>
    intro hmem acc hsame hless
    have hmem' : ∀ e ∈ es, e ∈ m.entries := fun x hx => hmem x (List.mem_cons_of_mem _ hx)
    simp only [List.foldl_cons]
    by_cases h1 : keep e.1 e.2 = true
    · rw [if_pos h1]
      obtain ⟨hf, ht⟩ := ih hmem' acc hsame hless
      refine ⟨fun hr => ?_, ht⟩
      obtain ⟨ha, hm, hes⟩ := hf hr
      exact ⟨ha, hm, List.forall_mem_cons.2 ⟨.inl h1, hes⟩⟩
    · rw [if_neg h1]
      by_cases h2 : (acc.1.lookup (parent e.2)).isSome = true
      · rw [if_pos h2]
        obtain ⟨hf, ht⟩ := ih hmem' acc hsame hless
        refine ⟨fun hr => ?_, ht⟩
        obtain ⟨ha, hm, hes⟩ := hf hr
        exact ⟨ha, hm, List.forall_mem_cons.2 ⟨.inr (by rw [← hsame ha]; exact h2), hes⟩⟩
      · rw [if_neg h2]
        have hless' : (acc.1.erase e.1).entries.length < m.entries.length := by
          cases ha : acc.2 with
          | false => rw [hsame ha]; exact length_erase_lt (hmem e List.mem_cons_self)
          | true => exact Nat.lt_of_le_of_lt (length_erase_le _ _) (hless ha)
        obtain ⟨hf, ht⟩ := ih hmem' (acc.1.erase e.1, true) (fun hc => by cases hc) (fun _ => hless')
        exact ⟨fun hr => absurd (hf hr).1 (by simp), ht⟩

/-- A set of entries closed under parents, up to those that are spared. -/
def Closed (keep : K → V → Bool) (parent : V → K) (A : K → Prop) (m : Table K V) : Prop :=
  ∀ k v, m.lookup k = some v → A k → keep k v = true ∨ (A (parent v) ∧ (m.lookup (parent v)).isSome = true)

theorem Closed.sweep {keep : K → V → Bool} {parent : V → K} {A : K → Prop} {m : Table K V}
    {es : List (Sigma fun _ : K => V)} (h : Closed keep parent A m) (hes : es.Perm m.entries) :
    ∀ k v, m.lookup k = some v → A k → (Table.sweep keep parent es m).1.lookup k = some v := by
  -- an entry of the set is never an orphan: its parent is in the set too
  suffices hs : ∀ (es : List (Sigma fun _ : K => V)), (∀ e ∈ es, e ∈ m.entries) → ∀ acc : Table K V × Bool,
      (∀ k v, m.lookup k = some v → A k → acc.1.lookup k = some v) →
      ∀ k v, m.lookup k = some v → A k → (es.foldl (fun acc e =>
        if keep e.1 e.2 then acc
        else if (acc.1.lookup (parent e.2)).isSome then acc
        else (acc.1.erase e.1, true)) acc).1.lookup k = some v from
    hs es (fun _ he => hes.mem_iff.1 he) (m, false) (fun _ _ hk _ => hk)
  intro es
  induction es with
  | nil => exact fun _ acc hacc => hacc
  | cons e es ih =>
    intro hmem acc hacc
    rw [List.foldl_cons]
    refine ih (fun x hx => hmem x (List.mem_cons_of_mem _ hx)) _ ?_
    by_cases h1 : keep e.1 e.2 = true
    · rw [if_pos h1]; exact hacc
    rw [if_neg h1]
    by_cases h2 : (acc.1.lookup (parent e.2)).isSome = true
    · rw [if_pos h2]; exact hacc
    rw [if_neg h2]
    intro k v hk hA
    have hne : k ≠ e.1 := by
      rintro rfl
      have he : m.lookup e.1 = some e.2 := AList.mem_lookup_iff.2 (hmem e List.mem_cons_self)
      obtain ⟨hAp, hp⟩ := (h _ _ he hA).resolve_left h1
      obtain ⟨w, hw⟩ := Option.isSome_iff_exists.1 hp
      exact h2 (by rw [hacc _ _ hw hAp]; rfl)
    rw [AList.lookup_erase_ne hne]
    exact hacc k v hk hA

/-- **`m'` is the largest part of `m` without orphans**: every entry is spared or has its parent's entry, and whatever
hangs together in `m` is in it whole. -/
structure Settled (keep : K → V → Bool) (parent : V → K) (m m' : Table K V) : Prop where
  sub    : Sub m' m
  closed : ∀ k v, m'.lookup k = some v → keep k v = true ∨ (m'.lookup (parent v)).isSome = true
  whole  : ∀ A, Closed keep parent A m → ∀ k v, m.lookup k = some v → A k → m'.lookup k = some v

section Passes

variable {keep : K → V → Bool} {parent : V → K} {m m' : Table K V} {es : List (Sigma fun _ : K => V)}

/-- A pass that drops nothing is the last. -/
theorem Settled.last (hes : es.Perm m.entries) (h : (sweep keep parent es m).2 = false) :
    Settled keep parent m (sweep keep parent es m).1 := by
  obtain ⟨hsame, hparents⟩ := (sweep_spec keep parent hes).1 h
  rw [hsame]
  exact ⟨Sub.refl m, fun k v hk => hparents ⟨k, v⟩ (AList.mem_lookup_iff.1 hk), fun A _ k v hk _ => hk⟩

/-- A pass takes nothing away that the rest would leave. -/
theorem Settled.pass (hes : es.Perm m.entries) (h : Settled keep parent (sweep keep parent es m).1 m') :
    Settled keep parent m m' := by
  have hsub := sub_sweep keep parent es m
  refine ⟨h.sub.trans hsub, h.closed, fun A hA k v hk hAk => ?_⟩
  have hleft := hA.sweep hes
  refine h.whole A (fun k v hk hAk => ?_) k v (hleft k v hk hAk) hAk
  rcases hA k v (hsub k v hk) hAk with hkeep | ⟨hAp, hp⟩
  · exact .inl hkeep
  · obtain ⟨w, hw⟩ := Option.isSome_iff_exists.1 hp
    exact .inr ⟨hAp, by rw [hleft _ _ hw hAp]; rfl⟩

end Passes

theorem sweeps_settled (keep : K → V → Bool) (parent : V → K) (n : Nat) (m : Table K V) (hn : m.entries.length < n) :
    Settled keep parent m (sweeps keep parent n m) := by
  induction n generalizing m with
  | zero => exact absurd hn (Nat.not_lt_zero _)
  | succ n ih =>
    rw [sweeps]
    cases hr : (sweep keep parent m.entries m).2 with
    | true =>
      have hless := (sweep_spec keep parent (List.Perm.refl m.entries)).2 hr
      exact Settled.pass (List.Perm.refl _) (ih _ (Nat.lt_of_lt_of_le hless (Nat.le_of_lt_succ hn)))
    | false => exact Settled.last (List.Perm.refl _) hr

theorem dropOrphans_settled (keep : K → V → Bool) (parent : V → K) (m : Table K V) :
    Settled keep parent m (dropOrphans keep parent m) :=
  sweeps_settled keep parent _ m (Nat.lt_succ_self _)

theorem sub_dropOrphans (keep : K → V → Bool) (parent : V → K) (m : Table K V) : Sub (dropOrphans keep parent m) m :=
  (dropOrphans_settled keep parent m).sub

/-- **No orphan is left**: every entry is spared or has its parent's entry. -/
theorem dropOrphans_closed (keep : K → V → Bool) (parent : V → K) (m : Table K V) {k : K} {v : V}
    (h : (dropOrphans keep parent m).lookup k = some v) :
    keep k v = true ∨ ((dropOrphans keep parent m).lookup (parent v)).isSome = true :=
  (dropOrphans_settled keep parent m).closed k v h

/-- **What hangs together stays**: a set of entries closed under parents survives whole. -/
theorem Closed.dropOrphans {keep : K → V → Bool} {parent : V → K} {A : K → Prop} {m : Table K V}
    (h : Closed keep parent A m) {k : K} {v : V} (hk : m.lookup k = some v) (hA : A k) :
    (Table.dropOrphans keep parent m).lookup k = some v :=
  (dropOrphans_settled keep parent m).whole A h k v hk hA

/-! ## Which entries those are -/

/-- The key of an entry, and the key of its parent. -/
def Link (parent : V → K) (m : Table K V) (k p : K) : Prop := ∃ v, m.lookup k = some v ∧ parent v = p

/-- No entry is its own ancestor. -/
def Acyclic (parent : V → K) (m : Table K V) : Prop := ∀ k, ¬ Relation.TransGen (Link parent m) k k

/-- **The entry has a spared ancestor**, or is one, through entries of the table. -/
inductive Rooted (keep : K → V → Bool) (parent : V → K) (m : Table K V) : K → Prop
  | spared {k : K} {v : V} (h : m.lookup k = some v) (hk : keep k v = true) : Rooted keep parent m k
  | up {k : K} {v : V} (h : m.lookup k = some v) (hp : Rooted keep parent m (parent v)) : Rooted keep parent m k

section Ancestors

variable {keep : K → V → Bool} {parent : V → K} {m m' : Table K V}

theorem Rooted.lookup {k : K} (h : Rooted keep parent m k) : (m.lookup k).isSome = true := by
  cases h with
  | spared h _ => rw [h]; rfl
  | up h _ => rw [h]; rfl

theorem rooted_closed : Closed keep parent (Rooted keep parent m) m := by
  intro k v hk hroot
  cases hroot with
  | spared h hkeep =>
    rw [hk] at h
    cases h
    exact .inl hkeep
  | up h hp =>
    rw [hk] at h
    cases h
    exact .inr ⟨hp, hp.lookup⟩

theorem Acyclic.sub (h : Acyclic parent m) (hs : Sub m' m) : Acyclic parent m' := by
  intro k hcycle
  refine h k (Relation.TransGen.mono (fun x p hx => ?_) k k hcycle)
  obtain ⟨v, hv, hp⟩ := hx
  exact ⟨v, hs x v hv, hp⟩

/-- Keys that get smaller towards the parents do not come round. -/
theorem acyclic_of_rank (f : K → Nat) (h : ∀ k v, m.lookup k = some v → f (parent v) < f k) : Acyclic parent m := by
  intro k hcycle
  have hless : ∀ {a b : K}, Relation.TransGen (Link parent m) a b → f b < f a := by
    intro a b hab
    induction hab with
    | single hlink =>
      obtain ⟨v, hv, rfl⟩ := hlink
      exact h _ v hv
    | tail _ hlink ih =>
      obtain ⟨v, hv, rfl⟩ := hlink
      exact Nat.lt_trans (h _ v hv) ih
  exact Nat.lt_irrefl _ (hless hcycle)

/-- In a finite table without cycles the way up ends: what is said of every entry whose parent it is said of, if that
has an entry, is said of all. -/
theorem Acyclic.induction (h : Acyclic parent m) {P : K → Prop}
    (step : ∀ k v, m.lookup k = some v → ((m.lookup (parent v)).isSome = true → P (parent v)) → P k) :
    ∀ k v, m.lookup k = some v → P k := by
  let above : K → K → Prop := fun p k => Relation.TransGen (Link parent m) k p
  have horder : IsStrictOrder K above :=
    { irrefl := h, trans := fun a b c hab hbc => hbc.trans hab }
  have hwf : {k | (m.lookup k).isSome = true}.WellFoundedOn above := by
    refine Set.Finite.wellFoundedOn ((List.finite_toSet m.keys).subset (fun k hk => ?_))
    obtain ⟨v, hv⟩ := Option.isSome_iff_exists.1 hk
    exact List.mem_keys_of_mem (AList.mem_lookup_iff.1 hv)
  intro k v hk
  refine hwf.induction (P := P) (Option.isSome_iff_exists.2 ⟨v, hk⟩) (fun j hj ih => ?_)
  obtain ⟨w, hw⟩ := Option.isSome_iff_exists.1 hj
  exact step j w hw (fun hp => ih _ hp (.single ⟨w, hw, rfl⟩))

/-- **Exactly the entries with a spared ancestor are left**, where no entry is its own ancestor. -/
theorem Settled.lookup_iff (h : Settled keep parent m m') (hm : Acyclic parent m) {k : K} {v : V} :
    m'.lookup k = some v ↔ m.lookup k = some v ∧ Rooted keep parent m k := by
  refine ⟨fun hk => ⟨h.sub k v hk, ?_⟩, fun ⟨hk, hroot⟩ => h.whole _ rooted_closed k v hk hroot⟩
  refine (hm.sub h.sub).induction (P := Rooted keep parent m) (fun j w hw ih => ?_) k v hk
  rcases h.closed j w hw with hkeep | hp
  · exact .spared (h.sub j w hw) hkeep
  · exact .up (h.sub j w hw) (ih hp)

end Ancestors

/-! ## In any order

A Go map is ranged over in an order that nobody knows, another one each time.  Both loops delete no entry but the one
they are at, so each entry is come to once. -/

/-- **The orders a map is ranged over in**, one loop after the other. -/
structure Order (α : Type) where
  run  : Nat → List α → List α
  perm : ∀ n es, (run n es).Perm es

/-- The order the entries stand in. -/
def Order.own (α : Type) : Order α := ⟨fun _ es => es, fun _ _ => List.Perm.refl _⟩

/-- The loop that deletes the entries `p` picks. -/
def deleteIf (p : K → V → Bool) (es : List (Sigma fun _ : K => V)) (m : Table K V) : Table K V :=
  es.foldl (fun m e => if p e.1 e.2 then m.erase e.1 else m) m

/-- Passes in the orders `o`, from the `n`-th on, until one drops nothing; none if `fuel` of them all drop something. -/
def settle (keep : K → V → Bool) (parent : V → K) (o : Order (Sigma fun _ : K => V)) :
    Nat → Nat → Table K V → Option (Table K V)
  | 0,        _, _ => none
  | fuel + 1, n, m =>
    let r := sweep keep parent (o.run n m.entries) m
    if r.2 then settle keep parent o fuel (n + 1) r.1 else some r.1

theorem length_deleteIf_le (p : K → V → Bool) (es : List (Sigma fun _ : K => V)) (m : Table K V) :
    (deleteIf p es m).entries.length ≤ m.entries.length := by
  induction es generalizing m with
  | nil => exact Nat.le_refl _
  | cons e es ih =>
    rw [deleteIf, List.foldl_cons]
    refine Nat.le_trans (ih _) ?_
    split
    · exact length_erase_le m e.1
    · exact Nat.le_refl _

theorem lookup_deleteIf_any (p : K → V → Bool) (es : List (Sigma fun _ : K => V)) (m : Table K V) (k : K) :
    (deleteIf p es m).lookup k = if ∃ e ∈ es, e.1 = k ∧ p e.1 e.2 = true then none else m.lookup k := by
  induction es generalizing m with
  | nil => exact (if_neg (fun ⟨e, he, _⟩ => absurd he List.not_mem_nil)).symm
  | cons e es ih =>
    show (deleteIf p es (if p e.1 e.2 then m.erase e.1 else m)).lookup k = _
    rw [ih]
    by_cases hes : ∃ e ∈ es, e.1 = k ∧ p e.1 e.2 = true
    · obtain ⟨x, hx, hp⟩ := hes
      rw [if_pos ⟨x, hx, hp⟩, if_pos ⟨x, List.mem_cons_of_mem _ hx, hp⟩]
    · rw [if_neg hes]
      by_cases he : e.1 = k ∧ p e.1 e.2 = true
      · have hone : ∃ x ∈ e :: es, x.1 = k ∧ p x.1 x.2 = true := ⟨e, List.mem_cons_self, he⟩
        rw [if_pos hone, if_pos he.2, he.1, AList.lookup_erase]
      · have hnone : ¬ ∃ x ∈ e :: es, x.1 = k ∧ p x.1 x.2 = true := by
          rintro ⟨x, hx, hp⟩
          rcases List.mem_cons.1 hx with rfl | hx
          · exact he hp
          · exact hes ⟨x, hx, hp⟩
        rw [if_neg hnone]
        split
        · rename_i hp
          exact AList.lookup_erase_ne (fun hk => he ⟨hk.symm, hp⟩)
        · rfl

/-- **In every order the loop deletes what a filter leaves out.** -/
theorem lookup_deleteIf (p : K → V → Bool) {es : List (Sigma fun _ : K => V)} {m : Table K V} (hes : es.Perm m.entries)
    (k : K) : (deleteIf p es m).lookup k = (m.lookup k).filter (fun v => !p k v) := by
  rw [lookup_deleteIf_any]
  cases hk : m.lookup k with
  | none => exact ite_self none
  | some v =>
    have hiff : (∃ e ∈ es, e.1 = k ∧ p e.1 e.2 = true) ↔ p k v = true := by
      constructor
      · rintro ⟨⟨j, w⟩, he, rfl, hp⟩
        have hw : m.lookup j = some w := AList.mem_lookup_iff.2 (hes.mem_iff.1 he)
        rw [hk] at hw
        cases hw
        exact hp
      · exact fun hp => ⟨⟨k, v⟩, hes.mem_iff.2 (AList.mem_lookup_iff.1 hk), rfl, hp⟩
    rw [if_congr hiff rfl rfl, Option.filter_some]
    cases p k v <;> rfl

/-- In the order the entries stand in, the loop is `filter`. -/
theorem deleteIf_own (p : K → V → Bool) (m : Table K V) : deleteIf p m.entries m = m.filter (fun k v => !p k v) := by
  -- the entries passed are filtered, and those ahead stand as they stood
  suffices h : ∀ (es ps : List (Sigma fun _ : K => V)) (m : Table K V), m.entries = ps ++ es →
      (deleteIf p es m).entries = ps ++ es.filter (fun e => !p e.1 e.2) from AList.ext (h m.entries [] m rfl)
  intro es
  induction es with
  | nil => exact fun ps m hm => hm
  | cons e es ih =>
    intro ps m hm
    show (deleteIf p es (if p e.1 e.2 then m.erase e.1 else m)).entries = _
    cases hp : p e.1 e.2 with
    | true =>
      have hkeys : e.1 ∉ ps.keys := by
        have hnodup := m.nodupKeys
        rw [hm, List.nodupKeys_middle] at hnodup
        intro hmem
        exact List.notMem_keys_of_nodupKeys_cons hnodup
          (by rw [List.keys, List.map_append]; exact List.mem_append_left _ hmem)
      have hentries : (m.erase e.1).entries = ps ++ es := by
        show List.kerase e.1 m.entries = ps ++ es
        rw [hm, List.kerase_append_right hkeys, List.kerase_cons_eq rfl]
      rw [if_pos rfl, ih ps _ hentries, List.filter_cons_of_neg (by simp [hp])]
    | false =>
      rw [if_neg Bool.false_ne_true, ih (ps ++ [e]) m (by rw [hm, List.append_assoc]; rfl),
        List.filter_cons_of_pos (by simp [hp]), List.append_assoc]
      rfl

theorem settle_settled (keep : K → V → Bool) (parent : V → K) (o : Order (Sigma fun _ : K => V)) {fuel : Nat} (n : Nat)
    {m : Table K V} (hfuel : m.entries.length < fuel) :
    ∃ m', settle keep parent o fuel n m = some m' ∧ Settled keep parent m m' := by
  induction fuel generalizing n m with
  | zero => exact absurd hfuel (Nat.not_lt_zero _)
  | succ fuel ih =>
    have hes := o.perm n m.entries
    rw [settle]
    cases hr : (sweep keep parent (o.run n m.entries) m).2 with
    | true =>
      have hless := (sweep_spec keep parent hes).2 hr
      obtain ⟨m', hm', hs⟩ := ih (n + 1) (Nat.lt_of_lt_of_le hless (Nat.le_of_lt_succ hfuel))
      exact ⟨m', hm', hs.pass hes⟩
    | false => exact ⟨_, rfl, Settled.last hes hr⟩

/-- In the order the entries stand in, the loop is `dropOrphans`. -/
theorem settle_own (keep : K → V → Bool) (parent : V → K) {fuel : Nat} (n : Nat) {m : Table K V}
    (hfuel : m.entries.length < fuel) :
    settle keep parent (Order.own _) fuel n m = some (dropOrphans keep parent m) := by
  -- how many passes are allowed does not show, as long as they are enough
  suffices h : ∀ fuel passes n (m : Table K V), m.entries.length < fuel → m.entries.length < passes →
      settle keep parent (Order.own _) fuel n m = some (sweeps keep parent passes m) from
    h fuel _ n m hfuel (Nat.lt_succ_self _)
  intro fuel
  induction fuel with
  | zero => exact fun _ _ m hfuel => absurd hfuel (Nat.not_lt_zero _)
  | succ fuel ih =>
    intro passes n m hfuel hpasses
    obtain ⟨passes, rfl⟩ := Nat.exists_eq_succ_of_ne_zero (Nat.ne_zero_of_lt hpasses)
    rw [settle, sweeps]
    show (if (sweep keep parent m.entries m).2 = true then _ else _) = _
    cases hr : (sweep keep parent m.entries m).2 with
    | true =>
      have hless := (sweep_spec keep parent (List.Perm.refl m.entries)).2 hr
      exact ih passes (n + 1) _ (Nat.lt_of_lt_of_le hless (Nat.le_of_lt_succ hfuel))
        (Nat.lt_of_lt_of_le hless (Nat.le_of_lt_succ hpasses))
    | false => rfl

theorem holds_empty (P : K → V → Prop) : Holds P (∅ : Table K V) := by
  intro k v h
  rw [AList.lookup_empty] at h
  cases h

theorem holds_insert {P : K → V → Prop} {m : Table K V} {k : K} {v : V} (h : Holds P m) (hk : P k v) :
    Holds P (m.insert k v) := by
  intro j w hj
  by_cases hjk : j = k
  · subst hjk
    rw [AList.lookup_insert] at hj
    cases hj
    exact hk
  · rw [AList.lookup_insert_ne hjk] at hj
    exact h j w hj

omit [DecidableEq K] in
/-- Entries told apart by what their keys are taken to are no more than there is to take them to. -/
theorem length_le {β : Type} {m : Table K V} (f : K → β) (hinj : ∀ k ∈ m.keys, ∀ k' ∈ m.keys, f k = f k' → k = k')
    {L : List β} (hmem : ∀ k ∈ m.keys, f k ∈ L) : m.entries.length ≤ L.length := by
  have hnodup : (m.keys.map f).Nodup := List.Nodup.map_on (fun k hk k' hk' => hinj k hk k' hk') m.nodupKeys
  have hsub : m.keys.map f ⊆ L := by
    intro x hx
    obtain ⟨k, hk, rfl⟩ := List.mem_map.1 hx
    exact hmem k hk
  have hle := (hnodup.subperm hsub).length_le
  rwa [List.length_map, AList.keys, List.keys, List.length_map] at hle

end Table

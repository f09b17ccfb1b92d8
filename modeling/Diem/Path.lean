import Mathlib.Data.List.Chain
import Diem.Ledger
/-!
# Path — chains of blocks, and the state they lead to

A path climbs by parent ids; executed in order from a state it leads to a state.  When an id settles a block's parent,
and nothing hangs below the root, two paths to one id are the same as far as the id settles their blocks.
-/
namespace Diem

/-- The blocks, each satisfying `Q`, passed on the way up from `root`, which is left out, to `top`. -/
inductive Path (Q : Block → Prop) (root : Bytes) : List Block → Bytes → Prop
  | nil : Path Q root [] root
  | snoc {bs : List Block} {b : Block} (h : Path Q root bs (parentID b)) (hb : Q b) : Path Q root (bs ++ [b]) b.id

/-- The blocks executed one after the other. -/
def replay (execute : Bytes → Payload → Bytes) (state : Bytes) (bs : List Block) : Bytes :=
  bs.foldl (fun s b => execute s b.payload) state

theorem replay_append (execute : Bytes → Payload → Bytes) (state : Bytes) (bs bs' : List Block) :
    replay execute state (bs ++ bs') = replay execute (replay execute state bs) bs' := List.foldl_append

/-- Only the payloads matter. -/
theorem replay_congr (execute : Bytes → Payload → Bytes) (state : Bytes) {bs bs' : List Block}
    (h : bs.map Block.payload = bs'.map Block.payload) : replay execute state bs = replay execute state bs' := by
  have hmap : ∀ xs : List Block, replay execute state xs = (xs.map Block.payload).foldl execute state := by
    intro xs
    rw [replay, List.foldl_map]
  rw [hmap, hmap, h]

/-- The ids a path passes, from its root to its top. -/
def passed (root : Bytes) (bs : List Block) : List Bytes := root :: bs.map Block.id

theorem passed_append (root : Bytes) (bs bs' : List Block) :
    passed root (bs ++ bs') = passed root bs ++ bs'.map Block.id := by
  rw [passed, passed, List.map_append, List.cons_append]

namespace Path

variable {Q : Block → Prop} {root : Bytes}

theorem forall_mem {bs : List Block} {top : Bytes} (h : Path Q root bs top) : ∀ b ∈ bs, Q b := by
  induction h with
  | nil => exact fun b hb => absurd hb List.not_mem_nil
  | snoc _ hb ih =>
    intro b' hb'
    rcases List.mem_append.1 hb' with hb' | hb'
    · exact ih b' hb'
    · rw [List.mem_singleton.1 hb']
      exact hb

/-- A path of blocks that all satisfy something else is a path of such blocks. -/
theorem imp {Q' : Block → Prop} {bs : List Block} {top : Bytes} (h : Path Q root bs top) (hall : ∀ b ∈ bs, Q' b) :
    Path Q' root bs top := by
  induction h with
  | nil => exact .nil
  | snoc _ _ ih =>
    exact (ih (fun b hb => hall b (List.mem_append_left _ hb))).snoc
      (hall _ (List.mem_append_right _ List.mem_cons_self))

theorem single {b : Block} (hb : Q b) (hroot : parentID b = root) : Path Q root [b] b.id := by
  have h : Path Q root [] (parentID b) := hroot ▸ .nil
  exact h.snoc hb

theorem trans {bs bs' : List Block} {mid top : Bytes} (h : Path Q root bs mid) (h' : Path Q mid bs' top) :
    Path Q root (bs ++ bs') top := by
  induction h' with
  | nil => rw [List.append_nil]; exact h
  | snoc _ hb ih => rw [← List.append_assoc]; exact ih.snoc hb

theorem eq_of_nil {top : Bytes} (h : Path Q root [] top) : top = root := by
  generalize hxs : ([] : List Block) = xs at h
  cases h with
  | nil => rfl
  | snoc => simp at hxs

/-- A path can be cut anywhere. -/
theorem split {bs bs' : List Block} {top : Bytes} (h : Path Q root (bs ++ bs') top) :
    ∃ mid, Path Q root bs mid ∧ Path Q mid bs' top := by
  generalize hxs : bs ++ bs' = xs at h
  induction h generalizing bs' with
  | nil =>
    obtain ⟨rfl, rfl⟩ := List.append_eq_nil_iff.1 hxs
    exact ⟨root, .nil, .nil⟩
  | @snoc ys b h hb ih =>
    rcases List.eq_nil_or_concat bs' with rfl | ⟨cs, c, rfl⟩
    · rw [List.append_nil] at hxs
      exact ⟨b.id, hxs ▸ h.snoc hb, .nil⟩
    · rw [List.concat_eq_append, ← List.append_assoc] at hxs
      obtain ⟨hys, hcb⟩ := List.append_inj' hxs rfl
      cases hcb
      obtain ⟨mid, h1, h2⟩ := ih hys
      rw [List.concat_eq_append]
      exact ⟨mid, h1, h2.snoc hb⟩

/-- The last block of a path is the one it leads to, and hangs off the path before it. -/
theorem of_concat {bs : List Block} {b : Block} {top : Bytes} (h : Path Q root (bs ++ [b]) top) :
    b.id = top ∧ Q b ∧ Path Q root bs (parentID b) := by
  generalize hxs : bs ++ [b] = xs at h
  cases h with
  | nil => simp at hxs
  | snoc h hb =>
    obtain ⟨rfl, hbb⟩ := List.append_inj' hxs rfl
    cases hbb
    exact ⟨rfl, hb, h⟩

theorem top_unique {bs : List Block} {top top' : Bytes} (h : Path Q root bs top) (h' : Path Q root bs top') :
    top = top' := by
  rcases List.eq_nil_or_concat bs with rfl | ⟨cs, c, rfl⟩
  · rw [h.eq_of_nil, h'.eq_of_nil]
  · rw [List.concat_eq_append] at h h'
    rw [← h.of_concat.1, ← h'.of_concat.1]

theorem top_mem {bs : List Block} {top : Bytes} (h : Path Q root bs top) : top ∈ passed root bs := by
  cases h with
  | nil => exact List.mem_cons_self
  | snoc _ _ =>
    rw [passed_append]
    exact List.mem_append_right _ (by simp)

/-- A path's top comes last. -/
theorem passed_eq {bs : List Block} {top : Bytes} (h : Path Q root bs top) :
    passed root bs = (passed root bs).dropLast ++ [top] := by
  cases h with
  | nil => rfl
  | snoc _ _ =>
    rw [passed_append, List.map_singleton, List.dropLast_concat]

theorem getLast?_passed {bs : List Block} {top : Bytes} (h : Path Q root bs top) :
    (passed root bs).getLast? = some top := by
  rw [h.passed_eq, List.getLast?_append, List.getLast?_singleton]
  rfl

/-- The blocks of a path, each with its parent before it. -/
theorem isChain {r : Block} (hr : r.id = root) {bs : List Block} {top : Bytes} (h : Path Q root bs top) :
    (r :: bs).IsChain (fun p b => parentID b = p.id) := by
  induction h with
  | nil => exact List.isChain_singleton _
  | @snoc bs b h hb ih =>
    rw [← List.cons_append, List.isChain_append]
    refine ⟨ih, List.isChain_singleton _, fun x hx y hy => ?_⟩
    have hlast := h.getLast?_passed
    rw [passed, ← hr, ← List.map_cons, List.getLast?_map, hx] at hlast
    cases hy
    exact (Option.some.inj hlast).symm

/-- **One path to an id**, as far as ids settle blocks. -/
theorem map_unique {α : Type} {f : Block → α}
    (hid : ∀ b b', Q b → Q b' → b.id = b'.id → f b = f b' ∧ parentID b = parentID b')
    (hroot : ∀ bs b, Path Q root bs (parentID b) → Q b → b.id ≠ root) {bs bs' : List Block} {top : Bytes}
    (h : Path Q root bs top) (h' : Path Q root bs' top) : bs.map f = bs'.map f := by
  induction h generalizing bs' with
  | nil =>
    generalize hr : root = top at h'
    cases h' with
    | nil => rfl
    | snoc h' hb => exact absurd hr.symm (hroot _ _ (hr ▸ h') hb)
  | @snoc bs b h hb ih =>
    generalize ht : b.id = top at h'
    cases h' with
    | nil => exact absurd ht (hroot _ _ h hb)
    | @snoc bs' b' h' hb' =>
      obtain ⟨hf, hp⟩ := hid b b' hb hb' ht
      rw [List.map_append, List.map_append, ih (hp ▸ h'), List.map_singleton, List.map_singleton, hf]

/-- Two paths to one id, where ids identify blocks: one begins on the other, or goes on to where it begins. -/
theorem meet (hid : ∀ b b', Q b → Q b' → b.id = b'.id → b = b') {root' top : Bytes} {bs bs' : List Block}
    (h : Path Q root bs top) (h' : Path Q root' bs' top) : (∃ ds, Path Q root' ds root) ∨ ∃ b ∈ bs, b.id = root' := by
  induction h generalizing bs' with
  | nil => exact .inl ⟨bs', h'⟩
  | @snoc bs b h hb ih =>
    generalize htop : b.id = top at h'
    cases h' with
    | nil => exact .inr ⟨b, List.mem_append_right _ (List.mem_singleton.2 rfl), htop⟩
    | @snoc _ b' h' hb' =>
      cases hid b b' hb hb' htop
      exact (ih h').imp_right (fun ⟨c, hc, hcid⟩ => ⟨c, List.mem_append_left _ hc, hcid⟩)

end Path
end Diem

import Mathlib.Logic.Relation
/-!
# Climb — paths up from a root, when there is one way down

`R y x` is "one step down from `y` is `x`".  When a step down is unique and the root is not below itself, a point has
one path from the root, and of two points one of which lies below the other, the lower one's path is an initial part of
the higher one's.
-/
namespace Relation

variable {α : Type} {R : α → α → Prop} {root : α}

/-- `Climb R root xs top`: `xs` are the points passed on the way up from `root`, which is left out, to `top`. -/
inductive Climb (R : α → α → Prop) (root : α) : List α → α → Prop
  | nil : Climb R root [] root
  | snoc {xs : List α} {x y : α} (h : Climb R root xs x) (hy : R y x) : Climb R root (xs ++ [y]) y

namespace Climb

theorem trans {xs ys : List α} {x y : α} (h : Climb R root xs x) (h' : Climb R x ys y) : Climb R root (xs ++ ys) y := by
  induction h' with
  | nil => rw [List.append_nil]; exact h
  | snoc _ hy ih => rw [← List.append_assoc]; exact ih.snoc hy

/-- The root lies below every point of a climb. -/
theorem down {xs : List α} {x : α} (h : Climb R root xs x) : ReflTransGen R x root := by
  induction h with
  | nil => exact .refl
  | snoc _ hy ih => exact .head hy ih

variable (hfun : ∀ x y z, R x y → R x z → y = z) (hroot : ¬ TransGen R root root)
include hfun hroot

/-- A point has one climb: below the root there is only the root. -/
theorem unique {xs ys : List α} {x : α} (hx : Climb R root xs x) (hy : Climb R root ys x) : xs = ys := by
  induction hx generalizing ys with
  | nil =>
    cases hy with
    | nil => rfl
    | snoc h hstep => exact absurd (TransGen.head' hstep h.down) hroot
  | snoc hp hstep ih =>
    cases hy with
    | nil => exact absurd (TransGen.head' hstep hp.down) hroot
    | snoc hq hstep' =>
      obtain rfl := hfun _ _ _ hstep hstep'
      rw [ih hq]

/-- **Of two climbs, that of the lower point comes first in that of the higher one.** -/
theorem initial_of_below {xs ys : List α} {x y : α} (hx : Climb R root xs x) (hy : Climb R root ys y)
    (hbelow : ReflTransGen R y x) : xs <+: ys := by
  induction hy with
  | nil =>
    rcases ReflTransGen.cases_head hbelow with rfl | ⟨z, hz, hzx⟩
    · obtain rfl := hx.unique hfun hroot .nil
      exact List.prefix_refl _
    · exact absurd (TransGen.head' hz (hzx.trans hx.down)) hroot
  | snoc hp hstep ih =>
    rcases ReflTransGen.cases_head hbelow with rfl | ⟨z, hz, hzx⟩
    · obtain rfl := hx.unique hfun hroot (hp.snoc hstep)
      exact List.prefix_refl _
    · obtain rfl := hfun _ _ _ hstep hz
      exact (ih hzx).trans (List.prefix_append _ _)

end Climb

end Relation

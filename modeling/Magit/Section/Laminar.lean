import Mathlib.Logic.Relation
import Mathlib.Tactic.Common

/-!
# Section/Laminar — sets inside each other

Every node of a tree covers some points.  What a child covers its parent covers too, and two
children of one node cover nothing in common.  Whatever covers a point then is above the node
that covers it, and none of whose children does.
-/

open Relation

variable {ι α : Type*} {child : ι → ι → Prop} {covers : ι → α → Prop}

/-- The nodes that can be reached from the root cover sets that are inside each other, or apart. -/
structure Laminar (child : ι → ι → Prop) (covers : ι → α → Prop) (root : ι) : Prop where
  nested : ∀ {i j}, ReflTransGen child root i → child i j → ∀ q, covers j q → covers i q
  disjoint : ∀ {i j k}, ReflTransGen child root i → child i j → child i k →
    ∀ q, covers j q → covers k q → j = k

namespace Laminar

variable {root i j k : ι} {q : α}

/-- What a section below covers, the ones above cover. -/
theorem covers_of_reaches (h : Laminar child covers root) (hi : ReflTransGen child root i)
    (hij : ReflTransGen child i j) (hj : covers j q) : covers i q := by
  induction hij with
  | refl => exact hj
  | tail hik hkj ih => exact ih (h.nested (hi.trans hik) hkj q hj)

/-- **What covers a point is above the innermost node that does.** -/
theorem reaches_of_covers (h : Laminar child covers root) (hj : ReflTransGen child root j)
    (hcovers : covers j q) (hinner : ∀ k, child j k → ¬ covers k q)
    (hk : ReflTransGen child root k) (hkcovers : covers k q) : ReflTransGen child k j := by
  induction hk with
  | refl => exact hj
  | @tail i k hi hik ih =>
    rcases (ih (h.nested hi hik q hkcovers)).cases_head with rfl | ⟨k', hik', hk'j⟩
    · exact absurd hkcovers (hinner k hik)
    · have hk' := h.covers_of_reaches (hi.tail hik') hk'j hcovers
      rwa [h.disjoint hi hik hik' q hkcovers hk']

/-- If no child of the root covers a point, nothing below the root does. -/
theorem eq_root_of_covers (h : Laminar child covers root)
    (hnone : ∀ k, child root k → ¬ covers k q) (hk : ReflTransGen child root k)
    (hkcovers : covers k q) : k = root := by
  rcases hk.cases_head with rfl | ⟨k', hk', hk'k⟩
  · rfl
  · exact absurd (h.covers_of_reaches (.single hk') hk'k hkcovers) (hnone k' hk')

end Laminar

import Magit.Section.Runs

/-!
# Section/ToggleChildren — toggling the children of a section

`magit-section-toggle-children` binds `show` to whether any child is hidden, and then sets the slot
`hidden` of every child to that.  So it hides all children if one is hidden, and shows them if all
are shown already: the other way round for every section that has children (`allOrNothing_iff`).
-/

namespace Magit.Section

open Emacs Display

namespace Sections

/-- The slots `hidden` of the sections side by side. -/
def slots : Sections → List Bool
  | nil => []
  | text _ rest => rest.slots
  | leaf _ hidden rest => hidden :: rest.slots
  | unwashed _ _ hidden _ rest => hidden :: rest.slots
  | node _ _ hidden _ rest => hidden :: rest.slots

/-- Setting each section sets all slots. -/
theorem slots_setEach (hidden : Bool) (f : Sections) :
    (f.setEach hidden).slots = List.replicate f.slots.length hidden := by
  induction f with
  | nil => rfl
  | text n rest ih => exact ih
  | leaf n _ rest ih | unwashed n _ _ body rest _ ih | node n _ _ body rest _ ih =>
    exact congrArg (hidden :: ·) ih

/-- Showing sets no slot. -/
theorem slots_showEach (f : Sections) (beg : ℕ) (d : Display) :
    (showEach beg f d).1.slots = f.slots := by
  induction f generalizing beg d with
  | nil => rfl
  | text n rest ih => exact ih _ _
  | leaf n hidden rest ih => exact congrArg (hidden :: ·) (ih _ _)
  | unwashed heading content hidden body rest _ ih =>
    cases hidden <;> exact congrArg (_ :: ·) (ih _ _)
  | node heading washer hidden body rest _ ih =>
    cases hidden <;> exact congrArg (_ :: ·) (ih _ _)

/-- There are children exactly if there are slots. -/
theorem hasChildren_eq (f : Sections) : f.hasChildren = !f.slots.isEmpty := by
  induction f with
  | nil => rfl
  | text n rest ih => exact ih
  | leaf | unwashed | node => rfl

end Sections

namespace Place

/-- The slots of the children that a section has. -/
def childSlots (s : Place) : List Bool := s.children.slots

/-- All children are in the same state. -/
def Uniform (s : Place) : Prop := ∀ a ∈ s.childSlots, ∀ b ∈ s.childSlots, a = b

/-- If any child is hidden all are shown, and otherwise all are hidden; doing so twice restores a
state that is the same for all of them; and the overlays are those that the slots call for. -/
structure AllOrNothing (s : Place) : Prop where
  slots : ∀ (i : ℕ) (hidden : Bool), s.childSlots[i]? = some hidden →
    s.magitSectionToggleChildren.childSlots[i]? = some (!s.children.anyHidden)
  twice : s.Uniform → ∀ (i : ℕ) (hidden : Bool), s.childSlots[i]? = some hidden →
    s.magitSectionToggleChildren.magitSectionToggleChildren.childSlots[i]? = some hidden
  tidy : s.Tidy → s.magitSectionToggleChildren.Tidy ∧ s.Kept s.magitSectionToggleChildren

/-- What the children that a section has are set to. -/
theorem childSlots_toggleChildren {s : Place} (h : s.childSlots ≠ []) :
    s.magitSectionToggleChildren.childSlots
      = List.replicate s.childSlots.length s.children.anyHidden := by
  obtain ⟨level, beg, f, d⟩ := s
  have hset : ∀ (f : Sections) (beg : ℕ) (d : Display),
      (Sections.showEach beg (f.setEach f.anyHidden) d).1.slots
        = List.replicate f.slots.length f.anyHidden := fun f beg d => by
    rw [Sections.slots_showEach, Sections.slots_setEach]
  rcases level with (_ | _) | _
  · exact hset f _ _
  · exact hset f _ _
  · rcases f with _ | _ | _ | _ | ⟨heading, washer, hidden, body, rest⟩
    · exact absurd rfl h
    · exact absurd rfl h
    · exact absurd rfl h
    · exact absurd rfl h
    · exact hset body _ _

theorem getElem?_replicate {α : Type} {l : List α} {i : ℕ} {a : α} (h : l[i]? = some a) (b : α) :
    (List.replicate l.length b)[i]? = some b := by
  rw [List.getElem?_replicate, if_pos (List.getElem?_eq_some_iff.mp h).1]

/-- **Toggling children is all-or-nothing only where there are none.** -/
theorem allOrNothing_iff (s : Place) : s.AllOrNothing ↔ s.children.hasChildren = false := by
  rw [Sections.hasChildren_eq, Bool.not_eq_false', List.isEmpty_iff]
  constructor
  · intro h
    by_contra hne
    obtain ⟨hidden, slots, hcons⟩ := List.exists_cons_of_ne_nil hne
    have hfirst : s.childSlots[0]? = some hidden := congrArg (·[0]?) hcons
    have hslot := h.slots 0 hidden hfirst
    rw [childSlots_toggleChildren hne, getElem?_replicate hfirst, Option.some_inj] at hslot
    exact absurd hslot (by simp)
  · intro h
    have hnone : ∀ (i : ℕ) (hidden : Bool), s.childSlots[i]? ≠ some hidden := fun i hidden hi => by
      rw [childSlots, h] at hi
      simp at hi
    exact ⟨fun i hidden hi => absurd hi (hnone i hidden), fun _ i hidden hi =>
      absurd hi (hnone i hidden), fun htidy => tidy_magitSectionToggleChildren htidy⟩

/-- Two children that are shown stay so. -/
theorem not_allOrNothing_shown : ¬AllOrNothing ⟨.child, 1,
    .node 3 none false (.node 1 none false (.text 4 .nil) (.node 1 none false (.text 2 .nil) .nil))
      .nil, ⟨[], []⟩⟩ :=
  fun h => absurd (h.slots 0 false rfl) (by decide)

end Place

end Magit.Section

import Magit.Section.Visibility

/-!
# Section/Commands — the visibility commands of a section buffer

A command works on a `Place`: the root with the sections in it, or one other section at its
position.  Each keeps the buffer `Tidy` and leaves everything outside of its place as it was
(`Kept`).
-/

namespace Magit.Section

open Emacs Display

/-- Where a section stands in the tree. -/
inductive Level
  /-- The root, with or without a slot `content`; in it stand the sections. -/
  | root (content : Bool)
  /-- The only section. -/
  | child

/-- A section as a command gets it, in its buffer. -/
structure Place where
  level : Level
  beg : ℕ
  sections : Sections
  display : Display

namespace Sections

/-- A child whose slot `hidden` is set. -/
def anyHidden : Sections → Bool
  | nil => false
  | text _ rest => rest.anyHidden
  | leaf _ hidden rest => hidden || rest.anyHidden
  | unwashed _ _ hidden _ rest => hidden || rest.anyHidden
  | node _ _ hidden _ rest => hidden || rest.anyHidden

/-- A child with children. -/
def anyChildren : Sections → Bool
  | nil => false
  | text _ rest => rest.anyChildren
  | leaf _ _ rest => rest.anyChildren
  | unwashed _ _ _ _ rest => rest.anyChildren
  | node _ _ _ body rest => body.hasChildren || rest.anyChildren

/-- A child for which `magit-section-hidden-body` holds. -/
def hiddenBody : Sections → Bool
  | nil => false
  | text _ rest => rest.hiddenBody
  | leaf _ _ rest => rest.hiddenBody
  | unwashed _ content hidden _ rest => content && hidden || rest.hiddenBody
  | node _ _ hidden body rest =>
    (if body.hasChildren then body.hiddenBody else hidden) || rest.hiddenBody

end Sections

namespace Place

/-- The slot `hidden`, which the root is never left with. -/
def hidden (s : Place) : Bool :=
  match s.level with
  | .root _ => false
  | .child => s.sections.anyHidden

/-- The slot `children`, with the text between them. -/
def children (s : Place) : Sections :=
  match s.level, s.sections with
  | .root _, sections => sections
  | .child, .node _ _ _ body _ => body
  | .child, _ => .nil

/-- Does something to the children where they stand. -/
def onChildren (action : ℕ → Sections → Display → Sections × Display) (s : Place) : Place :=
  match s.level, s.sections with
  | .root _, sections =>
    let r := action s.beg sections s.display
    { s with sections := r.1, display := r.2 }
  | .child, .node heading washer hidden body rest =>
    let r := action (s.beg + (heading + 1)) body s.display
    { s with sections := .node heading washer hidden r.1 rest, display := r.2 }
  | .child, _ => s

/-- `magit-section-show` -/
def magitSectionShow (s : Place) : Place :=
  match s.level with
  | .root content =>
    let d := if content then s.display.removeOverlays s.beg (s.beg + s.sections.length)
      else s.display
    let r := s.sections.showEach s.beg d
    { s with sections := r.1, display := r.2 }
  | .child =>
    let r := (s.sections.setEach false).showEach s.beg s.display
    { s with sections := r.1, display := r.2 }

/-- Nothing where it signals a `user-error`, which it does before anything is changed. -/
def magitSectionHide (s : Place) : Option Place :=
  match s.level with
  | .root _ => none
  | .child =>
    let r := s.sections.hideEach s.beg s.display
    some { s with sections := r.1, display := r.2 }

/-- `magit-section-toggle` -/
def magitSectionToggle (s : Place) : Option Place :=
  match s.level with
  | .root _ => none
  | .child => if s.hidden then some s.magitSectionShow else s.magitSectionHide

/-- If any child is hidden, all are marked as hidden before they are shown or hidden. -/
def magitSectionToggleChildren (s : Place) : Place :=
  (s.onChildren fun _ children d => (children.setEach children.anyHidden, d)).magitSectionShow

/-- `magit-section-show-children` -/
def magitSectionShowChildren (s : Place) (depth : Option ℤ) : Place :=
  (s.onChildren fun beg children d => children.showChildren1 beg depth d).magitSectionShow

/-- `magit-section-hide-children` -/
def magitSectionHideChildren (s : Place) : Place :=
  s.onChildren fun beg children d => children.hideEach beg d

/-- `magit-section-show-headings` -/
def magitSectionShowHeadings (s : Place) : Place :=
  (s.onChildren fun _ children d => (children.showHeadings1, d)).magitSectionShow

/-- With `tabNext` the key that ran the command is bound to `tab-next`, which is run instead. -/
def magitSectionCycle (tabNext : Bool) (s : Place) : Option Place :=
  if tabNext then
    some s
  else if s.hidden then
    some s.magitSectionShow.magitSectionHideChildren
  else if s.children.anyHidden && s.children.anyChildren then
    some s.magitSectionShowHeadings
  else if s.children.hiddenBody then
    some (s.magitSectionShowChildren none)
  else
    s.magitSectionHide

/-- `magit-section-cycle-global`, of the root. -/
def magitSectionCycleGlobal (s : Place) : Place :=
  if s.children.anyHidden && s.children.anyChildren then
    s.magitSectionShowHeadings
  else if s.children.hiddenBody then
    s.magitSectionShowChildren none
  else
    s.magitSectionHideChildren

/-! ## What a command may rely on, and what it keeps -/

/-- No text and no heading is covered. -/
def Loose (s : Place) : Prop := AtMost s.beg s.sections.length s.sections.InContent s.display

/-- The overlays are those that the slots call for, and what is shown is washed. -/
structure Tidy (s : Place) : Prop where
  exactly : Exactly s.beg s.sections.length s.sections.Hidden s.display
  washed : s.sections.Washed

/-- Nothing is invisible but by an overlay, and no washer will change that. -/
def Plain (s : Place) : Prop := s.sections.offsets = [] ∧ s.display.properties = []

/-- Everything outside of the place is as it was. -/
structure Kept (s s' : Place) : Prop where
  level : s'.level = s.level
  beg : s'.beg = s.beg
  before : ∀ p < s.beg, (s'.display.Covered p ↔ s.display.Covered p)
  behind : ∀ p, s'.display.Covered (s.beg + s'.sections.length + p)
    ↔ s.display.Covered (s.beg + s.sections.length + p)
  plain : s.Plain → s'.Plain

theorem Tidy.loose {s : Place} (h : s.Tidy) : s.Loose :=
  h.exactly.atMost fun _ => Sections.inContent_of_hidden

theorem Kept.refl (s : Place) : s.Kept s :=
  ⟨rfl, rfl, fun _ _ => Iff.rfl, fun _ => Iff.rfl, id⟩

/-- What two commands keep they keep together. -/
theorem Kept.trans {s s' s'' : Place} (h : s.Kept s') (h' : s'.Kept s'') : s.Kept s'' where
  level := h'.level.trans h.level
  beg := h'.beg.trans h.beg
  before p hp := (h'.before p (by rwa [h.beg])).trans (h.before p hp)
  behind p := by
    have hlast := h'.behind p
    rw [h.beg] at hlast
    exact hlast.trans (h.behind p)
  plain := h'.plain ∘ h.plain

/-- A place that is kept and tidy has been redrawn. -/
theorem Kept.redrawn {s s' : Place} (h : s.Kept s') (htidy : s'.Tidy) :
    Redrawn s.beg s.sections.length s'.sections.length s'.sections.Hidden s.display s'.display where
  before := h.before
  within p hp := by
    have hexactly := htidy.exactly p (Nat.le_of_lt hp)
    rwa [h.beg] at hexactly
  behind := h.behind

/-- Tidiness of a place that was redrawn. -/
theorem tidy_of_redrawn {s s' : Place} (hbeg : s'.beg = s.beg)
    (h : Redrawn s.beg s.sections.length s'.sections.length s'.sections.Hidden s.display s'.display)
    (hend : ¬s.display.Covered (s.beg + s.sections.length)) (hwashed : s'.sections.Washed) :
    s'.Tidy := by
  refine ⟨fun p hp => ?_, hwashed⟩
  rw [hbeg]
  rcases Nat.lt_or_ge p s'.sections.length with hlt | hge
  · exact h.within p hlt
  · rw [Nat.le_antisymm hp hge]
    exact iff_of_false (fun hcovered => hend ((h.behind 0).mp hcovered))
      (Sections.not_hidden_of_length_le (Nat.le_refl _))

theorem Loose.not_covered_end {s : Place} (h : s.Loose) :
    ¬s.display.Covered (s.beg + s.sections.length) := fun hcovered =>
  Sections.not_inContent_of_length_le (Nat.le_refl _) (h _ (Nat.le_refl _) hcovered)

/-- A place whose sections are shown, from another display with the same text properties. -/
theorem tidy_showEach {level : Level} {beg : ℕ} {f f' : Sections} {d d' : Display}
    (hlayout : Sections.SameLayout f f') (hproperties : d'.properties = d.properties)
    (hend : ¬d.Covered (beg + f.length))
    (h : Redrawn beg f.length (f'.showEach beg d').1.length (f'.showEach beg d').1.Hidden d
      (f'.showEach beg d').2) :
    Tidy ⟨level, beg, (f'.showEach beg d').1, (f'.showEach beg d').2⟩
      ∧ Kept ⟨level, beg, f, d⟩ ⟨level, beg, (f'.showEach beg d').1, (f'.showEach beg d').2⟩ := by
  refine ⟨tidy_of_redrawn (s := ⟨level, beg, f, d⟩) rfl h hend (Sections.washed_showEach _ _ _),
    rfl, rfl, h.before, h.behind, ?_⟩
  rintro ⟨hoffsets, hnone⟩
  exact Sections.showEach_of_offsets (hlayout.offsets.trans hoffsets) beg (hproperties.trans hnone)

/-- **Showing a section** leaves its place tidy. -/
theorem tidy_magitSectionShow {s : Place} (h : s.Loose) :
    s.magitSectionShow.Tidy ∧ s.Kept s.magitSectionShow := by
  have hend := h.not_covered_end
  obtain ⟨level, beg, f, d⟩ := s
  rcases level with (_ | _) | _
  · exact tidy_showEach ⟨rfl, rfl, rfl⟩ rfl hend (Sections.redrawn_showEach h)
  · have hshown := redrawn_removeOverlays d beg f.length
    have hproperties : (d.removeOverlays beg (beg + f.length)).properties = d.properties := rfl
    exact tidy_showEach ⟨rfl, rfl, rfl⟩ hproperties hend
      (hshown.trans (Sections.redrawn_showEach (hshown.atMost_of_shown hend)))
  · have hlayout := Sections.sameLayout_setEach false f
    refine tidy_showEach hlayout rfl hend ?_
    have hredrawn := @Sections.redrawn_showEach beg d (f.setEach false)
    rw [hlayout.length, hlayout.inContent] at hredrawn
    exact hredrawn h

/-- Slots are set, and what is covered changes in the content of the sections only. -/
structure Reset (s s' : Place) : Prop where
  level : s'.level = s.level
  beg : s'.beg = s.beg
  layout : Sections.SameLayout s.sections s'.sections
  changed : ChangedIn s.beg s.sections.InContent s.display s'.display
  properties : s'.display.properties = s.display.properties

/-- A reset keeps the layout. -/
theorem Reset.kept {s s' : Place} (h : s.Reset s') : s.Kept s' := by
  have hsame : Redrawn s.beg s.sections.length s.sections.length
      (fun p => s'.display.Covered (s.beg + p)) s'.display s'.display :=
    Redrawn.of_agree fun _ _ => Iff.rfl
  have hredrawn := h.changed.redrawn (fun _ => Sections.inContent_lt) hsame
  refine ⟨h.level, h.beg, hredrawn.before, ?_, ?_⟩
  · rw [h.layout.length]
    exact hredrawn.behind
  · rintro ⟨hoffsets, hproperties⟩
    exact ⟨h.layout.offsets.trans hoffsets, h.properties.trans hproperties⟩

theorem Reset.loose {s s' : Place} (h : s.Reset s') (hs : s.Loose) : s'.Loose := by
  unfold Loose
  rw [h.beg, h.layout.length, h.layout.inContent]
  exact h.changed.atMost hs

/-- What is done to the children changes the contents of the children only. -/
theorem reset_onChildren {action : ℕ → Sections → Display → Sections × Display}
    (hlayout : ∀ beg f d, Sections.SameLayout f (action beg f d).1)
    (hchanged : ∀ beg f d, ChangedIn beg f.InContent d (action beg f d).2)
    (hproperties : ∀ beg f d, (action beg f d).2.properties = d.properties) (s : Place) :
    s.Reset (s.onChildren action) := by
  obtain ⟨level, beg, f, d⟩ := s
  have hsame : ∀ level : Level, Reset ⟨level, beg, f, d⟩ ⟨level, beg, f, d⟩ :=
    fun _ => ⟨rfl, rfl, ⟨rfl, rfl, rfl⟩, ChangedIn.refl d, rfl⟩
  rcases level with _ | _
  · exact ⟨rfl, rfl, hlayout beg f d, hchanged beg f d, hproperties beg f d⟩
  · rcases f with _ | _ | _ | _ | ⟨heading, washer, hidden, body, rest⟩
    · exact hsame _
    · exact hsame _
    · exact hsame _
    · exact hsame _
    · have hbody := hlayout (beg + (heading + 1)) body d
      refine ⟨rfl, rfl, ⟨?_, ?_, ?_⟩, ?_, hproperties _ body d⟩
      · simp only [onChildren, Sections.length, hbody.length]
      · simp only [onChildren, Sections.InContent, hbody.length]
      · simp only [onChildren, Sections.offsets, hbody.offsets]
      · exact ((hchanged (beg + (heading + 1)) body d).within (fun _ => Sections.inContent_lt)
          fun _ _ => trivial).behind

/-- Hiding a section resets its body. -/
theorem reset_magitSectionHide {s s' : Place} (hs : s.magitSectionHide = some s') :
    s.Reset s' := by
  obtain ⟨level, beg, f, d⟩ := s
  rcases level with _ | _
  · simp [magitSectionHide] at hs
  · rw [← Option.some.inj hs]
    exact ⟨rfl, rfl, Sections.sameLayout_hideEach f beg d, Sections.changedIn_hideEach f beg d,
      Sections.properties_hideEach f beg d⟩

/-- Hiding a section leaves it tidy. -/
theorem tidy_magitSectionHide {s s' : Place} (h : s.Loose) (hs : s.magitSectionHide = some s') :
    s'.Tidy ∧ s.Kept s' := by
  refine ⟨?_, (reset_magitSectionHide hs).kept⟩
  obtain ⟨level, beg, f, d⟩ := s
  rcases level with _ | _
  · simp [magitSectionHide] at hs
  · rw [← Option.some.inj hs]
    have hexactly := Sections.exactly_hideEach h
    rw [← (Sections.sameLayout_hideEach f beg d).length] at hexactly
    exact ⟨hexactly, Sections.washed_hideEach f beg d⟩

/-- Hiding the children of a section whose place is tidy, be it shown or hidden. -/
theorem tidy_magitSectionHideChildren {s : Place} (h : s.Tidy) :
    s.magitSectionHideChildren.Tidy ∧ s.Kept s.magitSectionHideChildren := by
  have hreset := reset_onChildren (fun beg f d => Sections.sameLayout_hideEach f beg d)
    (fun beg f d => Sections.changedIn_hideEach f beg d)
    (fun beg f d => Sections.properties_hideEach f beg d) s
  refine ⟨?_, hreset.kept⟩
  have hloose := h.loose
  obtain ⟨level, beg, f, d⟩ := s
  rcases level with _ | _
  · have hexactly := Sections.exactly_hideEach hloose
    rw [← (Sections.sameLayout_hideEach f beg d).length] at hexactly
    exact ⟨hexactly, Sections.washed_hideEach f beg d⟩
  · rcases f with _ | _ | _ | _ | ⟨heading, washer, hidden, body, rest⟩
    · exact h
    · exact h
    · exact h
    · exact h
    · obtain ⟨hnode, hrest⟩ := h.washed
      exact ⟨Sections.exactly_hideChildren h.exactly,
        ⟨fun hshown => ⟨(hnode hshown).1, Sections.washed_hideEach _ _ _⟩, hrest⟩⟩

/-- Showing a section and then acting on what is below leaves it tidy, if the action stays within
the content. -/
theorem tidy_showAfter {action : ℕ → Sections → Display → Sections × Display}
    (hlayout : ∀ beg f d, Sections.SameLayout f (action beg f d).1)
    (hchanged : ∀ beg f d, ChangedIn beg f.InContent d (action beg f d).2)
    (hproperties : ∀ beg f d, (action beg f d).2.properties = d.properties) {s : Place}
    (h : s.Tidy) :
    (s.onChildren action).magitSectionShow.Tidy
      ∧ s.Kept (s.onChildren action).magitSectionShow := by
  have hreset := reset_onChildren hlayout hchanged hproperties s
  obtain ⟨htidy, hkept⟩ := tidy_magitSectionShow (hreset.loose h.loose)
  exact ⟨htidy, hreset.kept.trans hkept⟩

theorem tidy_magitSectionToggleChildren {s : Place} (h : s.Tidy) :
    s.magitSectionToggleChildren.Tidy ∧ s.Kept s.magitSectionToggleChildren :=
  tidy_showAfter (fun _ f _ => Sections.sameLayout_setEach _ f) (fun _ _ d => ChangedIn.refl d)
    (fun _ _ _ => rfl) h

theorem tidy_magitSectionShowHeadings {s : Place} (h : s.Tidy) :
    s.magitSectionShowHeadings.Tidy ∧ s.Kept s.magitSectionShowHeadings :=
  tidy_showAfter (fun _ f _ => Sections.sameLayout_showHeadings1 f) (fun _ _ d => ChangedIn.refl d)
    (fun _ _ _ => rfl) h

/-- Showing the children leaves a place tidy. -/
theorem tidy_magitSectionShowChildren {s : Place} (h : s.Tidy) (depth : Option ℤ) :
    (s.magitSectionShowChildren depth).Tidy ∧ s.Kept (s.magitSectionShowChildren depth) :=
  tidy_showAfter (fun beg f d => Sections.sameLayout_showChildren1 f beg depth d)
    (fun beg f d => Sections.changedIn_showChildren1 f beg depth d)
    (fun beg f d => Sections.properties_showChildren1 f beg depth d) h

/-- Toggling a section leaves it tidy. -/
theorem tidy_magitSectionToggle {s s' : Place} (h : s.Tidy) (hs : s.magitSectionToggle = some s') :
    s'.Tidy ∧ s.Kept s' := by
  unfold magitSectionToggle at hs
  split at hs
  · simp at hs
  · split_ifs at hs
    · rw [← Option.some.inj hs]
      exact tidy_magitSectionShow h.loose
    · exact tidy_magitSectionHide h.loose hs

/-- Cycling a section leaves it tidy. -/
theorem tidy_magitSectionCycle {tabNext : Bool} {s s' : Place} (h : s.Tidy)
    (hs : s.magitSectionCycle tabNext = some s') : s'.Tidy ∧ s.Kept s' := by
  unfold magitSectionCycle at hs
  split_ifs at hs
  · rw [← Option.some.inj hs]
    exact ⟨h, Kept.refl s⟩
  · obtain ⟨hshown, hkept⟩ := tidy_magitSectionShow h.loose
    obtain ⟨htidy, hkept'⟩ := tidy_magitSectionHideChildren hshown
    rw [← Option.some.inj hs]
    exact ⟨htidy, hkept.trans hkept'⟩
  · rw [← Option.some.inj hs]
    exact tidy_magitSectionShowHeadings h
  · rw [← Option.some.inj hs]
    exact tidy_magitSectionShowChildren h none
  · exact tidy_magitSectionHide h.loose hs

/-- Cycling all sections leaves the buffer tidy. -/
theorem tidy_magitSectionCycleGlobal {s : Place} (h : s.Tidy) :
    s.magitSectionCycleGlobal.Tidy ∧ s.Kept s.magitSectionCycleGlobal := by
  unfold magitSectionCycleGlobal
  split_ifs
  · exact tidy_magitSectionShowHeadings h
  · exact tidy_magitSectionShowChildren h none
  · exact tidy_magitSectionHideChildren h

end Place

end Magit.Section

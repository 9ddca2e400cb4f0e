import Magit.Section.Tree
import Mathlib.Data.Int.Notation

/-!
# Section/Visibility — showing and hiding sections

The recursions of the visibility commands over the children of a section.  Showing takes every
overlay from the content and hides the children again whose slot is set, so it leaves exactly the
overlays that the slots call for whatever they were before, if only no text and no heading was
covered (`redrawn_showEach`).  The other recursions set slots and hide some of the children on
their way, which keeps that condition.
-/

namespace Magit.Section

open Emacs Display

namespace Sections

/-- `magit-section-hide` on the slots `content` and `end`. -/
def hideContent (content fin : ℕ) (d : Display) : Display :=
  (d.removeOverlays content fin).makeOverlay content fin

/-- `magit-section-hide` on each of the sections. -/
def hideEach (beg : ℕ) : Sections → Display → Sections × Display
  | nil, d => (nil, d)
  | text n rest, d =>
    let r := hideEach (beg + n) rest d
    (text n r.1, r.2)
  | leaf n _ rest, d =>
    let r := hideEach (beg + n) rest d
    (leaf n true r.1, r.2)
  | unwashed heading content _ body rest, d =>
    let fin := beg + (heading + 1)
    let r := hideEach fin rest (if content then hideContent fin fin d else d)
    (unwashed heading content true body r.1, r.2)
  | node heading washer _ body rest, d =>
    let content := beg + (heading + 1)
    let fin := content + body.length
    let r := hideEach fin rest (hideContent content fin d)
    (node heading washer true body r.1, r.2)

/-- `magit-section--maybe-wash` where the washer only paints. -/
def paint (content : ℕ) : Option (List ℕ) → Display → Display
  | some offsets, d => d.putInvisible (offsets.map (content + ·))
  | none, d => d

/-- `magit-section-hide` on the sections that are hidden and `magit-section-show` on the others. -/
def showEach (beg : ℕ) : Sections → Display → Sections × Display
  | nil, d => (nil, d)
  | text n rest, d =>
    let r := showEach (beg + n) rest d
    (text n r.1, r.2)
  | leaf n hidden rest, d =>
    let r := showEach (beg + n) rest d
    (leaf n hidden r.1, r.2)
  | unwashed heading content true body rest, d =>
    let fin := beg + (heading + 1)
    let r := showEach fin rest (if content then hideContent fin fin d else d)
    (unwashed heading content true body r.1, r.2)
  | unwashed heading _ false body rest, d =>
    -- the washer inserts the body, whose sections are then the children
    let content := beg + (heading + 1)
    let d := d.insertText content body.length
    let b := showEach content body (d.removeOverlays content (content + body.length))
    let r := showEach (content + b.1.length) rest b.2
    (node heading none false b.1 r.1, r.2)
  | node heading washer true body rest, d =>
    let content := beg + (heading + 1)
    let fin := content + body.length
    let r := showEach fin rest (hideContent content fin d)
    (node heading washer true body r.1, r.2)
  | node heading washer false body rest, d =>
    let content := beg + (heading + 1)
    let d := paint content washer d
    let b := showEach content body (d.removeOverlays content (content + body.length))
    let r := showEach (content + b.1.length) rest b.2
    (node heading none false b.1 r.1, r.2)

/-- Sets the slot `hidden` of each of the sections. -/
def setEach (hidden : Bool) : Sections → Sections
  | nil => nil
  | text n rest => text n (rest.setEach hidden)
  | leaf n _ rest => leaf n hidden (rest.setEach hidden)
  | unwashed heading content _ body rest =>
    unwashed heading content hidden body (rest.setEach hidden)
  | node heading washer _ body rest => node heading washer hidden body (rest.setEach hidden)

/-- The depth for the children of a child, or nothing if the child is to be hidden. -/
def childDepth : Option ℤ → Option (Option ℤ)
  | none => some none
  | some depth => if 0 < depth then some (some (depth - 1)) else none

/-- `magit-section-show-children-1`. -/
def showChildren1 (beg : ℕ) : Sections → Option ℤ → Display → Sections × Display
  | nil, _, d => (nil, d)
  | text n rest, depth, d =>
    let r := showChildren1 (beg + n) rest depth d
    (text n r.1, r.2)
  | leaf n _ rest, depth, d =>
    let r := showChildren1 (beg + n) rest depth d
    (leaf n (childDepth depth).isNone r.1, r.2)
  | unwashed heading content _ body rest, depth, d =>
    let fin := beg + (heading + 1)
    let d := if content && (childDepth depth).isNone then hideContent fin fin d else d
    let r := showChildren1 fin rest depth d
    (unwashed heading content (childDepth depth).isNone body r.1, r.2)
  | node heading washer _ body rest, depth, d =>
    let content := beg + (heading + 1)
    let fin := content + body.length
    match childDepth depth with
    | some deeper =>
      let b := showChildren1 content body deeper d
      let r := showChildren1 fin rest depth b.2
      (node heading washer false b.1 r.1, r.2)
    | none =>
      let r := showChildren1 fin rest depth (hideContent content fin d)
      (node heading washer true body r.1, r.2)

/-- `magit-section-show-headings-1`. -/
def showHeadings1 : Sections → Sections
  | nil => nil
  | text n rest => text n rest.showHeadings1
  | leaf n _ rest => leaf n false rest.showHeadings1
  | unwashed heading content _ body rest => unwashed heading content false body rest.showHeadings1
  | node heading washer _ body rest =>
    node heading washer false (if body.hasChildren then body.showHeadings1 else body)
      rest.showHeadings1

/-- Sections that take the same place, with the same washers left to paint. -/
structure SameLayout (f f' : Sections) : Prop where
  length : f'.length = f.length
  inContent : f'.InContent = f.InContent
  offsets : f'.offsets = f.offsets

/-! ## Redrawing the sections side by side -/

section

variable {beg : ℕ} {d d₁ d₂ : Display}

/-- Text and the sections without content are not redrawn. -/
theorem redrawn_behind {n : ℕ} {rest rest' : Sections} (hhead : ∀ p < n, ¬d.Covered (beg + p))
    (hrest : Redrawn (beg + n) rest.length rest'.length rest'.Hidden d d₁) :
    Redrawn beg (n + rest.length) (n + rest'.length) (splice n (fun _ => False) rest'.Hidden) d d₁ :=
  (Redrawn.of_agree fun p hp => iff_false_intro (hhead p hp)).append hrest

/-- A section whose content is redrawn, and what stands behind it then. -/
theorem redrawn_node {heading len m : ℕ} {hidden : Bool} {body rest : Sections}
    (hhead : ∀ p < heading + 1, ¬d.Covered (beg + p))
    (hbody : Redrawn (beg + (heading + 1)) len body.length
      (fun p => hidden = true ∨ body.Hidden p) d d₁)
    (hrest : Redrawn (beg + (heading + 1) + body.length) m rest.length rest.Hidden d₁ d₂)
    (washer : Option (List ℕ)) :
    Redrawn beg (heading + 1 + (len + m)) (node heading washer hidden body rest).length
      (node heading washer hidden body rest).Hidden d d₂ :=
  (Redrawn.of_agree fun p hp => iff_false_intro (hhead p hp)).append (hbody.append hrest)

theorem redrawn_hideContent (d : Display) (content len : ℕ) :
    Redrawn content len len (fun _ => True) d (hideContent content (content + len) d) :=
  (redrawn_removeOverlays d content len).trans (redrawn_makeOverlay _ content len)

/-- Painting covers nothing. -/
theorem covered_paint (content : ℕ) (washer : Option (List ℕ)) (d : Display) (p : ℕ) :
    (paint content washer d).Covered p ↔ d.Covered p := by
  cases washer with
  | none => rfl
  | some offsets => exact covered_putInvisible d _ p

/-- A section without a body has nothing to hide. -/
theorem covered_hideEmpty (content : Bool) (d : Display) (fin p : ℕ) :
    (if content then hideContent fin fin d else d).Covered p ↔ d.Covered p := by
  cases content with
  | true => exact (redrawn_hideContent d fin 0).covered_iff (fun q hq => absurd hq q.not_lt_zero) p
  | false => rfl

/-- **Showing leaves the overlays that the slots call for.** -/
theorem redrawn_showEach {f : Sections} (h : AtMost beg f.length f.InContent d) :
    Redrawn beg f.length (showEach beg f d).1.length (showEach beg f d).1.Hidden d
      (showEach beg f d).2 := by
  induction f generalizing beg d with
  | nil => exact Redrawn.of_agree fun p hp => absurd hp p.not_lt_zero
  | text n rest ih | leaf n hidden rest ih =>
    obtain ⟨hhead, hrest⟩ := atMost_splice h
    exact redrawn_behind hhead (ih hrest)
  | unwashed heading content hidden body rest ihbody ih =>
    obtain ⟨hhead, hrest⟩ := atMost_splice h
    cases hidden with
    | true =>
      have hempty := covered_hideEmpty content d (beg + (heading + 1))
      exact redrawn_behind hhead ((ih (hrest.of_covered hempty)).of_covered hempty)
    | false =>
      have hend : ¬d.Covered (beg + (heading + 1)) :=
        fun hcovered => rest.not_inContent_zero (hrest 0 (Nat.zero_le _) hcovered)
      have hshown := (redrawn_insertText hend body.length).trans (redrawn_removeOverlays _ _ _)
      have hbody := hshown.trans (ihbody (hshown.atMost_of_shown hend))
      have hnode := redrawn_node hhead (hbody.congr fun p _ => (or_iff_right Bool.false_ne_true).symm)
        (ih (hbody.atMost_behind hrest)) none
      rwa [Nat.zero_add] at hnode
  | node heading washer hidden body rest ihbody ih =>
    obtain ⟨hhead, h⟩ := atMost_splice h
    obtain ⟨-, hrest⟩ := atMost_splice h
    cases hidden with
    | true =>
      have hhide := redrawn_hideContent d (beg + (heading + 1)) body.length
      exact redrawn_node hhead (hhide.congr fun p _ => iff_of_true trivial (.inl rfl))
        (ih (hhide.atMost_behind hrest)) washer
    | false =>
      have hend : ¬d.Covered (beg + (heading + 1) + body.length) :=
        fun hcovered => rest.not_inContent_zero (hrest 0 (Nat.zero_le _) hcovered)
      have hshown := (redrawn_removeOverlays (paint (beg + (heading + 1)) washer d)
        (beg + (heading + 1)) body.length).of_covered (covered_paint _ _ _)
      have hbody := hshown.trans (ihbody (hshown.atMost_of_shown hend))
      exact redrawn_node hhead (hbody.congr fun p _ => (or_iff_right Bool.false_ne_true).symm)
        (ih (hbody.atMost_behind hrest)) none

/-- What hiding covers, it adds to what was covered. -/
theorem covered_hideEach (f : Sections) (p : ℕ) :
    (hideEach beg f d).2.Covered p ↔ d.Covered p ∨ At beg f.InContent p := by
  induction f generalizing beg d with
  | nil => simp [hideEach, InContent, At]
  | text n rest ih | leaf n hidden rest ih => exact ih.trans (or_congr_right (at_behind _ n p _).symm)
  | unwashed heading content hidden body rest _ ih =>
    exact ih.trans (or_congr (covered_hideEmpty content d _ p) (at_behind _ _ p _).symm)
  | node heading washer hidden body rest _ ih =>
    rw [InContent, at_behind, at_splice]
    simp only [and_true]
    rw [← or_assoc, ← covered_hide]
    exact ih

/-- Hiding each section keeps the layout. -/
theorem sameLayout_hideEach (f : Sections) (beg : ℕ) (d : Display) :
    SameLayout f (hideEach beg f d).1 := by
  induction f generalizing beg d with
  | nil => exact ⟨rfl, rfl, rfl⟩
  | text n rest ih | leaf n hidden rest ih | unwashed n content hidden body rest _ ih
  | node heading washer hidden body rest _ ih =>
    constructor
    · simp only [hideEach, Sections.length, (ih _ _).length]
    · simp only [hideEach, InContent, (ih _ _).inContent]
    · simp only [hideEach, Sections.offsets, (ih _ _).offsets]

/-- Every section is hidden then. -/
theorem hidden_hideEach (f : Sections) (beg : ℕ) (d : Display) :
    (hideEach beg f d).1.Hidden = f.InContent := by
  induction f generalizing beg d with
  | nil => rfl
  | text n rest ih | leaf n hidden rest ih | unwashed n content hidden body rest _ ih
  | node heading washer hidden body rest _ ih =>
    simp only [hideEach, Hidden, InContent, ih, true_or]

/-- What is covered after hiding each section is what is hidden. -/
theorem exactly_hideEach {f : Sections} (h : AtMost beg f.length f.InContent d) :
    Exactly beg f.length (hideEach beg f d).1.Hidden (hideEach beg f d).2 := by
  intro p hp
  rw [covered_hideEach, hidden_hideEach]
  rw [at_add]
  exact or_iff_right_of_imp (h p hp)

/-! ## Setting slots on the way -/

theorem inContent_lt {f : Sections} {p : ℕ} (h : f.InContent p) : p < f.length :=
  Nat.lt_of_not_le fun hle => not_inContent_of_length_le hle h

/-- Hiding the content changes it only. -/
theorem changedIn_hideContent (d : Display) (content len : ℕ) :
    ChangedIn content (· < len) d (hideContent content (content + len) d) := by
  intro p
  rw [hideContent, covered_hide]
  by_cases hin : At content (· < len) p
  · exact .inr hin
  · exact .inl (or_iff_left hin)

/-- Setting each section keeps the layout. -/
theorem sameLayout_setEach (hidden : Bool) (f : Sections) : SameLayout f (f.setEach hidden) := by
  induction f with
  | nil => exact ⟨rfl, rfl, rfl⟩
  | text n rest ih | leaf n _ rest ih | unwashed n _ _ body rest _ ih | node n _ _ body rest _ ih =>
    constructor
    · simp only [setEach, Sections.length, ih.length]
    · simp only [setEach, InContent, ih.inContent]
    · simp only [setEach, Sections.offsets, ih.offsets]

/-- Showing the headings keeps the layout. -/
theorem sameLayout_showHeadings1 (f : Sections) : SameLayout f f.showHeadings1 := by
  induction f with
  | nil => exact ⟨rfl, rfl, rfl⟩
  | text n rest ih | leaf n _ rest ih | unwashed n _ _ body rest _ ih =>
    constructor
    · simp only [showHeadings1, Sections.length, ih.length]
    · simp only [showHeadings1, InContent, ih.inContent]
    · simp only [showHeadings1, Sections.offsets, ih.offsets]
  | node heading washer hidden body rest ihbody ih =>
    have hbody : SameLayout body (if body.hasChildren then body.showHeadings1 else body) := by
      split_ifs
      · exact ihbody
      · exact ⟨rfl, rfl, rfl⟩
    constructor
    · simp only [showHeadings1, Sections.length, ih.length, hbody.length]
    · simp only [showHeadings1, InContent, ih.inContent, hbody.length]
    · simp only [showHeadings1, Sections.offsets, ih.offsets, hbody.offsets]

/-- Showing the children keeps the layout. -/
theorem sameLayout_showChildren1 (f : Sections) (beg : ℕ) (depth : Option ℤ) (d : Display) :
    SameLayout f (showChildren1 beg f depth d).1 := by
  induction f generalizing beg depth d with
  | nil => exact ⟨rfl, rfl, rfl⟩
  | text n rest ih | leaf n _ rest ih | unwashed n _ _ body rest _ ih =>
    constructor
    · simp only [showChildren1, Sections.length, (ih _ _ _).length]
    · simp only [showChildren1, InContent, (ih _ _ _).inContent]
    · simp only [showChildren1, Sections.offsets, (ih _ _ _).offsets]
  | node heading washer hidden body rest ihbody ih =>
    rcases hdeeper : childDepth depth with _ | deeper
    · constructor
      · simp only [showChildren1, hdeeper, Sections.length, (ih _ _ _).length]
      · simp only [showChildren1, hdeeper, InContent, (ih _ _ _).inContent]
      · simp only [showChildren1, hdeeper, Sections.offsets, (ih _ _ _).offsets]
    · constructor
      · simp only [showChildren1, hdeeper, Sections.length, (ih _ _ _).length,
          (ihbody _ _ _).length]
      · simp only [showChildren1, hdeeper, InContent, (ih _ _ _).inContent, (ihbody _ _ _).length]
      · simp only [showChildren1, hdeeper, Sections.offsets, (ih _ _ _).offsets,
          (ihbody _ _ _).offsets]

/-- Hiding each section changes content only. -/
theorem changedIn_hideEach (f : Sections) (beg : ℕ) (d : Display) :
    ChangedIn beg f.InContent d (hideEach beg f d).2 := by
  intro p
  rw [covered_hideEach]
  by_cases hin : At beg f.InContent p
  · exact .inr hin
  · exact .inl (or_iff_left hin)

/-- Hiding the children of a section, be it shown or hidden. -/
theorem exactly_hideChildren {heading : ℕ} {washer : Option (List ℕ)} {hidden : Bool}
    {body rest : Sections}
    (h : Exactly beg (node heading washer hidden body rest).length
      (node heading washer hidden body rest).Hidden d) :
    Exactly beg (node heading washer hidden (hideEach (beg + (heading + 1)) body d).1 rest).length
      (node heading washer hidden (hideEach (beg + (heading + 1)) body d).1 rest).Hidden
      (hideEach (beg + (heading + 1)) body d).2 := by
  intro p hp
  have hlength := (sameLayout_hideEach body (beg + (heading + 1)) d).length
  rw [Sections.length, hlength] at hp
  have hcovered := h p hp
  unfold Hidden at hcovered ⊢
  rw [covered_hideEach, hcovered, hidden_hideEach, hlength]
  rcases Nat.lt_or_ge p (heading + 1) with hlt | hge
  · rw [splice_of_lt hlt, splice_of_lt hlt, false_or]
    exact iff_of_false (by rintro ⟨q, hq, -⟩; omega) id
  obtain ⟨q, rfl⟩ := Nat.exists_eq_add_of_le hge
  rw [splice_add, splice_add, ← Nat.add_assoc beg (heading + 1) q, at_add]
  rcases Nat.lt_or_ge q body.length with hlt | hge
  · rw [splice_of_lt hlt, splice_of_lt hlt, or_assoc]
    exact or_congr_right (or_iff_right_of_imp inContent_of_hidden)
  · obtain ⟨r, rfl⟩ := Nat.exists_eq_add_of_le hge
    rw [splice_add, splice_add]
    exact or_iff_left (not_inContent_of_length_le hge)

/-- What is hidden on the way is in the content of a child. -/
theorem changedIn_showChildren1 (f : Sections) (beg : ℕ) (depth : Option ℤ) (d : Display) :
    ChangedIn beg f.InContent d (showChildren1 beg f depth d).2 := by
  induction f generalizing beg depth d with
  | nil => exact ChangedIn.refl d
  | text n rest ih | leaf n _ rest ih => exact (ih _ _ _).behind
  | unwashed heading content hidden body rest _ ih =>
    have hempty : ChangedIn beg (unwashed heading content hidden body rest).InContent d _ :=
      .of_covered (covered_hideEmpty (content && (childDepth depth).isNone) d (beg + (heading + 1)))
    exact hempty.trans (ih _ _ _).behind
  | node heading washer hidden body rest ihbody ih =>
    have hrest : ∀ d, ChangedIn beg (node heading washer hidden body rest).InContent d
        (showChildren1 (beg + (heading + 1) + body.length) rest depth d).2 :=
      fun d => (ih _ depth d).behind.behind
    rcases hdeeper : childDepth depth with _ | deeper
    · simp only [showChildren1, hdeeper]
      exact (((changedIn_hideContent d (beg + (heading + 1)) body.length).within (fun _ => id)
        fun _ _ => trivial).behind).trans (hrest _)
    · simp only [showChildren1, hdeeper]
      exact (((ihbody (beg + (heading + 1)) deeper d).within (fun _ => inContent_lt)
        fun _ _ => trivial).behind).trans (hrest _)

/-! ## Sections that are shown are washed -/

/-- No section that is shown has a washer left. -/
def Washed : Sections → Prop
  | nil => True
  | text _ rest => rest.Washed
  | leaf _ _ rest => rest.Washed
  | unwashed _ _ hidden _ rest => hidden = true ∧ rest.Washed
  | node _ washer hidden body rest => (hidden = false → washer = none ∧ body.Washed) ∧ rest.Washed

/-- Hiding each section washes them. -/
theorem washed_hideEach (f : Sections) (beg : ℕ) (d : Display) : (hideEach beg f d).1.Washed := by
  induction f generalizing beg d with
  | nil => trivial
  | text n rest ih | leaf n _ rest ih => exact ih _ _
  | unwashed heading content hidden body rest _ ih => exact ⟨rfl, ih _ _⟩
  | node heading washer hidden body rest _ ih => exact ⟨fun h => Bool.noConfusion h, ih _ _⟩

/-- Showing each section washes them. -/
theorem washed_showEach (f : Sections) (beg : ℕ) (d : Display) : (showEach beg f d).1.Washed := by
  induction f generalizing beg d with
  | nil => trivial
  | text n rest ih | leaf n _ rest ih => exact ih _ _
  | unwashed heading content hidden body rest ihbody ih =>
    cases hidden with
    | true => exact ⟨rfl, ih _ _⟩
    | false => exact ⟨fun _ => ⟨rfl, ihbody _ _⟩, ih _ _⟩
  | node heading washer hidden body rest ihbody ih =>
    cases hidden with
    | true => exact ⟨fun h => Bool.noConfusion h, ih _ _⟩
    | false => exact ⟨fun _ => ⟨rfl, ihbody _ _⟩, ih _ _⟩

theorem properties_hideContent (content fin : ℕ) (d : Display) :
    (hideContent content fin d).properties = d.properties := by
  unfold hideContent makeOverlay
  split_ifs <;> rfl

theorem properties_hideEmpty (content : Bool) (fin : ℕ) (d : Display) :
    (if content then hideContent fin fin d else d).properties = d.properties := by
  split_ifs
  · exact properties_hideContent fin fin d
  · rfl

/-- Hiding puts no property on the text. -/
theorem properties_hideEach (f : Sections) (beg : ℕ) (d : Display) :
    (hideEach beg f d).2.properties = d.properties := by
  induction f generalizing beg d with
  | nil => rfl
  | text n rest ih | leaf n _ rest ih => exact ih _ _
  | unwashed heading content hidden body rest _ ih =>
    exact (ih _ _).trans (properties_hideEmpty content _ d)
  | node heading washer hidden body rest _ ih => exact (ih _ _).trans (properties_hideContent _ _ d)

/-- What is washed is shown as it is. -/
theorem showEach_of_washed {f : Sections} (h : f.Washed) (beg : ℕ) (d : Display) :
    (showEach beg f d).1 = f ∧ (showEach beg f d).2.properties = d.properties := by
  induction f generalizing beg d with
  | nil => exact ⟨rfl, rfl⟩
  | text n rest ih | leaf n _ rest ih =>
    obtain ⟨htree, hproperties⟩ := ih h (beg + n) d
    exact ⟨by simp only [showEach, htree], hproperties⟩
  | unwashed heading content hidden body rest _ ih =>
    obtain ⟨rfl, hrest⟩ := h
    obtain ⟨htree, hproperties⟩ := ih hrest (beg + (heading + 1))
      (if content then hideContent (beg + (heading + 1)) (beg + (heading + 1)) d else d)
    exact ⟨by simp only [showEach, htree], hproperties.trans (properties_hideEmpty content _ d)⟩
  | node heading washer hidden body rest ihbody ih =>
    obtain ⟨hnode, hrest⟩ := h
    cases hidden with
    | true =>
      obtain ⟨htree, hproperties⟩ := ih hrest (beg + (heading + 1) + body.length)
        (hideContent (beg + (heading + 1)) (beg + (heading + 1) + body.length) d)
      exact ⟨by simp only [showEach, htree], hproperties.trans (properties_hideContent _ _ d)⟩
    | false =>
      obtain ⟨rfl, hbody⟩ := hnode rfl
      obtain ⟨htree, hproperties⟩ := ihbody hbody (beg + (heading + 1))
        (d.removeOverlays (beg + (heading + 1)) (beg + (heading + 1) + body.length))
      simp only [showEach, paint, htree, (ih hrest _ _).1, (ih hrest _ _).2]
      exact ⟨trivial, hproperties⟩

/-- Showing the children puts no property on the text. -/
theorem properties_showChildren1 (f : Sections) (beg : ℕ) (depth : Option ℤ) (d : Display) :
    (showChildren1 beg f depth d).2.properties = d.properties := by
  induction f generalizing beg depth d with
  | nil => rfl
  | text n rest ih | leaf n _ rest ih => exact ih _ _ _
  | unwashed heading content hidden body rest _ ih =>
    exact (ih _ _ _).trans (properties_hideEmpty (content && (childDepth depth).isNone) _ d)
  | node heading washer hidden body rest ihbody ih =>
    rcases hdeeper : childDepth depth with _ | deeper
    · simp only [showChildren1, hdeeper, ih, properties_hideContent]
    · simp only [showChildren1, hdeeper, ih, ihbody]

/-- Where no washer has anything to make invisible, showing makes nothing invisible. -/
theorem showEach_of_offsets {f : Sections} (h : f.offsets = []) (beg : ℕ)
    (hd : d.properties = []) :
    (showEach beg f d).1.offsets = [] ∧ (showEach beg f d).2.properties = [] := by
  induction f generalizing beg d with
  | nil => exact ⟨rfl, hd⟩
  | text n rest ih | leaf n _ rest ih => exact ih h _ hd
  | unwashed heading content hidden body rest ihbody ih =>
    obtain ⟨hbody, hrest⟩ := List.append_eq_nil_iff.mp h
    cases hidden with
    | true =>
      have hlast := ih hrest (beg + (heading + 1))
        ((properties_hideEmpty content (beg + (heading + 1)) d).trans hd)
      exact ⟨List.append_eq_nil_iff.mpr ⟨hbody, hlast.1⟩, hlast.2⟩
    | false =>
      have hinserted : ((d.insertText (beg + (heading + 1)) body.length).removeOverlays
          (beg + (heading + 1)) (beg + (heading + 1) + body.length)).properties = [] := by
        rw [removeOverlays, Display.insertText, hd, List.map_nil]
      have hnew := ihbody hbody (beg + (heading + 1)) hinserted
      have hlast := fun beg' => ih hrest beg' hnew.2
      exact ⟨List.append_eq_nil_iff.mpr ⟨rfl, List.append_eq_nil_iff.mpr ⟨hnew.1, (hlast _).1⟩⟩,
        (hlast _).2⟩
  | node heading washer hidden body rest ihbody ih =>
    obtain ⟨hwasher, hboth⟩ := List.append_eq_nil_iff.mp h
    obtain ⟨hbody, hrest⟩ := List.append_eq_nil_iff.mp hboth
    cases hidden with
    | true =>
      have hkept := properties_hideContent (beg + (heading + 1))
        (beg + (heading + 1) + body.length) d
      have hlast := ih hrest (beg + (heading + 1) + body.length) (hkept.trans hd)
      exact ⟨List.append_eq_nil_iff.mpr ⟨hwasher, List.append_eq_nil_iff.mpr ⟨hbody, hlast.1⟩⟩,
        hlast.2⟩
    | false =>
      have hpainted : ((paint (beg + (heading + 1)) washer d).removeOverlays
          (beg + (heading + 1)) (beg + (heading + 1) + body.length)).properties = [] := by
        rcases washer with _ | offsets
        · exact hd
        · rw [paint, putInvisible, removeOverlays, hd, show offsets = [] from hwasher]
          rfl
      have hnew := ihbody hbody (beg + (heading + 1)) hpainted
      have hlast := fun beg' => ih hrest beg' hnew.2
      exact ⟨List.append_eq_nil_iff.mpr ⟨rfl, List.append_eq_nil_iff.mpr ⟨hnew.1, (hlast _).1⟩⟩,
        (hlast _).2⟩

end

end Sections

end Magit.Section

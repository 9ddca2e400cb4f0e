import Magit.Section.Levels
import Magit.Section.ToggleChildren

/-!
# Section/Headings — showing the headings only

`magit-section-show-headings-1` sets the slot `hidden` of every child to nil, of those that consist
of text only as well, so their bodies are shown together with their headings.  What is wanted is had
only where there is no such child, and where what the washers insert is hidden as it should be
(`headingsOnly_iff`).
-/

namespace Magit.Section

open Emacs Display

namespace Sections

/-- A body that consists of text only. -/
def textOnly (body : Sections) : Bool := !body.hasChildren && body.length != 0

/-- The body of the section is text only. -/
def hasTextBody : Sections → Bool
  | node _ _ _ body _ => body.textOnly
  | _ => false

/-- All headings are shown, and the bodies that consist of text only are hidden. -/
def folded : Sections → Bool
  | nil => true
  | text _ rest => rest.folded
  | leaf _ _ rest => rest.folded
  | unwashed _ _ _ _ rest => rest.folded
  | node _ _ hidden body rest =>
    (if body.hasChildren then !hidden && body.folded else hidden || body.length == 0) && rest.folded

/-- The same once the sections that are not hidden are washed. -/
def foldedOnceWashed : Sections → Bool
  | nil => true
  | text _ rest => rest.foldedOnceWashed
  | leaf _ _ rest => rest.foldedOnceWashed
  | unwashed _ _ hidden body rest =>
    (hidden || if body.hasChildren then body.foldedOnceWashed else body.length == 0)
      && rest.foldedOnceWashed
  | node _ _ hidden body rest =>
    (if body.hasChildren then !hidden && body.foldedOnceWashed else hidden || body.length == 0)
      && rest.foldedOnceWashed

/-- No body consists of text only, and what is still to be washed is hidden as it should be. -/
def withoutText : Sections → Bool
  | nil => true
  | text _ rest => rest.withoutText
  | leaf _ _ rest => rest.withoutText
  | unwashed _ _ _ body rest =>
    (if body.hasChildren then body.foldedOnceWashed else body.length == 0) && rest.withoutText
  | node _ _ _ body rest =>
    (if body.hasChildren then body.withoutText else body.length == 0) && rest.withoutText

/-- The heading of the section is shown, and its body is hidden if it consists of text only. -/
structure HeadingOnly (path : List ℕ) (f : Sections) : Prop where
  shown : ancestorsShown path f = true
  hidden : ∀ g ∈ subsection path f, g.hasTextBody = true → hiddenAtPath path f = true

section

variable {f f' g rest : Sections} {path path' : List ℕ} {i : ℕ}

/-- Text has no sections. -/
theorem subsection_of_text (h : f.hasChildren = false) (path : List ℕ) :
    subsection path f = none := by
  induction f with
  | nil => rcases path with _ | ⟨_ | i, _ | _⟩ <;> rfl
  | text n rest ih => exact ih h
  | leaf | unwashed | node => simp [hasChildren] at h

/-- What has children has a first section. -/
theorem subsection_of_hasChildren (h : f.hasChildren = true) :
    (subsection [0] f).isSome = true := by
  induction f with
  | nil => simp [hasChildren] at h
  | text n rest ih => exact ih h
  | leaf | unwashed | node => rfl

/-- What is found at the path decides. -/
theorem headingOnly_congr (hsub : subsection path f = subsection path' f')
    (hhidden : hiddenAtPath path f = hiddenAtPath path' f')
    (hshown : ancestorsShown path f = ancestorsShown path' f') :
    HeadingOnly path f ↔ HeadingOnly path' f' := by
  constructor <;> rintro ⟨hs, hh⟩
  · exact ⟨hshown ▸ hs, hhidden ▸ hsub ▸ hh⟩
  · exact ⟨hshown.symm ▸ hs, hhidden.symm ▸ hsub.symm ▸ hh⟩

/-- The first section and those behind it. -/
theorem forall_headingOnly_append (hg : IsSection g) :
    (∀ path, (subsection path (g.append rest)).isSome = true → HeadingOnly path (g.append rest))
      ↔ (∀ r, (subsection (0 :: r) g).isSome = true → HeadingOnly (0 :: r) g)
        ∧ ∀ path, (subsection path rest).isSome = true → HeadingOnly path rest := by
  have hinto : ∀ r, HeadingOnly (0 :: r) (g.append rest) ↔ HeadingOnly (0 :: r) g := fun r =>
    headingOnly_congr (subsection_into hg rest) (hiddenAtPath_into hg rest)
      (ancestorsShown_into hg rest)
  have hbehind : ∀ i path, HeadingOnly ((i + 1) :: path) (g.append rest)
      ↔ HeadingOnly (i :: path) rest := fun i path =>
    headingOnly_congr (subsection_behind hg) (hiddenAtPath_behind hg) (ancestorsShown_behind hg)
  constructor
  · intro h
    refine ⟨fun r hr => (hinto r).mp (h _ (by rwa [subsection_into hg])), ?_⟩
    rintro (_ | ⟨i, path⟩) hpath
    · simp at hpath
    · exact (hbehind i path).mp (h _ (by rwa [subsection_behind hg]))
  · rintro ⟨hfront, hrest⟩ (_ | ⟨_ | i, path⟩) hpath
    · simp at hpath
    · rw [subsection_into hg] at hpath
      exact (hinto path).mpr (hfront path hpath)
    · rw [subsection_behind hg] at hpath
      exact (hbehind i path).mpr (hrest _ hpath)

/-- What is said of all sections, read off the tree. -/
theorem folded_iff :
    f.folded = true ↔ ∀ path, (subsection path f).isSome = true → HeadingOnly path f := by
  induction f with
  | nil => exact iff_of_true rfl fun path h => by simp [subsection_of_text (f := .nil) rfl] at h
  | text n rest ih =>
    rw [folded, ih]
    exact forall_congr' fun path => imp_congr_right fun _ => headingOnly_congr rfl rfl rfl
  | leaf n hidden rest ih =>
    rw [folded, ih]
    refine (and_iff_right ?_).symm.trans (forall_headingOnly_append (.leaf n hidden)).symm
    rintro (_ | ⟨i, r⟩) hr
    · exact ⟨rfl, fun g hg h => by cases hg; cases h⟩
    · simp [subsection] at hr
  | unwashed heading content hidden body rest _ ih =>
    rw [folded, ih]
    refine (and_iff_right ?_).symm.trans
      (forall_headingOnly_append (.unwashed heading content hidden body)).symm
    rintro (_ | ⟨i, r⟩) hr
    · exact ⟨rfl, fun g hg h => by cases hg; cases h⟩
    · simp [subsection] at hr
  | node heading washer hidden body rest ihbody ih =>
    rw [folded, Bool.and_eq_true, ih]
    refine (and_congr_left' ?_).trans
      (forall_headingOnly_append (.node heading washer hidden body)).symm
    have hinside : ∀ i r, hidden = false →
        (HeadingOnly (0 :: i :: r) (node heading washer hidden body nil)
          ↔ HeadingOnly (i :: r) body) := by
      rintro i r rfl
      exact headingOnly_congr rfl rfl (Bool.true_and _)
    cases hchildren : body.hasChildren with
    | true =>
      rw [if_pos rfl, Bool.and_eq_true, Bool.not_eq_true', ihbody]
      constructor
      · rintro ⟨rfl, hbody⟩ (_ | ⟨i, r⟩) hr
        · refine ⟨rfl, fun g hg h => ?_⟩
          rw [← Option.some.inj hg, hasTextBody, textOnly, hchildren] at h
          simp at h
        · exact (hinside i r rfl).mpr (hbody (i :: r) hr)
      · intro h
        have hhidden : hidden = false := by
          have := (h [0] (subsection_of_hasChildren hchildren)).shown
          rw [ancestorsShown, ancestorsShown_zero] at this
          simpa using this
        subst hhidden
        refine ⟨rfl, ?_⟩
        rintro (_ | ⟨i, r⟩) hr
        · simp at hr
        · exact (hinside i r rfl).mp (h (i :: r) hr)
    | false =>
      rw [if_neg (by simp), Bool.or_eq_true, beq_iff_eq]
      constructor
      · rintro h (_ | ⟨i, r⟩) hr
        · refine ⟨rfl, fun g hg htext => h.resolve_right fun hlength => ?_⟩
          rw [← Option.some.inj hg, hasTextBody, textOnly, hchildren, hlength] at htext
          simp at htext
        · rw [subsection, subsection_of_text hchildren] at hr
          simp at hr
      · intro h
        refine (Decidable.em (body.length = 0)).symm.imp_left fun hlength => ?_
        refine (h [] rfl).hidden _ rfl ?_
        rw [hasTextBody, textOnly, hchildren]
        simpa using hlength

/-! ## Before and after -/

/-- Showing leaves text as it is. -/
theorem showEach_text (h : f.hasChildren = false) (beg : ℕ) (d : Display) :
    (showEach beg f d).1 = f := by
  induction f generalizing beg d with
  | nil => rfl
  | text n rest ih => exact congrArg (text n) (ih h _ _)
  | leaf | unwashed | node => simp [hasChildren] at h

theorem hasChildren_showEach (f : Sections) (beg : ℕ) (d : Display) :
    (showEach beg f d).1.hasChildren = f.hasChildren := by
  rw [hasChildren_eq, hasChildren_eq, slots_showEach]

theorem hasChildren_showHeadings1 (f : Sections) :
    f.showHeadings1.hasChildren = f.hasChildren := by
  induction f with
  | nil | leaf | unwashed | node => rfl
  | text n rest ih => exact ih

theorem length_showEach_text (h : f.hasChildren = false) (beg : ℕ) (d : Display) :
    (showEach beg f d).1.length = f.length := by
  rw [showEach_text h]

/-- What is folded after showing what there is. -/
theorem folded_showEach (f : Sections) (beg : ℕ) (d : Display) :
    (showEach beg f d).1.folded = f.foldedOnceWashed := by
  induction f generalizing beg d with
  | nil => rfl
  | text n rest ih | leaf n hidden rest ih => exact ih _ _
  | unwashed heading content hidden body rest ihbody ih =>
    cases hidden with
    | true => exact (ih _ _).trans (Bool.true_and _).symm
    | false =>
      rw [showEach, folded, foldedOnceWashed, ih, ihbody, hasChildren_showEach]
      split
      · rfl
      · next h => rw [length_showEach_text (by simpa using h), Bool.false_or]
  | node heading washer hidden body rest ihbody ih =>
    cases hidden with
    | true => exact congrArg (_ && ·) (ih _ _)
    | false =>
      rw [showEach, folded, foldedOnceWashed, ih, ihbody, hasChildren_showEach]
      split
      · rfl
      · next h => rw [length_showEach_text (by simpa using h)]

/-- What is folded after showing the headings. -/
theorem folded_showHeadings1 (f : Sections) (beg : ℕ) (d : Display) :
    (showEach beg f.showHeadings1 d).1.folded = f.withoutText := by
  induction f generalizing beg d with
  | nil => rfl
  | text n rest ih | leaf n hidden rest ih => exact ih _ _
  | unwashed heading content hidden body rest _ ih =>
    rw [showHeadings1, showEach, folded, withoutText, ih, folded_showEach, hasChildren_showEach]
    split
    · rw [Bool.not_false, Bool.true_and]
    · next h => rw [length_showEach_text (by simpa using h), Bool.false_or]
  | node heading washer hidden body rest ihbody ih =>
    rw [showHeadings1, showEach, folded, withoutText, ih, hasChildren_showEach]
    split
    · rw [ihbody, hasChildren_showHeadings1]
      next h => rw [if_pos h, Bool.not_false, Bool.true_and]
    · next h =>
      rw [length_showEach_text (by simpa using h), Bool.false_or]

end

end Sections

namespace Place

open Sections

/-- The condition for the children of a section, or for those that its washer inserts. -/
def noTextBelow : Sections → Bool
  | .node _ _ _ body _ => body.withoutText
  | .unwashed _ _ _ body _ => body.foldedOnceWashed
  | _ => true

/-- Of a section by itself. -/
theorem folded_showHeadings {g : Sections} (hg : IsSection g) (beg : ℕ) (d : Display) :
    (∀ i r, (subsection (0 :: i :: r)
        (Place.mk .child beg g d).magitSectionShowHeadings.sections).isSome = true →
      HeadingOnly (0 :: i :: r) (Place.mk .child beg g d).magitSectionShowHeadings.sections)
      ↔ noTextBelow g = true := by
  -- the section is shown, with `body` in it
  have hbody : ∀ heading (body : Sections),
      (∀ i r, (subsection (0 :: i :: r) (node heading none false body nil)).isSome = true →
        HeadingOnly (0 :: i :: r) (node heading none false body nil))
        ↔ body.folded = true := by
    intro heading body
    rw [folded_iff]
    have hinside : ∀ i r, HeadingOnly (0 :: i :: r) (node heading none false body nil)
        ↔ HeadingOnly (i :: r) body := fun i r => headingOnly_congr rfl rfl (Bool.true_and _)
    constructor
    · rintro h (_ | ⟨i, r⟩) hr
      · simp at hr
      · exact (hinside i r).mp (h i r hr)
    · exact fun h i r hr => (hinside i r).mpr (h (i :: r) hr)
  cases hg with
  | leaf n hidden => exact iff_of_true (fun i r hr => absurd hr (by simp [subsection,
      magitSectionShowHeadings, onChildren, magitSectionShow, setEach, showEach])) rfl
  | unwashed heading content hidden body =>
    have h := hbody heading (showEach (beg + (heading + 1)) body
      ((d.insertText (beg + (heading + 1)) body.length).removeOverlays (beg + (heading + 1))
        (beg + (heading + 1) + body.length))).1
    rw [folded_showEach] at h
    exact h
  | node heading washer hidden body =>
    have h := hbody heading (showEach (beg + (heading + 1)) body.showHeadings1
      ((paint (beg + (heading + 1)) washer d).removeOverlays (beg + (heading + 1))
        (beg + (heading + 1) + body.showHeadings1.length))).1
    rw [folded_showHeadings1] at h
    exact h

end Place

namespace SectionBuffer

open Sections

/-- Below the section at `top` the headings are shown, and the bodies that consist of text only are
hidden; the slots of all other sections are as they were. -/
structure HeadingsOnly (top : List ℕ) (b b' : SectionBuffer) : Prop where
  below : ∀ i r, (subsection (top ++ i :: r) b'.sections).isSome = true →
    HeadingOnly (top ++ i :: r) b'.sections
  outside : ∀ path, ¬top <+: path →
    hiddenAtPath path b'.sections = hiddenAtPath path b.sections
  tidy : b.Tidy → b'.Tidy

/-- No text-only body below the section at the path, and what is still to be washed there is hidden
as it should be. -/
def noTextBelow (b : SectionBuffer) : List ℕ → Bool
  | [] => b.sections.withoutText
  | i :: top => (subsection (i :: top) b.sections).all Place.noTextBelow

/-- **Showing the headings shows no text only where there is none.** -/
theorem headingsOnly_iff {b : SectionBuffer} {path : List ℕ} (hsection : b.HasSection path)
    (hshown : ancestorsShown path b.sections = true) :
    ∃ b', b.step (.sectionShowHeadings path) = some b'
      ∧ (HeadingsOnly path b b' ↔ b.noTextBelow path = true) := by
  have htidy : ∀ {b'}, b.step (.sectionShowHeadings path) = some b' → b.Tidy → b'.Tidy :=
    fun hb' htidy => (tidy_step (c := .sectionShowHeadings path) htidy hshown hb').1
  rcases path with _ | ⟨i, top⟩
  · obtain ⟨b', hb'⟩ : ∃ b', b.step (.sectionShowHeadings []) = some b' := ⟨_, rfl⟩
    refine ⟨b', hb', ?_⟩
    have hfolded : b'.sections.folded = b.sections.withoutText := by
      rw [← Option.some.inj hb']
      exact folded_showHeadings1 _ _ _
    rw [noTextBelow, ← hfolded, folded_iff]
    constructor
    · rintro h (_ | ⟨i, r⟩) hr
      · simp at hr
      · exact h.below i r hr
    · exact fun h => ⟨fun i r hr => h (i :: r) hr,
        fun path hpath => absurd List.nil_prefix hpath, htidy hb'⟩
  · obtain ⟨g, hg⟩ := Option.isSome_iff_exists.mp (hsection.resolve_left (List.cons_ne_nil _ _))
    obtain ⟨b', beg, s', hb', hs', hg', hsame, houtside⟩ :=
      runAt_subsection
        (Place.keepsSection_showAfter fun _ children d => (children.showHeadings1, d))
        (fun _ => rfl) hg
    refine ⟨b', hb', ?_⟩
    have hbelow := Place.folded_showHeadings (leadsTo_of_subsection hg).isSection beg b.display
    have hinside : ∀ j r, HeadingOnly (i :: top ++ j :: r) b'.sections
        ↔ HeadingOnly (0 :: j :: r) s'.sections := fun j r => by
      obtain ⟨hsub, hhidden, hanc⟩ := hg'.append (j :: r)
      rw [hsame, hshown, Bool.true_and] at hanc
      exact headingOnly_congr hsub hhidden hanc
    have hs : s'.sections
        = (Place.mk .child beg g b.display).magitSectionShowHeadings.sections :=
      congrArg Place.sections (Option.some.inj hs').symm
    rw [noTextBelow, hg, Option.all_some, ← hbelow, ← hs]
    constructor
    · intro h j r hr
      rw [← (hg'.append (j :: r)).1] at hr
      exact (hinside j r).mp (h.below j r hr)
    · intro h
      refine ⟨fun j r hr => (hinside j r).mpr (h j r ?_), houtside, htidy hb'⟩
      rwa [← (hg'.append (j :: r)).1]

/-- A section with two others in it, of which one consists of text. -/
def stashes : SectionBuffer :=
  ⟨none, .node 8 none false (.node 9 none true (.text 12 .nil) (.node 3 none false .nil .nil)) .nil,
    ⟨[], []⟩⟩

theorem headingsOnly_iff_stashes :
    ∃ b', stashes.step (.sectionShowHeadings [0]) = some b'
      ∧ (HeadingsOnly [0] stashes b' ↔ stashes.noTextBelow [0] = true) :=
  headingsOnly_iff (.inr rfl) rfl

/-- The body that was hidden is shown. -/
theorem not_headingsOnly_stashes :
    ∃ b', stashes.step (.sectionShowHeadings [0]) = some b' ∧ ¬HeadingsOnly [0] stashes b' := by
  refine ⟨_, rfl, fun h => ?_⟩
  exact absurd ((h.below 0 [] rfl).hidden _ rfl rfl) (by decide)

end SectionBuffer

end Magit.Section

import Magit.Section.Runs

/-!
# Section/Subsections — one section of a buffer, and all the others

A command that is run on the section at a path leaves every section alone whose path does not go
through it (`RunsAt.outside`).  What the path leads to is a section by itself, and a path that goes
on leads into it (`LeadsTo.append`).
-/

namespace Magit.Section

open Emacs Display

namespace Sections

/-- The section at the path, with nothing behind it. -/
def subsection : List ℕ → Sections → Option Sections
  | path, text _ rest => subsection path rest
  | [0], leaf n hidden _ => some (leaf n hidden nil)
  | (i + 1) :: path, leaf _ _ rest => subsection (i :: path) rest
  | [0], unwashed heading content hidden body _ => some (unwashed heading content hidden body nil)
  | (i + 1) :: path, unwashed _ _ _ _ rest => subsection (i :: path) rest
  | [0], node heading washer hidden body _ => some (node heading washer hidden body nil)
  | 0 :: i :: path, node _ _ _ body _ => subsection (i :: path) body
  | (i + 1) :: path, node _ _ _ _ rest => subsection (i :: path) rest
  | _, _ => none

section

variable {command : Place → Option Place} {beg : ℕ} {f f' g g' rest : Sections} {d d' : Display}
  {i : ℕ} {path q r : List ℕ}

@[simp]
theorem subsection_nil (f : Sections) : subsection [] f = none := by
  induction f with
  | nil | leaf | unwashed | node => rfl
  | text n rest ih => exact ih

theorem hiddenAtPath_nil (f : Sections) : hiddenAtPath [] f = false := by
  induction f with
  | nil | leaf | unwashed | node => rfl
  | text n rest ih => exact ih

/-! ## The first section and those behind it -/

theorem subsection_front (hg : IsSection g) (rest : Sections) :
    subsection [0] (g.append rest) = some g := by cases hg <;> rfl

theorem subsection_behind (hg : IsSection g) :
    subsection ((i + 1) :: path) (g.append rest) = subsection (i :: path) rest := by
  cases hg <;> rfl

theorem subsection_into (hg : IsSection g) (rest : Sections) :
    subsection (0 :: path) (g.append rest) = subsection (0 :: path) g := by
  cases hg <;> rcases path with _ | _ <;> rfl

theorem hiddenAtPath_into (hg : IsSection g) (rest : Sections) :
    hiddenAtPath (0 :: path) (g.append rest) = hiddenAtPath (0 :: path) g := by
  cases hg <;> rcases path with _ | _ <;> rfl

theorem ancestorsShown_into (hg : IsSection g) (rest : Sections) :
    ancestorsShown (0 :: path) (g.append rest) = ancestorsShown (0 :: path) g := by
  cases hg <;> rcases path with _ | _ <;> rfl

/-- What the path leads through, to the section at its end. -/
inductive LeadsTo (g : Sections) : List ℕ → Sections → Prop
  | front {rest : Sections} (hg : IsSection g) : LeadsTo g [0] (g.append rest)
  | text {path : List ℕ} {n : ℕ} {rest : Sections} (h : LeadsTo g path rest) :
    LeadsTo g path (text n rest)
  | behind {i : ℕ} {path : List ℕ} {g' rest : Sections} (hg' : IsSection g')
      (h : LeadsTo g (i :: path) rest) : LeadsTo g ((i + 1) :: path) (g'.append rest)
  | inside {i : ℕ} {path : List ℕ} {heading : ℕ} {washer : Option (List ℕ)} {hidden : Bool}
      {body rest : Sections} (h : LeadsTo g (i :: path) body) :
    LeadsTo g (0 :: i :: path) (node heading washer hidden body rest)

theorem LeadsTo.isSection (h : LeadsTo g path f) : IsSection g := by
  induction h with
  | front hg => exact hg
  | text _ ih | behind _ _ ih | inside _ ih => exact ih

/-- What is found at a path is what it leads to. -/
theorem leadsTo_of_subsection (h : subsection path f = some g) : LeadsTo g path f := by
  induction f generalizing path with
  | nil => simp [subsection] at h
  | text n rest ih => exact .text (ih h)
  | leaf n hidden rest ih =>
    rcases path with _ | ⟨_ | i, path⟩
    · simp [subsection] at h
    · rcases path with _ | ⟨j, path⟩
      · rw [← Option.some.inj h]
        exact .front (.leaf n hidden)
      · simp [subsection] at h
    · exact .behind (.leaf n hidden) (ih h)
  | unwashed heading content hidden body rest _ ih =>
    rcases path with _ | ⟨_ | i, path⟩
    · simp [subsection] at h
    · rcases path with _ | ⟨j, path⟩
      · rw [← Option.some.inj h]
        exact .front (.unwashed heading content hidden body)
      · simp [subsection] at h
    · exact .behind (.unwashed heading content hidden body) (ih h)
  | node heading washer hidden body rest ihbody ih =>
    rcases path with _ | ⟨_ | i, path⟩
    · simp [subsection] at h
    · rcases path with _ | ⟨j, path⟩
      · rw [← Option.some.inj h]
        exact .front (.node heading washer hidden body)
      · exact .inside (ihbody h)
    · exact .behind (.node heading washer hidden body) (ih h)

/-- **A path that goes on leads into the section.** -/
theorem LeadsTo.append (h : LeadsTo g path f) (r : List ℕ) :
    subsection (path ++ r) f = subsection (0 :: r) g
      ∧ hiddenAtPath (path ++ r) f = hiddenAtPath (0 :: r) g
      ∧ ancestorsShown (path ++ r) f = (ancestorsShown path f && ancestorsShown (0 :: r) g) := by
  induction h with
  | front hg =>
    refine ⟨subsection_into hg _, hiddenAtPath_into hg _, ?_⟩
    rw [ancestorsShown_zero, Bool.true_and]
    exact ancestorsShown_into hg _
  | text _ ih => exact ih
  | behind hg' _ ih =>
    rw [List.cons_append] at ih ⊢
    rw [subsection_behind hg', hiddenAtPath_behind hg', ancestorsShown_behind hg',
      ancestorsShown_behind hg']
    exact ih
  | @inside i path heading washer hidden body rest _ ih =>
    obtain ⟨hsub, hhidden, hshown⟩ := ih
    refine ⟨hsub, hhidden, ?_⟩
    rw [List.cons_append] at hshown ⊢
    rw [List.cons_append, ancestorsShown, hshown, ancestorsShown, Bool.and_assoc]

/-- What a path leads to is found there. -/
theorem LeadsTo.subsection_eq (h : LeadsTo g path f) : subsection path f = some g := by
  have hat := (h.append []).1
  rw [List.append_nil] at hat
  have hg : subsection [0] g = some g := by cases h.isSection <;> rfl
  rw [hat, hg]

/-- The parent of a section is a section. -/
theorem subsection_parent (h : (subsection (path ++ [i]) f).isSome = true) :
    path = [] ∨ (subsection path f).isSome = true := by
  induction f generalizing path with
  | nil => simp [subsection] at h
  | text n rest ih => exact ih h
  | leaf n hidden rest ih | unwashed n content hidden body rest _ ih =>
    rcases path with _ | ⟨_ | j, path⟩
    · exact .inl rfl
    · rcases path with _ | ⟨k, path⟩
      · exact .inr rfl
      · simp [subsection] at h
    · exact .inr ((ih h).resolve_left (List.cons_ne_nil _ _))
  | node heading washer hidden body rest ihbody ih =>
    rcases path with _ | ⟨_ | j, path⟩
    · exact .inl rfl
    · rcases path with _ | ⟨k, path⟩
      · exact .inr rfl
      · exact .inr ((ihbody h).resolve_left (List.cons_ne_nil _ _))
    · exact .inr ((ih h).resolve_left (List.cons_ne_nil _ _))

/-- A command that does not signal is run on the section that is there. -/
theorem LeadsTo.atPath_isSome (h : LeadsTo g path f)
    (hcommand : ∀ beg, (command ⟨.child, beg, g, d⟩).isSome = true) (beg : ℕ) :
    (atPath command path beg f d).isSome = true := by
  induction h generalizing beg with
  | front hg =>
    rw [atPath_front hg, Option.isSome_map]
    exact hcommand beg
  | text _ ih =>
    rw [atPath, Option.isSome_map]
    exact ih _
  | behind hg' _ ih =>
    rw [atPath_behind hg', Option.isSome_map]
    exact ih _
  | inside _ ih =>
    rw [atPath, Option.isSome_map]
    exact ih _

/-! ## The other sections -/

/-- What is one section stays one section. -/
def KeepsSection (command : Place → Option Place) : Prop :=
  ∀ ⦃g : Sections⦄ ⦃beg : ℕ⦄ ⦃d : Display⦄ ⦃s' : Place⦄, IsSection g →
    command ⟨.child, beg, g, d⟩ = some s' → IsSection s'.sections

/-- What is found at the path, before and after. -/
theorem RunsAt.inside_eq (hkeeps : KeepsSection command) (h : RunsAt command d d' path beg f f') :
    ∃ beg' g s', LeadsTo g path f ∧ command ⟨.child, beg', g, d⟩ = some s'
      ∧ LeadsTo s'.sections path f' ∧ ancestorsShown path f' = ancestorsShown path f := by
  induction h with
  | @front beg g rest s' hg hs' _ =>
    refine ⟨beg, g, s', .front hg, hs', .front (hkeeps hg hs'), ?_⟩
    rw [ancestorsShown_zero, ancestorsShown_zero]
  | text _ ih =>
    obtain ⟨beg', g, s', hg, hs', hg', hshown⟩ := ih
    exact ⟨beg', g, s', .text hg, hs', .text hg', hshown⟩
  | behind hfront _ ih =>
    obtain ⟨beg', g, s', hg, hs', hg', hshown⟩ := ih
    refine ⟨beg', g, s', .behind hfront hg, hs', .behind hfront hg', ?_⟩
    rw [ancestorsShown_behind hfront, ancestorsShown_behind hfront, hshown]
  | inside _ ih =>
    obtain ⟨beg', g, s', hg, hs', hg', hshown⟩ := ih
    refine ⟨beg', g, s', .inside hg, hs', .inside hg', ?_⟩
    rw [ancestorsShown, ancestorsShown, hshown]

/-- **The slots outside of the section at the path are as they were.** -/
theorem RunsAt.outside (hkeeps : KeepsSection command) (h : RunsAt command d d' path beg f f')
    (hq : ¬path <+: q) : hiddenAtPath q f' = hiddenAtPath q f := by
  induction h generalizing q with
  | front hg hs' _ =>
    rcases q with _ | ⟨_ | j, q⟩
    · rw [hiddenAtPath_nil, hiddenAtPath_nil]
    · exact absurd (List.prefix_append [0] q) hq
    · rw [hiddenAtPath_behind hg, hiddenAtPath_behind (hkeeps hg hs')]
  | text _ ih => exact ih hq
  | behind hg _ ih =>
    rcases q with _ | ⟨_ | j, q⟩
    · rw [hiddenAtPath_nil, hiddenAtPath_nil]
    · rw [hiddenAtPath_into hg, hiddenAtPath_into hg]
    · rw [hiddenAtPath_behind hg, hiddenAtPath_behind hg]
      refine ih fun hpre => hq ?_
      obtain ⟨t, ht⟩ := hpre
      obtain ⟨rfl, rfl⟩ := List.cons.inj ht
      exact List.prefix_append _ t
  | inside _ ih =>
    rcases q with _ | ⟨_ | j, q⟩
    · rw [hiddenAtPath_nil, hiddenAtPath_nil]
    · rcases q with _ | ⟨j, q⟩
      · rfl
      · rw [hiddenAtPath, hiddenAtPath]
        exact ih fun hpre => hq ((List.prefix_cons_inj 0).mpr hpre)
    · rfl

/-! ## Commands keep one section -/

/-- Showing leaves a section one. -/
theorem isSection_showEach (hg : IsSection g) (beg : ℕ) (d : Display) :
    IsSection (showEach beg g d).1 := by
  cases hg with
  | leaf n hidden => exact .leaf n hidden
  | unwashed heading content hidden body =>
    cases hidden with
    | true => exact .unwashed heading content true body
    | false => exact .node heading none false _
  | node heading washer hidden body =>
    cases hidden with
    | true => exact .node heading washer true body
    | false => exact .node heading none false _

theorem isSection_setEach (hg : IsSection g) (hidden : Bool) : IsSection (g.setEach hidden) := by
  cases hg with
  | leaf n _ => exact .leaf n hidden
  | unwashed heading content _ body => exact .unwashed heading content hidden body
  | node heading washer _ body => exact .node heading washer hidden body

theorem isSection_hideEach (hg : IsSection g) (beg : ℕ) (d : Display) :
    IsSection (hideEach beg g d).1 := by
  cases hg with
  | leaf n _ => exact .leaf n true
  | unwashed heading content _ body => exact .unwashed heading content true body
  | node heading washer _ body => exact .node heading washer true body

end

end Sections

namespace Place

open Sections

/-- An action on the children leaves a section one. -/
theorem isSection_onChildren {g : Sections} (hg : IsSection g)
    (action : ℕ → Sections → Display → Sections × Display) (beg : ℕ) (d : Display) :
    IsSection ((Place.mk .child beg g d).onChildren action).sections := by
  cases hg with
  | leaf n hidden => exact .leaf n hidden
  | unwashed heading content hidden body => exact .unwashed heading content hidden body
  | node heading washer hidden body => exact .node heading washer hidden _

theorem level_onChildren (action : ℕ → Sections → Display → Sections × Display) (s : Place) :
    (s.onChildren action).level = s.level := by
  obtain ⟨_ | _, beg, _ | _ | _ | _ | _, d⟩ := s <;> rfl

/-- What is done to the children before the section is shown. -/
theorem keepsSection_showAfter (action : ℕ → Sections → Display → Sections × Display) :
    KeepsSection fun s => some (s.onChildren action).magitSectionShow := by
  intro g beg d s' hg hs'
  have hlevel := level_onChildren action ⟨.child, beg, g, d⟩
  rw [← Option.some.inj hs', magitSectionShow]
  split
  · next h => exact absurd (hlevel.symm.trans h) (by simp)
  · exact isSection_showEach (isSection_setEach (isSection_onChildren hg action beg d) false) _ _

theorem keepsSection_hide : KeepsSection magitSectionHide := by
  intro g beg d s' hg hs'
  rw [← Option.some.inj hs']
  exact isSection_hideEach hg beg d

end Place

namespace SectionBuffer

open Sections

/-- What a command that does not signal does to the section at a path. -/
theorem runAt_subsection {b : SectionBuffer} {command : Place → Option Place} {i : ℕ}
    {top : List ℕ} {g : Sections} (hkeeps : KeepsSection command)
    (hsome : ∀ beg, (command ⟨.child, beg, g, b.display⟩).isSome = true)
    (hg : subsection (i :: top) b.sections = some g) :
    ∃ b' beg s', b.runAt command (i :: top) = some b'
      ∧ command ⟨.child, beg, g, b.display⟩ = some s'
      ∧ LeadsTo s'.sections (i :: top) b'.sections
      ∧ ancestorsShown (i :: top) b'.sections = ancestorsShown (i :: top) b.sections
      ∧ ∀ path, ¬i :: top <+: path → hiddenAtPath path b'.sections = hiddenAtPath path b.sections
      := by
  have hrun := (leadsTo_of_subsection hg).atPath_isSome hsome b.beg
  obtain ⟨⟨f', d'⟩, hr⟩ := Option.isSome_iff_exists.mp hrun
  have hruns := runsAt_of_atPath hr
  obtain ⟨beg, g', s', hg', hs', hleads, hsame⟩ := hruns.inside_eq hkeeps
  obtain rfl : g' = g := Option.some.inj (hg'.subsection_eq.symm.trans hg)
  refine ⟨{ b with sections := f', display := d' }, beg, s', ?_, hs', hleads, hsame,
    fun path hpath => hruns.outside hkeeps hpath⟩
  rw [runAt, hr]
  rfl

end SectionBuffer

end Magit.Section

import Mathlib.Data.List.Induction
import Magit.Section.Levels
import Magit.Section.Movement

/-!
# Section/Search — searching in a buffer with hidden sections

`magit-section--open-temporarily` goes up from the section of a match and shows every section that
is invisible, also where only an ancestor of it is hidden.  The clean-up hides all of them again, if
the search has ended elsewhere.  So a section that was shown in a hidden one is hidden afterwards
(`restored_iff`).
-/

namespace Magit.Section

open Emacs Display

/-- The slots `start`, `content` and `end` of a section. -/
structure Stands where
  start : ℕ
  content : Option ℕ
  fin : ℕ

/-- `(<= (or content start) p end)` -/
def Stands.reaches (s : Stands) (p : ℕ) : Bool := s.content.getD s.start ≤ p && p ≤ s.fin

/-- `(<= content p end)` -/
def Stands.holds (s : Stands) (p : ℕ) : Bool :=
  s.content.any fun content => content ≤ p && p ≤ s.fin

/-- What a section, or one around it, has become when it has been shown: it begins where it did, and
may have been washed. -/
def Stands.Grown (e e' : Stands) : Prop :=
  e'.start = e.start ∧ (∀ content ∈ e.content, e'.content = some content) ∧ e.fin ≤ e'.fin

namespace Sections

/-- Where the section at the path stands. -/
def standsAt : List ℕ → ℕ → Sections → Option Stands
  | path, beg, text n rest => standsAt path (beg + n) rest
  | [0], beg, leaf n _ _ => some ⟨beg, none, beg + n⟩
  | (i + 1) :: path, beg, leaf n _ rest => standsAt (i :: path) (beg + n) rest
  | [0], beg, unwashed heading content _ _ _ =>
    some ⟨beg, if content then some (beg + (heading + 1)) else none, beg + (heading + 1)⟩
  | (i + 1) :: path, beg, unwashed heading _ _ _ rest =>
    standsAt (i :: path) (beg + (heading + 1)) rest
  | [0], beg, node heading _ _ body _ =>
    some ⟨beg, some (beg + (heading + 1)), beg + (heading + 1) + body.length⟩
  | 0 :: i :: path, beg, node heading _ _ body _ => standsAt (i :: path) (beg + (heading + 1)) body
  | (i + 1) :: path, beg, node heading _ _ body rest =>
    standsAt (i :: path) (beg + (heading + 1) + body.length) rest
  | _, _, _ => none

end Sections

open Sections

namespace SectionBuffer

/-- `magit-current-section`, with point at the position. -/
def magitCurrentSection (b : SectionBuffer) (p : ℕ) : List ℕ :=
  if p < b.beg then [] else pathAt p b.beg b.sections

/-- Where a section stands, or the root. -/
def standsAt (b : SectionBuffer) : List ℕ → Option Stands
  | [] => some ⟨1, b.heading.map (1 + ·), b.beg + b.sections.length⟩
  | i :: path => Sections.standsAt (i :: path) b.beg b.sections

/-- The content of the section holds the position. -/
def holds (b : SectionBuffer) (path : List ℕ) (p : ℕ) : Bool :=
  (b.standsAt path).any fun e => e.holds p

/-- `magit-section-show` and `magit-section-hide` of a section in the tree. -/
def magitSectionShow (b : SectionBuffer) (path : List ℕ) : SectionBuffer :=
  (b.step (.sectionShow path)).getD b

/-- `magit-section-hide`; the buffer stays as it is where that signals. -/
def magitSectionHide (b : SectionBuffer) (path : List ℕ) : SectionBuffer :=
  (b.step (.sectionHide path)).getD b

end SectionBuffer

/-- The buffer, and `magit-section--opened-sections`. -/
structure Search where
  buffer : SectionBuffer
  opened : List (List ℕ)

namespace Search

/-- The loop of `magit-section--open-temporarily`; the path is that of the section it is at,
reversed. -/
def openFrom (beg : ℕ) : List ℕ → Search → Search
  | [], s => s -- the root is not invisible
  | i :: parent, s =>
    let path := (i :: parent).reverse
    match s.buffer.standsAt path with
    | some e =>
      if invisibleP path s.buffer.sections && e.reaches beg then
        openFrom beg parent
          (if e.content.isSome then ⟨s.buffer.magitSectionShow path, path :: s.opened⟩ else s)
      else s
    | none => s

/-- What it does for a match; its value only says whether the match is visible then. -/
def openTemporarily (s : Search) (beg : ℕ) : Search :=
  openFrom beg (s.buffer.magitCurrentSection beg).reverse s

/-- The matches of a search, one after the other. -/
def run (b : SectionBuffer) (begs : List ℕ) : Search :=
  begs.foldl openTemporarily ⟨b, []⟩

/-- The advice of `isearch-clean-overlays`, with point where the search has ended. -/
def cleanOverlays (s : Search) (pos : ℕ) : SectionBuffer :=
  s.opened.foldl (fun b path =>
    if b.holds path pos then b else b.magitSectionHide path) s.buffer

end Search

/-! ## What is claimed, and when -/

namespace SectionBuffer

/-- The match is in the body of the innermost section around it. -/
def InBody (b : SectionBuffer) (beg : ℕ) : Prop :=
  ∃ e ∈ b.standsAt (b.magitCurrentSection beg), e.reaches beg = true

/-- The section is around a match, with content, and invisible. -/
structure InvisibleAround (b : SectionBuffer) (beg : ℕ) (path : List ℕ) : Prop where
  ne_nil : path ≠ []
  around : path <+: b.magitCurrentSection beg
  inBody : b.InBody beg
  content : ∃ e ∈ b.standsAt path, e.content.isSome = true
  invisible : invisibleP path b.sections = true

/-- The slots are what they were before the search, but that a section may be shown which the search
has ended in. -/
def Restored (b : SectionBuffer) (begs : List ℕ) (pos : ℕ) : Prop :=
  ∀ path, b.HasSection path →
    hiddenAtPath path ((Search.run b begs).cleanOverlays pos).sections
        = hiddenAtPath path b.sections ∨
      ((Search.run b begs).buffer.holds path pos = true ∧
        hiddenAtPath path ((Search.run b begs).cleanOverlays pos).sections = false)

end SectionBuffer

namespace Sections

section

variable {command : Place → Option Place} {beg : ℕ} {f f' g rest : Sections} {d d' : Display}
  {i : ℕ} {path q : List ℕ} {hidden : Bool}

/-! ## Setting one slot -/

/-- The command sets the slot `hidden` of the section it is run on, and no other. -/
def SetsSlot (command : Place → Option Place) (hidden : Bool) : Prop :=
  ∀ ⦃g : Sections⦄ ⦃beg : ℕ⦄ ⦃d : Display⦄ ⦃s' : Place⦄, IsSection g →
    command ⟨.child, beg, g, d⟩ = some s' → IsSection s'.sections ∧
      ∀ r, (subsection (0 :: r) g).isSome = true → (subsection (0 :: r) s'.sections).isSome = true ∧
        hiddenAtPath (0 :: r) s'.sections = if r = [] then hidden else hiddenAtPath (0 :: r) g

/-- Showing a section sets its slot. -/
theorem setsSlot_show : SetsSlot (fun s => some s.magitSectionShow) false := by
  intro g beg d s' hg hs'
  obtain rfl := Option.some.inj hs'
  refine ⟨isSection_showEach (isSection_setEach hg false) beg d, fun r hr => ?_⟩
  have hset : (subsection (0 :: r) (g.setEach false)).isSome = true ∧
      hiddenAtPath (0 :: r) (g.setEach false)
        = if r = [] then false else hiddenAtPath (0 :: r) g := by
    cases hg with
    | leaf | unwashed =>
      rcases r with _ | ⟨j, r⟩
      · exact ⟨rfl, rfl⟩
      · exact absurd hr Bool.false_ne_true
    | node =>
      rcases r with _ | ⟨j, r⟩
      · exact ⟨rfl, rfl⟩
      · exact ⟨hr, rfl⟩
  have hshow := sameAt_showEach hset.1 beg d
  exact ⟨hshow.isSome, hshow.hidden.trans hset.2⟩

/-- Hiding a section sets its slot. -/
theorem setsSlot_hide : SetsSlot Place.magitSectionHide true := by
  intro g beg d s' hg hs'
  obtain rfl := Option.some.inj hs'
  refine ⟨isSection_hideEach hg beg d, fun r hr => ?_⟩
  cases hg with
  | leaf | unwashed =>
    rcases r with _ | ⟨j, r⟩
    · exact ⟨rfl, rfl⟩
    · exact absurd hr Bool.false_ne_true
  | node =>
    rcases r with _ | ⟨j, r⟩
    · exact ⟨rfl, rfl⟩
    · exact ⟨hr, rfl⟩

/-- In a tree the command sets the slot at the path only. -/
theorem RunsAt.sets (hsets : SetsSlot command hidden) (h : RunsAt command d d' path beg f f')
    (hq : (subsection q f).isSome = true) : (subsection q f').isSome = true ∧
      hiddenAtPath q f' = if q = path then hidden else hiddenAtPath q f := by
  induction h generalizing q with
  | @front beg g rest s' hg hs' _ =>
    obtain ⟨hg', hslot⟩ := hsets hg hs'
    rcases q with _ | ⟨_ | j, q⟩
    · rw [subsection_nil] at hq
      cases hq
    · rw [subsection_into hg] at hq
      obtain ⟨hsome, hhidden⟩ := hslot q hq
      rw [subsection_into hg', hiddenAtPath_into hg', hiddenAtPath_into hg]
      refine ⟨hsome, hhidden.trans ?_⟩
      simp only [List.cons.injEq, true_and]
    · rw [subsection_behind hg] at hq
      rw [subsection_behind hg', hiddenAtPath_behind hg', hiddenAtPath_behind hg,
        if_neg (by simp)]
      exact ⟨hq, rfl⟩
  | text _ ih => exact ih hq
  | behind hg _ ih =>
    rcases q with _ | ⟨_ | j, q⟩
    · rw [subsection_nil] at hq
      cases hq
    · rw [subsection_into hg] at hq
      rw [subsection_into hg, hiddenAtPath_into hg, hiddenAtPath_into hg, if_neg (by simp)]
      exact ⟨hq, rfl⟩
    · rw [subsection_behind hg] at hq
      obtain ⟨hsome, hhidden⟩ := ih hq
      rw [subsection_behind hg, hiddenAtPath_behind hg, hiddenAtPath_behind hg]
      refine ⟨hsome, hhidden.trans ?_⟩
      simp only [List.cons.injEq, Nat.add_right_cancel_iff]
  | inside _ ih =>
    rcases q with _ | ⟨_ | j, q⟩
    · rw [subsection_nil] at hq
      cases hq
    · rcases q with _ | ⟨j, q⟩
      · exact ⟨rfl, (if_neg (by simp)).symm⟩
      · obtain ⟨hsome, hhidden⟩ := ih hq
        refine ⟨hsome, hhidden.trans ?_⟩
        simp only [List.cons.injEq, true_and]
        rfl
    · exact ⟨hq, (if_neg (by simp)).symm⟩

/-! ## Where the sections stand -/

theorem standsAt_into (hg : IsSection g) (rest : Sections) (beg : ℕ) :
    Sections.standsAt (0 :: path) beg (g.append rest) = Sections.standsAt (0 :: path) beg g := by
  cases hg <;> rcases path with _ | _ <;> rfl

/-- Where a section behind the first one stands. -/
theorem standsAt_behind (hg : IsSection g) (beg : ℕ) :
    Sections.standsAt ((i + 1) :: path) beg (g.append rest)
      = Sections.standsAt (i :: path) (beg + g.length) rest := by
  cases hg with
  | leaf | unwashed => rfl
  | node heading washer hidden body =>
    rw [length, length, Nat.add_zero, ← Nat.add_assoc]
    rfl

theorem standsAt_nil (f : Sections) (beg : ℕ) : Sections.standsAt [] beg f = none := by
  induction f generalizing beg with
  | nil | leaf | unwashed | node => rfl
  | text n rest ih => exact ih _

/-- A section stands somewhere exactly if there is one. -/
theorem standsAt_isSome (f : Sections) (path : List ℕ) (beg : ℕ) :
    (Sections.standsAt path beg f).isSome = (subsection path f).isSome := by
  induction f generalizing path beg with
  | nil => rfl
  | text n rest ih => exact ih path _
  | leaf n hidden rest ih =>
    rcases path with _ | ⟨_ | i, _ | ⟨j, path⟩⟩
    · rfl
    · rfl
    · rfl
    all_goals exact ih _ _
  | unwashed heading content hidden body rest _ ih =>
    rcases path with _ | ⟨_ | i, _ | ⟨j, path⟩⟩
    · rfl
    · rfl
    · rfl
    all_goals exact ih _ _
  | node heading washer hidden body rest ihbody ih =>
    rcases path with _ | ⟨_ | i, _ | ⟨j, path⟩⟩
    · rfl
    · rfl
    · exact ihbody _ _
    all_goals exact ih _ _

/-- A section stands among those side by side, and its content in it. -/
theorem stands_within {e : Stands} (h : Sections.standsAt path beg f = some e) :
    beg ≤ e.start ∧ e.start ≤ e.content.getD e.start ∧ e.fin ≤ beg + f.length := by
  induction f generalizing path beg with
  | nil => cases path <;> cases h
  | text n rest ih =>
    have hrest := ih h
    rw [length]
    omega
  | leaf n hidden rest ih =>
    rcases path with _ | ⟨_ | i, _ | ⟨j, path⟩⟩
    · cases h
    · obtain rfl := Option.some.inj h
      rw [length]
      exact ⟨Nat.le_refl _, Nat.le_refl _, by dsimp only; omega⟩
    · cases h
    all_goals
      have hrest := ih h
      rw [length]
      omega
  | unwashed heading content hidden body rest _ ih =>
    rcases path with _ | ⟨_ | i, _ | ⟨j, path⟩⟩
    · cases h
    · obtain rfl := Option.some.inj h
      rw [length]
      cases content
      · exact ⟨Nat.le_refl _, Nat.le_refl _, by dsimp only; omega⟩
      · exact ⟨Nat.le_refl _, Nat.le_add_right _ _, by dsimp only; omega⟩
    · cases h
    all_goals
      have hrest := ih h
      rw [length]
      omega
  | node heading washer hidden body rest ihbody ih =>
    rcases path with _ | ⟨_ | i, _ | ⟨j, path⟩⟩
    · cases h
    · obtain rfl := Option.some.inj h
      rw [length]
      exact ⟨Nat.le_refl _, Nat.le_add_right _ _, by dsimp only; omega⟩
    · have hbody := ihbody h
      rw [length]
      omega
    all_goals
      have hrest := ih h
      rw [length]
      omega

/-- A child stands in the content of its parent. -/
theorem stands_parent {j : ℕ} {e : Stands} (hne : path ≠ [])
    (h : Sections.standsAt (path ++ [j]) beg f = some e) :
    ∃ e' content, Sections.standsAt path beg f = some e' ∧ e'.content = some content ∧
      content ≤ e.start ∧ e.fin ≤ e'.fin := by
  induction f generalizing path beg with
  | nil => rcases path with _ | ⟨_ | i, path⟩ <;> cases h
  | text n rest ih => exact ih hne h
  | leaf n hidden rest ih | unwashed heading content hidden body rest _ ih =>
    rcases path with _ | ⟨_ | i, path⟩
    · exact absurd rfl hne
    · rcases path with _ | ⟨k, path⟩ <;> cases h
    · exact ih (List.cons_ne_nil _ _) h
  | node heading washer hidden body rest ihbody ih =>
    rcases path with _ | ⟨_ | i, path⟩
    · exact absurd rfl hne
    · rcases path with _ | ⟨k, path⟩
      · have hchild : Sections.standsAt [j] (beg + (heading + 1)) body = some e := h
        have hwithin := stands_within hchild
        exact ⟨_, _, rfl, rfl, hwithin.1, hwithin.2.2⟩
      · exact ihbody (List.cons_ne_nil _ _) h
    · exact ih (List.cons_ne_nil _ _) h

/-! ## Where they stand afterwards -/

/-- Hiding each section moves none. -/
theorem standsAt_hideEach (f : Sections) (path : List ℕ) (beg beg' : ℕ) (d : Display) :
    Sections.standsAt path beg (hideEach beg' f d).1 = Sections.standsAt path beg f := by
  induction f generalizing path beg beg' d with
  | nil => rfl
  | text n rest ih => exact ih _ _ _ _
  | leaf n hidden rest ih | unwashed heading content hidden body rest _ ih
  | node heading washer hidden body rest ihbody ih =>
    rcases path with _ | ⟨_ | i, _ | ⟨j, path⟩⟩
    · rfl
    · rfl
    · rfl
    all_goals exact ih _ _ _ _

/-- Hiding a section moves none. -/
theorem RunsAt.standsAt_hide (h : RunsAt Place.magitSectionHide d d' path beg f f')
    (q : List ℕ) :
    f'.length = f.length ∧ Sections.standsAt q beg f' = Sections.standsAt q beg f := by
  induction h generalizing q with
  | @front beg g rest s' hg hs' _ =>
    obtain rfl := Option.some.inj hs'
    have hg' := isSection_hideEach hg beg d
    have hlength := (sameLayout_hideEach g beg d).length
    refine ⟨by simp only [length_append, hlength], ?_⟩
    rcases q with _ | ⟨_ | j, q⟩
    · rw [standsAt_nil, standsAt_nil]
    · rw [standsAt_into hg, standsAt_into hg', standsAt_hideEach]
    · rw [standsAt_behind hg, standsAt_behind hg', hlength]
  | text _ ih =>
    obtain ⟨hlength, hstands⟩ := ih q
    exact ⟨by rw [length, length, hlength], hstands⟩
  | behind hg _ ih =>
    refine ⟨by rw [length_append, length_append, (ih []).1], ?_⟩
    rcases q with _ | ⟨_ | j, q⟩
    · rw [standsAt_nil, standsAt_nil]
    · rw [standsAt_into hg, standsAt_into hg]
    · rw [standsAt_behind hg, standsAt_behind hg, (ih (j :: q)).2]
  | inside _ ih =>
    refine ⟨by rw [length, length, (ih []).1], ?_⟩
    rcases q with _ | ⟨_ | j, q⟩
    · rfl
    · rcases q with _ | ⟨j, q⟩
      · rw [Sections.standsAt, Sections.standsAt, (ih []).1]
      · exact (ih (j :: q)).2
    · rw [Sections.standsAt, Sections.standsAt, (ih []).1]

/-- Showing makes nothing shorter. -/
theorem length_le_showEach (f : Sections) (beg : ℕ) (d : Display) :
    f.length ≤ (showEach beg f d).1.length := by
  induction f generalizing beg d with
  | nil => exact Nat.le_refl 0
  | text n rest ih | leaf n hidden rest ih => exact Nat.add_le_add_left (ih _ _) n
  | unwashed heading content hidden body rest ihbody ih =>
    cases hidden with
    | true => exact Nat.add_le_add_left (ih _ _) _
    | false => exact Nat.add_le_add_left (Nat.le_trans (ih _ _) (Nat.le_add_left _ _)) _
  | node heading washer hidden body rest ihbody ih =>
    cases hidden with
    | true => exact Nat.add_le_add_left (Nat.add_le_add_left (ih _ _) _) _
    | false => exact Nat.add_le_add_left (Nat.add_le_add (ihbody _ _) (ih _ _)) _

/-- A section that is shown grows. -/
theorem grown_show (hg : IsSection g) {e : Stands} (h : Sections.standsAt [0] beg g = some e)
    (d : Display) : ∃ e', Sections.standsAt [0] beg (showEach beg (g.setEach false) d).1 = some e' ∧
      e.Grown e' := by
  cases hg with
  | leaf n hidden =>
    obtain rfl := Option.some.inj h
    exact ⟨_, rfl, rfl, fun _ hcontent => hcontent, Nat.le_refl _⟩
  | unwashed heading content hidden body =>
    obtain rfl := Option.some.inj h
    refine ⟨_, rfl, rfl, fun k hk => ?_, Nat.le_add_right _ _⟩
    cases content with
    | true => exact hk
    | false => cases hk
  | node heading washer hidden body =>
    obtain rfl := Option.some.inj h
    exact ⟨_, rfl, rfl, fun _ hcontent => hcontent,
      Nat.add_le_add_left (length_le_showEach body _ _) _⟩

/-- Showing a section makes the text no shorter. -/
theorem RunsAt.length_show (h : RunsAt (fun s => some s.magitSectionShow) d d' path beg f f') :
    f.length ≤ f'.length := by
  induction h with
  | @front beg g rest s' hg hs' _ =>
    obtain rfl := Option.some.inj hs'
    have hshow := length_le_showEach (g.setEach false) beg d
    rw [(sameLayout_setEach false g).length] at hshow
    rw [length_append, length_append]
    exact Nat.add_le_add_right hshow _
  | text _ ih => exact Nat.add_le_add_left ih _
  | behind hg _ ih =>
    rw [length_append, length_append]
    exact Nat.add_le_add_left ih _
  | inside _ ih => exact Nat.add_le_add_left (Nat.add_le_add_right ih _) _

/-- Showing a section lets it grow, and those around it with it. -/
theorem RunsAt.grown (h : RunsAt (fun s => some s.magitSectionShow) d d' path beg f f')
    {e : Stands} (hq : q <+: path) (he : Sections.standsAt q beg f = some e) :
    ∃ e', Sections.standsAt q beg f' = some e' ∧ e.Grown e' := by
  induction h generalizing q e with
  | @front beg g rest s' hg hs' _ =>
    obtain rfl := Option.some.inj hs'
    rcases q with _ | ⟨j, q⟩
    · rw [standsAt_nil] at he
      cases he
    · obtain ⟨rfl, hq'⟩ := List.cons_prefix_cons.mp hq
      obtain rfl := List.prefix_nil.mp hq'
      rw [standsAt_into hg] at he
      have hg' := isSection_showEach (isSection_setEach hg false) beg d
      obtain ⟨e', he', hgrown⟩ := grown_show hg he d
      exact ⟨e', (standsAt_into hg' rest beg).trans he', hgrown⟩
  | text _ ih => exact ih hq he
  | behind hg _ ih =>
    rcases q with _ | ⟨j, q⟩
    · rw [standsAt_nil] at he
      cases he
    · obtain ⟨rfl, hq'⟩ := List.cons_prefix_cons.mp hq
      rw [standsAt_behind hg] at he
      rw [standsAt_behind hg]
      exact ih (List.cons_prefix_cons.mpr ⟨rfl, hq'⟩) he
  | inside hbody ih =>
    rcases q with _ | ⟨j, q⟩
    · cases he
    · obtain ⟨rfl, hq'⟩ := List.cons_prefix_cons.mp hq
      rcases q with _ | ⟨j, q⟩
      · obtain rfl := Option.some.inj he
        exact ⟨_, rfl, rfl, fun _ hcontent => hcontent,
          Nat.add_le_add_left hbody.length_show _⟩
      · exact ih hq' he

/-- A child of the root has no other ancestors. -/
theorem ancestorsShown_singleton (j : ℕ) (f : Sections) : ancestorsShown [j] f = true := by
  induction f generalizing j with
  | nil => cases j <;> rfl
  | text n rest ih => exact ih j
  | leaf n hidden rest ih | unwashed heading content hidden body rest _ ih
  | node heading washer hidden body rest _ ih =>
    rcases j with _ | j
    · rfl
    · exact ih j

/-- The ancestors of a section are its parent and those of its parent. -/
theorem ancestorsShown_concat {j : ℕ} (h : (subsection (path ++ [j]) f).isSome = true) :
    ancestorsShown (path ++ [j]) f = (ancestorsShown path f && !hiddenAtPath path f) := by
  induction f generalizing path with
  | nil => rcases path with _ | ⟨_ | i, path⟩ <;> cases h
  | text n rest ih => exact ih h
  | leaf n hidden rest ih | unwashed heading content hidden body rest _ ih =>
    rcases path with _ | ⟨_ | i, path⟩
    · rw [List.nil_append, ancestorsShown_nil, hiddenAtPath_nil, ancestorsShown_singleton]
      rfl
    · rcases path with _ | ⟨k, path⟩ <;> cases h
    · have hrest := @ih (i :: path) h
      rcases path with _ | ⟨k, path⟩ <;> exact hrest
  | node heading washer hidden body rest ihbody ih =>
    rcases path with _ | ⟨_ | i, path⟩
    · rw [List.nil_append, ancestorsShown_nil, hiddenAtPath_nil, ancestorsShown_singleton]
      rfl
    · rcases path with _ | ⟨k, path⟩
      · rw [List.cons_append, List.nil_append, ancestorsShown, ancestorsShown_singleton,
          ancestorsShown_zero, Bool.and_true, Bool.true_and]
        rfl
      · have hbody := @ihbody (k :: path) h
        rw [List.cons_append] at hbody
        rw [List.cons_append, List.cons_append, ancestorsShown, hbody, ancestorsShown,
          Bool.and_assoc]
        rfl
    · have hrest := @ih (i :: path) h
      rcases path with _ | ⟨k, path⟩ <;> exact hrest

/-- A section is invisible if its parent is, or if it is hidden itself. -/
theorem invisibleP_concat {j : ℕ} (h : (subsection (path ++ [j]) f).isSome = true) :
    invisibleP (path ++ [j]) f = (hiddenAtPath (path ++ [j]) f || invisibleP path f) := by
  rw [invisibleP, ancestorsShown_concat h, invisibleP, Bool.not_and, Bool.not_not, Bool.or_comm
    (hiddenAtPath path f)]

theorem subsection_of_concat {j : ℕ} (h : (subsection (path ++ [j]) f).isSome = true)
    (hne : path ≠ []) : (subsection path f).isSome = true := (subsection_parent h).resolve_left hne

/-- A section in an invisible one is invisible. -/
theorem invisibleP_below (hsection : q = [] ∨ (subsection q f).isSome = true)
    (hpre : path <+: q) (h : invisibleP path f = true) : invisibleP q f = true := by
  induction q using List.reverseRecOn with
  | nil => rwa [← List.prefix_nil.mp hpre]
  | append_singleton q j ih =>
    rcases List.prefix_concat_iff.mp hpre with rfl | hparent
    · exact h
    · have hsome := hsection.resolve_left (by simp)
      rw [invisibleP_concat hsome, ih (subsection_parent hsome) hparent, Bool.or_true]

/-- Whether a section is invisible depends on its slot and those of its ancestors. -/
theorem invisibleP_congr (h : ∀ r, r <+: q → hiddenAtPath r f' = hiddenAtPath r f)
    (hf : q = [] ∨ (subsection q f).isSome = true)
    (hf' : q = [] ∨ (subsection q f').isSome = true) : invisibleP q f' = invisibleP q f := by
  induction q using List.reverseRecOn with
  | nil =>
    rw [invisibleP, invisibleP, hiddenAtPath_nil, hiddenAtPath_nil, ancestorsShown_nil,
      ancestorsShown_nil]
  | append_singleton q j ih =>
    have hsome := hf.resolve_left (by simp)
    have hsome' := hf'.resolve_left (by simp)
    rw [invisibleP_concat hsome, invisibleP_concat hsome', h _ (List.prefix_refl _),
      ih (fun r hr => h r (hr.trans (List.prefix_append _ _))) (subsection_parent hsome)
        (subsection_parent hsome')]

/-- A section with others in it has content. -/
theorem content_above (hne : path ≠ []) (hpre : path <+: q) (hproper : path ≠ q)
    (h : (subsection q f).isSome = true) (beg : ℕ) :
    ∃ e, Sections.standsAt path beg f = some e ∧ e.content.isSome = true := by
  induction q using List.reverseRecOn with
  | nil => exact absurd (List.prefix_nil.mp hpre) hne
  | append_singleton q j ih =>
    have hparent := (List.prefix_concat_iff.mp hpre).resolve_left hproper
    by_cases hq : path = q
    · subst hq
      rw [← standsAt_isSome f (path ++ [j]) beg] at h
      obtain ⟨e, he⟩ := Option.isSome_iff_exists.mp h
      obtain ⟨e', content, he', hcontent, -, -⟩ := stands_parent hne he
      exact ⟨e', he', by rw [hcontent]; rfl⟩
    · have hqne : q ≠ [] := by
        rintro rfl
        exact hne (List.prefix_nil.mp hparent)
      exact ih hparent hq (subsection_of_concat h hqne)

end

end Sections

namespace SectionBuffer

variable {b : SectionBuffer} {path q : List ℕ}

/-! ## Showing and hiding in the buffer -/

/-- A command that never fails runs at every section. -/
theorem exists_runsAt (command : Place → Option Place) (hne : path ≠ [])
    (hsome : ∀ g beg d, (command ⟨.child, beg, g, d⟩).isSome = true) (h : b.HasSection path) :
    ∃ f' d', b.runAt command path = some { b with sections := f', display := d' } ∧
      RunsAt command b.display d' path b.beg b.sections f' := by
  obtain ⟨i, path, rfl⟩ := List.exists_cons_of_ne_nil hne
  obtain ⟨g, hg⟩ := Option.isSome_iff_exists.mp (h.resolve_left (List.cons_ne_nil _ _))
  have hrun := (leadsTo_of_subsection hg).atPath_isSome (fun beg => hsome g beg b.display) b.beg
  obtain ⟨⟨f', d'⟩, hr⟩ := Option.isSome_iff_exists.mp hrun
  exact ⟨f', d', by rw [runAt, hr]; rfl, runsAt_of_atPath hr⟩

/-- What showing the section at a path does to the others. -/
structure Shows (path : List ℕ) (b b' : SectionBuffer) : Prop where
  kept : ∀ q, b.HasSection q → b'.HasSection q
  hidden : ∀ q, b.HasSection q → hiddenAtPath q b'.sections
    = if q = path then false else hiddenAtPath q b.sections
  grown : ∀ q e, q ≠ [] → q <+: path → b.standsAt q = some e →
    ∃ e', b'.standsAt q = some e' ∧ e.Grown e'

/-- A command that sets a slot leaves every section. -/
theorem hasSection_of_sets {command : Place → Option Place} {hidden : Bool}
    (hsets : SetsSlot command hidden) {f' : Sections} {d' : Display}
    (hruns : RunsAt command b.display d' path b.beg b.sections f') (hne : path ≠ [])
    (hq : b.HasSection q) :
    HasSection { b with sections := f', display := d' } q ∧
      hiddenAtPath q f' = if q = path then hidden else hiddenAtPath q b.sections := by
  rcases hq with rfl | hq
  · refine ⟨Or.inl rfl, ?_⟩
    rw [if_neg hne.symm, hiddenAtPath_nil, hiddenAtPath_nil]
  · obtain ⟨hsome, hhidden⟩ := hruns.sets hsets hq
    exact ⟨Or.inr hsome, hhidden⟩

/-- Showing a section shows it. -/
theorem shows_magitSectionShow (hne : path ≠ []) (h : b.HasSection path) :
    Shows path b (b.magitSectionShow path) := by
  obtain ⟨f', d', hrun, hruns⟩ := exists_runsAt (fun s => some s.magitSectionShow) hne
    (fun _ _ _ => rfl) h
  have hb' : b.magitSectionShow path = { b with sections := f', display := d' } := by
    rw [magitSectionShow, step, hrun, Option.getD_some]
  rw [hb']
  refine ⟨fun q hq => (hasSection_of_sets setsSlot_show hruns hne hq).1,
    fun q hq => (hasSection_of_sets setsSlot_show hruns hne hq).2, fun q e hq hpre he => ?_⟩
  obtain ⟨i, q, rfl⟩ := List.exists_cons_of_ne_nil hq
  exact hruns.grown hpre he

/-- What hiding the section at a path does to the others. -/
structure Hides (path : List ℕ) (b b' : SectionBuffer) : Prop where
  kept : ∀ q, b.HasSection q → b'.HasSection q
  hidden : ∀ q, b.HasSection q → hiddenAtPath q b'.sections
    = if q = path then true else hiddenAtPath q b.sections
  stands : ∀ q, b'.standsAt q = b.standsAt q

/-- Hiding a section hides it. -/
theorem hides_magitSectionHide (hne : path ≠ []) (h : b.HasSection path) :
    Hides path b (b.magitSectionHide path) := by
  obtain ⟨f', d', hrun, hruns⟩ := exists_runsAt Place.magitSectionHide hne
    (fun _ _ _ => rfl) h
  have hb' : b.magitSectionHide path = { b with sections := f', display := d' } := by
    rw [magitSectionHide, step, hrun, Option.getD_some]
  rw [hb']
  refine ⟨fun q hq => (hasSection_of_sets setsSlot_hide hruns hne hq).1,
    fun q hq => (hasSection_of_sets setsSlot_hide hruns hne hq).2, fun q => ?_⟩
  rcases q with _ | ⟨i, q⟩
  · rw [standsAt, standsAt, (hruns.standsAt_hide []).1]
    rfl
  · exact (hruns.standsAt_hide (i :: q)).2

theorem hasSection_parent {j : ℕ} (h : b.HasSection (path ++ [j])) : b.HasSection path :=
  subsection_parent (h.resolve_left (by simp))

/-- Everything above a section is one. -/
theorem hasSection_above (h : b.HasSection path) (hpre : q <+: path) : b.HasSection q := by
  induction path using List.reverseRecOn with
  | nil => exact List.prefix_nil.mp hpre ▸ Or.inl rfl
  | append_singleton path j ih =>
    rcases List.prefix_concat_iff.mp hpre with rfl | hparent
    · exact h
    · exact ih (hasSection_parent h) hparent

/-- What is above a section has content. -/
theorem exists_content (h : b.HasSection path) (hne : q ≠ []) (hpre : q <+: path)
    (hproper : q ≠ path) : ∃ e, b.standsAt q = some e ∧ e.content.isSome = true := by
  have hpath : path ≠ [] := by
    rintro rfl
    exact hne (List.prefix_nil.mp hpre)
  obtain ⟨i, q, rfl⟩ := List.exists_cons_of_ne_nil hne
  exact content_above hne hpre hproper (h.resolve_left hpath) b.beg

/-- A section stands somewhere. -/
theorem exists_standsAt (h : b.HasSection path) : ∃ e, b.standsAt path = some e := by
  rcases path with _ | ⟨i, path⟩
  · exact ⟨_, rfl⟩
  · rw [← Option.isSome_iff_exists, standsAt, standsAt_isSome]
    exact h.resolve_left (List.cons_ne_nil _ _)

/-- Whoever is around a section reaches what it reaches. -/
theorem reaches_parent {j p : ℕ} {e : Stands} (hne : path ≠ [])
    (he : b.standsAt (path ++ [j]) = some e) (hstart : e.start ≤ p) (hfin : p ≤ e.fin) :
    ∃ e', b.standsAt path = some e' ∧ e'.reaches p = true := by
  obtain ⟨i, path, rfl⟩ := List.exists_cons_of_ne_nil hne
  obtain ⟨e', content, he', hcontent, hle, hge⟩ := stands_parent hne he
  refine ⟨e', he', ?_⟩
  rw [Stands.reaches, hcontent, Option.getD_some, Bool.and_eq_true, decide_eq_true_iff,
    decide_eq_true_iff]
  exact ⟨Nat.le_trans hle hstart, Nat.le_trans hfin hge⟩

/-- The path at a position leads to a section, or is empty. -/
theorem isSome_subsection_pathAt (p beg : ℕ) (f : Sections) :
    pathAt p beg f = [] ∨ (subsection (pathAt p beg f) f).isSome = true := by
  induction f generalizing beg with
  | nil => exact Or.inl rfl
  | text n rest ih =>
    rw [pathAt]
    split
    · exact Or.inl rfl
    · exact ih _
  | leaf n hidden rest ih =>
    rw [pathAt]
    split
    · exact Or.inr rfl
    · rcases hpath : pathAt p (beg + n) rest with _ | ⟨i, path⟩
      · exact Or.inl rfl
      · exact Or.inr ((hpath ▸ ih _).resolve_left (List.cons_ne_nil _ _))
  | unwashed heading content hidden body rest _ ih =>
    rw [pathAt]
    split
    · exact Or.inr rfl
    · rcases hpath : pathAt p (beg + (heading + 1)) rest with _ | ⟨i, path⟩
      · exact Or.inl rfl
      · exact Or.inr ((hpath ▸ ih _).resolve_left (List.cons_ne_nil _ _))
  | node heading washer hidden body rest ihbody ih =>
    rw [pathAt]
    split
    · exact Or.inr rfl
    split
    · rcases hpath : pathAt p (beg + (heading + 1)) body with _ | ⟨i, path⟩
      · exact Or.inr rfl
      · exact Or.inr ((hpath ▸ ihbody _).resolve_left (List.cons_ne_nil _ _))
    · rcases hpath : pathAt p (beg + (heading + 1) + body.length) rest with _ | ⟨i, path⟩
      · exact Or.inl rfl
      · exact Or.inr ((hpath ▸ ih _).resolve_left (List.cons_ne_nil _ _))

/-- The current section is one. -/
theorem hasSection_magitCurrentSection (b : SectionBuffer) (p : ℕ) :
    b.HasSection (b.magitCurrentSection p) := by
  rw [magitCurrentSection]
  split
  · exact Or.inl rfl
  · exact isSome_subsection_pathAt p b.beg b.sections

/-- What reaches a position begins before it. -/
theorem start_le_of_reaches {p : ℕ} {e : Stands} (hne : path ≠ []) (he : b.standsAt path = some e)
    (h : e.reaches p = true) : e.start ≤ p ∧ p ≤ e.fin := by
  obtain ⟨i, path, rfl⟩ := List.exists_cons_of_ne_nil hne
  rw [Stands.reaches, Bool.and_eq_true, decide_eq_true_iff, decide_eq_true_iff] at h
  exact ⟨Nat.le_trans (stands_within he).2.1 h.1, h.2⟩

end SectionBuffer

namespace Search

open SectionBuffer

/-- A section around the one at the path, that one included, with content and invisible. -/
def Opened (b : SectionBuffer) (path q : List ℕ) : Prop :=
  q ≠ [] ∧ q <+: path ∧ (∃ e, b.standsAt q = some e ∧ e.content.isSome = true) ∧
    invisibleP q b.sections = true

/-- What the loop does to a buffer from the section at a path. -/
structure Opens (path : List ℕ) (s s' : Search) : Prop where
  kept : ∀ q, s.buffer.HasSection q → s'.buffer.HasSection q
  opened : ∃ new, s'.opened = new ++ s.opened ∧ (∀ q, q ∈ new ↔ Opened s.buffer path q) ∧
    ∀ q, s.buffer.HasSection q → hiddenAtPath q s'.buffer.sections
      = if q ∈ new then false else hiddenAtPath q s.buffer.sections

/-- Nothing has to be opened around what is visible. -/
theorem opens_self {s : Search} {path : List ℕ}
    (h : ∀ q, q ≠ [] → q <+: path → invisibleP q s.buffer.sections = false) : Opens path s s := by
  refine ⟨fun q hq => hq, [], rfl, fun q => ?_, fun q _ => (if_neg List.not_mem_nil).symm⟩
  refine iff_of_false List.not_mem_nil ?_
  rintro ⟨hne, hpre, -, hinvisible⟩
  rw [h q hne hpre] at hinvisible
  cases hinvisible

/-- A section without content is passed over. -/
theorem Opens.over {s s' : Search} {path : List ℕ} {j : ℕ} {e : Stands} (h : Opens path s s')
    (he : s.buffer.standsAt (path ++ [j]) = some e) (hnone : ¬e.content.isSome = true) :
    Opens (path ++ [j]) s s' := by
  obtain ⟨new, hopened, hnew, hhidden⟩ := h.opened
  refine ⟨h.kept, new, hopened, fun q => (hnew q).trans ⟨?_, ?_⟩, hhidden⟩
  · rintro ⟨hne, hpre, hrest⟩
    exact ⟨hne, hpre.trans (List.prefix_append _ _), hrest⟩
  · rintro ⟨hne, hpre, ⟨e', he', hcontent⟩, hinvisible⟩
    rcases List.prefix_concat_iff.mp hpre with rfl | hparent
    · rw [he] at he'
      obtain rfl := Option.some.inj he'
      exact absurd hcontent hnone
    · exact ⟨hne, hparent, ⟨e', he', hcontent⟩, hinvisible⟩

/-- A section is shown, and then those around it. -/
theorem Opens.through {s s' : Search} {path : List ℕ} {j : ℕ} {e : Stands} {b : SectionBuffer}
    (hshows : Shows (path ++ [j]) s.buffer b)
    (hsection : s.buffer.HasSection (path ++ [j]))
    (he : s.buffer.standsAt (path ++ [j]) = some e) (hcontent : e.content.isSome = true)
    (hinvisible : invisibleP (path ++ [j]) s.buffer.sections = true)
    (h : Opens path ⟨b, (path ++ [j]) :: s.opened⟩ s') : Opens (path ++ [j]) s s' := by
  have hne : path ++ [j] ≠ [] := by simp
  obtain ⟨new, hopened, hnew, hhidden⟩ := h.opened
  have hproper : ∀ q, q <+: path → q ≠ path ++ [j] := by
    rintro q hq rfl
    have hlen := hq.length_le
    rw [List.length_append, List.length_singleton] at hlen
    omega
  -- showing the section does not change what is said of those around it
  have hsame : ∀ q, q <+: path → (Opened b path q ↔ Opened s.buffer path q) := by
    intro q hq
    have hkept := hshows.kept _ hsection
    have hslots : ∀ r, r <+: q → hiddenAtPath r b.sections = hiddenAtPath r s.buffer.sections := by
      intro r hr
      have hr' := hr.trans hq
      rw [hshows.hidden r (hasSection_above hsection (hr'.trans (List.prefix_append _ _))),
        if_neg (hproper r hr')]
    have hq' := hq.trans (List.prefix_append path [j])
    have hinv := invisibleP_congr hslots (hasSection_above hsection hq')
      (hasSection_above hkept hq')
    rw [Opened, Opened, hinv]
    refine and_congr_right fun hqne => and_congr_right fun _ => and_congr_left fun _ => ?_
    exact iff_of_true (exists_content hkept hqne hq' (hproper q hq))
      (exists_content hsection hqne hq' (hproper q hq))
  refine ⟨fun q hq => h.kept q (hshows.kept q hq), new ++ [path ++ [j]], ?_, fun q => ?_,
    fun q hq => ?_⟩
  · rw [hopened, List.append_assoc]
    rfl
  · rw [List.mem_append, List.mem_singleton, hnew]
    constructor
    · rintro (hq | rfl)
      · obtain ⟨hqne, hpre, hrest⟩ := (hsame q hq.2.1).mp hq
        exact ⟨hqne, hpre.trans (List.prefix_append _ _), hrest⟩
      · exact ⟨hne, List.prefix_refl _, ⟨e, he, hcontent⟩, hinvisible⟩
    · rintro ⟨hqne, hpre, hrest⟩
      rcases List.prefix_concat_iff.mp hpre with rfl | hparent
      · exact Or.inr rfl
      · exact Or.inl ((hsame q hparent).mpr ⟨hqne, hparent, hrest⟩)
  · rw [hhidden q (hshows.kept q hq), hshows.hidden q hq]
    simp only [List.mem_append, List.mem_singleton]
    by_cases hmem : q ∈ new
    · rw [if_pos hmem, if_pos (Or.inl hmem)]
    · rw [if_neg hmem]
      by_cases hq' : q = path ++ [j]
      · rw [if_pos hq', if_pos (Or.inr hq')]
      · rw [if_neg hq', if_neg (not_or_intro hmem hq')]

/-- The loop opens the sections around the one it begins at that are invisible. -/
theorem opens_openFrom {s : Search} {path : List ℕ} (beg : ℕ) (hsection : s.buffer.HasSection path)
    (hreach : path ≠ [] → ∃ e, s.buffer.standsAt path = some e ∧ e.reaches beg = true) :
    Opens path s (openFrom beg path.reverse s) := by
  induction path using List.reverseRecOn generalizing s with
  | nil =>
    refine opens_self fun q hne hpre => ?_
    exact absurd (List.prefix_nil.mp hpre) hne
  | append_singleton path j ih =>
    have hne : path ++ [j] ≠ [] := by simp
    obtain ⟨e, he, hreaches⟩ := hreach hne
    obtain ⟨hstart, hfin⟩ := start_le_of_reaches hne he hreaches
    have hloop : openFrom beg (path ++ [j]).reverse s
        = if invisibleP (path ++ [j]) s.buffer.sections then
            openFrom beg path.reverse (if e.content.isSome then
              ⟨s.buffer.magitSectionShow (path ++ [j]), (path ++ [j]) :: s.opened⟩ else s)
          else s := by
      rw [List.reverse_append, List.reverse_singleton, List.singleton_append, openFrom,
        List.reverse_cons, List.reverse_reverse, he]
      dsimp only
      rw [hreaches, Bool.and_true]
    rw [hloop]
    by_cases hinvisible : invisibleP (path ++ [j]) s.buffer.sections = true
    · rw [if_pos hinvisible]
      by_cases hcontent : e.content.isSome = true
      · rw [if_pos hcontent]
        have hshows := shows_magitSectionShow hne hsection
        obtain ⟨e', he', hgrown⟩ := hshows.grown _ e hne (List.prefix_refl _) he
        refine Opens.through hshows hsection he hcontent hinvisible (ih ?_ fun hpath => ?_)
        · exact hasSection_parent (hshows.kept _ hsection)
        · exact reaches_parent hpath he' (hgrown.1 ▸ hstart) (Nat.le_trans hfin hgrown.2.2)
      · rw [if_neg hcontent]
        refine Opens.over (ih (hasSection_parent hsection) fun hpath => ?_) he hcontent
        exact reaches_parent hpath he hstart hfin
    · rw [if_neg hinvisible]
      refine opens_self fun q hq hpre => Bool.eq_false_iff.mpr fun hinv => hinvisible ?_
      exact invisibleP_below hsection hpre hinv

/-! ## One match, and all of them -/

/-- What is opened around a match is what was invisible there. -/
theorem opened_iff {b : SectionBuffer} {beg : ℕ} {q : List ℕ} (hbody : b.InBody beg) :
    Opened b (b.magitCurrentSection beg) q ↔ b.InvisibleAround beg q := by
  constructor
  · rintro ⟨hne, hpre, hcontent, hinvisible⟩
    exact ⟨hne, hpre, hbody, hcontent, hinvisible⟩
  · intro h
    exact ⟨h.ne_nil, h.around, h.content, h.invisible⟩

/-- What opening a match does. -/
structure OpensAt (beg : ℕ) (s s' : Search) : Prop where
  kept : ∀ q, s.buffer.HasSection q → s'.buffer.HasSection q
  opened : ∃ new, s'.opened = new ++ s.opened ∧
    (∀ q, q ∈ new ↔ s.buffer.InvisibleAround beg q) ∧
    ∀ q, s.buffer.HasSection q → hiddenAtPath q s'.buffer.sections
      = if q ∈ new then false else hiddenAtPath q s.buffer.sections

/-- Opening temporarily opens what is around the match. -/
theorem opensAt_openTemporarily (s : Search) (beg : ℕ) :
    OpensAt beg s (s.openTemporarily beg) := by
  have hsection := hasSection_magitCurrentSection s.buffer beg
  by_cases hbody : s.buffer.InBody beg
  · obtain ⟨hkept, new, hopened, hnew, hhidden⟩ :=
      opens_openFrom beg hsection fun _ => hbody
    exact ⟨hkept, new, hopened, fun q => (hnew q).trans (opened_iff hbody), hhidden⟩
  · -- a match in the heading of a section is not opened
    have hsame : s.openTemporarily beg = s := by
      rw [openTemporarily]
      rcases List.eq_nil_or_concat' (s.buffer.magitCurrentSection beg) with hpath | ⟨path, j, hpath⟩
      · rw [hpath]
        rfl
      · obtain ⟨e, he⟩ := exists_standsAt hsection
        have hnot : e.reaches beg = false := by
          refine Bool.eq_false_iff.mpr fun hreaches => hbody ⟨e, he, hreaches⟩
        rw [hpath] at he
        rw [hpath, List.reverse_append, List.reverse_singleton, List.singleton_append, openFrom,
          List.reverse_cons, List.reverse_reverse, he]
        dsimp only
        rw [hnot, Bool.and_false]
        rfl
    rw [hsame]
    refine ⟨fun q hq => hq, [], rfl, fun q => ?_, fun q _ => (if_neg List.not_mem_nil).symm⟩
    exact iff_of_false List.not_mem_nil fun h => hbody h.inBody

theorem run_append (b : SectionBuffer) (begs : List ℕ) (beg : ℕ) :
    run b (begs ++ [beg]) = (run b begs).openTemporarily beg := by
  rw [run, List.foldl_append]
  rfl

/-- The section is around a match that is opened, and invisible then. -/
def FoundIn (b : SectionBuffer) (begs : List ℕ) (q : List ℕ) : Prop :=
  ∃ before beg after, begs = before ++ beg :: after ∧ (run b before).buffer.InvisibleAround beg q

/-- What is found with one more match. -/
theorem foundIn_concat {b : SectionBuffer} {begs : List ℕ} {beg : ℕ} {q : List ℕ} :
    FoundIn b (begs ++ [beg]) q ↔ (run b begs).buffer.InvisibleAround beg q ∨ FoundIn b begs q := by
  constructor
  · rintro ⟨before, beg', after, heq, h⟩
    rcases List.eq_nil_or_concat' after with rfl | ⟨after, last, rfl⟩
    · obtain ⟨rfl, hlast⟩ := List.append_inj' heq rfl
      obtain rfl := (List.cons.inj hlast).1
      exact Or.inl h
    · rw [← List.cons_append, ← List.append_assoc] at heq
      obtain ⟨rfl, -⟩ := List.append_inj' heq rfl
      exact Or.inr ⟨before, beg', after, rfl, h⟩
  · rintro (h | ⟨before, beg', after, rfl, h⟩)
    · exact ⟨begs, beg, [], rfl, h⟩
    · exact ⟨before, beg', after ++ [beg], by simp, h⟩

theorem hasSection_of_invisibleAround {b : SectionBuffer} {beg : ℕ} {q : List ℕ}
    (h : b.InvisibleAround beg q) : b.HasSection q :=
  hasSection_above (hasSection_magitCurrentSection b beg) h.around

/-- What a search has opened, and that it has set the slots of nothing else. -/
structure RunOf (b : SectionBuffer) (begs : List ℕ) (s : Search) : Prop where
  found : ∀ q, q ∈ s.opened ↔ FoundIn b begs q
  opened : ∀ q ∈ s.opened, q ≠ [] ∧ s.buffer.HasSection q
  kept : ∀ q, b.HasSection q → s.buffer.HasSection q
  hidden : ∀ q, b.HasSection q → hiddenAtPath q s.buffer.sections
    = if q ∈ s.opened then false else hiddenAtPath q b.sections

/-- **A run of the search opens what it finds, and nothing else.** -/
theorem runOf_run (b : SectionBuffer) (begs : List ℕ) : RunOf b begs (run b begs) := by
  induction begs using List.reverseRecOn with
  | nil =>
    refine ⟨fun q => iff_of_false List.not_mem_nil ?_, fun q hq => absurd hq List.not_mem_nil,
      fun q hq => hq, fun q _ => (if_neg List.not_mem_nil).symm⟩
    rintro ⟨before, beg, after, heq, -⟩
    cases before <;> cases heq
  | append_singleton begs beg ih =>
    obtain ⟨hkept, new, hnew, hmem, hhidden⟩ := opensAt_openTemporarily (run b begs) beg
    rw [run_append]
    refine ⟨fun q => ?_, fun q hq => ?_, fun q hq => hkept q (ih.kept q hq), fun q hq => ?_⟩
    · rw [hnew, List.mem_append, hmem, ih.found, foundIn_concat]
    · rw [hnew, List.mem_append, hmem] at hq
      rcases hq with hq | hq
      · exact ⟨hq.ne_nil, hkept q (hasSection_of_invisibleAround hq)⟩
      · exact ⟨(ih.opened q hq).1, hkept q (ih.opened q hq).2⟩
    · rw [hhidden q (ih.kept q hq), ih.hidden q hq, hnew]
      by_cases hq' : q ∈ new
      · rw [if_pos hq', if_pos (List.mem_append_left _ hq')]
      · simp only [List.mem_append, hq', false_or, if_false]

/-! ## Cleaning up -/

/-- What the clean-up does with the sections that have been opened. -/
theorem hiddenAtPath_cleanOverlays (s : Search) (pos : ℕ)
    (hopened : ∀ q ∈ s.opened, q ≠ [] ∧ s.buffer.HasSection q) {q : List ℕ}
    (hq : s.buffer.HasSection q) : hiddenAtPath q (s.cleanOverlays pos).sections
      = if q ∈ s.opened ∧ s.buffer.holds q pos = false then true
        else hiddenAtPath q s.buffer.sections := by
  obtain ⟨b, opened⟩ := s
  rw [cleanOverlays]
  dsimp only at hopened hq ⊢
  induction opened generalizing b with
  | nil => exact (if_neg fun h => List.not_mem_nil h.1).symm
  | cons path opened ih =>
    obtain ⟨⟨hne, hpath⟩, hrest⟩ := List.forall_mem_cons.mp hopened
    rw [List.foldl_cons]
    by_cases hholds : b.holds path pos = true
    · rw [if_pos hholds, ih b hrest hq]
      refine if_congr ?_ rfl rfl
      rw [List.mem_cons]
      refine and_congr_left fun hnot => (or_iff_right ?_).symm
      rintro rfl
      rw [hholds] at hnot
      cases hnot
    · have hides := hides_magitSectionHide hne hpath
      have hsame : (b.magitSectionHide path).holds q pos = b.holds q pos := by
        rw [holds, holds, hides.stands]
      rw [if_neg hholds, ih _ (fun r hr => ⟨(hrest r hr).1, hides.kept r (hrest r hr).2⟩)
        (hides.kept q hq), hsame, hides.hidden q hq]
      by_cases hqpath : q = path
      · subst hqpath
        rw [if_pos rfl, ite_self, if_pos ⟨List.mem_cons_self, Bool.eq_false_iff.mpr hholds⟩]
      · rw [if_neg hqpath]
        refine if_congr ?_ rfl rfl
        rw [List.mem_cons, or_iff_right hqpath]

/-- **The slots are restored exactly if no section that was shown has been opened**, but where the
search has ended. -/
theorem restored_iff (b : SectionBuffer) (begs : List ℕ) (pos : ℕ) :
    b.Restored begs pos ↔ ∀ path, b.HasSection path → FoundIn b begs path →
      hiddenAtPath path b.sections = true ∨ (run b begs).buffer.holds path pos = true := by
  have hrun := runOf_run b begs
  -- an opened section is hidden afterwards, and all others are as they were
  have hfinal : ∀ q, b.HasSection q →
      hiddenAtPath q ((run b begs).cleanOverlays pos).sections
        = if q ∈ (run b begs).opened then !(run b begs).buffer.holds q pos
          else hiddenAtPath q b.sections := by
    intro q hq
    rw [hiddenAtPath_cleanOverlays _ pos hrun.opened (hrun.kept q hq), hrun.hidden q hq]
    by_cases hopened : q ∈ (run b begs).opened
    · rw [if_pos hopened, if_pos hopened]
      cases (run b begs).buffer.holds q pos with
      | true => exact if_neg fun h => Bool.noConfusion h.2
      | false => exact if_pos ⟨hopened, rfl⟩
    · rw [if_neg hopened, if_neg hopened, if_neg fun h => hopened h.1]
  constructor
  · intro h path hpath hfound
    have hrestored := h path hpath
    rw [hfinal path hpath, if_pos ((hrun.found path).mpr hfound)] at hrestored
    rcases hrestored with hsame | ⟨hholds, -⟩
    · rcases hholds : (run b begs).buffer.holds path pos with _ | _
      · rw [hholds] at hsame
        exact Or.inl hsame.symm
      · exact Or.inr rfl
    · exact Or.inr hholds
  · intro h path hpath
    rw [hfinal path hpath]
    by_cases hopened : path ∈ (run b begs).opened
    · rw [if_pos hopened]
      rcases hholds : (run b begs).buffer.holds path pos with _ | _
      · refine Or.inl ?_
        have hslot := (h path hpath ((hrun.found path).mp hopened)).resolve_right (by simp [hholds])
        exact hslot.symm
      · exact Or.inr ⟨rfl, rfl⟩
    · exact Or.inl (if_neg hopened)

/-- A hidden section with a section in it that is shown, and text behind it. -/
def shownInHidden : SectionBuffer :=
  ⟨none, .node 3 none true (.node 3 none false (.text 5 .nil) .nil) (.text 5 .nil), ⟨[], []⟩⟩

/-- A search that finds something in the inner section, and ends in the text. -/
theorem not_restored_shownInHidden : ¬shownInHidden.Restored [10] 16 := by
  intro h
  have hinner := h [0, 0] (Or.inr rfl)
  exact absurd hinner (by decide)

end Search

end Magit.Section

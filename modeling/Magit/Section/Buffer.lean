import Magit.Section.Commands

/-!
# Section/Buffer — a command that is run on one section of a buffer

The sections are reached by their path from the root.  A command that keeps its own place tidy keeps
everything around it as it was, if it is run on a section whose ancestors are shown
(`redraws_atPath`).  To hide a section and to show it again leaves the sections as they were
(`atPath_show_hide`).
-/

namespace Magit.Section

open Emacs Display

namespace Sections

/-- Runs a command on the section at the path, whose numbers count sections among their siblings;
nothing if there is none, or if the command signals. -/
def atPath (command : Place → Option Place) :
    List ℕ → ℕ → Sections → Display → Option (Sections × Display)
  | path, beg, text n rest, d =>
    (atPath command path (beg + n) rest d).map fun r => (text n r.1, r.2)
  | [0], beg, leaf n hidden rest, d =>
    (command ⟨.child, beg, leaf n hidden nil, d⟩).map fun s => (s.sections.append rest, s.display)
  | (i + 1) :: path, beg, leaf n hidden rest, d =>
    (atPath command (i :: path) (beg + n) rest d).map fun r => (leaf n hidden r.1, r.2)
  | [0], beg, unwashed heading content hidden body rest, d =>
    (command ⟨.child, beg, unwashed heading content hidden body nil, d⟩).map fun s =>
      (s.sections.append rest, s.display)
  | (i + 1) :: path, beg, unwashed heading content hidden body rest, d =>
    (atPath command (i :: path) (beg + (heading + 1)) rest d).map fun r =>
      (unwashed heading content hidden body r.1, r.2)
  | [0], beg, node heading washer hidden body rest, d =>
    (command ⟨.child, beg, node heading washer hidden body nil, d⟩).map fun s =>
      (s.sections.append rest, s.display)
  | 0 :: i :: path, beg, node heading washer hidden body rest, d =>
    (atPath command (i :: path) (beg + (heading + 1)) body d).map fun r =>
      (node heading washer hidden r.1 rest, r.2)
  | (i + 1) :: path, beg, node heading washer hidden body rest, d =>
    (atPath command (i :: path) (beg + (heading + 1) + body.length) rest d).map fun r =>
      (node heading washer hidden body r.1, r.2)
  | _, _, _, _ => none

/-- No ancestor of the section at the path is hidden. -/
def ancestorsShown : List ℕ → Sections → Bool
  | path, text _ rest => ancestorsShown path rest
  | (i + 1) :: path, leaf _ _ rest => ancestorsShown (i :: path) rest
  | (i + 1) :: path, unwashed _ _ _ _ rest => ancestorsShown (i :: path) rest
  | 0 :: i :: path, node _ _ hidden body _ => !hidden && ancestorsShown (i :: path) body
  | (i + 1) :: path, node _ _ _ _ rest => ancestorsShown (i :: path) rest
  | _, _ => true

/-- The slot `hidden` of the section at the path. -/
def hiddenAtPath : List ℕ → Sections → Bool
  | path, text _ rest => hiddenAtPath path rest
  | [0], leaf _ hidden _ => hidden
  | (i + 1) :: path, leaf _ _ rest => hiddenAtPath (i :: path) rest
  | [0], unwashed _ _ hidden _ _ => hidden
  | (i + 1) :: path, unwashed _ _ _ _ rest => hiddenAtPath (i :: path) rest
  | [0], node _ _ hidden _ _ => hidden
  | 0 :: i :: path, node _ _ _ body _ => hiddenAtPath (i :: path) body
  | (i + 1) :: path, node _ _ _ _ rest => hiddenAtPath (i :: path) rest
  | _, _ => false

theorem ancestorsShown_nil (f : Sections) : ancestorsShown [] f = true := by
  induction f with
  | nil => rfl
  | text n rest ih => exact ih
  | leaf | unwashed | node => rfl

/-- The ancestors of a section that is shown so far are shown so far. -/
theorem ancestorsShown_parent {path : List ℕ} {i : ℕ} {f : Sections}
    (h : ancestorsShown (path ++ [i]) f = true) : ancestorsShown path f = true := by
  induction f generalizing path with
  | nil => simp [ancestorsShown]
  | text n rest ih => exact ih h
  | leaf n hidden rest ih | unwashed n _ hidden body rest _ ih =>
    rcases path with _ | ⟨_ | j, path⟩
    · rfl
    · rfl
    · exact ih h
  | node heading washer hidden body rest ihbody ih =>
    rcases path with _ | ⟨_ | j, path⟩
    · rfl
    · rcases path with _ | ⟨k, path⟩
      · rfl
      · simp only [List.cons_append, ancestorsShown, Bool.and_eq_true] at h ⊢
        exact ⟨h.1, ihbody h.2⟩
    · exact ih h

theorem length_append (f g : Sections) : (f.append g).length = f.length + g.length := by
  induction f with
  | nil => exact (Nat.zero_add _).symm
  | text n rest ih | leaf n _ rest ih | unwashed n _ _ body rest _ ih | node n _ _ body rest _ ih =>
    simp only [append, length, ih, Nat.add_assoc]

/-- The sections behind others begin behind them. -/
theorem offsets_append (f g : Sections) : (f.append g).offsets = f.offsets ++ g.offsets := by
  induction f with
  | nil => rfl
  | text n rest ih | leaf n _ rest ih | unwashed n _ _ body rest _ ih | node n _ _ body rest _ ih =>
    simp only [append, offsets, ih, List.append_assoc]

/-- Sections are washed exactly if those in front and those behind are. -/
theorem washed_append {f g : Sections} : (f.append g).Washed ↔ f.Washed ∧ g.Washed := by
  induction f with
  | nil => exact (and_iff_right trivial).symm
  | text n rest ih | leaf n _ rest ih => exact ih
  | unwashed n _ _ body rest _ ih | node n _ _ body rest _ ih =>
    simp only [append, Washed, ih, and_assoc]

/-- What is hidden in front, and what is hidden behind. -/
theorem hidden_append (f g : Sections) : (f.append g).Hidden = splice f.length f.Hidden g.Hidden := by
  induction f with
  | nil =>
    ext p
    have hp := (splice_add 0 p (fun _ => False) g.Hidden).symm
    rwa [Nat.zero_add] at hp
  | text n rest ih | leaf n _ rest ih | unwashed n _ _ body rest _ ih =>
    simp only [append, Hidden, length, ih, splice_assoc]
  | node n _ _ body rest _ ih =>
    simp only [append, Hidden, length, ih, splice_assoc]

/-- What the sections in front and those behind are covered by. -/
theorem exactly_append {beg : ℕ} {f g : Sections} {d : Display}
    (h : Exactly beg (f.append g).length (f.append g).Hidden d) :
    Exactly beg f.length f.Hidden d ∧ Exactly (beg + f.length) g.length g.Hidden d := by
  rw [length_append, hidden_append] at h
  obtain ⟨hf, hg⟩ := exactly_splice h
  refine ⟨fun p hp => ?_, hg⟩
  rcases Nat.lt_or_ge p f.length with hlt | hge
  · exact hf p hlt
  · rw [Nat.le_antisymm hp hge]
    exact iff_of_false (fun hcovered => g.not_hidden_zero ((hg 0 (Nat.zero_le _)).mp hcovered))
      (not_hidden_of_length_le (Nat.le_refl _))

/-- What a command does that keeps the sections in order. -/
structure Redraws (beg : ℕ) (f f' : Sections) (d d' : Display) : Prop where
  redrawn : Redrawn beg f.length f'.length f'.Hidden d d'
  washed : f'.Washed
  plain : f.offsets = [] → d.properties = [] → f'.offsets = [] ∧ d'.properties = []

section

variable {beg : ℕ} {f f' g g' : Sections} {d d' : Display}

/-- The sections in front are redrawn. -/
theorem Redraws.append (h : Redraws beg f f' d d')
    (hexactly : Exactly beg (f.append g).length (f.append g).Hidden d) (hwashed : g.Washed) :
    Redraws beg (f.append g) (f'.append g) d d' := by
  refine ⟨?_, washed_append.mpr ⟨h.washed, hwashed⟩, ?_⟩
  · rw [length_append, length_append, hidden_append]
    refine h.redrawn.append (Redrawn.of_agree fun p hp => ?_)
    rw [h.redrawn.behind p]
    exact (exactly_append hexactly).2 p (Nat.le_of_lt hp)
  · intro hoffsets hproperties
    rw [offsets_append, List.append_eq_nil_iff] at hoffsets ⊢
    obtain ⟨hf', hd'⟩ := h.plain hoffsets.1 hproperties
    exact ⟨⟨hf', hoffsets.2⟩, hd'⟩

/-- The sections behind are redrawn. -/
theorem Redraws.behind (h : Redraws (beg + f.length) g g' d d')
    (hexactly : Exactly beg (f.append g).length (f.append g).Hidden d) (hwashed : f.Washed) :
    Redraws beg (f.append g) (f.append g') d d' := by
  refine ⟨?_, washed_append.mpr ⟨hwashed, h.washed⟩, ?_⟩
  · rw [length_append, length_append, hidden_append]
    exact (Redrawn.of_agree fun p hp => (exactly_append hexactly).1 p (Nat.le_of_lt hp)).append
      h.redrawn
  · intro hoffsets hproperties
    rw [offsets_append, List.append_eq_nil_iff] at hoffsets ⊢
    obtain ⟨hg', hd'⟩ := h.plain hoffsets.2 hproperties
    exact ⟨⟨hoffsets.1, hg'⟩, hd'⟩

/-- The children of a section that is shown are redrawn. -/
theorem Redraws.children {heading : ℕ} {washer : Option (List ℕ)}
    (h : Redraws (beg + (heading + 1)) f f' d d')
    (hexactly : Exactly beg (node heading washer false f g).length
      (node heading washer false f g).Hidden d)
    (hwashed : (node heading washer false f g).Washed) :
    Redraws beg (node heading washer false f g) (node heading washer false f' g) d d' := by
  obtain ⟨hhead, hrest⟩ := exactly_splice hexactly
  obtain ⟨-, hbehind⟩ := exactly_splice hrest
  refine ⟨?_, ⟨fun hshown => ⟨(hwashed.1 hshown).1, h.washed⟩, hwashed.2⟩, ?_⟩
  · refine redrawn_node (fun p hp => (hhead p hp).mp)
      (h.redrawn.congr fun p _ => (or_iff_right Bool.false_ne_true).symm) ?_ washer
    refine Redrawn.of_agree fun p hp => ?_
    rw [h.redrawn.behind p]
    exact hbehind p (Nat.le_of_lt hp)
  · intro hoffsets hproperties
    rw [offsets, List.append_eq_nil_iff, List.append_eq_nil_iff] at hoffsets ⊢
    obtain ⟨hf', hd'⟩ := h.plain hoffsets.2.1 hproperties
    exact ⟨⟨hoffsets.1, hf', hoffsets.2.2⟩, hd'⟩

/-- In a section that is shown, its children hide what is hidden. -/
theorem exactly_body {heading : ℕ} {washer : Option (List ℕ)}
    (h : Exactly beg (node heading washer false f g).length (node heading washer false f g).Hidden d) :
    Exactly (beg + (heading + 1)) f.length f.Hidden d := by
  obtain ⟨hbody, hrest⟩ := exactly_splice (exactly_splice h).2
  intro p hp
  rcases Nat.lt_or_ge p f.length with hlt | hge
  · exact (hbody p hlt).trans (or_iff_right Bool.false_ne_true)
  · rw [Nat.le_antisymm hp hge]
    exact iff_of_false (fun hcovered => g.not_hidden_zero ((hrest 0 (Nat.zero_le _)).mp hcovered))
      (not_hidden_of_length_le (Nat.le_refl _))

/-- One section, with nothing behind it. -/
inductive IsSection : Sections → Prop
  | leaf (n : ℕ) (hidden : Bool) : IsSection (leaf n hidden nil)
  | unwashed (heading : ℕ) (content hidden : Bool) (body : Sections) :
    IsSection (unwashed heading content hidden body nil)
  | node (heading : ℕ) (washer : Option (List ℕ)) (hidden : Bool) (body : Sections) :
    IsSection (node heading washer hidden body nil)

variable {command : Place → Option Place} {rest : Sections} {i : ℕ} {path : List ℕ}

theorem atPath_front (hg : IsSection g) (rest : Sections) :
    atPath command [0] beg (g.append rest) d
      = (command ⟨.child, beg, g, d⟩).map fun s => (s.sections.append rest, s.display) := by
  cases hg <;> rfl

/-- A command behind the first section leaves that. -/
theorem atPath_behind (hg : IsSection g) :
    atPath command ((i + 1) :: path) beg (g.append rest) d
      = (atPath command (i :: path) (beg + g.length) rest d).map fun r => (g.append r.1, r.2) := by
  cases hg with
  | leaf | unwashed => rfl
  | node heading washer hidden body =>
    rw [length, length, Nat.add_zero, ← Nat.add_assoc]
    rfl

theorem ancestorsShown_zero (f : Sections) : ancestorsShown [0] f = true := by
  induction f with
  | nil | leaf | unwashed | node => rfl
  | text n rest ih => exact ih

theorem ancestorsShown_behind (hg : IsSection g) :
    ancestorsShown ((i + 1) :: path) (g.append rest) = ancestorsShown (i :: path) rest := by
  cases hg <;> rfl

theorem hiddenAtPath_behind (hg : IsSection g) :
    hiddenAtPath ((i + 1) :: path) (g.append rest) = hiddenAtPath (i :: path) rest := by
  cases hg <;> rfl

/-- What the path leads a command through, to the section on which it is run. -/
inductive RunsAt (command : Place → Option Place) (d d' : Display) :
    List ℕ → ℕ → Sections → Sections → Prop
  | front {beg : ℕ} {g rest : Sections} {s' : Place} (hg : IsSection g)
      (hs' : command ⟨.child, beg, g, d⟩ = some s') (hd' : s'.display = d') :
      RunsAt command d d' [0] beg (g.append rest) (s'.sections.append rest)
  | text {path : List ℕ} {beg n : ℕ} {rest rest' : Sections}
      (h : RunsAt command d d' path (beg + n) rest rest') :
      RunsAt command d d' path beg (text n rest) (text n rest')
  | behind {i : ℕ} {path : List ℕ} {beg : ℕ} {g rest rest' : Sections} (hg : IsSection g)
      (h : RunsAt command d d' (i :: path) (beg + g.length) rest rest') :
      RunsAt command d d' ((i + 1) :: path) beg (g.append rest) (g.append rest')
  | inside {i : ℕ} {path : List ℕ} {beg heading : ℕ} {washer : Option (List ℕ)} {hidden : Bool}
      {body body' rest : Sections}
      (h : RunsAt command d d' (i :: path) (beg + (heading + 1)) body body') :
      RunsAt command d d' (0 :: i :: path) beg (node heading washer hidden body rest)
        (node heading washer hidden body' rest)

/-- A command on the first section is run there. -/
theorem RunsAt.of_front (hg : IsSection g) (rest : Sections)
    (h : atPath command [0] beg (g.append rest) d = some (f', d')) :
    RunsAt command d d' [0] beg (g.append rest) f' := by
  rw [atPath_front hg] at h
  obtain ⟨s', hs', hf'⟩ := Option.map_eq_some_iff.mp h
  obtain ⟨rfl, rfl⟩ := Prod.mk.inj hf'
  exact .front hg hs' rfl

/-- A command behind the first section is run there. -/
theorem RunsAt.of_behind (hg : IsSection g)
    (ih : ∀ {beg : ℕ} {f' : Sections}, atPath command (i :: path) beg rest d = some (f', d') →
      RunsAt command d d' (i :: path) beg rest f')
    (h : atPath command ((i + 1) :: path) beg (g.append rest) d = some (f', d')) :
    RunsAt command d d' ((i + 1) :: path) beg (g.append rest) f' := by
  rw [atPath_behind hg] at h
  obtain ⟨r, hr, hf'⟩ := Option.map_eq_some_iff.mp h
  obtain ⟨rfl, rfl⟩ := Prod.mk.inj hf'
  exact .behind hg (ih hr)

/-- **A command at a path is run at one section**, by induction on the path. -/
theorem runsAt_of_atPath (h : atPath command path beg f d = some (f', d')) :
    RunsAt command d d' path beg f f' := by
  induction f generalizing path beg f' with
  | nil => simp [atPath] at h
  | text n rest ih =>
    obtain ⟨r, hr, hf'⟩ := Option.map_eq_some_iff.mp h
    obtain ⟨rfl, rfl⟩ := Prod.mk.inj hf'
    exact .text (ih hr)
  | leaf n hidden rest ih =>
    rcases path with _ | ⟨_ | i, path⟩
    · simp [atPath] at h
    · rcases path with _ | ⟨j, path⟩
      · exact .of_front (.leaf n hidden) rest h
      · simp [atPath] at h
    · exact .of_behind (.leaf n hidden) ih h
  | unwashed heading content hidden body rest _ ih =>
    rcases path with _ | ⟨_ | i, path⟩
    · simp [atPath] at h
    · rcases path with _ | ⟨j, path⟩
      · exact .of_front (.unwashed heading content hidden body) rest h
      · simp [atPath] at h
    · exact .of_behind (.unwashed heading content hidden body) ih h
  | node heading washer hidden body rest ihbody ih =>
    rcases path with _ | ⟨_ | i, path⟩
    · simp [atPath] at h
    · rcases path with _ | ⟨j, path⟩
      · exact .of_front (.node heading washer hidden body) rest h
      · obtain ⟨r, hr, hf'⟩ := Option.map_eq_some_iff.mp h
        obtain ⟨rfl, rfl⟩ := Prod.mk.inj hf'
        exact .inside (ihbody hr)
    · exact .of_behind (.node heading washer hidden body) ih h

/-- **Running a command on one section** leaves all the sections in order. -/
theorem redraws_atPath
    (hcommand : ∀ {s s' : Place}, s.Tidy → command s = some s' → s'.Tidy ∧ s.Kept s')
    (hexactly : Exactly beg f.length f.Hidden d) (hwashed : f.Washed)
    (hshown : ancestorsShown path f = true) (h : atPath command path beg f d = some (f', d')) :
    Redraws beg f f' d d' := by
  have hruns := runsAt_of_atPath h
  clear h
  induction hruns with
  | front hg hs' hd' =>
    subst hd'
    obtain ⟨hf, hrest⟩ := washed_append.mp hwashed
    obtain ⟨htidy, hkept⟩ := hcommand ⟨(exactly_append hexactly).1, hf⟩ hs'
    exact Redraws.append ⟨hkept.redrawn htidy, htidy.washed, fun h h' => hkept.plain ⟨h, h'⟩⟩
      hexactly hrest
  | text _ ih =>
    have hrest := ih (exactly_splice hexactly).2 hwashed hshown
    exact Redraws.behind (f := text _ nil) hrest hexactly trivial
  | behind hg _ ih =>
    rw [ancestorsShown_behind hg] at hshown
    obtain ⟨hf, hrest⟩ := washed_append.mp hwashed
    exact (ih (exactly_append hexactly).2 hrest hshown).behind hexactly hf
  | inside _ ih =>
    rw [ancestorsShown, Bool.and_eq_true, Bool.not_eq_true'] at hshown
    obtain ⟨rfl, hpath⟩ := hshown
    exact (ih (exactly_body hexactly) (hwashed.1 rfl).2 hpath).children hexactly hwashed

/-- Showing again what was hidden, if it was washed. -/
theorem show_hidden {f : Sections} (hwashed : f.Washed) (rest : Sections) (beg : ℕ) (d : Display) :
    ∃ d', ((some ⟨.child, beg, (f.showEach beg d).1, (f.showEach beg d).2⟩ : Option Place).map
        fun s => (s.sections.append rest, s.display)) = some (f.append rest, d')
      ∧ d'.properties = d.properties := by
  obtain ⟨htree, hproperties⟩ := showEach_of_washed hwashed beg d
  exact ⟨_, by rw [htree]; rfl, hproperties⟩

/-- Hiding a section that is shown, and showing it again. -/
theorem show_hide_front {s' : Place} (hg : IsSection g) (hwashed : g.Washed)
    (hvisible : hiddenAtPath [0] (g.append rest) = false)
    (hs' : Place.magitSectionHide ⟨.child, beg, g, d⟩ = some s') :
    ∃ d₂, atPath (fun s => some s.magitSectionShow) [0] beg (s'.sections.append rest) s'.display
        = some (g.append rest, d₂)
      ∧ d₂.properties = d.properties := by
  rw [← Option.some.inj hs']
  cases hg with
  | leaf n hidden =>
    obtain rfl : hidden = false := hvisible
    exact show_hidden (f := leaf n false nil) trivial rest beg d
  | unwashed heading content hidden body =>
    exact absurd (hvisible.symm.trans hwashed.1) Bool.false_ne_true
  | node heading washer hidden body =>
    obtain rfl : hidden = false := hvisible
    obtain ⟨d₂, hd₂, hproperties⟩ := show_hidden (f := node heading washer false body nil) hwashed
      rest beg _
    exact ⟨d₂, hd₂, hproperties.trans (properties_hideContent _ _ d)⟩

/-- **Hiding a section and showing it again** restores the sections. -/
theorem atPath_show_hide {f₁ : Sections} {d₁ : Display} (hwashed : f.Washed)
    (hshown : ancestorsShown path f = true) (hvisible : hiddenAtPath path f = false)
    (h : atPath Place.magitSectionHide path beg f d = some (f₁, d₁)) :
    ancestorsShown path f₁ = true
      ∧ ∃ d₂, atPath (fun s => some s.magitSectionShow) path beg f₁ d₁ = some (f, d₂)
        ∧ d₂.properties = d.properties := by
  have hruns := runsAt_of_atPath h
  clear h
  induction hruns with
  | front hg hs' hd' =>
    subst hd'
    exact ⟨ancestorsShown_zero _, show_hide_front hg (washed_append.mp hwashed).1 hvisible hs'⟩
  | text _ ih =>
    obtain ⟨hpath, d₂, hd₂, hproperties⟩ := ih hwashed hshown hvisible
    exact ⟨hpath, d₂, Option.map_eq_some_iff.mpr ⟨_, hd₂, rfl⟩, hproperties⟩
  | behind hg _ ih =>
    rw [ancestorsShown_behind hg] at hshown ⊢
    rw [hiddenAtPath_behind hg] at hvisible
    obtain ⟨hpath, d₂, hd₂, hproperties⟩ := ih (washed_append.mp hwashed).2 hshown hvisible
    rw [atPath_behind hg]
    exact ⟨hpath, d₂, Option.map_eq_some_iff.mpr ⟨_, hd₂, rfl⟩, hproperties⟩
  | inside _ ih =>
    rw [ancestorsShown, Bool.and_eq_true, Bool.not_eq_true'] at hshown
    obtain ⟨rfl, hpath⟩ := hshown
    obtain ⟨hpath', d₂, hd₂, hproperties⟩ := ih (hwashed.1 rfl).2 hpath hvisible
    exact ⟨hpath', d₂, Option.map_eq_some_iff.mpr ⟨_, hd₂, rfl⟩, hproperties⟩

end

end Sections

end Magit.Section

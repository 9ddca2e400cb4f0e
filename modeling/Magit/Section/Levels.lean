import Magit.Section.Subsections

/-!
# Section/Levels — the commands that show sections up to a level

The recursion counts the depth down from where it starts, so a section that many levels below is the
first that is hidden (`atLevel_showChildren1`), and showing sets no slot of a section that is there
already (`sameAt_showEach`).  What a washer inserts on the way comes with slots of its own.
-/

namespace Magit.Section

open Emacs Display

namespace Sections

/-- `magit-section-invisible-p`, of the section at the path. -/
def invisibleP (path : List ℕ) (f : Sections) : Bool :=
  hiddenAtPath path f || !ancestorsShown path f

/-- The section at the path is there, and it is shown as far as it is `k` levels below: its heading
if it is `k + 1` levels below, and its body if it is `k` levels below. -/
structure AtLevel (k : ℕ) (path : List ℕ) (f : Sections) : Prop where
  isSome : (subsection path f).isSome = true
  heading : ancestorsShown path f = true ↔ path.length ≤ k + 1
  body : invisibleP path f = false ↔ path.length ≤ k

/-- The section at the path has been left in its place, with its slot and those of its ancestors. -/
structure SameAt (path : List ℕ) (f f' : Sections) : Prop where
  isSome : (subsection path f').isSome = true
  hidden : hiddenAtPath path f' = hiddenAtPath path f
  shown : ancestorsShown path f' = ancestorsShown path f

section

variable {beg k : ℕ} {f f' g rest rest' : Sections} {d : Display} {path : List ℕ}

theorem invisibleP_eq_false :
    invisibleP path f = false ↔ ancestorsShown path f = true ∧ hiddenAtPath path f = false := by
  rw [invisibleP, Bool.or_eq_false_iff, Bool.not_eq_false', and_comm]

/-- A section at a level is there in every tree that is the same up to it. -/
theorem AtLevel.of_sameAt (h : AtLevel k path f) (hsame : SameAt path f f') :
    AtLevel k path f' where
  isSome := hsame.isSome
  heading := by rw [hsame.shown, h.heading]
  body := by rw [invisibleP, hsame.hidden, hsame.shown, ← h.body, invisibleP]

/-- The sections behind one are as far below as it is. -/
theorem AtLevel.behind {i : ℕ} (hg : IsSection g) (h : AtLevel k (i :: path) rest) :
    AtLevel k ((i + 1) :: path) (g.append rest) where
  isSome := by rw [subsection_behind hg, h.isSome]
  heading := by rw [ancestorsShown_behind hg, h.heading, List.length_cons, List.length_cons]
  body := by
    rw [invisibleP, hiddenAtPath_behind hg, ancestorsShown_behind hg]
    exact h.body

/-- Trees that are the same behind the first section. -/
theorem SameAt.behind {i : ℕ} {g' : Sections} (hg : IsSection g) (hg' : IsSection g')
    (h : SameAt (i :: path) rest rest') :
    SameAt ((i + 1) :: path) (g.append rest) (g'.append rest') where
  isSome := by rw [subsection_behind hg', h.isSome]
  hidden := by rw [hiddenAtPath_behind hg, hiddenAtPath_behind hg', h.hidden]
  shown := by rw [ancestorsShown_behind hg, ancestorsShown_behind hg', h.shown]

/-- Its own slot decides about a section next to which the recursion is. -/
theorem atLevel_front (hg : IsSection g) (rest : Sections)
    (h : hiddenAtPath [0] g = (childDepth (some (k : ℤ))).isNone) :
    AtLevel k [0] (g.append rest) where
  isSome := by rw [subsection_front hg]; rfl
  heading := by
    rw [ancestorsShown_zero]
    exact iff_of_true rfl (Nat.le_add_left 1 k)
  body := by
    rw [invisibleP, hiddenAtPath_into hg, h, ancestorsShown_zero, childDepth]
    rcases k with _ | k
    · simp
    · rw [if_pos (by omega)]
      simp

/-- Its children are one level further below. -/
theorem AtLevel.inside {i heading : ℕ} (h : AtLevel k (i :: path) f) (washer : Option (List ℕ))
    (rest : Sections) : AtLevel (k + 1) (0 :: i :: path) (node heading washer false f rest) where
  isSome := h.isSome
  heading := h.heading.trans (Nat.succ_le_succ_iff).symm
  body := h.body.trans (Nat.succ_le_succ_iff).symm

/-- **The recursion shows as many levels as it is told to.** -/
theorem atLevel_showChildren1 (h : (subsection path f).isSome = true) (beg : ℕ) (d : Display) :
    AtLevel k path (showChildren1 beg f (some (k : ℤ)) d).1 := by
  induction f generalizing k path beg d with
  | nil => simp [subsection] at h
  | text n rest ih =>
    have hrest := ih h (k := k) (beg + n) d
    exact ⟨hrest.isSome, hrest.heading, hrest.body⟩
  | leaf n hidden rest ih =>
    rcases path with _ | ⟨_ | i, path⟩
    · simp [subsection] at h
    · rcases path with _ | ⟨j, path⟩
      · exact atLevel_front (.leaf n _) _ rfl
      · simp [subsection] at h
    · exact AtLevel.behind (.leaf n _) (ih h _ _)
  | unwashed heading content hidden body rest _ ih =>
    rcases path with _ | ⟨_ | i, path⟩
    · simp [subsection] at h
    · rcases path with _ | ⟨j, path⟩
      · exact atLevel_front (.unwashed heading content _ body) _ rfl
      · simp [subsection] at h
    · exact AtLevel.behind (.unwashed heading content _ body) (ih h _ _)
  | node heading washer hidden body rest ihbody ih =>
    rcases k with _ | k
    · -- the cut-off
      have hcut : childDepth (some ((0 : ℕ) : ℤ)) = none := rfl
      simp only [showChildren1, hcut]
      rcases path with _ | ⟨_ | i, path⟩
      · simp [subsection] at h
      · rcases path with _ | ⟨j, path⟩
        · exact atLevel_front (.node heading washer true body) _ rfl
        · refine ⟨h, iff_of_false Bool.false_ne_true ?_, iff_of_false ?_ ?_⟩
          · simp
          · rw [invisibleP, ancestorsShown, Bool.not_true, Bool.false_and, Bool.not_false,
              Bool.or_true]
            exact fun hfalse => Bool.noConfusion hfalse
          · simp
      · exact AtLevel.behind (.node heading washer true body) (ih h _ _)
    · have hdeeper : childDepth (some ((k + 1 : ℕ) : ℤ)) = some (some (k : ℤ)) := by
        rw [childDepth, if_pos (by omega)]
        exact congrArg (some ∘ some) (by omega)
      simp only [showChildren1, hdeeper]
      rcases path with _ | ⟨_ | i, path⟩
      · simp [subsection] at h
      · rcases path with _ | ⟨j, path⟩
        · refine atLevel_front (.node heading washer false _) _ ?_
          rw [hdeeper]
          rfl
        · exact (ihbody h _ _).inside washer _
      · exact AtLevel.behind (.node heading washer false _) (ih h _ _)

/-- **Showing sets no slot of a section that is there.** -/
theorem sameAt_showEach (h : (subsection path f).isSome = true) (beg : ℕ) (d : Display) :
    SameAt path f (showEach beg f d).1 := by
  induction f generalizing path beg d with
  | nil => simp [subsection] at h
  | text n rest ih =>
    have hrest := ih h (beg + n) d
    exact ⟨hrest.isSome, hrest.hidden, hrest.shown⟩
  | leaf n hidden rest ih =>
    rcases path with _ | ⟨_ | i, path⟩
    · simp [subsection] at h
    · rcases path with _ | ⟨j, path⟩
      · exact ⟨rfl, rfl, rfl⟩
      · simp [subsection] at h
    · exact SameAt.behind (.leaf n hidden) (.leaf n hidden) (ih h _ _)
  | unwashed heading content hidden body rest _ ih =>
    rcases path with _ | ⟨_ | i, path⟩
    · simp [subsection] at h
    · rcases path with _ | ⟨j, path⟩
      · cases hidden <;> exact ⟨rfl, rfl, rfl⟩
      · simp [subsection] at h
    · cases hidden with
      | true =>
        exact SameAt.behind (.unwashed heading content true body)
          (.unwashed heading content true body) (ih h _ _)
      | false =>
        exact SameAt.behind (.unwashed heading content false body) (.node heading none false _)
          (ih h _ _)
  | node heading washer hidden body rest ihbody ih =>
    rcases path with _ | ⟨_ | i, path⟩
    · simp [subsection] at h
    · rcases path with _ | ⟨j, path⟩
      · cases hidden <;> exact ⟨rfl, rfl, rfl⟩
      · cases hidden with
        | true => exact ⟨h, rfl, rfl⟩
        | false =>
          have hbody := ihbody h (beg + (heading + 1))
            ((paint (beg + (heading + 1)) washer d).removeOverlays (beg + (heading + 1))
              (beg + (heading + 1) + body.length))
          exact ⟨hbody.isSome, hbody.hidden, congrArg (!false && ·) hbody.shown⟩
    · cases hidden with
      | true =>
        exact SameAt.behind (.node heading washer true body) (.node heading washer true body)
          (ih h _ _)
      | false =>
        exact SameAt.behind (.node heading washer false body) (.node heading none false _)
          (ih h _ _)

end

end Sections

/-! ## One section -/

namespace Place

open Sections

/-- The section is shown up to `m` levels below it, wherever the path leads from it. -/
def LevelsBelow (m : ℕ) (g g' : Sections) : Prop :=
  ∀ path, (subsection (0 :: path) g).isSome = true →
    (subsection (0 :: path) g').isSome = true
      ∧ (ancestorsShown (0 :: path) g' = true ↔ path.length ≤ m)
      ∧ (invisibleP (0 :: path) g' = false ↔ path.length < m)

variable {g : Sections}

/-- A section without children that is shown. -/
theorem levelsBelow_of_childless {m : ℕ} {g' : Sections} (hg' : IsSection g')
    (hchildless : ∀ i path, subsection (0 :: i :: path) g = none)
    (hshown : hiddenAtPath [0] g' = false) (hm : 0 < m) : LevelsBelow m g g' := by
  intro path hpath
  rcases path with _ | ⟨i, path⟩
  · refine ⟨?_, iff_of_true (ancestorsShown_zero _) (Nat.zero_le _), iff_of_true ?_ hm⟩
    · cases hg' <;> rfl
    · rw [invisibleP, hshown, ancestorsShown_zero]
      rfl
  · rw [hchildless] at hpath
    exact absurd hpath Bool.false_ne_true

/-- `magit-section-show-children` with a depth shows one level more than that. -/
theorem levelsBelow_showChildren (hg : IsSection g) (k beg : ℕ) (d : Display) :
    LevelsBelow (k + 1) g
      ((Place.mk .child beg g d).magitSectionShowChildren (some (k : ℤ))).sections := by
  cases hg with
  | leaf n hidden =>
    exact levelsBelow_of_childless (.leaf n false) (fun _ _ => rfl) rfl (Nat.succ_pos k)
  | unwashed heading content hidden body =>
    exact levelsBelow_of_childless (.node heading none false _) (fun _ _ => rfl) rfl
      (Nat.succ_pos k)
  | node heading washer hidden body =>
    intro path hpath
    rcases path with _ | ⟨i, path⟩
    · exact ⟨rfl, iff_of_true rfl (Nat.zero_le _), iff_of_true rfl (Nat.succ_pos k)⟩
    · have hbody : (subsection (i :: path) body).isSome = true := hpath
      have hlevel := atLevel_showChildren1 (k := k) hbody (beg + (heading + 1)) d
      have hshown := fun d =>
        hlevel.of_sameAt (sameAt_showEach hlevel.isSome (beg + (heading + 1)) d)
      exact ⟨(hshown _).isSome, (hshown _).heading, (hshown _).body.trans Nat.lt_succ_iff.symm⟩

/-- `magit-section-hide` shows the heading only. -/
theorem levelsBelow_hide (hg : IsSection g) (beg : ℕ) (d : Display) :
    LevelsBelow 0 g (hideEach beg g d).1 := by
  intro path hpath
  rcases path with _ | ⟨i, path⟩
  · cases hg <;>
      exact ⟨rfl, iff_of_true rfl (Nat.le_refl 0), iff_of_false (fun h => Bool.noConfusion h)
        (Nat.lt_irrefl 0)⟩
  · cases hg with
    | leaf | unwashed => exact absurd hpath Bool.false_ne_true
    | node heading washer hidden body =>
      refine ⟨hpath, iff_of_false Bool.false_ne_true (by simp), iff_of_false ?_ (by simp)⟩
      rw [invisibleP_eq_false]
      exact fun h => Bool.false_ne_true h.1

end Place

/-! ## The buffer -/

namespace SectionBuffer

open Sections

/-- The path leads to a section; the empty one to the root. -/
def HasSection (b : SectionBuffer) (path : List ℕ) : Prop :=
  path = [] ∨ (subsection path b.sections).isSome = true

/-- Below the section at `top`, the headings of sections up to depth `n` are shown and the bodies of
those above it, and the slots of all other sections are as they were. -/
structure ShownToLevel (n : ℕ) (top : List ℕ) (b b' : SectionBuffer) : Prop where
  kept : ∀ path, top <+: path → b.HasSection path → b'.HasSection path
  heading : ∀ path, top <+: path → b.HasSection path →
    (ancestorsShown path b'.sections = true ↔ path.length ≤ n)
  body : ∀ path, top <+: path → b.HasSection path →
    (invisibleP path b'.sections = false ↔ path.length < n)
  outside : ∀ path, ¬top <+: path →
    hiddenAtPath path b'.sections = hiddenAtPath path b.sections
  tidy : b.Tidy → b'.Tidy

variable {b : SectionBuffer}

/-- Showing the children leaves the buffer tidy. -/
theorem tidy_showChildren {b' : SectionBuffer} {path : List ℕ} {depth : ℤ}
    (hshown : ancestorsShown path b.sections = true)
    (h : b.runAt (fun s => some (s.magitSectionShowChildren (some depth))) path = some b')
    (htidy : b.Tidy) : b'.Tidy :=
  (tidy_runAt (keepsTidy_some fun hs => Place.tidy_magitSectionShowChildren hs depth) htidy hshown
    h).1

/-- From the root every section is shown up to the level. -/
theorem shownToLevel_root (b : SectionBuffer) (k : ℕ) :
    ∃ b', b.runAt (fun s => some (s.magitSectionShowChildren (some (k : ℤ)))) [] = some b'
      ∧ ShownToLevel (k + 1) [] b b' := by
  obtain ⟨b', hb'⟩ : ∃ b', b.runAt
      (fun s => some (s.magitSectionShowChildren (some (k : ℤ)))) [] = some b' := ⟨_, rfl⟩
  have hlevel : ∀ path, (subsection path b.sections).isSome = true →
      AtLevel k path b'.sections := by
    intro path hpath
    have hset := atLevel_showChildren1 (k := k) hpath b.beg b.display
    rw [← Option.some.inj hb']
    rcases hheading : b.heading with _ | n
    all_goals
      simp only [root, Place.magitSectionShowChildren, Place.onChildren, Place.magitSectionShow]
      exact hset.of_sameAt (sameAt_showEach hset.isSome _ _)
  refine ⟨b', hb', ⟨fun path _ hpath => ?_, fun path _ hpath => ?_, fun path _ hpath => ?_, ?_,
    tidy_showChildren (ancestorsShown_nil _) hb'⟩⟩
  · exact hpath.imp_right fun hpath => (hlevel path hpath).isSome
  · rcases hpath with rfl | hpath
    · exact iff_of_true (ancestorsShown_nil _) (Nat.zero_le _)
    · exact (hlevel path hpath).heading
  · rcases hpath with rfl | hpath
    · refine iff_of_true ?_ (Nat.succ_pos k)
      rw [invisibleP, hiddenAtPath_nil, ancestorsShown_nil]
      rfl
    · exact (hlevel path hpath).body.trans Nat.lt_succ_iff.symm
  · exact fun path hpath => absurd (List.nil_prefix) hpath

/-- From another section everything in it is shown up to the level. -/
theorem shownToLevel_of_runAt {command : Place → Option Place} {i m : ℕ} {top : List ℕ}
    (hkeeps : KeepsSection command)
    (hlevels : ∀ {g : Sections} {beg : ℕ} {s' : Place}, IsSection g →
      command ⟨.child, beg, g, b.display⟩ = some s' → Place.LevelsBelow m g s'.sections)
    (hsome : ∀ g beg, (command ⟨.child, beg, g, b.display⟩).isSome = true)
    (htidy : ∀ {b'}, b.runAt command (i :: top) = some b' → b.Tidy → b'.Tidy)
    (hsection : b.HasSection (i :: top))
    (hshown : ancestorsShown (i :: top) b.sections = true) :
    ∃ b', b.runAt command (i :: top) = some b'
      ∧ ShownToLevel (top.length + 1 + m) (i :: top) b b' := by
  obtain ⟨g, hg⟩ := Option.isSome_iff_exists.mp (hsection.resolve_left (List.cons_ne_nil _ _))
  obtain ⟨b', beg, s', hb', hs', hg', hsame, houtside⟩ :=
    runAt_subsection hkeeps (hsome g) hg
  have hleads := leadsTo_of_subsection hg
  have hbelow := hlevels hleads.isSection hs'
  -- a path below the section goes on from it
  have hpaths : ∀ r, b.HasSection (i :: top ++ r) →
      (subsection (0 :: r) s'.sections).isSome = true
        ∧ (ancestorsShown (0 :: r) s'.sections = true ↔ r.length ≤ m)
        ∧ (invisibleP (0 :: r) s'.sections = false ↔ r.length < m) := by
    intro r hr
    have hsub := hr.resolve_left (List.append_ne_nil_of_left_ne_nil (List.cons_ne_nil _ _) _)
    rw [(hleads.append r).1] at hsub
    exact hbelow r hsub
  have hlength : ∀ r : List ℕ, (i :: top ++ r).length = top.length + 1 + r.length := fun r => by
    rw [List.length_append, List.length_cons]
  refine ⟨b', hb', ?_, ?_, ?_, houtside, htidy hb'⟩
  · rintro _ ⟨r, rfl⟩ hr
    refine .inr ?_
    rw [(hg'.append r).1]
    exact (hpaths r hr).1
  · rintro _ ⟨r, rfl⟩ hr
    rw [(hg'.append r).2.2, hsame, hshown, Bool.true_and, (hpaths r hr).2.1, hlength]
    omega
  · rintro _ ⟨r, rfl⟩ hr
    have hinvisible : invisibleP (i :: top ++ r) b'.sections = invisibleP (0 :: r) s'.sections := by
      rw [invisibleP, (hg'.append r).2.1, (hg'.append r).2.2, hsame, hshown, Bool.true_and,
        invisibleP]
    rw [hinvisible, (hpaths r hr).2.2, hlength]
    omega

/-- `magit-section-show-children` from a section above the level. -/
theorem shownToLevel_showChildren {i : ℕ} {top : List ℕ} (hsection : b.HasSection (i :: top))
    (hshown : ancestorsShown (i :: top) b.sections = true) (k : ℕ) :
    ∃ b', b.runAt (fun s => some (s.magitSectionShowChildren (some (k : ℤ)))) (i :: top) = some b'
      ∧ ShownToLevel (top.length + 1 + (k + 1)) (i :: top) b b' := by
  refine shownToLevel_of_runAt (Place.keepsSection_showAfter _) ?_ (fun _ _ => rfl)
    (fun hb' => tidy_showChildren hshown hb') hsection hshown
  rintro g beg s' hg hs'
  rw [← Option.some.inj hs']
  exact Place.levelsBelow_showChildren hg k beg b.display

/-- `magit-section-hide` of a section at the level. -/
theorem shownToLevel_hide {i : ℕ} {top : List ℕ} (hsection : b.HasSection (i :: top))
    (hshown : ancestorsShown (i :: top) b.sections = true) :
    ∃ b', b.runAt Place.magitSectionHide (i :: top) = some b'
      ∧ ShownToLevel (top.length + 1) (i :: top) b b' := by
  refine shownToLevel_of_runAt (m := 0) Place.keepsSection_hide ?_ (fun _ _ => rfl)
    (fun hb' htidy => (tidy_runAt (fun _ _ hs hs' => Place.tidy_magitSectionHide hs.loose hs')
      htidy hshown hb').1) hsection hshown
  rintro g beg s' hg hs'
  rw [← Option.some.inj hs']
  exact Place.levelsBelow_hide hg beg b.display

/-- The loop goes up to the level, if it starts below it. -/
theorem shownToLevel_showLevel (n : ℕ) {path : List ℕ} (hsection : b.HasSection path.reverse)
    (hshown : ancestorsShown path.reverse b.sections = true) :
    ∃ b' top, b.showLevel (n + 1 : ℕ) path = some b' ∧ top <+: path.reverse
      ∧ top.length = min path.length (n + 1) ∧ ShownToLevel (n + 1) top b b' := by
  induction path with
  | nil =>
    obtain ⟨b', hb', hlevel⟩ := shownToLevel_root b n
    refine ⟨b', [], ?_, List.nil_prefix, (Nat.zero_min _).symm, hlevel⟩
    rw [showLevel, levelAt, if_pos (by simp), ← hb']
    simp
  | cons i parent ih =>
    have hreverse : (i :: parent).reverse = parent.reverse ++ [i] := List.reverse_cons
    rw [hreverse] at hsection hshown ⊢
    obtain ⟨j, top, htop⟩ : ∃ j top, parent.reverse ++ [i] = j :: top :=
      List.exists_cons_of_ne_nil (List.append_ne_nil_of_right_ne_nil _ (List.cons_ne_nil _ _))
    have hlength : top.length + 1 = (i :: parent).length := by
      rw [← List.length_cons (a := j), ← htop, ← hreverse, List.length_reverse]
    rw [showLevel, levelAt, hreverse]
    rcases Nat.lt_trichotomy (i :: parent).length (n + 1) with hlt | heq | hgt
    · -- the section is above the level
      rw [if_pos (Int.ofNat_lt.mpr hlt), htop]
      rw [htop] at hsection hshown
      have hdepth : ((n + 1 : ℕ) : ℤ) - ((i :: parent).length : ℤ) - 1
          = ((n - (i :: parent).length : ℕ) : ℤ) := by omega
      obtain ⟨b', hb', hlevel⟩ := shownToLevel_showChildren hsection hshown
        (n - (i :: parent).length)
      rw [hlength, show (i :: parent).length + (n - (i :: parent).length + 1) = n + 1 by omega]
        at hlevel
      refine ⟨b', j :: top, ?_, List.prefix_refl _, ?_, hlevel⟩
      · rw [hdepth, hb']
      · rw [List.length_cons, hlength, Nat.min_eq_left (Nat.le_of_lt hlt)]
    · rw [if_neg (by omega), if_pos (by omega), htop]
      rw [htop] at hsection hshown
      obtain ⟨b', hb', hlevel⟩ := shownToLevel_hide hsection hshown
      rw [hlength, heq] at hlevel
      refine ⟨b', j :: top, hb', List.prefix_refl _, ?_, hlevel⟩
      rw [List.length_cons, hlength, heq, Nat.min_self]
    · rw [if_neg (by omega), if_neg (by omega)]
      have hparent : b.HasSection parent.reverse :=
        hsection.elim (fun h => absurd h (by simp)) subsection_parent
      obtain ⟨b', top', hb', hpre, htop', hlevel⟩ := ih hparent (ancestorsShown_parent hshown)
      refine ⟨b', top', hb', hpre.trans (List.prefix_append _ _), ?_, hlevel⟩
      rw [htop', Nat.min_eq_right (Nat.le_of_lt hgt),
        Nat.min_eq_right (Nat.lt_succ_iff.mp hgt)]

/-- **The level commands**, for the sections that are in the tree when they are run.  The variant
for the whole buffer shows it up to the level; the others show the section they are run on up to the
level, or hide its ancestor at the level, and leave all slots outside of that alone. -/
theorem shownToLevel (n : ℕ) {path : List ℕ} (hsection : b.HasSection path)
    (hshown : ancestorsShown path b.sections = true) :
    (∃ b', b.step (.sectionShowLevel path (-(n + 1 : ℕ))) = some b' ∧ ShownToLevel (n + 1) [] b b')
      ∧ ∃ b' top, b.step (.sectionShowLevel path (n + 1 : ℕ)) = some b' ∧ top <+: path
        ∧ top.length = min path.length (n + 1) ∧ ShownToLevel (n + 1) top b b' := by
  constructor
  · obtain ⟨b', hb', hlevel⟩ := shownToLevel_root b n
    refine ⟨b', ?_, hlevel⟩
    rw [step, if_pos (by omega), ← hb']
    congr 2
    funext s
    congr 3
    omega
  · rw [step, if_neg (by omega)]
    rw [← List.reverse_reverse path] at hsection hshown
    obtain ⟨b', top, hb', hpre, hlength, hlevel⟩ := shownToLevel_showLevel n hsection hshown
    rw [List.reverse_reverse] at hpre
    rw [List.length_reverse] at hlength
    exact ⟨b', top, hb', hpre, hlength, hlevel⟩

/-- Modules in modules: a section whose washer inserts another one that is hidden. -/
def modules : SectionBuffer :=
  ⟨none, .unwashed 7 false true (.unwashed 16 false true (.text 6 .nil) .nil) .nil, ⟨[], []⟩⟩

/-- The modules of the example are shown to the level, in both directions. -/
theorem shownToLevel_modules :
    (∃ b', modules.step (.sectionShowLevel [0] (-(1 + 1 : ℕ))) = some b'
        ∧ ShownToLevel (1 + 1) [] modules b')
      ∧ ∃ b' top, modules.step (.sectionShowLevel [0] (1 + 1 : ℕ)) = some b' ∧ top <+: [0]
        ∧ top.length = min [0].length (1 + 1) ∧ ShownToLevel (1 + 1) top modules b' :=
  shownToLevel 1 (.inr rfl) rfl

/-- The section that is inserted is above level 3, and hidden. -/
theorem not_shownToLevel_modules :
    ∃ b', modules.step (.sectionShowLevel [0] (-(2 + 1 : ℕ))) = some b'
      ∧ ¬∀ path, b'.HasSection path →
        (invisibleP path b'.sections = false ↔ path.length < 2 + 1) := by
  refine ⟨_, rfl, fun h => ?_⟩
  have hbody := (h [0, 0] (.inr rfl)).mpr (by decide)
  exact absurd hbody (by decide)

end SectionBuffer

end Magit.Section

import Mathlib.Data.List.Forall2
import Magit.Section.CacheInvariant

/-!
# Section/Refreshes — which visibility survives a refresh

Whatever is cached for the identity of a section in the tree is what a section with that identity has
(`Reached.good`).  So a refresh creates sections as they were if their visibility has been cached,
or is the one that they fall back to anyway (`survives_refresh_iff`).
-/

namespace Magit.Recreation

open Emacs

variable {α : Type}

/-! ## Commands -/

namespace Forest

/-- When each section is shown, none is hidden. -/
theorem anyHidden_setEach (f : Forest α) : (setEach false f).anyHidden = false := by
  induction f with
  | nil => rfl
  | unwashed s body rest ih => exact ih
  | node s body rest _ ih => exact ih

/-- The entries of two forests. -/
theorem entries_append (parent : Ident α) (f g : Forest α) :
    (f.append g).entries parent = f.entries parent ++ g.entries parent := by
  induction f with
  | nil => rfl
  | unwashed s body rest ih => rw [append, entries, entries, ih, List.cons_append]
  | node s body rest _ ih =>
    rw [append, entries, entries, ih, List.cons_append, List.append_assoc]

theorem anyHidden_append (f g : Forest α) :
    (f.append g).anyHidden = (f.anyHidden || g.anyHidden) := by
  induction f with
  | nil => rfl
  | unwashed s body rest ih => rw [append, anyHidden, anyHidden, ih, Bool.or_assoc]
  | node s body rest _ ih => rw [append, anyHidden, anyHidden, ih, Bool.or_assoc]

/-- Every entry is below its parent. -/
theorem length_of_mem_entries (parent : Ident α) (f : Forest α) :
    ∀ e ∈ f.entries parent, parent.length < e.1.length := by
  induction f generalizing parent with
  | nil => intro e he; cases he
  | unwashed s body rest ih =>
    intro e he
    rcases List.mem_cons.mp he with rfl | hrest
    · exact Nat.lt_succ_self _
    · exact ih parent e hrest
  | node s body rest ihbody ih =>
    intro e he
    rcases List.mem_cons.mp he with rfl | he
    · exact Nat.lt_succ_self _
    rcases List.mem_append.mp he with hbody | hrest
    · exact Nat.lt_trans (Nat.lt_succ_self _) (ihbody (s.ident parent) e hbody)
    · exact ih parent e hrest

/-- Sections that are next to one another are shown. -/
theorem shown_of_length {parent : Ident α} {f : Forest α} (h : f.anyHidden = false) :
    ∀ e ∈ f.entries parent, e.1.length = parent.length + 1 → e.2 = false := by
  induction f with
  | nil => intro e he; cases he
  | unwashed s body rest ih =>
    intro e he hlength
    obtain ⟨hs, hrest⟩ := Bool.or_eq_false_iff.mp h
    rcases List.mem_cons.mp he with rfl | he
    · exact hs
    · exact ih hrest e he hlength
  | node s body rest _ ih =>
    intro e he hlength
    obtain ⟨hs, hrest⟩ := Bool.or_eq_false_iff.mp h
    rcases List.mem_cons.mp he with rfl | he
    · exact hs
    rcases List.mem_append.mp he with hbody | he
    · have hdeeper := length_of_mem_entries (s.ident parent) body e hbody
      have hident : (s.ident parent).length = parent.length + 1 := rfl
      omega
    · exact ih hrest e he hlength

variable [DecidableEq α] {o : Options}

/-- Washing the bodies does not hide the sections themselves. -/
theorem anyHidden_showWith (wash : Washer α) (parent : Ident α) (f : Forest α) (c : Cache α) :
    (showWith o wash parent f c).1.anyHidden = f.anyHidden := by
  induction f generalizing c with
  | nil => rfl
  | unwashed s body rest ih =>
    rw [showWith]
    rcases hhidden : s.hidden with _ | _ <;> simp only [anyHidden, hhidden, if_true,
      Bool.false_eq_true, if_false, ih]
  | node s body rest _ ih =>
    rw [showWith]
    rcases hhidden : s.hidden with _ | _ <;> simp only [anyHidden, hhidden, if_true,
      Bool.false_eq_true, if_false, ih]

end Forest

variable [DecidableEq α] {o : Options}

namespace Place

/-- What a command does to a section.  It does not hide the root. -/
structure Writes (o : Options) (p p' : Place α) : Prop where
  parent : p'.parent = p.parent
  written : ∃ W, Written o W p.cache p'.cache (p.sections.entries p.parent)
    (p'.sections.entries p.parent)
  root : p.isRoot = true → p.hidden = false → p'.hidden = false

variable {p q p' p'' : Place α}

theorem Writes.refl (p : Place α) : Writes o p p := ⟨rfl, ⟨[], Written.refl _ _⟩, fun _ h => h⟩

/-- Two commands that write to the cache. -/
theorem Writes.trans (h : Writes o p p') (h' : Writes o p' p'') : Writes o p p'' := by
  obtain ⟨W, hwritten⟩ := h.written
  obtain ⟨W', hwritten'⟩ := h'.written
  rw [h.parent] at hwritten'
  refine ⟨h'.parent.trans h.parent, ⟨_, hwritten.trans hwritten'⟩, fun hroot hshown => ?_⟩
  have hroot' : p'.isRoot = true := by rwa [isRoot, h.parent]
  exact h'.root hroot' (h.root hroot hshown)

/-- What has been marked is cached when the section is shown. -/
theorem writes_magitSectionShow_of_marked (hpreserve : o.preserveVisibility = true)
    (hparent : q.parent = p.parent)
    (hmarked : Marked o ((q.sections.setEach false).handled p.parent) p.cache q.cache
      (p.sections.entries p.parent) (q.sections.entries p.parent)) :
    Writes o p (q.magitSectionShow o) := by
  obtain ⟨W, hW, hwritten⟩ := Forest.written_showWith (Forest.washes_washer hpreserve) p.parent
    (q.sections.setEach false) q.cache
  have hset := Forest.marked_setEach (o := o) false p.parent q.sections q.cache
  refine ⟨hparent, ⟨W, ?_⟩, fun _ _ => ?_⟩
  · rw [magitSectionShow, hparent]
    exact (hmarked.trans hset).written hW hwritten
  · rw [hidden, magitSectionShow, Forest.showEach, Forest.anyHidden_showWith,
      Forest.anyHidden_setEach]

theorem writes_magitSectionShow (hpreserve : o.preserveVisibility = true) (p : Place α) :
    Writes o p (p.magitSectionShow o) :=
  writes_magitSectionShow_of_marked hpreserve rfl (Marked.refl _ _)

/-- Something marks children, and then their parent is shown. -/
theorem writes_onChildren_show (hpreserve : o.preserveVisibility = true)
    {action : Ident α → Forest α → Cache α → Forest α × Cache α}
    (haction : ∀ parent f c, Marked o ((action parent f c).1.handled parent) c (action parent f c).2
      (f.entries parent) ((action parent f c).1.entries parent)) (p : Place α) :
    Writes o p ((p.onChildren action).magitSectionShow o) := by
  obtain ⟨parent, sections, cache⟩ := p
  cases sections with
  | nil => exact writes_magitSectionShow hpreserve _
  | unwashed s body rest => exact writes_magitSectionShow hpreserve _
  | node s body rest =>
    refine writes_magitSectionShow_of_marked hpreserve rfl ?_
    have hbody := (haction (s.ident parent) body cache).frame [(s.ident parent, s.hidden)]
      (rest.entries parent)
    refine hbody.mono (List.Subset.trans ?_ (List.subset_cons_self _ _))
    exact List.subset_append_left _ _

/-- Hiding the children writes to the cache. -/
theorem writes_magitSectionHideChildren (p : Place α) :
    Writes o p (p.magitSectionHideChildren o) := by
  obtain ⟨parent, sections, cache⟩ := p
  cases sections with
  | nil => exact Writes.refl _
  | unwashed s body rest => exact Writes.refl _
  | node s body rest =>
    obtain ⟨W, hbody⟩ := Forest.written_hideEach (o := o) (s.ident parent) body cache
    exact ⟨rfl, ⟨W, hbody.frame [(s.ident parent, s.hidden)] (rest.entries parent)⟩, fun _ h => h⟩

/-- Hiding a section writes to the cache. -/
theorem writes_magitSectionHide (h : p.magitSectionHide o = some p') : Writes o p p' := by
  rw [magitSectionHide] at h
  split at h
  · cases h
  · next hroot =>
    obtain rfl := Option.some.inj h
    exact ⟨rfl, Forest.written_hideEach p.parent p.sections p.cache,
      fun hisRoot => absurd hisRoot hroot⟩

/-- Toggling a section writes to the cache. -/
theorem writes_magitSectionToggle (hpreserve : o.preserveVisibility = true)
    (h : p.magitSectionToggle o = some p') : Writes o p p' := by
  rw [magitSectionToggle] at h
  split at h
  · cases h
  split at h
  · obtain rfl := Option.some.inj h
    exact writes_magitSectionShow hpreserve p
  · exact writes_magitSectionHide h

theorem writes_magitSectionToggleChildren (hpreserve : o.preserveVisibility = true) (p : Place α) :
    Writes o p (p.magitSectionToggleChildren o) :=
  writes_onChildren_show hpreserve (fun parent f c => Forest.marked_setEach f.anyHidden parent f c) p

theorem writes_magitSectionShowHeadings (hpreserve : o.preserveVisibility = true) (p : Place α) :
    Writes o p (p.magitSectionShowHeadings o) :=
  writes_onChildren_show hpreserve Forest.marked_showHeadings1 p

theorem writes_magitSectionShowChildren (hpreserve : o.preserveVisibility = true) (p : Place α)
    (depth : Option ℤ) : Writes o p (p.magitSectionShowChildren o depth) :=
  writes_onChildren_show hpreserve
    (fun parent f c => Forest.marked_showChildren1 parent f depth c) p

/-- Cycling a section writes to the cache. -/
theorem writes_magitSectionCycle (hpreserve : o.preserveVisibility = true) {tabNext : Bool}
    (h : p.magitSectionCycle o tabNext = some p') : Writes o p p' := by
  rw [magitSectionCycle] at h
  split at h
  · obtain rfl := Option.some.inj h
    exact Writes.refl p
  split at h
  · obtain rfl := Option.some.inj h
    exact (writes_magitSectionShow hpreserve p).trans (writes_magitSectionHideChildren _)
  split at h
  · obtain rfl := Option.some.inj h
    exact writes_magitSectionShowHeadings hpreserve p
  split at h
  · obtain rfl := Option.some.inj h
    exact writes_magitSectionShowChildren hpreserve p none
  · exact writes_magitSectionHide h

/-- Cycling all sections writes to the cache. -/
theorem writes_magitSectionCycleGlobal (hpreserve : o.preserveVisibility = true) (p : Place α) :
    Writes o p (p.magitSectionCycleGlobal o) := by
  rw [magitSectionCycleGlobal]
  split
  · exact writes_magitSectionShowHeadings hpreserve p
  split
  · exact writes_magitSectionShowChildren hpreserve p none
  · exact writes_magitSectionHideChildren p

end Place

/-! ## Histories of a buffer -/

namespace Forest

/-- What a command on the first section writes, said of all of them. -/
theorem written_append {f : Forest α} {parent : Ident α} {c : Cache α} {p : Place α}
    (h : Place.Writes o ⟨parent, f, c⟩ p) (rest : Forest α) :
    (∃ W, Written o W c p.cache ((f.append rest).entries parent)
        ((p.sections.append rest).entries parent)) ∧
      (parent = [] → (f.append rest).anyHidden = false → (p.sections.append rest).anyHidden = false) := by
  obtain ⟨W, hwritten⟩ := h.written
  refine ⟨⟨W, ?_⟩, fun hroot hshown => ?_⟩
  · rw [entries_append, entries_append]
    exact hwritten.frame [] (rest.entries parent)
  · subst hroot
    rw [anyHidden_append, Bool.or_eq_false_iff] at hshown ⊢
    exact ⟨h.root rfl hshown.1, hshown.2⟩

/-- A command writes what it writes wherever in the tree it is run. -/
theorem written_atPath {command : Place α → Option (Place α)}
    (hcommand : ∀ p p', command p = some p' → Place.Writes o p p') (path : List ℕ)
    (parent : Ident α) (f : Forest α) (c : Cache α) (r : Forest α × Cache α)
    (h : f.atPath command path parent c = some r) :
    (∃ W, Written o W c r.2 (f.entries parent) (r.1.entries parent)) ∧
      (parent = [] → f.anyHidden = false → r.1.anyHidden = false) := by
  fun_induction atPath command path parent f c generalizing r with
  | case1 parent s body rest c =>
    obtain ⟨p, hp, rfl⟩ := Option.map_eq_some_iff.mp h
    exact written_append (hcommand _ _ hp) rest
  | case2 parent s body rest c =>
    obtain ⟨p, hp, rfl⟩ := Option.map_eq_some_iff.mp h
    exact written_append (hcommand _ _ hp) rest
  | case3 i path parent s body rest c ih =>
    obtain ⟨r, hr, rfl⟩ := Option.map_eq_some_iff.mp h
    obtain ⟨⟨W, hwritten⟩, -⟩ := ih r hr
    exact ⟨⟨W, hwritten.frame [(s.ident parent, s.hidden)] (rest.entries parent)⟩, fun _ h => h⟩
  | case4 i path parent s body rest c ih =>
    obtain ⟨r, hr, rfl⟩ := Option.map_eq_some_iff.mp h
    obtain ⟨⟨W, hwritten⟩, hroot⟩ := ih r hr
    have hframed := hwritten.frame [(s.ident parent, s.hidden)] []
    rw [List.append_nil, List.append_nil] at hframed
    refine ⟨⟨W, hframed⟩, fun hparent hshown => ?_⟩
    obtain ⟨hs, hrest⟩ := Bool.or_eq_false_iff.mp hshown
    exact Bool.or_eq_false_iff.mpr ⟨hs, hroot hparent hrest⟩
  | case5 i path parent s body rest c ih =>
    obtain ⟨r, hr, rfl⟩ := Option.map_eq_some_iff.mp h
    obtain ⟨⟨W, hwritten⟩, hroot⟩ := ih r hr
    have hframed := hwritten.frame ((s.ident parent, s.hidden) :: body.entries (s.ident parent)) []
    rw [List.append_nil, List.append_nil] at hframed
    refine ⟨⟨W, hframed⟩, fun hparent hshown => ?_⟩
    obtain ⟨hs, hrest⟩ := Bool.or_eq_false_iff.mp hshown
    exact Bool.or_eq_false_iff.mpr ⟨hs, hroot hparent hrest⟩
  | case6 => cases h

end Forest

namespace State

/-- What is cached is what a section has, and the root is shown. -/
structure Good (o : Options) (s : State α) : Prop where
  covered : ∀ i v, assoc i s.cache = some v → o.covers i = true
  agrees : ∀ i v h, assoc i s.cache = some v → (i, h) ∈ s.tree.entries [] →
    (i, v) ∈ s.tree.entries []
  root : s.tree.anyHidden = false
  rootCached : ∀ i v, i.length = 1 → assoc i s.cache = some v → v = false

variable {s s' : State α}

/-- A state whose sections are in the cache stays good. -/
theorem Good.of_written (hgood : s.Good o) {W : List (Ident α)}
    (h : Written o W s.cache s'.cache (s.tree.entries []) (s'.tree.entries []))
    (hroot : s'.tree.anyHidden = false) : s'.Good o := by
  have hcases : ∀ i, (∃ v, o.covers i = true ∧ assoc i s'.cache = some v ∧
      (i, v) ∈ s'.tree.entries []) ∨
      ((i ∉ W ∨ o.covers i = false) ∧ assoc i s'.cache = assoc i s.cache) := by
    intro i
    by_cases hW : i ∈ W ∧ o.covers i = true
    · obtain ⟨v, hv, hmem⟩ := h.written i hW.1 hW.2
      exact .inl ⟨v, hW.2, hv, hmem⟩
    · have hother : i ∉ W ∨ o.covers i = false :=
        (not_and_or.mp hW).imp_right (Bool.not_eq_true _).mp
      exact .inr ⟨hother, h.others i hother⟩
  refine ⟨fun i v hv => ?_, fun i v hidden hv hmem => ?_, hroot, fun i v hlength hv => ?_⟩
  · rcases hcases i with ⟨-, hcovers, -, -⟩ | ⟨-, heq⟩
    · exact hcovers
    · exact hgood.covered i v (heq ▸ hv)
  · rcases hcases i with ⟨v', -, hv', hmem'⟩ | ⟨hother, heq⟩
    · rw [hv] at hv'
      rwa [Option.some.inj hv']
    · rw [heq] at hv
      have hW : i ∉ W := hother.resolve_right (by rw [hgood.covered i v hv]; exact Bool.noConfusion)
      rcases h.left _ hmem with hnot | hold | hcached
      · exact absurd hnot hW
      · exact (h.kept _ (hgood.agrees i v hidden hv hold)).resolve_left hW
      · rw [hcached v hv]
        exact hmem
  · rcases hcases i with ⟨v', -, hv', hmem⟩ | ⟨-, heq⟩
    · rw [hv] at hv'
      rw [Option.some.inj hv']
      exact Forest.shown_of_length hroot _ hmem hlength
    · exact hgood.rootCached i v hlength (heq ▸ hv)

/-- A command at a path leaves the state good. -/
theorem Good.runAt (hgood : s.Good o) {command : Place α → Option (Place α)}
    (hcommand : ∀ p p', command p = some p' → Place.Writes o p p') {path : List ℕ}
    (h : s.runAt command path = some s') : s'.Good o := by
  obtain ⟨r, hr, rfl⟩ := Option.map_eq_some_iff.mp h
  obtain ⟨⟨W, hwritten⟩, hroot⟩ := Forest.written_atPath hcommand _ _ _ _ r hr
  exact hgood.of_written hwritten (hroot rfl hgood.root)

/-- The same for a command that never signals. -/
theorem Good.runAt_some (hgood : s.Good o) {command : Place α → Place α}
    (hcommand : ∀ p, Place.Writes o p (command p)) {path : List ℕ}
    (h : s.runAt (fun p => some (command p)) path = some s') : s'.Good o :=
  hgood.runAt (fun p _ hp => Option.some.inj hp ▸ hcommand p) h

/-- Showing a level at a path leaves the state good. -/
theorem Good.levelAt (hpreserve : o.preserveVisibility = true) (hgood : s.Good o) {level : ℤ}
    {path : List ℕ} {parent : Option (State α)} (hparent : ∀ s', parent = some s' → s'.Good o)
    (h : s.levelAt o level path parent = some s') : s'.Good o := by
  simp only [State.levelAt] at h
  split at h
  · exact hgood.runAt_some (fun p => Place.writes_magitSectionShowChildren hpreserve p _) h
  split at h
  · exact hgood.runAt (fun _ _ => Place.writes_magitSectionHide) h
  · exact hparent s' h

/-- Showing a level leaves the state good. -/
theorem Good.showLevel (hpreserve : o.preserveVisibility = true) (hgood : s.Good o) {level : ℤ}
    {path : List ℕ} (h : s.showLevel o level path = some s') : s'.Good o := by
  induction path generalizing s' with
  | nil => exact hgood.levelAt hpreserve (fun _ hnone => absurd hnone (Option.some_ne_none _).symm) h
  | cons i parent ih => exact hgood.levelAt hpreserve (fun _ hparent => ih hparent) h

/-- **Every command leaves the state good.** -/
theorem Good.step (hpreserve : o.preserveVisibility = true) (hgood : s.Good o)
    {command : Section.Command} (h : s.step o command = some s') : s'.Good o := by
  cases command with
  | sectionShow path => exact hgood.runAt_some (Place.writes_magitSectionShow hpreserve) h
  | sectionHide path => exact hgood.runAt (fun _ _ => Place.writes_magitSectionHide) h
  | sectionToggle path => exact hgood.runAt (fun _ _ => Place.writes_magitSectionToggle hpreserve) h
  | sectionToggleChildren path =>
    exact hgood.runAt_some (Place.writes_magitSectionToggleChildren hpreserve) h
  | sectionShowChildren path depth =>
    exact hgood.runAt_some (fun p => Place.writes_magitSectionShowChildren hpreserve p depth) h
  | sectionHideChildren path => exact hgood.runAt_some Place.writes_magitSectionHideChildren h
  | sectionShowHeadings path =>
    exact hgood.runAt_some (Place.writes_magitSectionShowHeadings hpreserve) h
  | sectionCycle path tabNext =>
    exact hgood.runAt (fun _ _ => Place.writes_magitSectionCycle hpreserve) h
  | sectionCycleGlobal =>
    exact hgood.runAt_some (Place.writes_magitSectionCycleGlobal hpreserve) h
  | sectionShowLevel path level =>
    rw [State.step] at h
    split at h
    · exact hgood.runAt_some (fun p => Place.writes_magitSectionShowChildren hpreserve p _) h
    · exact hgood.showLevel hpreserve h

end State

/-! ## Refreshing -/

namespace Forest

/-- What has just been inserted has nothing left to be washed where it is shown. -/
theorem showWith_insertPlan (wash : Washer α) (cache : Cache α) (oldroot : Forest α)
    (plan : Plan α) (parent : Ident α) (c : Cache α) :
    showWith { o with cacheVisibility := .types [] } wash parent
        (insertPlan o cache oldroot parent plan) c
      = (insertPlan o cache oldroot parent plan, c) := by
  have hslot : ∀ (parent : Ident α) (s : Slots α) (hidden : Bool),
      cacheSlot { o with cacheVisibility := .types [] } parent s hidden c = c := fun _ _ _ => rfl
  induction plan generalizing parent with
  | nil => rfl
  | cons type value content initial hide later body rest ihbody ih =>
    rw [insertPlan]
    rcases hcreated : createdHidden o cache oldroot ((type, value) :: parent) initial hide with _ | _
    · simp only [Bool.and_false, Bool.false_eq_true, if_false, showWith, hslot]
      rw [Slots.ident, ihbody, ih]
    · rcases later with _ | _
      · simp only [Bool.false_and, Bool.false_eq_true, if_false, if_true, showWith, hslot, ih]
      · simp only [Bool.true_and, if_true, showWith, hslot, ih]

end Forest

/-- What is inserted into an empty buffer. -/
def Plan.root (type : String) (value : α) (content : Bool) (body : Plan α) : Plan α :=
  .cons type value content none false false body .nil

namespace State

variable {s s' : State α}

/-- A refresh of a good state creates what the plan says. -/
theorem Good.refresh_eq (hpreserve : o.preserveVisibility = true) (hgood : s.Good o)
    (type : String) (value : α) (content : Bool) (body : Plan α) :
    s.refresh o type value content body
      = ⟨insertPlan o s.cache s.tree [] (Plan.root type value content body), s.cache⟩ := by
  have hcreated : createdHidden o s.cache s.tree [(type, value)] none false = false := by
    rw [createdHidden_of_preserve hpreserve]
    rcases hcached : assoc [(type, value)] s.cache with _ | cached
    · rfl
    · exact hgood.rootCached _ cached rfl hcached
  have hset : (insertPlan o s.cache s.tree [] (Plan.root type value content body)).setEach false
      = insertPlan o s.cache s.tree [] (Plan.root type value content body) := by
    simp only [Plan.root, insertPlan, hcreated, Bool.and_false, Bool.false_eq_true, if_false,
      Forest.setEach]
  have hshown := Forest.showWith_insertPlan (o := o) (Forest.washer { o with cacheVisibility := .types [] })
    s.cache s.tree (Plan.root type value content body) [] s.cache
  rw [Plan.root] at hset hshown ⊢
  rw [State.refresh, hset, Forest.showEach, hshown]

/-- The entries after a refresh are those that the plan creates. -/
theorem Good.entries_refresh (hpreserve : o.preserveVisibility = true) (hgood : s.Good o)
    (type : String) (value : α) (content : Bool) (body : Plan α) :
    (s.refresh o type value content body).tree.entries []
      = ((Plan.root type value content body).created s.cache []).map
          fun e => (e.1, (assoc e.1 s.cache).getD e.2) := by
  rw [hgood.refresh_eq hpreserve, entries_insertPlan hpreserve]

/-- **A refresh leaves the state good.** -/
theorem Good.refresh (hpreserve : o.preserveVisibility = true) (hgood : s.Good o)
    (type : String) (value : α) (content : Bool) (body : Plan α) :
    (s.refresh o type value content body).Good o := by
  have hentries := hgood.entries_refresh hpreserve type value content body
  rw [hgood.refresh_eq hpreserve] at hentries ⊢
  refine ⟨hgood.covered, fun i v hidden hv hmem => ?_, ?_, hgood.rootCached⟩
  · rw [hentries] at hmem ⊢
    obtain ⟨e, he, heq⟩ := List.mem_map.mp hmem
    obtain ⟨rfl, -⟩ := Prod.mk.inj heq
    refine List.mem_map.mpr ⟨e, he, ?_⟩
    simp only at hv
    rw [hv, Option.getD_some]
  · rw [Plan.root, insertPlan, createdHidden_of_preserve hpreserve]
    rcases hcached : assoc [(type, value)] s.cache with _ | cached
    · rfl
    · rw [hgood.rootCached _ cached rfl hcached]
      rfl

end State

/-- The states of a buffer that is refreshed and in which visibility commands are run. -/
inductive Reached (o : Options) : State α → Prop
  | opened : Reached o ⟨.nil, []⟩
  | command {s s' : State α} (command : Section.Command) (h : Reached o s)
      (hstep : s.step o command = some s') : Reached o s'
  | refreshed {s : State α} (type : String) (value : α) (content : Bool) (body : Plan α)
      (h : Reached o s) : Reached o (s.refresh o type value content body)

/-- **Whatever is cached for a section is what the section has.** -/
theorem Reached.good (hpreserve : o.preserveVisibility = true) {s : State α} (h : Reached o s) :
    s.Good o := by
  induction h with
  | opened =>
    have hnone : ∀ (i : Ident α) (v : Bool), assoc i ([] : Cache α) ≠ some v :=
      fun _ v => (Option.some_ne_none v).symm
    exact ⟨fun i v hv => absurd hv (hnone i v), fun i v _ hv => absurd hv (hnone i v), rfl,
      fun i v _ hv => absurd hv (hnone i v)⟩
  | command command _ hstep ih => exact ih.step hpreserve hstep
  | refreshed type value content body _ ih => exact ih.refresh hpreserve type value content body

/-- Every section that is created anew is as its predecessor was, and one that has none is as it is
cached or else as it falls back to. -/
def Survives (s s' : State α) (created : List (Entry α)) : Prop :=
  List.Forall₂ (fun fallback new : Entry α => new.1 = fallback.1 ∧
      (∀ old ∈ s.tree.entries [], old.1 = new.1 → new.2 = old.2) ∧
      ((∀ old ∈ s.tree.entries [], old.1 ≠ new.1) →
        new.2 = (assoc new.1 s.cache).getD fallback.2))
    created (s'.tree.entries [])

/-- Sections with the identity of one that is created are all of the same visibility, and if nothing
is cached for it that is the one that it falls back to. -/
def Retained (s : State α) (created : List (Entry α)) : Prop :=
  ∀ fallback ∈ created,
    (∀ old ∈ s.tree.entries [], ∀ other ∈ s.tree.entries [],
      old.1 = fallback.1 → other.1 = fallback.1 → old.2 = other.2) ∧
    (assoc fallback.1 s.cache = none →
      ∀ old ∈ s.tree.entries [], old.1 = fallback.1 → old.2 = fallback.2)

/-- **Exactly then does visibility survive a refresh.** -/
theorem survives_refresh_iff (hpreserve : o.preserveVisibility = true) {s : State α}
    (h : Reached o s) (type : String) (value : α) (content : Bool) (body : Plan α) :
    Survives s (s.refresh o type value content body)
        ((Plan.root type value content body).created s.cache [])
      ↔ Retained s ((Plan.root type value content body).created s.cache []) := by
  have hgood := h.good hpreserve
  rw [Survives, hgood.entries_refresh hpreserve, List.forall₂_map_right_iff, List.forall₂_same]
  refine forall₂_congr fun fallback _ => ?_
  refine ⟨fun ⟨_, hsame, _⟩ => ⟨fun old hold other hother heq heq' => ?_, fun hnone old hold heq => ?_⟩,
    fun ⟨hagree, hnone⟩ => ⟨rfl, fun old hold heq => ?_, fun _ => rfl⟩⟩
  · exact (hsame old hold heq).symm.trans (hsame other hother heq')
  · have hfallback := hsame old hold heq
    simp only [hnone, Option.getD_none] at hfallback
    exact hfallback.symm
  · rcases hcached : assoc fallback.1 s.cache with _ | v
    · exact (hnone hcached old hold heq).symm
    · have hmem : (fallback.1, old.2) ∈ s.tree.entries [] := heq ▸ hold
      exact hagree _ (hgood.agrees _ v _ hcached hmem) old hold rfl heq

/-! A file section is hidden, and then its buffer is refreshed. -/

namespace HiddenFile

/-- The section of a file, with nothing below. -/
def file : Plan String := .cons "file" "a" true none false false .nil .nil

/-- The buffer once the file section has been hidden, and what is cached then. -/
def hidden (cache : Cache String) : State String :=
  ⟨.node ⟨"status", "", false, true⟩ (.node ⟨"file", "a", true, true⟩ .nil .nil) .nil, cache⟩

/-- The state of the example is reached. -/
theorem reached_hidden (cacheVisibility : CacheVisibility) (cache : Cache String)
    (h : maybeCacheVisibility ⟨cacheVisibility, true⟩ [("file", "a"), ("status", "")] "file" true []
      = cache) : Reached ⟨cacheVisibility, true⟩ (hidden cache) := by
  subst h
  exact (Reached.opened.refreshed "status" "" true file).command (.sectionHide [0]) rfl

theorem entries_hidden (cache : Cache String) : (hidden cache).tree.entries []
    = [([("status", "")], false), ([("file", "a"), ("status", "")], true)] := rfl

/-- The file is cached, and stays hidden. -/
theorem survives_hidden :
    Survives (hidden [([("file", "a"), ("status", "")], true)])
      ((hidden [([("file", "a"), ("status", "")], true)]).refresh ⟨.all, true⟩ "status" "" true file)
      [([("status", "")], false), ([("file", "a"), ("status", "")], false)] := by
  have hcached : assoc [("file", "a"), ("status", "")]
      (hidden [([("file", "a"), ("status", "")], true)]).cache = some true := rfl
  have hretained : Retained (hidden [([("file", "a"), ("status", "")], true)])
      [([("status", "")], false), ([("file", "a"), ("status", "")], false)] := by
    simp [Retained, entries_hidden, hcached]
  exact (survives_refresh_iff (o := ⟨.all, true⟩) rfl (reached_hidden _ _ rfl) "status" "" true
    file).mpr hretained

/-- Nothing is cached, and the file is shown again. -/
theorem not_survives_hidden :
    Reached ⟨.types [], true⟩ (hidden []) ∧
      ¬Survives (hidden []) ((hidden []).refresh ⟨.types [], true⟩ "status" "" true file)
        ((Plan.root "status" "" true file).created [] []) := by
  have hentries : ((hidden []).refresh ⟨.types [], true⟩ "status" "" true file).tree.entries []
      = [([("status", "")], false), ([("file", "a"), ("status", "")], false)] := rfl
  have hcreated : (Plan.root "status" "" true file).created [] []
      = [([("status", "")], false), ([("file", "a"), ("status", "")], false)] := rfl
  refine ⟨reached_hidden _ _ rfl, ?_⟩
  simp [Survives, hentries, hcreated, entries_hidden]

end HiddenFile

end Magit.Recreation

import Magit.Section.CachedCommands

/-!
# Section/CacheInvariant — what is cached is what some section has

A command writes the visibility of some sections to the cache, in the end as they have it, and leaves
the other sections and what is cached for them alone (`Written`).  So whatever is cached for the
identity of a section in the tree is what a section with that identity has (`State.Agrees`), though
commands set slots before they cache them.
-/

namespace Magit.Recreation

open Emacs

variable {α : Type} [DecidableEq α]

/-- The identity of a section, and its slot `hidden`. -/
abbrev Entry (α : Type) := Ident α × Bool

namespace Forest

/-- All the sections. -/
def entries (parent : Ident α) : Forest α → List (Entry α)
  | nil => []
  | unwashed s _ rest => (s.ident parent, s.hidden) :: entries parent rest
  | node s body rest => (s.ident parent, s.hidden) :: (entries (s.ident parent) body ++ entries parent rest)

/-- The sections that showing them gets to. -/
def handled (parent : Ident α) : Forest α → List (Ident α)
  | nil => []
  | unwashed s _ rest => s.ident parent :: handled parent rest
  | node s body rest =>
    s.ident parent :: ((if s.hidden then [] else handled (s.ident parent) body) ++ handled parent rest)

end Forest

/-- The visibility of sections with that identity is cached. -/
def Options.covers (o : Options) : Ident α → Bool
  | [] => false
  | (type, _) :: _ => o.cacheVisibility.covers type

/-- Caching a slot writes its own key, if the options cover it. -/
theorem assoc_cacheSlot (o : Options) (parent : Ident α) (s : Slots α) (hidden : Bool)
    (c : Cache α) (i : Ident α) :
    assoc i (cacheSlot o parent s hidden c)
      = if s.ident parent = i ∧ o.covers (s.ident parent) = true then some hidden
        else assoc i c := by
  have hcovers : o.covers (s.ident parent) = o.cacheVisibility.covers s.type := rfl
  rw [cacheSlot, maybeCacheVisibility, hcovers]
  by_cases h : o.cacheVisibility.covers s.type = true
  · rw [if_pos h, assoc_setAlistGet]
    simp only [h, and_true]
  · rw [if_neg h, if_neg fun hi => h hi.2]

/-! ## What a command writes -/

section

variable (o : Options)

/-- Sections have been set, and of those whose identity is listed the cache knows what one has. -/
structure Written (W : List (Ident α)) (c c' : Cache α) (L L' : List (Entry α)) : Prop where
  written : ∀ i ∈ W, o.covers i = true → ∃ h, assoc i c' = some h ∧ (i, h) ∈ L'
  others : ∀ i, i ∉ W ∨ o.covers i = false → assoc i c' = assoc i c
  kept : ∀ e ∈ L, e.1 ∈ W ∨ e ∈ L'
  left : ∀ e ∈ L', e.1 ∈ W ∨ e ∈ L ∨ ∀ v, assoc e.1 c = some v → v = e.2

/-- Sections have been set that are yet to be cached. -/
structure Marked (W : List (Ident α)) (c c' : Cache α) (L L' : List (Entry α)) : Prop where
  others : ∀ i, i ∉ W ∨ o.covers i = false → assoc i c' = assoc i c
  kept : ∀ e ∈ L, e.1 ∈ W ∨ e ∈ L'
  left : ∀ e ∈ L', e.1 ∈ W ∨ e ∈ L

variable {o} {W W' : List (Ident α)} {c c' c'' : Cache α} {L L' L'' : List (Entry α)}

theorem Written.refl (c : Cache α) (L : List (Entry α)) : Written o [] c c L L where
  written := by simp
  others _ _ := rfl
  kept _ he := .inr he
  left _ he := .inr (.inl he)

/-- What is written twice is written for both. -/
theorem Written.trans (h : Written o W c c' L L') (h' : Written o W' c' c'' L' L'') :
    Written o (W ++ W') c c'' L L'' where
  written i hi hcovers := by
    by_cases hi' : i ∈ W'
    · exact h'.written i hi' hcovers
    · obtain ⟨v, hv, hmem⟩ := h.written i ((List.mem_append.mp hi).resolve_right hi') hcovers
      exact ⟨v, (h'.others i (.inl hi')).trans hv, (h'.kept _ hmem).resolve_left hi'⟩
  others i hi := by
    simp only [List.mem_append, not_or] at hi
    exact (h'.others i (hi.imp_left And.right)).trans (h.others i (hi.imp_left And.left))
  kept e he := by
    rcases h.kept e he with hW | hL'
    · exact .inl (List.mem_append_left _ hW)
    · exact (h'.kept e hL').imp_left (List.mem_append_right _)
  left e he := by
    by_cases hW : e.1 ∈ W
    · exact .inl (List.mem_append_left _ hW)
    · rcases h'.left e he with hW' | hL' | hcached
      · exact .inl (List.mem_append_right _ hW')
      · exact (h.left e hL').imp_left (List.mem_append_left _)
      · exact .inr (.inr fun v hv => hcached v ((h.others _ (.inl hW)).trans hv))

/-- What is written does not depend on the sections around. -/
theorem Written.frame (h : Written o W c c' L L') (M N : List (Entry α)) :
    Written o W c c' (M ++ (L ++ N)) (M ++ (L' ++ N)) where
  written i hi hcovers := by
    obtain ⟨v, hv, hmem⟩ := h.written i hi hcovers
    exact ⟨v, hv, List.mem_append_right _ (List.mem_append_left _ hmem)⟩
  others := h.others
  kept e he := by
    simp only [List.mem_append] at he ⊢
    rcases he with hM | hL | hN
    · exact .inr (.inl hM)
    · exact (h.kept e hL).imp_right fun hmem => .inr (.inl hmem)
    · exact .inr (.inr (.inr hN))
  left e he := by
    simp only [List.mem_append] at he ⊢
    rcases he with hM | hL | hN
    · exact .inr (.inl (.inl hM))
    · rcases h.left e hL with hW | hmem | hcached
      · exact .inl hW
      · exact .inr (.inl (.inr (.inl hmem)))
      · exact .inr (.inr hcached)
    · exact .inr (.inl (.inr (.inr hN)))

theorem Marked.refl (c : Cache α) (L : List (Entry α)) : Marked o W c c L L where
  others _ _ := rfl
  kept _ he := .inr he
  left _ he := .inr he

theorem Marked.mono (h : Marked o W c c' L L') (hW : W ⊆ W') : Marked o W' c c' L L' where
  others i hi := h.others i (hi.imp_left fun hnot hmem => hnot (hW hmem))
  kept e he := (h.kept e he).imp_left fun hmem => hW hmem
  left e he := (h.left e he).imp_left fun hmem => hW hmem

/-- Marks that are set one after the other. -/
theorem Marked.trans (h : Marked o W c c' L L') (h' : Marked o W c' c'' L' L'') :
    Marked o W c c'' L L'' where
  others i hi := (h'.others i hi).trans (h.others i hi)
  kept e he := (h.kept e he).elim .inl fun hmem => h'.kept e hmem
  left e he := (h'.left e he).elim .inl fun hmem => h.left e hmem

/-- Marks do not depend on the sections around. -/
theorem Marked.frame (h : Marked o W c c' L L') (M N : List (Entry α)) :
    Marked o W c c' (M ++ (L ++ N)) (M ++ (L' ++ N)) where
  others := h.others
  kept e he := by
    simp only [List.mem_append] at he ⊢
    rcases he with hM | hL | hN
    · exact .inr (.inl hM)
    · exact (h.kept e hL).imp_right fun hmem => .inr (.inl hmem)
    · exact .inr (.inr (.inr hN))
  left e he := by
    simp only [List.mem_append] at he ⊢
    rcases he with hM | hL | hN
    · exact .inr (.inl hM)
    · exact (h.left e hL).imp_right fun hmem => .inr (.inl hmem)
    · exact .inr (.inr (.inr hN))

/-- What was marked is written later on. -/
theorem Marked.written (h : Marked o W c c' L L') (hW : W ⊆ W')
    (h' : Written o W' c' c'' L' L'') : Written o W' c c'' L L'' where
  written := h'.written
  others i hi := (h'.others i hi).trans ((h.mono hW).others i hi)
  kept e he := (h.kept e he).elim (fun hmem => .inl (hW hmem)) fun hmem => h'.kept e hmem
  left e he := by
    by_cases hmem : e.1 ∈ W'
    · exact .inl hmem
    · rcases h'.left e he with hW' | hL' | hcached
      · exact .inl hW'
      · exact .inr (.inl ((h.left e hL').resolve_left fun hnot => hmem (hW hnot)))
      · exact .inr (.inr fun v hv => hcached v (((h.mono hW).others _ (.inl hmem)).trans hv))

/-- A single section. -/
theorem written_slot (parent : Ident α) (s : Slots α) (old new : Bool) (c : Cache α) :
    Written o [s.ident parent] c (cacheSlot o parent s new c) [(s.ident parent, old)]
      [(s.ident parent, new)] where
  written i hi hcovers := by
    rw [List.mem_singleton.mp hi] at hcovers ⊢
    exact ⟨new, by rw [assoc_cacheSlot, if_pos ⟨rfl, hcovers⟩], List.mem_singleton_self _⟩
  others i hi := by
    rw [assoc_cacheSlot, if_neg]
    rintro ⟨rfl, hcovers⟩
    rcases hi with hmem | huncovered
    · exact hmem (List.mem_singleton_self _)
    · rw [hcovers] at huncovered
      exact Bool.false_ne_true huncovered.symm
  kept e he := .inl (by rw [List.mem_singleton.mp he]; exact List.mem_singleton_self _)
  left e he := .inl (by rw [List.mem_singleton.mp he]; exact List.mem_singleton_self _)

/-- Setting the mark of a section marks its key. -/
theorem marked_slot (parent : Ident α) (s : Slots α) (old new : Bool) (c : Cache α) :
    Marked o [s.ident parent] c c [(s.ident parent, old)] [(s.ident parent, new)] where
  others _ _ := rfl
  kept e he := .inl (by rw [List.mem_singleton.mp he]; exact List.mem_singleton_self _)
  left e he := .inl (by rw [List.mem_singleton.mp he]; exact List.mem_singleton_self _)

/-- A section may be cached as something else before it is cached for good. -/
theorem marked_cacheSlot (parent : Ident α) (s : Slots α) (old new cached : Bool) (c : Cache α) :
    Marked o [s.ident parent] c (cacheSlot o parent s cached c) [(s.ident parent, old)]
      [(s.ident parent, new)] where
  others := (written_slot parent s old cached c).others
  kept := (marked_slot (o := o) parent s old new c).kept
  left := (marked_slot (o := o) parent s old new c).left

/-- A marked section in front of others. -/
theorem Marked.slot {parent : Ident α} {s : Slots α} {old new : Bool} {R R' : List (Entry α)}
    (h : Marked o [s.ident parent] c c' [(s.ident parent, old)] [(s.ident parent, new)])
    (B : List (Entry α)) (h' : Marked o W c' c'' R R') :
    Marked o (s.ident parent :: W) c c'' ((s.ident parent, old) :: (B ++ R))
      ((s.ident parent, new) :: (B ++ R')) := by
  have hown : [s.ident parent] ⊆ s.ident parent :: W := by simp
  have hslot := (h.frame [] (B ++ R)).mono hown
  have htail := (h'.frame ((s.ident parent, new) :: B) []).mono
    (List.subset_cons_self (s.ident parent) W)
  rw [List.append_nil, List.append_nil] at htail
  exact hslot.trans htail

/-- A marked section with what is done in its body. -/
theorem Marked.slotBody {c₃ : Cache α} {parent : Ident α} {s : Slots α} {old new : Bool}
    {B B' R R' : List (Entry α)} {W₁ W₂ : List (Ident α)}
    (h : Marked o [s.ident parent] c c' [(s.ident parent, old)] [(s.ident parent, new)])
    (hbody : Marked o W₁ c' c'' B B') (hrest : Marked o W₂ c'' c₃ R R') :
    Marked o (s.ident parent :: (W₁ ++ W₂)) c c₃ ((s.ident parent, old) :: (B ++ R))
      ((s.ident parent, new) :: (B' ++ R')) := by
  have hbody' := (hbody.mono (List.subset_append_left W₁ W₂)).frame [] R
  have hrest' := (hrest.mono (List.subset_append_right W₁ W₂)).frame B' []
  rw [List.append_nil, List.append_nil] at hrest'
  exact h.slot [] (hbody'.trans hrest')

/-- A section is set and its body left alone; then come the sections behind it. -/
theorem Written.slot {parent : Ident α} {s : Slots α} {new : Bool} {R R' : List (Entry α)}
    (h : Written o W (cacheSlot o parent s new c) c' R R') (old : Bool) (B : List (Entry α)) :
    Written o (s.ident parent :: W) c c' ((s.ident parent, old) :: (B ++ R))
      ((s.ident parent, new) :: (B ++ R')) := by
  have hslot := (written_slot (o := o) parent s old new c).frame [] (B ++ R)
  have htail := h.frame ((s.ident parent, new) :: B) []
  rw [List.append_nil, List.append_nil] at htail
  exact hslot.trans htail

/-- A section is set, then what is in its body, and then the sections behind it. -/
theorem Written.slotBody {parent : Ident α} {s : Slots α} {new : Bool} {B B' R R' : List (Entry α)}
    (h : Written o W (cacheSlot o parent s new c) c' ((s.ident parent, new) :: B)
      ((s.ident parent, new) :: B')) (h' : Written o W' c' c'' R R') (old : Bool) :
    Written o (s.ident parent :: (W ++ W')) c c'' ((s.ident parent, old) :: (B ++ R))
      ((s.ident parent, new) :: (B' ++ R')) := by
  have hslot := (written_slot (o := o) parent s old new c).frame [] (B ++ R)
  have hbody := h.frame [] R
  have htail := h'.frame ((s.ident parent, new) :: B') []
  rw [List.append_nil, List.append_nil] at htail
  exact hslot.trans (hbody.trans htail)

/-! ## Hiding and showing -/

namespace Forest

/-- Hiding each section writes their keys. -/
theorem written_hideEach (parent : Ident α) (f : Forest α) (c : Cache α) :
    ∃ W, Written o W c (hideEach o parent f c).2 (entries parent f)
      (entries parent (hideEach o parent f c).1) := by
  induction f generalizing c with
  | nil => exact ⟨[], Written.refl c _⟩
  | unwashed s body rest ih =>
    obtain ⟨W, hrest⟩ := ih (cacheSlot o parent s true c)
    exact ⟨_, hrest.slot s.hidden []⟩
  | node s body rest _ ih =>
    obtain ⟨W, hrest⟩ := ih (cacheSlot o parent s true c)
    exact ⟨_, hrest.slot s.hidden (entries (s.ident parent) body)⟩

/-- What a washer has to leave behind: the section it belongs to is cached already. -/
def Washes (o : Options) (wash : Washer α) : Prop :=
  ∀ (ident : Ident α) (body : Plan α) (c c' : Cache α),
    (∀ i, i ≠ ident → assoc i c' = assoc i c) →
    (o.covers ident = true → assoc ident c' = some false) →
    ∃ W, Written o W c' (wash ident body c c').2 [(ident, false)]
      ((ident, false) :: entries ident (wash ident body c c').1)

theorem washes_fresh : Washes o (fresh : Washer α) :=
  fun _ _ _ c' _ _ => ⟨[], Written.refl c' _⟩

/-- **Showing sections caches those that it gets to.** -/
theorem written_showWith {wash : Washer α} (hwash : Washes o wash) (parent : Ident α) (f : Forest α)
    (c : Cache α) :
    ∃ W, handled parent f ⊆ W ∧ Written o W c (showWith o wash parent f c).2 (entries parent f)
      (entries parent (showWith o wash parent f c).1) := by
  induction f generalizing parent c with
  | nil => exact ⟨[], List.nil_subset _, Written.refl c _⟩
  | unwashed s body rest ih =>
    rw [handled, entries, showWith]
    rcases hhidden : s.hidden with _ | _
    · simp only [Bool.false_eq_true, if_false, entries]
      have hothers : ∀ i, i ≠ s.ident parent →
          assoc i (cacheSlot o parent s false c) = assoc i c := by
        intro i hi
        rw [assoc_cacheSlot, if_neg fun heq => hi heq.1.symm]
      have hown : o.covers (s.ident parent) = true →
          assoc (s.ident parent) (cacheSlot o parent s false c) = some false := by
        intro hcovers
        rw [assoc_cacheSlot, if_pos ⟨rfl, hcovers⟩]
      obtain ⟨W, hbody⟩ := hwash (s.ident parent) body c (cacheSlot o parent s false c) hothers hown
      obtain ⟨W', hW', hrest⟩ :=
        ih parent (wash (s.ident parent) body c (cacheSlot o parent s false c)).2
      refine ⟨_, ?_, hbody.slotBody (B := []) hrest false⟩
      exact List.cons_subset_cons _ (List.Subset.trans hW' (List.subset_append_right W W'))
    · simp only [if_true, entries, hhidden]
      obtain ⟨W, hW, hrest⟩ := ih parent (cacheSlot o parent s true c)
      exact ⟨_, List.cons_subset_cons _ hW, hrest.slot true []⟩
  | node s body rest ihbody ih =>
    rw [handled, entries, showWith]
    rcases hhidden : s.hidden with _ | _
    · simp only [Bool.false_eq_true, if_false, entries, hhidden]
      obtain ⟨W, hW, hbody⟩ := ihbody (s.ident parent) (cacheSlot o parent s false c)
      obtain ⟨W', hW', hrest⟩ :=
        ih parent (showWith o wash (s.ident parent) body (cacheSlot o parent s false c)).2
      have hframed := hbody.frame [(s.ident parent, false)] []
      rw [List.append_nil, List.append_nil] at hframed
      refine ⟨_, ?_, hframed.slotBody hrest false⟩
      exact List.cons_subset_cons _ (List.append_subset.mpr
        ⟨List.Subset.trans hW (List.subset_append_left W W'),
          List.Subset.trans hW' (List.subset_append_right W W')⟩)
    · simp only [if_true, entries, hhidden, List.nil_append]
      obtain ⟨W, hW, hrest⟩ := ih parent (cacheSlot o parent s true c)
      exact ⟨_, List.cons_subset_cons _ hW, hrest.slot true (entries (s.ident parent) body)⟩

/-! ## Setting slots first -/

/-- Setting each section marks all of them. -/
theorem marked_setEach (hidden : Bool) (parent : Ident α) (f : Forest α) (c : Cache α) :
    Marked o (handled parent (setEach hidden f)) c c (entries parent f)
      (entries parent (setEach hidden f)) := by
  induction f with
  | nil => exact Marked.refl c _
  | unwashed s body rest ih =>
    exact (marked_slot parent s s.hidden hidden c).slot [] ih
  | node s body rest _ ih =>
    exact (marked_slot parent s s.hidden hidden c).slot (entries (s.ident parent) body)
      (ih.mono (List.subset_append_right _ _))

/-- Showing the headings marks what it handles. -/
theorem marked_showHeadings1 (parent : Ident α) (f : Forest α) (c : Cache α) :
    Marked o (handled parent (showHeadings1 f)) c c (entries parent f)
      (entries parent (showHeadings1 f)) := by
  induction f generalizing parent with
  | nil => exact Marked.refl c _
  | unwashed s body rest ih =>
    exact (marked_slot parent s s.hidden false c).slot [] (ih parent)
  | node s body rest ihbody ih =>
    by_cases hbody : (body.hasChildren || !s.content) = true
    · simp only [showHeadings1, if_pos hbody]
      exact (marked_slot parent s s.hidden false c).slotBody (ihbody (s.ident parent)) (ih parent)
    · simp only [showHeadings1, if_neg hbody]
      exact (marked_slot parent s s.hidden false c).slotBody (Marked.refl c _) (ih parent)

/-- Showing the children marks what it handles. -/
theorem marked_showChildren1 (parent : Ident α) (f : Forest α) (depth : Option ℤ) (c : Cache α) :
    Marked o (handled parent (showChildren1 o parent f depth c).1) c
      (showChildren1 o parent f depth c).2 (entries parent f)
      (entries parent (showChildren1 o parent f depth c).1) := by
  induction f generalizing parent depth c with
  | nil => exact Marked.refl c _
  | unwashed s body rest ih =>
    simp only [showChildren1]
    by_cases hnone : (Section.Sections.childDepth depth).isNone = true
    · simp only [if_pos hnone]
      exact (marked_cacheSlot parent s s.hidden _ true c).slot [] (ih parent depth _)
    · simp only [if_neg hnone]
      exact (marked_slot parent s s.hidden _ c).slot [] (ih parent depth _)
  | node s body rest ihbody ih =>
    rw [showChildren1]
    rcases Section.Sections.childDepth depth with _ | deeper
    · exact (marked_cacheSlot parent s s.hidden _ true c).slot (entries (s.ident parent) body)
        ((ih parent depth _).mono (List.subset_append_right _ _))
    · exact (marked_slot parent s s.hidden false c).slotBody
        (ihbody (s.ident parent) deeper c) (ih parent depth _)

/-! ## Creating sections -/

end Forest

/-- The sections that are created, each with the visibility that it falls back to.  A body that is
left to a washer is created if its section is going to be shown. -/
def Plan.created (c : Cache α) (parent : Ident α) : Plan α → List (Entry α)
  | nil => []
  | cons type value _ initial hide later body rest =>
    let ident := (type, value) :: parent
    let washed := !later || !(assoc ident c).getD (initial.getD hide)
    (ident, initial.getD hide)
      :: ((if washed then created c ident body else []) ++ created c parent rest)

/-- What a plan creates is below its parent. -/
theorem Plan.length_of_mem_created (c : Cache α) (parent : Ident α) (plan : Plan α) :
    ∀ e ∈ plan.created c parent, parent.length < e.1.length := by
  induction plan generalizing parent with
  | nil => intro e he; cases he
  | cons type value content initial hide later body rest ihbody ih =>
    intro e he
    simp only [created, List.mem_cons, List.mem_append] at he
    rcases he with rfl | hbody | hrest
    · exact Nat.lt_succ_self _
    · split at hbody
      · exact Nat.lt_trans (Nat.lt_succ_self _) (ihbody _ e hbody)
      · cases hbody
    · exact ih parent e hrest

/-- With the option to preserve, a section is created as cached, then as asked for. -/
theorem createdHidden_of_preserve (hpreserve : o.preserveVisibility = true) (oldroot : Forest α)
    (ident : Ident α) (initial : Option Bool) (hide : Bool) :
    createdHidden o c oldroot ident initial hide = (assoc ident c).getD (initial.getD hide) := by
  rw [createdHidden, cachedVisibility, if_pos hpreserve]
  rcases assoc ident c with _ | cached
  · simp only [hpreserve, if_true, Option.getD_none]
  · rfl

/-- **What is cached decides, and the tree that is replaced does not matter.** -/
theorem entries_insertPlan (hpreserve : o.preserveVisibility = true) (oldroot : Forest α)
    (parent : Ident α) (plan : Plan α) :
    (insertPlan o c oldroot parent plan).entries parent
      = (plan.created c parent).map fun e => (e.1, (assoc e.1 c).getD e.2) := by
  induction plan generalizing parent with
  | nil => rfl
  | cons type value content initial hide later body rest ihbody ih =>
    simp only [insertPlan, createdHidden_of_preserve hpreserve, Plan.created]
    by_cases hlater :
        (later && (assoc ((type, value) :: parent) c).getD (initial.getD hide)) = true
    · have hwashed : ¬(!later || !(assoc ((type, value) :: parent) c).getD (initial.getD hide))
          = true := by
        rw [← Bool.not_and, hlater]
        exact Bool.false_ne_true
      rw [if_pos hlater, if_neg hwashed, Forest.entries, ih parent]
      rfl
    · have hwashed : (!later || !(assoc ((type, value) :: parent) c).getD (initial.getD hide))
          = true := by
        rw [← Bool.not_and, eq_false_of_ne_true hlater]
        rfl
      rw [if_neg hlater, if_pos hwashed, Forest.entries, ih parent, List.map_cons, List.map_append,
        ← ihbody ((type, value) :: parent)]
      rfl

namespace Forest

/-- What a washer inserts is as it is cached. -/
theorem washes_washer (hpreserve : o.preserveVisibility = true) : Washes o (washer o : Washer α) := by
  intro ident body c c' hothers _
  obtain ⟨W, -, hshown⟩ :=
    written_showWith (o := o) washes_fresh ident (insertPlan o c nil ident body) c'
  have hframed := hshown.frame [(ident, false)] []
  rw [List.append_nil, List.append_nil] at hframed
  refine ⟨[] ++ W, Written.trans ⟨by simp, fun _ _ => rfl, ?_, ?_⟩ hframed⟩
  · intro e he
    exact .inr (List.mem_append_left _ he)
  · intro e he
    rcases List.mem_append.mp he with hown | hbody
    · exact .inr (.inl hown)
    · rw [entries_insertPlan hpreserve] at hbody
      obtain ⟨e, hcreated, rfl⟩ := List.mem_map.mp hbody
      have hlength := Plan.length_of_mem_created c ident body e hcreated
      have hne : e.1 ≠ ident := fun heq => Nat.lt_irrefl _ (heq ▸ hlength)
      refine .inr (.inr fun v hv => ?_)
      rw [hothers _ hne] at hv
      simp only [hv, Option.getD_some]

end Forest

end

end Magit.Recreation

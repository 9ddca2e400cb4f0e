import Magit.Section.Layout

/-!
# Section/Frames — the sections that are being inserted

At any time some sections have been begun, each inside the one before, and each goes on to the end
of the buffer.  `Sim` relates the buffer to what has been inserted into each of them.
-/

namespace Magit.Insertion

open Emacs Propertied

/-- A section that has been begun. -/
structure Frame where
  id : ℕ
  content : Option ℕ
  body : Body

/-- The text that leads up to the end of the innermost one, which comes first. -/
def textOf (initial : Propertied ℕ) : List Frame → Propertied ℕ
  | [] => initial
  | f :: rest => textOf initial rest ++ f.body.cells none

/-- The order in which children are kept, as long as the section is not finished. -/
def Settings.order (σ : Settings) (ids : List ℕ) : List ℕ :=
  if σ.insertInReverse = true then ids.reverse else ids

/-- The slots of a section that has been begun. -/
def opened (σ : Settings) (parent : Option ℕ) (start : ℕ) (f : Frame) : Section where
  parent := parent
  start := ⟨start, false⟩
  content := f.content.map fun k => ⟨start + k, false⟩
  fin := none
  children := σ.order f.body.ids

/-- The heading ends somewhere in the text, and if it has a placeholder, which is followed by at
least one more character, then that is in text of the section's own. -/
def Frame.CountsOwn (σ : Settings) (text : Propertied ℕ) (start : ℕ) (f : Frame) : Prop :=
  ∀ k ∈ f.content, k ≤ f.body.size ∧
    (σ.showChildCount = true → ∀ h ∈ placeholder text (start + k), ∃ front c c' chars back,
      f.body = front ++ .char c (.char c' (.ofChars chars)) ++ back ∧
        h.pos (start + k) = start + front.size ∧ k = front.size + 2 + chars.length)

/-- The slots of the sections that have been begun hold what they should. -/
def Opened (σ : Settings) (initial : Propertied ℕ) (sections : List Section) : List Frame → Prop
  | [] => True
  | f :: rest =>
    let start := (textOf initial rest).length + 1
    sections[f.id]? = some (opened σ (rest.head?.map Frame.id) start f) ∧
      f.CountsOwn σ (textOf initial (f :: rest)) start ∧ Placed sections f.id start f.body ∧
      Opened σ initial sections rest

/-- A section is a child of its parent once it is finished, except one that is about to be. -/
structure Linked (pending : Option ℕ) (sections : List Section) : Prop where
  ofChild : ∀ {i j : ℕ} {s : Section}, sections[i]? = some s → j ∈ s.children →
    ∃ s' : Section, sections[j]? = some s' ∧ s'.parent = some i ∧ s'.fin ≠ none
  ofParent : ∀ {i j : ℕ} {s' : Section}, sections[j]? = some s' → s'.parent = some i →
    s'.fin ≠ none → pending = some j ∨ ∃ s : Section, sections[i]? = some s ∧ j ∈ s.children

/-- The buffer is what has been inserted into the sections that have been begun. -/
structure Sim (σ : Settings) (initial : Propertied ℕ) (b : Buffer) (stack : List Frame) : Prop where
  text : b.text = textOf initial stack
  sections : Opened σ initial b.sections stack
  nodup : (stack.map Frame.id).Nodup
  root : b.root = stack.getLast?.map Frame.id
  linked : Linked none b.sections

section

variable {σ : Settings} {initial : Propertied ℕ} {sections sections' : List Section}
  {stack : List Frame}

/-- The order has the same children. -/
theorem mem_order (ids : List ℕ) (i : ℕ) : i ∈ σ.order ids ↔ i ∈ ids := by
  unfold Settings.order
  split
  · exact List.mem_reverse
  · exact Iff.rfl

/-- Every open section is one of the buffer's. -/
theorem Opened.lt_length (h : Opened σ initial sections stack) :
    ∀ i ∈ stack.map Frame.id, i < sections.length := by
  induction stack with
  | nil => exact fun i hi => absurd hi List.not_mem_nil
  | cons f rest ih =>
    intro i hi
    rcases List.mem_cons.mp hi with rfl | hi
    · exact (List.getElem?_eq_some_iff.mp h.1).1
    · exact ih h.2.2.2 i hi

/-- What is not finished and has not been begun may change. -/
theorem Opened.of_same (h : Opened σ initial sections stack)
    (hsame : ∀ (i : ℕ) (s : Section), sections[i]? = some s → s.fin ≠ none ∨ i ∈ stack.map Frame.id →
      sections'[i]? = some s) :
    Opened σ initial sections' stack := by
  induction stack with
  | nil => trivial
  | cons f rest ih =>
    obtain ⟨hrecord, hcounts, hplaced, hrest⟩ := h
    exact ⟨hsame _ _ hrecord (.inr List.mem_cons_self), hcounts,
      hplaced.of_closed fun i s hi hfin => hsame i s hi (.inl hfin),
      ih hrest fun i s hi hs => hsame i s hi (hs.imp_right (List.mem_cons_of_mem _))⟩

/-- The text behind changes. -/
theorem Opened.before (h : Opened σ initial sections stack) {f : Marker → Marker} {beg fin fin' : ℕ}
    (hf : Marker.Within f beg fin fin') (hbeg : (textOf initial stack).length + 1 ≤ beg) :
    Opened σ initial (sections.map (·.move f)) stack := by
  induction stack with
  | nil => trivial
  | cons g rest ih =>
    obtain ⟨hrecord, hcounts, hplaced, hrest⟩ := h
    rw [textOf, List.length_append, Body.length_cells] at hbeg
    refine ⟨?_, hcounts, hplaced.before hf (by omega), ih hrest (by omega)⟩
    have hmarks : ∀ k ≤ g.body.size, f ⟨(textOf initial rest).length + 1 + k, false⟩
        = ⟨(textOf initial rest).length + 1 + k, false⟩ := by
      intro k hk
      refine hf.before _ ?_
      rcases Nat.lt_or_eq_of_le (show (textOf initial rest).length + 1 + k ≤ beg by omega) with h | h
      · exact .inl h
      · exact .inr ⟨h, rfl⟩
    have hstart := hmarks 0 (Nat.zero_le _)
    rw [Nat.add_zero] at hstart
    rw [List.getElem?_map, hrecord]
    simp only [Option.map_some, opened, Section.move, hstart, Option.map_none, Option.map_map]
    congr 2
    cases hcontent : g.content with
    | none => rfl
    | some k => exact congrArg some (hmarks k (hcounts k hcontent).1)

/-! ## Parents and children -/

/-- What the links are about; the order of the children does not matter. -/
def Section.kin (s : Section) : Option ℕ × Bool × (ℕ → Prop) :=
  (s.parent, s.fin.isSome, (· ∈ s.children))

/-- Two sections have the same kin exactly if parent, children and being finished agree. -/
theorem kin_eq_iff {s s' : Section} : s.kin = s'.kin ↔
    s.parent = s'.parent ∧ (s.fin ≠ none ↔ s'.fin ≠ none) ∧
      ∀ j, j ∈ s.children ↔ j ∈ s'.children := by
  rw [Section.kin, Section.kin, Prod.mk.injEq, Prod.mk.injEq, Bool.eq_iff_iff,
    Option.isSome_iff_ne_none, Option.isSome_iff_ne_none, funext_iff]
  simp only [eq_iff_iff]

/-- Only the kin of the sections matters for the links. -/
theorem Linked.of_kin {pending : Option ℕ} (h : Linked pending sections)
    (hkin : ∀ i : ℕ, sections'[i]?.map Section.kin = sections[i]?.map Section.kin) :
    Linked pending sections' := by
  have hold : ∀ {i : ℕ} {s' : Section}, sections'[i]? = some s' →
      ∃ s, sections[i]? = some s ∧ s.kin = s'.kin := by
    intro i s' hs'
    have hi := hkin i
    rw [hs', Option.map_some] at hi
    simpa using hi.symm
  have hnew : ∀ {i : ℕ} {s : Section}, sections[i]? = some s →
      ∃ s', sections'[i]? = some s' ∧ s'.kin = s.kin := by
    intro i s hs
    have hi := hkin i
    rw [hs, Option.map_some] at hi
    simpa using hi
  constructor
  · intro i j s' hs' hj
    obtain ⟨s, hs, hk⟩ := hold hs'
    obtain ⟨t, ht, hparent, hfin⟩ := h.ofChild hs (((kin_eq_iff.mp hk).2.2 j).mpr hj)
    obtain ⟨t', ht', hk'⟩ := hnew ht
    rw [kin_eq_iff] at hk'
    exact ⟨t', ht', hk'.1.trans hparent, hk'.2.1.mpr hfin⟩
  · intro i j t' ht' hparent hfin
    obtain ⟨t, ht, hk⟩ := hold ht'
    rw [kin_eq_iff] at hk
    refine (h.ofParent ht (hk.1.trans hparent) (hk.2.1.mpr hfin)).imp_right ?_
    rintro ⟨s, hs, hj⟩
    obtain ⟨s', hs', hk'⟩ := hnew hs
    exact ⟨s', hs', ((kin_eq_iff.mp hk').2.2 j).mpr hj⟩

/-- A change that keeps the kin keeps the links. -/
theorem Linked.modify {pending : Option ℕ} (h : Linked pending sections) (i : ℕ)
    {g : Section → Section} (hg : ∀ s, (g s).kin = s.kin) :
    Linked pending (sections.modify i g) := by
  refine h.of_kin fun j => ?_
  rw [List.getElem?_modify]
  cases sections[j]? with
  | none => rfl
  | some s =>
    simp only [Option.map_eq_map, Option.map_some]
    split
    · rw [hg]
    · rfl

/-- Moving the markers keeps the links. -/
theorem Linked.move {pending : Option ℕ} (h : Linked pending sections) (f : Marker → Marker) :
    Linked pending (sections.map (·.move f)) := by
  refine h.of_kin fun i => ?_
  rw [List.getElem?_map, Option.map_map]
  congr 1
  funext s
  simp [Section.kin, Section.move]

/-- A section that is begun has no children yet. -/
theorem Linked.create {pending : Option ℕ} (h : Linked pending sections) {s : Section}
    (hchildren : s.children = []) (hfin : s.fin = none) : Linked pending (sections ++ [s]) := by
  have hcases : ∀ {i : ℕ} {t : Section}, (sections ++ [s])[i]? = some t →
      sections[i]? = some t ∨ t = s := by
    intro i t ht
    rcases Nat.lt_or_ge i sections.length with hlt | hge
    · rw [List.getElem?_append_left hlt] at ht
      exact .inl ht
    · rw [List.getElem?_append_right hge] at ht
      exact .inr (List.mem_singleton.mp (List.mem_of_getElem? ht))
  have hold : ∀ {i : ℕ} {t : Section}, sections[i]? = some t →
      (sections ++ [s])[i]? = some t := fun hi => by
    rw [List.getElem?_append_left (List.getElem?_eq_some_iff.mp hi).1, hi]
  constructor
  · intro i j t ht hj
    rcases hcases ht with ht | rfl
    · obtain ⟨t', ht', hparent⟩ := h.ofChild ht hj
      exact ⟨t', hold ht', hparent⟩
    · rw [hchildren] at hj
      exact absurd hj List.not_mem_nil
  · intro i j t ht hparent hfin'
    rcases hcases ht with ht | rfl
    · exact (h.ofParent ht hparent hfin').imp_right fun ⟨s, hs, hj⟩ => ⟨s, hold hs, hj⟩
    · exact absurd hfin hfin'

/-- A section is about to be finished: its end is set. -/
theorem Linked.close (h : Linked none sections) (i p : ℕ) :
    Linked (some i) (sections.modify i (·.close p)) := by
  have hnew : ∀ {j : ℕ} {s : Section}, sections[j]? = some s →
      ∃ s', (sections.modify i (·.close p))[j]? = some s' ∧ s'.parent = s.parent ∧
        s'.children = s.children ∧ (s.fin ≠ none → s'.fin ≠ none) := by
    intro j s hs
    rw [List.getElem?_modify, hs]
    refine ⟨_, rfl, ?_⟩
    dsimp only
    split
    · exact ⟨rfl, rfl, nofun⟩
    · exact ⟨rfl, rfl, id⟩
  have hold : ∀ {j : ℕ} {s' : Section}, (sections.modify i (·.close p))[j]? = some s' →
      ∃ s, sections[j]? = some s ∧ s.parent = s'.parent ∧ s.children = s'.children ∧
        (s'.fin ≠ none → i = j ∨ s.fin ≠ none) := by
    intro j s' hs'
    rw [List.getElem?_modify] at hs'
    obtain ⟨s, hs, rfl⟩ := Option.map_eq_some_iff.mp hs'
    refine ⟨s, hs, ?_⟩
    split
    · next heq => exact ⟨rfl, rfl, fun _ => .inl heq⟩
    · exact ⟨rfl, rfl, .inr⟩
  constructor
  · intro j k s' hs' hk
    obtain ⟨s, hs, -, hchildren, -⟩ := hold hs'
    obtain ⟨t, ht, hparent, hfin⟩ := h.ofChild hs (hchildren ▸ hk)
    obtain ⟨t', ht', hparent', -, hfin'⟩ := hnew ht
    exact ⟨t', ht', hparent'.trans hparent, hfin' hfin⟩
  · intro j k t' ht' hparent hfin
    obtain ⟨t, ht, hparent', -, hfin'⟩ := hold ht'
    rcases hfin' hfin with rfl | hfin'
    · exact .inl rfl
    · refine .inr ?_
      obtain hnone | ⟨s, hs, hk⟩ := h.ofParent ht (hparent'.trans hparent) hfin'
      · cases hnone
      · obtain ⟨s', hs', -, hchildren, -⟩ := hnew hs
        exact ⟨s', hs', hchildren ▸ hk⟩

/-- It becomes a child of its parent. -/
theorem Linked.addChild {i parent : ℕ} (h : Linked (some i) sections) {s : Section}
    (hs : sections[i]? = some s) (hparent : s.parent = some parent) (hfin : s.fin ≠ none)
    {sp : Section} (hsp : sections[parent]? = some sp) {g : Section → Section}
    (hg : ∀ s : Section, (g s).parent = s.parent ∧ (g s).fin = s.fin ∧
      ∀ j, j ∈ (g s).children ↔ j ∈ s.children ∨ j = i) :
    Linked none (sections.modify parent g) := by
  have hnew : ∀ {j : ℕ} {s : Section}, sections[j]? = some s →
      ∃ s', (sections.modify parent g)[j]? = some s' ∧ s'.parent = s.parent ∧ s'.fin = s.fin ∧
        ∀ k, k ∈ s.children → k ∈ s'.children := by
    intro j s hs
    rw [List.getElem?_modify, hs]
    refine ⟨_, rfl, ?_⟩
    dsimp only
    split
    · exact ⟨(hg s).1, (hg s).2.1, fun k hk => ((hg s).2.2 k).mpr (.inl hk)⟩
    · exact ⟨rfl, rfl, fun k hk => hk⟩
  have hold : ∀ {j : ℕ} {s' : Section}, (sections.modify parent g)[j]? = some s' →
      ∃ s, sections[j]? = some s ∧ s.parent = s'.parent ∧ s.fin = s'.fin ∧
        ∀ k, k ∈ s'.children → k ∈ s.children ∨ (parent = j ∧ k = i) := by
    intro j s' hs'
    rw [List.getElem?_modify] at hs'
    obtain ⟨s, hs, rfl⟩ := Option.map_eq_some_iff.mp hs'
    refine ⟨s, hs, ?_⟩
    split
    · next heq =>
      exact ⟨(hg s).1.symm, (hg s).2.1.symm, fun k hk =>
        (((hg s).2.2 k).mp hk).imp_right fun hki => ⟨heq, hki⟩⟩
    · exact ⟨rfl, rfl, fun k hk => .inl hk⟩
  constructor
  · intro j k t' ht' hk
    obtain ⟨t, ht, -, -, hchildren⟩ := hold ht'
    obtain ⟨u, hu, huparent, hufin⟩ : ∃ u : Section, sections[k]? = some u ∧ u.parent = some j ∧
        u.fin ≠ none := by
      rcases hchildren k hk with hk | ⟨rfl, rfl⟩
      · exact h.ofChild ht hk
      · exact ⟨s, hs, hparent, hfin⟩
    obtain ⟨u', hu', huparent', hufin', -⟩ := hnew hu
    exact ⟨u', hu', huparent'.trans huparent, hufin' ▸ hufin⟩
  · intro j k t' ht' htparent htfin
    obtain ⟨t, ht, htparent', htfin', -⟩ := hold ht'
    refine .inr ?_
    rcases h.ofParent ht (htparent'.trans htparent) (htfin' ▸ htfin) with hpending | ⟨u, hu, hk⟩
    · cases hpending
      cases hs.symm.trans ht
      cases hparent.symm.trans (htparent'.trans htparent)
      exact ⟨g sp, by rw [List.getElem?_modify_eq, hsp]; rfl, ((hg sp).2.2 i).mpr (.inr rfl)⟩
    · obtain ⟨u', hu', -, -, hchildren⟩ := hnew hu
      exact ⟨u', hu', hchildren k hk⟩

end

end Magit.Insertion

import Magit.Section.InsertFinish
import Magit.Section.InsertedTree

/-!
# Section/Reached — what holds at any time while sections are inserted

Some sections have been begun, each in the one before.  Whatever the headings are like, a finished
section is inside one of them, or the section it was in has been canceled, and then no text is left
to it: it starts at the end of the buffer, and stays there (`Grown.inTree`).
-/

namespace Magit.Insertion

open Emacs Propertied

/-- The states that the forms lead to; the sections that have been begun come innermost first. -/
inductive Reached (σ : Settings) : Buffer → List ℕ → Prop
  | root (initial : List Char) : Reached σ
      { (Buffer.mk (plain initial) [] none).magitInsertSectionCreate none with root := some 0 } [0]
  | insert {b : Buffer} {stack : List ℕ} (text : List Char) (h : Reached σ b stack) :
      Reached σ (b.insert text) stack
  | insertHeading {b : Buffer} {current : ℕ} {rest : List ℕ} (count : Option Count)
      (heading : List Char) (h : Reached σ b (current :: rest)) :
      Reached σ (b.magitInsertHeading σ current count heading) (current :: rest)
  | cancelNot {b b' : Buffer} {current : ℕ} {rest : List ℕ} {ifEmpty : Bool}
      (h : Reached σ b (current :: rest)) (hb' : b.magitCancelSection current ifEmpty = .ok b') :
      Reached σ b' (current :: rest)
  | cancel {b b' : Buffer} {current : ℕ} {rest : List ℕ} {ifEmpty : Bool}
      (h : Reached σ b (current :: rest)) (hb' : b.magitCancelSection current ifEmpty = .error b') :
      Reached σ b' rest
  | create {b : Buffer} {current : ℕ} {rest : List ℕ} (h : Reached σ b (current :: rest)) :
      Reached σ (b.magitInsertSectionCreate (some current))
        (b.sections.length :: current :: rest)
  | finish {b : Buffer} {obj current : ℕ} {rest : List ℕ}
      (h : Reached σ b (obj :: current :: rest)) :
      Reached σ (b.magitInsertSectionFinish σ obj) (current :: rest)

/-- **Forms lead to reached states.** -/
theorem reached_run {σ : Settings} (forms : Forms) : ∀ {b : Buffer} {current : ℕ} {rest : List ℕ},
    Reached σ b (current :: rest) →
      (∃ b', run σ forms current b = .ok b' ∧ Reached σ b' (current :: rest)) ∨
        ∃ b', run σ forms current b = .error b' ∧ Reached σ b' rest := by
  induction forms with
  | done => exact fun h => .inl ⟨_, rfl, h⟩
  | insert text rest ih => exact fun h => ih (h.insert text)
  | insertHeading count heading rest ih => exact fun h => ih (h.insertHeading count heading)
  | cancelSection ifEmpty rest ih =>
    intro b current stack h
    rw [run]
    cases hb' : b.magitCancelSection current ifEmpty with
    | ok b' => exact ih (h.cancelNot hb')
    | error b' => exact .inr ⟨b', rfl, h.cancel hb'⟩
  | insertSection body rest ihbody ih =>
    intro b current stack h
    rw [run]
    rcases ihbody h.create with ⟨b', hb', h'⟩ | ⟨b', hb', h'⟩
    · rw [hb']
      exact ih h'.finish
    · rw [hb']
      exact ih h'

/-! ## Moving markers -/

/-- The end of the buffer moves from `p` to `p'`, and no marker overtakes another one. -/
structure Moves (e : Marker → Marker) (p p' : ℕ) : Prop where
  advances : ∀ m, (e m).advances = m.advances
  pos : ∀ m, 0 < m.pos → 0 < (e m).pos
  mono : ∀ m m', m.pos ≤ m'.pos → (m.advances = true → m'.advances = true) →
    (e m).pos ≤ (e m').pos
  atEnd : (e ⟨p, true⟩).pos = p'

theorem Moves.le {e : Marker → Marker} {p p' : ℕ} (he : Moves e p p') {m : Marker}
    (hm : m.pos ≤ p) : (e m).pos ≤ p' := by
  have hle := he.mono m ⟨p, true⟩ hm fun _ => rfl
  rwa [he.atEnd] at hle

theorem Moves.refl (p : ℕ) : Moves id p p := ⟨fun _ => rfl, fun _ h => h, fun _ _ h _ => h, rfl⟩

/-- Two changes move the markers one after the other. -/
theorem Moves.comp {e e' : Marker → Marker} {p p' p'' : ℕ} (he' : Moves e' p' p'')
    (he : Moves e p p') : Moves (e' ∘ e) p p'' where
  advances m := (he'.advances _).trans (he.advances m)
  pos m hm := he'.pos _ (he.pos m hm)
  mono m m' hle hadv := he'.mono _ _ (he.mono m m' hle hadv) (by rwa [he.advances, he.advances])
  atEnd := by
    have hend : e ⟨p, true⟩ = ⟨p', true⟩ := by
      have hadv := he.advances ⟨p, true⟩
      have hpos := he.atEnd
      cases hm : e ⟨p, true⟩ with
      | mk pos advances =>
        rw [hm] at hadv hpos
        exact congrArg₂ Marker.mk hpos hadv
    rw [Function.comp_apply, hend, he'.atEnd]

/-- An insertion before point moves the markers. -/
theorem moves_inserted {p q : ℕ} (n : ℕ) (hp : p ≤ q) : Moves (Marker.inserted p n) q (q + n) where
  advances := Marker.inserted_advances p n
  pos m hm := by
    unfold Marker.inserted
    split
    · exact Nat.add_pos_left hm n
    · exact hm
  mono m m' hle hadv := by
    unfold Marker.inserted
    split
    · next hm =>
      have hm' : p < m'.pos ∨ p = m'.pos ∧ m'.advances = true := by
        rcases hm with hlt | ⟨heq, hm⟩
        · exact .inl (hlt.trans_le hle)
        · rcases Nat.lt_or_eq_of_le (heq.trans_le hle) with hlt | heq'
          · exact .inl hlt
          · exact .inr ⟨heq', hadv hm⟩
      rw [if_pos hm']
      exact Nat.add_le_add_right hle n
    · split
      · exact hle.trans (Nat.le_add_right _ _)
      · exact hle
  atEnd := by rw [Marker.inserted_of_ge hp rfl]

/-- A deletion before point moves the markers. -/
theorem moves_deleted {beg fin q : ℕ} (hpos : 0 < beg) (hbeg : beg ≤ fin) (hfin : fin ≤ q) :
    Moves (Marker.deleted beg fin) q (q - (fin - beg)) where
  advances := Marker.deleted_advances beg fin
  pos m hm := by
    unfold Marker.deleted
    split
    · exact hm
    · exact hpos.trans_le (Nat.le_max_left _ _)
  mono m m' hle _ := by
    unfold Marker.deleted
    split
    · next hm =>
      split
      · exact hle
      · exact hm.trans (Nat.le_max_left _ _)
    · split
      · omega
      · exact max_le_max le_rfl (Nat.sub_le_sub_right hle _)
  atEnd := by rw [Marker.deleted_of_ge hbeg hfin]

/-- The text changes, and the markers move with it. -/
structure Redone (b b' : Buffer) : Prop where
  root : b'.root = b.root
  sections : ∃ e, Moves e b.point b'.point ∧ b'.sections = b.sections.map (·.move e)

section

variable {σ : Settings} {b b' : Buffer}

theorem Redone.refl (b : Buffer) : Redone b b :=
  ⟨rfl, id, .refl _, by
    have hid : (Section.move id) = id := funext fun s => by
      simp only [Section.move, id_eq, Option.map_id]
    rw [hid, List.map_id]⟩

theorem Redone.trans {b'' : Buffer} (h : Redone b b') (h' : Redone b' b'') : Redone b b'' := by
  obtain ⟨e, he, hsections⟩ := h.sections
  obtain ⟨e', he', hsections'⟩ := h'.sections
  exact ⟨h'.root.trans h.root, e' ∘ e, he'.comp he, by rw [hsections', hsections, move_move]⟩

/-- Only the text property of some characters changes. -/
theorem Redone.of_length {text : Propertied ℕ} (h : text.length = b.text.length) :
    Redone b { b with text := text } := by
  obtain ⟨e, he, hsections⟩ := (Redone.refl b).sections
  refine ⟨rfl, e, ?_, hsections⟩
  rwa [show Buffer.point { b with text := text } = b.point by
    rw [Buffer.point, Buffer.point, h]]

/-- Inserting before point moves it. -/
theorem point_insertAt (b : Buffer) (p : ℕ) (piece : List Char) :
    (b.insertAt p piece).point = b.point + piece.length := by
  simp only [Buffer.insertAt, Buffer.point, insertText, List.length_append, List.length_take,
    List.length_drop, length_plain]
  omega

/-- Deleting before point moves it back. -/
theorem point_deleteRegion {beg fin : ℕ} (hpos : 0 < beg) (hbeg : beg ≤ fin)
    (hfin : fin ≤ b.point) : (b.deleteRegion beg fin).point = b.point - (fin - beg) := by
  simp only [Buffer.deleteRegion, Buffer.point, deleteText, List.length_append, List.length_take,
    List.length_drop] at hfin ⊢
  omega

/-- An insertion before point is done to the text only. -/
theorem redone_insertAt {p : ℕ} (hp : p ≤ b.point) (piece : List Char) :
    Redone b (b.insertAt p piece) := by
  refine ⟨rfl, Marker.inserted p piece.length, ?_, rfl⟩
  rw [point_insertAt]
  exact moves_inserted _ hp

theorem redone_insert (piece : List Char) : Redone b (b.insert piece) :=
  redone_insertAt le_rfl piece

/-- Inserting a heading is done to the text only. -/
theorem redone_insertHeadingText (b : Buffer) (count : Option Count) (heading : List Char) :
    Redone b (b.insertHeadingText σ count heading) := by
  have hcount : Redone b ((b.insert heading).insertCount σ count) := by
    refine (redone_insert heading).trans ?_
    unfold Buffer.insertCount
    split
    · split
      · exact redone_insert _
      · exact .refl _
    · exact .refl _
  unfold Buffer.insertHeadingText
  dsimp only
  split
  · exact hcount
  · exact hcount.trans (redone_insert _)

/-- A deletion before point is done to the text only. -/
theorem redone_deleteRegion {beg fin : ℕ} (hpos : 0 < beg) (hbeg : beg ≤ fin)
    (hfin : fin ≤ b.point) : Redone b (b.deleteRegion beg fin) := by
  refine ⟨rfl, Marker.deleted beg fin, ?_, rfl⟩
  rw [point_deleteRegion hpos hbeg hfin]
  exact moves_deleted hpos hbeg hfin

theorem length_addProperty {α : Type*} {text : Propertied α} {beg fin : ℕ} (h : beg ≤ fin)
    (value : α) : (text.addProperty beg fin value).length = text.length := by
  simp only [addProperty, List.length_append, List.length_map, List.length_drop, List.length_take]
  omega

/-- Filling the gaps does not change the length of a text. -/
theorem length_fillGaps (obj fin : ℕ) : ∀ (n p : ℕ) (text : Propertied ℕ),
    (fillGaps obj fin n p text).length = text.length := by
  intro n
  induction n with
  | zero => exact fun _ _ => rfl
  | succ n ih =>
    intro p text
    rw [fillGaps]
    split
    · next hp =>
      have hnext : p ≤ (text.nextChange p).getD fin := by
        unfold nextChange
        split
        · exact hp.le
        · dsimp only
          split
          · exact (Nat.le_add_right p 1).trans (Nat.le_add_right _ _)
          · exact hp.le
      rw [ih]
      split
      · exact length_addProperty hnext obj
      · rfl
    · rfl

/-- A placeholder is in the buffer. -/
theorem placeholder_inBuffer {text : Propertied ℕ} {content : ℕ} {h : Placeholder}
    (hh : placeholder text content = some h) :
    0 < h.pos content ∧ h.pos content + 1 ≤ text.length + 1 := by
  have hbefore : ∀ {p : ℕ} {c : Char}, text.charBefore p = some c →
      2 ≤ p ∧ p ≤ text.length + 1 := by
    intro p c hc
    have htwo := two_le_of_charBefore hc
    rw [charBefore, if_pos htwo, Option.map_eq_some_iff] at hc
    obtain ⟨_, hc, -⟩ := hc
    have hlt := (List.getElem?_eq_some_iff.mp hc).1
    omega
  unfold placeholder at hh
  split at hh
  · next hcolon =>
    cases hh
    have hin := hbefore hcolon
    dsimp only [Placeholder.pos]
    omega
  · split at hh
    · next ht =>
      cases hh
      have hfirst := hbefore ht.1
      have hlast := hbefore ht.2.2.2
      dsimp only [Placeholder.pos]
      omega
    · cases hh

/-- `magit-insert-child-count` -/
theorem redone_magitInsertChildCount (b : Buffer) (obj : ℕ) :
    Redone b (b.magitInsertChildCount σ obj) := by
  unfold Buffer.magitInsertChildCount
  split
  · exact .refl b
  · next content hcontent =>
    dsimp only
    split
    · cases hh : placeholder b.text content.pos with
      | none => exact .refl b
      | some h =>
        obtain ⟨hpos, hpoint⟩ := placeholder_inBuffer hh
        have hle : h.pos content.pos ≤ b.point := Nat.le_of_succ_le hpoint
        cases h with
        | colon =>
          refine (redone_insertAt hle _).trans (redone_deleteRegion ?_ (Nat.le_succ _) ?_)
          · exact Nat.add_pos_left hpos _
          · rw [point_insertAt, Nat.add_right_comm]
            exact Nat.add_le_add_right hpoint _
        | t =>
          refine (redone_deleteRegion hpos (Nat.le_succ _) hpoint).trans (redone_insertAt ?_ _)
          rw [point_deleteRegion hpos (Nat.le_succ _) hpoint, Nat.succ_sub le_rfl, Nat.sub_self]
          exact Nat.le_sub_one_of_lt hpoint
    · exact .refl b

/-- What `magit-insert-section--finish` does to the text. -/
theorem redone_fill {obj : ℕ} (hstart : (b.get obj).start.pos ≤ b.point) :
    Redone b (b.fill σ obj) := by
  rw [Buffer.fill]
  split
  · exact .of_length (length_addProperty hstart obj)
  · exact (redone_magitInsertChildCount b obj).trans (.of_length (length_fillGaps _ _ _ _ _))

end

/-! ## The invariant -/

/-- The slots of a section that are about its place, with the markers of its heading left out. -/
def Section.place (s : Section) : (Option ℕ × Bool × (ℕ → Prop)) × Marker × Option Marker :=
  (s.kin, s.start, s.fin)

/-- The markers of a section. -/
structure Section.Marked (s : Section) (point : ℕ) : Prop where
  advances : s.start.advances = s.fin.isSome
  pos : 0 < s.start.pos
  start : s.start.pos ≤ point
  fin : ∀ m ∈ s.fin, m.pos ≤ point

/-- Each section is the parent of the one before. -/
def Parents (b : Buffer) : List ℕ → Prop
  | [] => True
  | i :: rest => (b.get i).parent = rest.head? ∧ Parents b rest

/-- Sections that have been begun, and what has been inserted into them; the one that is `pending`
has got its end, but it is not yet a child of its parent. -/
structure Grown (b : Buffer) (pending : Option ℕ) (stack : List ℕ) : Prop where
  linked : Linked pending b.sections
  nodup : stack.Nodup
  begun : ∀ i ∈ stack, ∃ s, b.sections[i]? = some s ∧ s.fin = none
  parents : Parents b stack
  parent : ∀ obj ∈ pending, (b.get obj).parent = stack.head?
  root : b.root = stack.getLast?
  marked : ∀ s ∈ b.sections, s.Marked b.point
  ordered : ∀ {i j : ℕ} {s t : Section}, b.sections[i]? = some s → b.sections[j]? = some t →
    t.parent = some i → t.fin ≠ none ∨ j ∈ stack → s.start.pos ≤ t.start.pos
  inTree : ∀ {j : ℕ} {t : Section}, b.sections[j]? = some t → t.fin ≠ none →
    t.start.pos = b.point ∨ ∃ i, (i ∈ pending ∨ i ∈ stack) ∧ b.Inside i j

section

variable {σ : Settings} {b b' : Buffer} {pending : Option ℕ} {stack : List ℕ}

/-- A buffer with an open root has grown. -/
theorem grown_root (initial : List Char) : Grown
    { (Buffer.mk (plain initial) [] none).magitInsertSectionCreate none with root := some 0 }
    none [0] where
  linked := (show Linked none [] from ⟨by simp, by simp⟩).create rfl rfl
  nodup := List.nodup_cons.mpr ⟨List.not_mem_nil, List.nodup_nil⟩
  begun i hi := by
    rw [List.mem_singleton] at hi
    exact ⟨_, by rw [hi]; rfl, rfl⟩
  parents := ⟨rfl, trivial⟩
  parent _ h := absurd h (Option.not_mem_none _)
  root := rfl
  marked s hs := by
    cases List.mem_singleton.mp hs
    exact ⟨rfl, Nat.succ_pos _, le_rfl, fun _ hm => absurd hm (Option.not_mem_none _)⟩
  ordered hi hj hparent _ := by
    cases List.mem_singleton.mp (List.mem_of_getElem? hj)
    cases hparent
  inTree hj hfin := by
    cases List.mem_singleton.mp (List.mem_of_getElem? hj)
    exact absurd rfl hfin

/-- The children of a section are those in its list. -/
theorem Buffer.isChild_iff {i j : ℕ} :
    b.IsChild i j ↔ ∃ s, b.sections[i]? = some s ∧ j ∈ s.children := by
  rw [Buffer.IsChild, Buffer.get, List.getD_eq_getElem?_getD]
  cases hs : b.sections[i]? with
  | none => exact ⟨fun h => absurd h List.not_mem_nil, fun h => by obtain ⟨_, hs, -⟩ := h; cases hs⟩
  | some s => exact ⟨fun h => ⟨s, rfl, h⟩, fun h => by obtain ⟨_, hs, h⟩ := h; cases hs; exact h⟩

/-- The parent of an open section is open. -/
theorem Parents.mem (h : Parents b stack) {j p : ℕ} (hj : j ∈ stack)
    (hp : (b.get j).parent = some p) : p ∈ stack := by
  induction stack with
  | nil => exact absurd hj List.not_mem_nil
  | cons i rest ih =>
    refine List.mem_cons_of_mem _ ?_
    rcases List.mem_cons.mp hj with rfl | hj
    · exact List.mem_of_head? (h.1.symm.trans hp)
    · exact ih h.2 hj

/-- Only the parents of the open sections matter. -/
theorem Parents.congr (h : Parents b stack) (hparent : ∀ i ∈ stack, (b'.get i).parent
    = (b.get i).parent) : Parents b' stack := by
  induction stack with
  | nil => trivial
  | cons i rest ih =>
    exact ⟨(hparent i List.mem_cons_self).trans h.1,
      ih h.2 fun j hj => hparent j (List.mem_cons_of_mem _ hj)⟩

/-- The parent of a section that has been begun is one, too. -/
theorem Grown.fin_parent (h : Grown b pending stack) {i j : ℕ} {s t : Section}
    (hs : b.sections[i]? = some s) (ht : b.sections[j]? = some t) (hparent : t.parent = some i)
    (hlive : t.fin ≠ none ∨ j ∈ stack) : s.fin ≠ none → t.fin ≠ none := by
  rcases hlive with hfin | hj
  · exact fun _ => hfin
  · obtain ⟨s', hs', hfin⟩ := h.begun i (h.parents.mem hj (by rw [Buffer.get_eq ht, hparent]))
    cases hs.symm.trans hs'
    exact fun hne => absurd hfin hne

/-- The markers move, and nothing else changes but the ends of headings and the order of
children. -/
theorem Grown.moved (h : Grown b pending stack) {e : Marker → Marker}
    (he : Moves e b.point b'.point) (hroot : b'.root = b.root)
    (hplace : ∀ i : ℕ, b'.sections[i]?.map Section.place
      = b.sections[i]?.map fun s => (s.move e).place) : Grown b' pending stack := by
  have hold : ∀ {i : ℕ} {s' : Section}, b'.sections[i]? = some s' → ∃ s, b.sections[i]? = some s ∧
      s'.kin = s.kin ∧ s'.start = e s.start ∧ s'.fin = s.fin.map e := by
    intro i s' hs'
    have hi := hplace i
    rw [hs', Option.map_some] at hi
    obtain ⟨s, hs, hsame⟩ := Option.map_eq_some_iff.mp hi.symm
    simp only [Section.place, Prod.mk.injEq] at hsame
    refine ⟨s, hs, hsame.1.symm.trans ?_, hsame.2.1.symm, hsame.2.2.symm⟩
    simp [Section.kin, Section.move]
  have hnew : ∀ {i : ℕ} {s : Section}, b.sections[i]? = some s → ∃ s', b'.sections[i]? = some s' ∧
      s'.kin = s.kin := by
    intro i s hs
    have hi := hplace i
    rw [hs, Option.map_some] at hi
    obtain ⟨s', hs', -⟩ := Option.map_eq_some_iff.mp hi
    obtain ⟨t, ht, hkin, -⟩ := hold hs'
    cases hs.symm.trans ht
    exact ⟨s', hs', hkin⟩
  have hchild : ∀ i j, b.IsChild i j → b'.IsChild i j := by
    intro i j hj
    obtain ⟨s, hs, hj⟩ := Buffer.isChild_iff.mp hj
    obtain ⟨s', hs', hkin⟩ := hnew hs
    exact Buffer.isChild_iff.mpr ⟨s', hs', ((kin_eq_iff.mp hkin).2.2 j).mpr hj⟩
  have hparent : ∀ i, (b'.get i).parent = (b.get i).parent := by
    intro i
    have hi := hplace i
    rw [Buffer.get, Buffer.get, List.getD_eq_getElem?_getD, List.getD_eq_getElem?_getD]
    cases hs : b.sections[i]? with
    | none =>
      rw [hs, Option.map_none, Option.map_eq_none_iff] at hi
      rw [hi]
    | some s =>
      obtain ⟨s', hs', hkin⟩ := hnew hs
      rw [hs']
      exact (kin_eq_iff.mp hkin).1
  constructor
  · refine h.linked.of_kin fun i => ?_
    cases hs : b.sections[i]? with
    | none =>
      have hi := hplace i
      rw [hs, Option.map_none, Option.map_eq_none_iff] at hi
      rw [hi]
    | some s =>
      obtain ⟨s', hs', hkin⟩ := hnew hs
      rw [hs', Option.map_some, Option.map_some, hkin]
  · exact h.nodup
  · intro i hi
    obtain ⟨s, hs, hfin⟩ := h.begun i hi
    obtain ⟨s', hs', -⟩ := hnew hs
    obtain ⟨t, ht, -, -, hfin'⟩ := hold hs'
    cases hs.symm.trans ht
    exact ⟨s', hs', by rw [hfin', hfin, Option.map_none]⟩
  · exact h.parents.congr fun i _ => hparent i
  · exact fun obj hobj => (hparent obj).trans (h.parent obj hobj)
  · rw [hroot, h.root]
  · intro s' hs'
    obtain ⟨i, hi⟩ := List.mem_iff_getElem?.mp hs'
    obtain ⟨s, hs, -, hstart, hfin⟩ := hold hi
    obtain ⟨hadv, hpos, hle, hfinle⟩ := h.marked s (List.mem_of_getElem? hs)
    refine ⟨?_, ?_, ?_, ?_⟩
    · rw [hstart, he.advances, hadv, hfin, Option.isSome_map]
    · rw [hstart]
      exact he.pos _ hpos
    · rw [hstart]
      exact he.le hle
    · intro m hm
      rw [hfin] at hm
      obtain ⟨m', hm', rfl⟩ := Option.map_eq_some_iff.mp hm
      exact he.le (hfinle m' hm')
  · intro i j s' t' hi hj hij hlive
    obtain ⟨s, hs, -, hstart, hfin⟩ := hold hi
    obtain ⟨t, ht, hkin, htstart, htfin⟩ := hold hj
    rw [kin_eq_iff] at hkin
    have hlive : t.fin ≠ none ∨ j ∈ stack := hlive.imp_left hkin.2.1.mp
    have hij := hkin.1.symm.trans hij
    rw [hstart, htstart]
    refine he.mono _ _ (h.ordered hs ht hij hlive) ?_
    rw [(h.marked s (List.mem_of_getElem? hs)).advances,
      (h.marked t (List.mem_of_getElem? ht)).advances, Option.isSome_iff_ne_none,
      Option.isSome_iff_ne_none]
    exact h.fin_parent hs ht hij hlive
  · intro j t' hj hfin
    obtain ⟨t, ht, hkin, hstart, -⟩ := hold hj
    have htfin := (kin_eq_iff.mp hkin).2.1.mp hfin
    refine (h.inTree ht htfin).imp (fun hend => ?_) ?_
    · have hadv := (h.marked t (List.mem_of_getElem? ht)).advances
      rw [Option.isSome_iff_ne_none.mpr htfin] at hadv
      have heq : t.start = ⟨b.point, true⟩ := by rw [← hend, ← hadv]
      rw [hstart, heq, he.atEnd]
    · rintro ⟨i, hi, hij⟩
      exact ⟨i, hi, Relation.ReflTransGen.mono hchild _ _ hij⟩

/-- What is done to the text leaves the buffer grown. -/
theorem Grown.redone (h : Grown b pending stack) (hb' : Redone b b') :
    Grown b' pending stack := by
  obtain ⟨e, he, hsections⟩ := hb'.sections
  refine h.moved he hb'.root fun i => ?_
  rw [hsections, List.getElem?_map, Option.map_map]
  rfl

/-- Slots of a section are set that are not about its place. -/
theorem Grown.modify (h : Grown b pending stack) (i : ℕ) {f : Section → Section}
    (hf : ∀ s, (f s).place = s.place) : Grown (b.modify i f) pending stack := by
  refine h.moved (Moves.refl b.point) rfl fun j => ?_
  have hmove : ∀ s : Section, (s.move id).place = s.place := fun s => by
    simp [Section.place, Section.move, Section.kin]
  rw [Buffer.modify, List.getElem?_modify]
  cases b.sections[j]? with
  | none => rfl
  | some s =>
    simp only [Option.map_eq_map, Option.map_some, hmove]
    split
    · rw [hf]
    · rfl

/-- `magit-insert-section--create` -/
theorem Grown.create {current : ℕ} {rest : List ℕ} (h : Grown b none (current :: rest)) :
    Grown (b.magitInsertSectionCreate (some current)) none
      (b.sections.length :: current :: rest) := by
  have hold : ∀ {i : ℕ} {s : Section}, b.sections[i]? = some s →
      (b.magitInsertSectionCreate (some current)).sections[i]? = some s := by
    intro i s hs
    rw [Buffer.magitInsertSectionCreate,
      List.getElem?_append_left (List.getElem?_eq_some_iff.mp hs).1, hs]
  have hcases : ∀ {i : ℕ} {s : Section},
      (b.magitInsertSectionCreate (some current)).sections[i]? = some s →
        b.sections[i]? = some s ∨
          i = b.sections.length ∧ s = ⟨some current, ⟨b.point, false⟩, none, none, []⟩ := by
    intro i s hs
    rw [Buffer.magitInsertSectionCreate, List.getElem?_append] at hs
    split at hs
    · exact .inl hs
    · next hge =>
      rw [List.getElem?_singleton] at hs
      split at hs
      · exact .inr ⟨by omega, (Option.some.inj hs).symm⟩
      · cases hs
  have hlt : ∀ i ∈ current :: rest, i < b.sections.length := fun i hi => by
    obtain ⟨s, hs, -⟩ := h.begun i hi
    exact (List.getElem?_eq_some_iff.mp hs).1
  have hget : ∀ i ∈ current :: rest,
      (b.magitInsertSectionCreate (some current)).get i = b.get i := by
    intro i hi
    obtain ⟨s, hs, -⟩ := h.begun i hi
    rw [Buffer.get_eq hs, Buffer.get_eq (hold hs)]
  have hself : (b.magitInsertSectionCreate (some current)).sections[b.sections.length]?
      = some ⟨some current, ⟨b.point, false⟩, none, none, []⟩ := List.getElem?_concat_length
  constructor
  · exact h.linked.create rfl rfl
  · exact List.nodup_cons.mpr ⟨fun hmem => absurd (hlt _ hmem) (Nat.lt_irrefl _), h.nodup⟩
  · intro i hi
    rcases List.mem_cons.mp hi with rfl | hi
    · exact ⟨_, hself, rfl⟩
    · obtain ⟨s, hs, hfin⟩ := h.begun i hi
      exact ⟨s, hold hs, hfin⟩
  · exact ⟨by rw [Buffer.get_eq hself]; rfl, h.parents.congr fun i hi => by rw [hget i hi]⟩
  · exact fun _ h => absurd h (Option.not_mem_none _)
  · rw [List.getLast?_cons_cons]
    exact h.root
  · intro s hs
    rcases List.mem_append.mp hs with hs | hs
    · exact h.marked s hs
    · cases List.mem_singleton.mp hs
      exact ⟨rfl, Nat.succ_pos _, le_rfl, fun _ hm => absurd hm (Option.not_mem_none _)⟩
  · intro i j s t hi hj hij hlive
    have hle : s.start.pos ≤ b.point := by
      rcases hcases hi with hi | ⟨-, rfl⟩
      · exact (h.marked s (List.mem_of_getElem? hi)).start
      · exact le_rfl
    rcases hcases hj with hj | ⟨-, rfl⟩
    · have hlive : t.fin ≠ none ∨ j ∈ current :: rest := hlive.imp_right fun hmem => by
        rcases List.mem_cons.mp hmem with rfl | hmem
        · exact absurd (List.getElem?_eq_some_iff.mp hj).1 (Nat.lt_irrefl _)
        · exact hmem
      rcases hcases hi with hi | ⟨rfl, rfl⟩
      · exact h.ordered hi hj hij hlive
      · -- nothing has the new section as its parent
        rcases hlive with hfin | hmem
        · rcases h.linked.ofParent hj hij hfin with hpending | ⟨s, hs, -⟩
          · cases hpending
          · exact absurd (List.getElem?_eq_some_iff.mp hs).1 (Nat.lt_irrefl _)
        · have hparent := h.parents.mem hmem (by rw [Buffer.get_eq hj, hij])
          exact absurd (hlt _ hparent) (Nat.lt_irrefl _)
    · exact hle
  · intro j t hj hfin
    rcases hcases hj with hj | ⟨-, rfl⟩
    · refine (h.inTree hj hfin).imp_right ?_
      rintro ⟨i, hi, hij⟩
      refine ⟨i, hi.imp_right (List.mem_cons_of_mem _), Relation.ReflTransGen.mono ?_ _ _ hij⟩
      intro i' j' hij'
      obtain ⟨s, hs, hj'⟩ := Buffer.isChild_iff.mp hij'
      exact Buffer.isChild_iff.mpr ⟨s, hold hs, hj'⟩
    · exact absurd rfl hfin

/-- The end of the innermost section is set. -/
theorem Grown.close {obj current : ℕ} {rest : List ℕ}
    (h : Grown b none (obj :: current :: rest)) :
    Grown (b.modify obj (·.close b.point)) (some obj) (current :: rest) := by
  obtain ⟨sobj, hobj, hobjfin⟩ := h.begun obj List.mem_cons_self
  obtain ⟨hnotMem, hnodup⟩ := List.nodup_cons.mp h.nodup
  -- a section is as before, or it is the one that is closed
  have hcases : ∀ {i : ℕ} {s' : Section}, (b.modify obj (·.close b.point)).sections[i]? = some s' →
      ∃ s, b.sections[i]? = some s ∧ s'.parent = s.parent ∧ s'.start.pos = s.start.pos ∧
        (s' = s ∨ obj = i ∧ s' = s.close b.point) := by
    intro i s' hs'
    rw [Buffer.modify, List.getElem?_modify] at hs'
    obtain ⟨s, hs, rfl⟩ := Option.map_eq_some_iff.mp hs'
    refine ⟨s, hs, ?_⟩
    split
    · next heq => exact ⟨rfl, rfl, .inr ⟨heq, rfl⟩⟩
    · exact ⟨rfl, rfl, .inl rfl⟩
  have hne : ∀ i ∈ current :: rest, obj ≠ i := fun i hi heq => hnotMem (heq ▸ hi)
  have hget : ∀ {i : ℕ} {s : Section}, b.sections[i]? = some s → obj ≠ i →
      (b.modify obj (·.close b.point)).sections[i]? = some s := fun hs hi => by
    rw [Buffer.modify, List.getElem?_modify_ne _ _ hi, hs]
  have hself : (b.modify obj (·.close b.point)).sections[obj]? = some (sobj.close b.point) := by
    rw [Buffer.modify, List.getElem?_modify_eq, hobj]
    rfl
  have hchild : ∀ i j, b.IsChild i j → (b.modify obj (·.close b.point)).IsChild i j := by
    intro i j hij
    obtain ⟨s, hs, hj⟩ := Buffer.isChild_iff.mp hij
    by_cases hi : obj = i
    · cases hi
      cases hobj.symm.trans hs
      exact Buffer.isChild_iff.mpr ⟨_, hself, hj⟩
    · exact Buffer.isChild_iff.mpr ⟨s, hget hs hi, hj⟩
  constructor
  · exact h.linked.close _ _
  · exact hnodup
  · intro i hi
    obtain ⟨s, hs, hfin⟩ := h.begun i (List.mem_cons_of_mem _ hi)
    exact ⟨s, hget hs (hne i hi), hfin⟩
  · refine h.parents.2.congr fun i hi => ?_
    obtain ⟨s, hs, -⟩ := h.begun i (List.mem_cons_of_mem _ hi)
    rw [Buffer.get_eq hs, Buffer.get_eq (hget hs (hne i hi))]
  · intro i hi
    cases hi
    have hparent := h.parents.1
    rw [Buffer.get_eq hobj] at hparent
    rw [Buffer.get_eq hself]
    exact hparent
  · rw [← List.getLast?_cons_cons]
    exact h.root
  · intro s' hs'
    obtain ⟨i, hi⟩ := List.mem_iff_getElem?.mp hs'
    obtain ⟨s, hs, -, -, rfl | ⟨-, rfl⟩⟩ := hcases hi
    · exact h.marked _ (List.mem_of_getElem? hs)
    · obtain ⟨-, hpos, hle, -⟩ := h.marked s (List.mem_of_getElem? hs)
      exact ⟨rfl, hpos, hle, fun m hm => by cases hm; exact le_rfl⟩
  · intro i j s' t' hi hj hij hlive
    obtain ⟨s, hs, -, hstart, -⟩ := hcases hi
    obtain ⟨t, ht, hparent, htstart, hsame⟩ := hcases hj
    rw [hstart, htstart]
    refine h.ordered hs ht (hparent ▸ hij) ?_
    rcases hsame with rfl | ⟨rfl, -⟩
    · exact hlive.imp_right (List.mem_cons_of_mem _)
    · exact .inr List.mem_cons_self
  · intro j t' hj hfin
    obtain ⟨t, ht, -, htstart, hsame⟩ := hcases hj
    rcases hsame with rfl | ⟨rfl, -⟩
    · refine (h.inTree ht hfin).imp_right ?_
      rintro ⟨i, hi, hij⟩
      refine ⟨i, ?_, Relation.ReflTransGen.mono hchild _ _ hij⟩
      rcases hi with hi | hi
      · cases hi
      · rcases List.mem_cons.mp hi with rfl | hi
        · exact .inl rfl
        · exact .inr hi
    · exact .inr ⟨obj, .inl rfl, .refl⟩

/-- It becomes a child of its parent. -/
theorem Grown.addChild {obj current : ℕ} {rest : List ℕ}
    (h : Grown b (some obj) (current :: rest)) (hfin : (b.get obj).fin ≠ none)
    (hlt : obj < b.sections.length) : Grown (b.addChild σ obj) none (current :: rest) := by
  have hparent : (b.get obj).parent = some current := h.parent obj rfl
  have hobj : b.sections[obj]? = some (b.get obj) := by
    rw [Buffer.get, List.getD_eq_getElem?_getD, List.getElem?_eq_getElem hlt]
    rfl
  obtain ⟨scur, hcur, hcurfin⟩ := h.begun current List.mem_cons_self
  have hb' : b.addChild σ obj = b.modify current fun s => { s with
      children := if σ.insertInReverse then obj :: s.children else s.children ++ [obj] } := by
    rw [Buffer.addChild, hparent]
  have hmem : ∀ (s : Section) (j : ℕ), j ∈ (if σ.insertInReverse then obj :: s.children
      else s.children ++ [obj]) ↔ j ∈ s.children ∨ j = obj := by
    intro s j
    split
    · rw [List.mem_cons, or_comm]
    · rw [List.mem_append, List.mem_singleton]
  rw [hb']
  generalize hf : (fun s : Section => { s with
    children := if σ.insertInReverse then obj :: s.children else s.children ++ [obj] }) = f
  have hslots : ∀ s, (f s).parent = s.parent ∧ (f s).start = s.start ∧ (f s).fin = s.fin ∧
      ∀ j, j ∈ (f s).children ↔ j ∈ s.children ∨ j = obj := by
    intro s
    subst hf
    exact ⟨rfl, rfl, rfl, hmem s⟩
  have hold : ∀ {i : ℕ} {s' : Section}, (b.modify current f).sections[i]? = some s' →
      ∃ s, b.sections[i]? = some s ∧ s'.parent = s.parent ∧ s'.start = s.start ∧
        s'.fin = s.fin := by
    intro i s' hs'
    rw [Buffer.modify, List.getElem?_modify] at hs'
    obtain ⟨s, hs, rfl⟩ := Option.map_eq_some_iff.mp hs'
    refine ⟨s, hs, ?_⟩
    split
    · exact ⟨(hslots s).1, (hslots s).2.1, (hslots s).2.2.1⟩
    · exact ⟨rfl, rfl, rfl⟩
  have hnew : ∀ {i : ℕ} {s : Section}, b.sections[i]? = some s →
      ∃ s', (b.modify current f).sections[i]? = some s' ∧ s'.parent = s.parent ∧ s'.fin = s.fin ∧
        ∀ j ∈ s.children, j ∈ s'.children := by
    intro i s hs
    rw [Buffer.modify, List.getElem?_modify, hs]
    refine ⟨_, rfl, ?_⟩
    dsimp only
    split
    · exact ⟨(hslots s).1, (hslots s).2.2.1, fun j hj => ((hslots s).2.2.2 j).mpr (.inl hj)⟩
    · exact ⟨rfl, rfl, fun j hj => hj⟩
  have hchild : ∀ i j, b.IsChild i j → (b.modify current f).IsChild i j := by
    intro i j hij
    obtain ⟨s, hs, hj⟩ := Buffer.isChild_iff.mp hij
    obtain ⟨s', hs', -, -, hchildren⟩ := hnew hs
    exact Buffer.isChild_iff.mpr ⟨s', hs', hchildren j hj⟩
  constructor
  · exact h.linked.addChild hobj hparent hfin hcur fun s =>
      ⟨(hslots s).1, (hslots s).2.2.1, (hslots s).2.2.2⟩
  · exact h.nodup
  · intro i hi
    obtain ⟨s, hs, hsfin⟩ := h.begun i hi
    obtain ⟨s', hs', -, hfin', -⟩ := hnew hs
    exact ⟨s', hs', hfin'.trans hsfin⟩
  · refine h.parents.congr fun i hi => ?_
    obtain ⟨s, hs, -⟩ := h.begun i hi
    obtain ⟨s', hs', hparent', -⟩ := hnew hs
    rw [Buffer.get_eq hs, Buffer.get_eq hs', hparent']
  · exact fun _ h => absurd h (Option.not_mem_none _)
  · exact h.root
  · intro s' hs'
    obtain ⟨i, hi⟩ := List.mem_iff_getElem?.mp hs'
    obtain ⟨s, hs, -, hstart, hsfin⟩ := hold hi
    obtain ⟨hadv, hpos, hle, hfinle⟩ := h.marked s (List.mem_of_getElem? hs)
    rw [← hstart, ← hsfin] at *
    exact ⟨hadv, hpos, hle, hfinle⟩
  · intro i j s' t' hi hj hij hlive
    obtain ⟨s, hs, -, hstart, -⟩ := hold hi
    obtain ⟨t, ht, htparent, htstart, htfin⟩ := hold hj
    rw [hstart, htstart]
    exact h.ordered hs ht (htparent ▸ hij) (htfin ▸ hlive)
  · intro j t' hj htfin
    obtain ⟨t, ht, -, hstart, hfin'⟩ := hold hj
    rw [hstart]
    refine (h.inTree ht (hfin' ▸ htfin)).imp_right ?_
    rintro ⟨i, hi, hij⟩
    have hij' := Relation.ReflTransGen.mono hchild _ _ hij
    rcases hi with hi | hi
    · cases hi
      refine ⟨current, .inr List.mem_cons_self, .head ?_ hij'⟩
      refine Buffer.isChild_iff.mpr ⟨f scur, ?_, ((hslots scur).2.2.2 obj).mpr (.inr rfl)⟩
      rw [Buffer.modify, List.getElem?_modify_eq, hcur]
      rfl
    · exact ⟨i, .inr hi, hij'⟩

/-- Nothing starts in front of the section that it is in. -/
theorem Grown.start_le (h : Grown b none stack) {i j : ℕ} (hij : b.Inside i j) :
    (b.get i).start.pos ≤ (b.get j).start.pos := by
  induction hij with
  | refl => exact le_rfl
  | tail _ hchild ih =>
    obtain ⟨s, hs, hj⟩ := Buffer.isChild_iff.mp hchild
    obtain ⟨t, ht, hparent, hfin⟩ := h.linked.ofChild hs hj
    have hstart := h.ordered hs ht hparent (.inl hfin)
    rw [Buffer.get_eq hs] at ih
    rw [Buffer.get_eq ht]
    exact ih.trans hstart

/-- The innermost section is canceled: there is no text in it any more. -/
theorem Grown.pop {current : ℕ} {rest : List ℕ} (h : Grown b none (current :: rest))
    (hroot : b.root ≠ some current) (hend : (b.get current).start.pos = b.point) :
    Grown b none rest where
  linked := h.linked
  nodup := (List.nodup_cons.mp h.nodup).2
  begun i hi := h.begun i (List.mem_cons_of_mem _ hi)
  parents := h.parents.2
  parent _ h := absurd h (Option.not_mem_none _)
  root := by
    have hlast := h.root
    cases rest with
    | nil => exact absurd hlast hroot
    | cons c rest => rwa [List.getLast?_cons_cons] at hlast
  marked := h.marked
  ordered hs ht hparent hlive :=
    h.ordered hs ht hparent (hlive.imp_right (List.mem_cons_of_mem _))
  inTree {j t} ht hfin := by
    rcases h.inTree ht hfin with hstart | ⟨i, hi, hij⟩
    · exact .inl hstart
    · rcases hi with hi | hi
      · cases hi
      · rcases List.mem_cons.mp hi with rfl | hi
        · have hle := h.start_le hij
          rw [hend, Buffer.get_eq ht] at hle
          exact .inl (Nat.le_antisymm (h.marked t (List.mem_of_getElem? ht)).start hle)
        · exact .inr ⟨i, .inr hi, hij⟩

/-- `magit-cancel-section` -/
theorem Grown.magitCancelSection {current : ℕ} {rest : List ℕ}
    (h : Grown b none (current :: rest)) (ifEmpty : Bool) :
    (∀ b', b.magitCancelSection current ifEmpty = .ok b' → Grown b' none (current :: rest)) ∧
      ∀ b', b.magitCancelSection current ifEmpty = .error b' → Grown b' none rest := by
  unfold Buffer.magitCancelSection
  dsimp only
  split
  · split
    · refine ⟨fun b' hb' => ?_, fun _ hb' => by cases hb'⟩
      cases hb'
      exact h.redone (redone_insert _)
    · next hroot =>
      refine ⟨fun _ hb' => by (cases hb'), fun b' hb' => ?_⟩
      cases hb'
      obtain ⟨s, hs, -⟩ := h.begun current List.mem_cons_self
      have hmarked := h.marked s (List.mem_of_getElem? hs)
      rw [Buffer.get_eq hs]
      refine (h.redone (redone_deleteRegion hmarked.pos hmarked.start le_rfl)).pop hroot ?_
      have hget : (b.deleteRegion s.start.pos b.point).sections[current]?
          = some (s.move (·.deleted s.start.pos b.point)) := by
        rw [Buffer.deleteRegion, List.getElem?_map, hs]
        rfl
      rw [Buffer.get_eq hget, point_deleteRegion hmarked.pos hmarked.start le_rfl]
      have hstart := hmarked.start
      exact (congrArg Marker.pos (Marker.deleted_of_le le_rfl)).trans (by omega)
  · exact ⟨fun b' hb' => by cases hb'; exact h, fun _ hb' => by cases hb'⟩

/-- `magit-insert-section--finish`, except for the root. -/
theorem Grown.magitInsertSectionFinish {obj current : ℕ} {rest : List ℕ}
    (h : Grown b none (obj :: current :: rest)) :
    Grown (b.magitInsertSectionFinish σ obj) none (current :: rest) := by
  have hroot : (b.modify obj (·.close b.point)).root ≠ some obj := by
    rw [show (b.modify obj (·.close b.point)).root = b.root from rfl, h.root,
      List.getLast?_cons_cons]
    exact fun hlast => (List.nodup_cons.mp h.nodup).1 (List.mem_of_getLast? hlast)
  obtain ⟨s, hs, -⟩ := h.begun obj List.mem_cons_self
  have hclose := h.close
  have hget : (b.modify obj (·.close b.point)).sections[obj]? = some (s.close b.point) := by
    rw [Buffer.modify, List.getElem?_modify_eq, hs]
    rfl
  have hfill : Redone (b.modify obj (·.close b.point))
      ((b.modify obj (·.close b.point)).fill σ obj) :=
    redone_fill (by
      rw [Buffer.get_eq hget]
      exact (h.marked s (List.mem_of_getElem? hs)).start)
  obtain ⟨e, -, hsections⟩ := hfill.sections
  have hfilled : ((b.modify obj (·.close b.point)).fill σ obj).sections[obj]?
      = some ((s.close b.point).move e) := by
    rw [hsections, List.getElem?_map, hget]
    rfl
  rw [Buffer.magitInsertSectionFinish, if_neg hroot, modify_reorder]
  refine Grown.modify ?_ obj fun s => ?_
  · refine (hclose.redone hfill).addChild ?_ (List.getElem?_eq_some_iff.mp hfilled).1
    rw [Buffer.get_eq hfilled]
    exact Option.some_ne_none _
  · have hkin : (reorder σ s).kin = s.kin :=
      kin_eq_iff.mpr ⟨rfl, Iff.rfl, fun j => mem_order _ _⟩
    rw [Section.place, Section.place, hkin]
    rfl

/-- **The invariant holds in every state that is reached.** -/
theorem Reached.grown (h : Reached σ b stack) : Grown b none stack := by
  induction h with
  | root initial => exact grown_root initial
  | insert text _ ih => exact ih.redone (redone_insert text)
  | @insertHeading b current rest count heading _ ih =>
    exact (ih.redone (redone_insertHeadingText b count heading)).modify current fun s => rfl
  | cancelNot _ hb' ih => exact (ih.magitCancelSection _).1 _ hb'
  | cancel _ hb' ih => exact (ih.magitCancelSection _).2 _ hb'
  | create _ ih => exact ih.create
  | finish _ ih => exact ih.magitInsertSectionFinish

end

end Magit.Insertion

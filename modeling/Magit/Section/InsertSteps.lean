import Magit.Section.Frames

/-!
# Section/InsertSteps — what each form does to the sections

Text and headings go to the end of the innermost section that has been begun, and canceling takes
all of it away.
-/

namespace Magit.Insertion

open Emacs Propertied

variable {σ : Settings} {initial : Propertied ℕ} {b : Buffer} {f : Frame} {rest : List Frame}

/-! ## Placeholders -/

/-- What comes later does not matter. -/
theorem placeholder_append (text text' : Propertied ℕ) {content : ℕ}
    (hcontent : content ≤ text.length + 1) :
    placeholder (text ++ text') content = placeholder text content := by
  have hbefore : ∀ n, charBefore (text ++ text') (content - n) = charBefore text (content - n) :=
    fun n => charBefore_append text text' (by omega)
  simp only [placeholder, hbefore]

/-- There is a character before a position from the second on only. -/
theorem two_le_of_charBefore {text : Propertied ℕ} {p : ℕ} {c : Char}
    (h : charBefore text p = some c) : 2 ≤ p := by
  rw [charBefore] at h
  split at h
  · assumption
  · cases h

/-- A placeholder is followed by a character. -/
theorem placeholder_pos {text : Propertied ℕ} {content : ℕ} {h : Placeholder}
    (hh : placeholder text content = some h) : h.pos content + 2 ≤ content := by
  unfold placeholder at hh
  split at hh
  · next hcolon =>
    cases hh
    have := two_le_of_charBefore hcolon
    exact (show content - 2 + 2 ≤ content by omega)
  · split at hh
    · next ht =>
      cases hh
      have := two_le_of_charBefore ht.1
      exact (show content - 3 + 2 ≤ content by omega)
    · cases hh

/-! ## The innermost section -/

theorem Buffer.get_eq {i : ℕ} {s : Section} (h : b.sections[i]? = some s) : b.get i = s := by
  rw [Buffer.get, List.getD_eq_getElem?_getD, h, Option.getD_some]

/-- Where it starts. -/
def startOf (initial : Propertied ℕ) (rest : List Frame) : ℕ := (textOf initial rest).length + 1

theorem length_textOf_cons :
    (textOf initial (f :: rest)).length + 1 = startOf initial rest + f.body.size := by
  rw [textOf, List.length_append, Body.length_cells, startOf, Nat.add_right_comm]

theorem Sim.point_eq (h : Sim σ initial b (f :: rest)) :
    b.point = startOf initial rest + f.body.size := by
  rw [Buffer.point, h.text, length_textOf_cons]

theorem Sim.record (h : Sim σ initial b (f :: rest)) :
    b.sections[f.id]? = some (opened σ (rest.head?.map Frame.id) (startOf initial rest) f) :=
  h.sections.1

theorem Sim.get_eq (h : Sim σ initial b (f :: rest)) :
    b.get f.id = opened σ (rest.head?.map Frame.id) (startOf initial rest) f :=
  Buffer.get_eq h.record

/-- The innermost section is the root only if it is the only one. -/
theorem Sim.root_iff (h : Sim σ initial b (f :: rest)) : b.root = some f.id ↔ rest = [] := by
  rw [h.root]
  cases rest with
  | nil => simp
  | cons g rest =>
    have hne : ∀ g' ∈ g :: rest, g'.id ≠ f.id := by
      intro g' hg' heq
      exact (List.nodup_cons.mp h.nodup).1 (heq ▸ List.mem_map_of_mem hg')
    rw [List.getLast?_cons_cons]
    simp only [Option.map_eq_some_iff, reduceCtorEq, iff_false]
    rintro ⟨g', hg', heq⟩
    exact hne g' (List.mem_of_getLast? hg') heq

/-- What is added to it. -/
def Frame.extend (f : Frame) (b : Body) : Frame := { f with body := f.body ++ b }

/-- More text behind the frame leaves its own count. -/
theorem Frame.CountsOwn.extend {text : Propertied ℕ} {start : ℕ} (h : f.CountsOwn σ text start)
    (htext : text.length + 1 = start + f.body.size) (text' : Propertied ℕ) (b : Body) :
    (f.extend b).CountsOwn σ (text ++ text') start := by
  intro k hk
  obtain ⟨hle, hplace⟩ := h k hk
  refine ⟨by rw [Frame.extend, Body.size_append]; omega, fun hσ p hp => ?_⟩
  rw [placeholder_append _ _ (by omega)] at hp
  obtain ⟨front, c, c', chars, back, hbody, hpos⟩ := hplace hσ p hp
  refine ⟨front, c, c', chars, back ++ b, ?_, hpos⟩
  rw [Frame.extend, hbody, Body.append_assoc]

/-- More text of its own. -/
theorem Opened.extend {sections : List Section} (h : Opened σ initial sections (f :: rest))
    (chars : List Char) :
    Opened σ initial sections (f.extend (.ofChars chars) :: rest) := by
  obtain ⟨hrecord, hcounts, hplaced, hrest⟩ := h
  refine ⟨?_, ?_, placed_append.mpr ⟨hplaced, placed_ofChars chars⟩, hrest⟩
  · rw [show (f.extend (.ofChars chars)).id = f.id from rfl, hrecord]
    simp [opened, Frame.extend]
  · have hext := hcounts.extend length_textOf_cons (plain chars) (.ofChars chars)
    rwa [textOf, List.append_assoc, ← Body.cells_ofChars, ← Body.cells_append] at hext

/-- `insert` -/
theorem Sim.insert (h : Sim σ initial b (f :: rest)) (chars : List Char) :
    Sim σ initial (b.insert chars) (f.extend (.ofChars chars) :: rest) where
  text := by
    have htext : (b.insert chars).text = b.text ++ plain chars := by
      have hinsert : (b.insert chars).text = b.text ++ plain chars ++ [] :=
        insertText_append (List.append_nil b.text).symm rfl
      rwa [List.append_nil] at hinsert
    rw [htext, h.text, textOf, textOf, Frame.extend, Body.cells_append, Body.cells_ofChars,
      List.append_assoc]
  sections := by
    have hwithin := Marker.within_inserted chars.length le_rfl (Nat.lt_succ_self b.point)
    refine (h.sections.before hwithin ?_).extend chars
    rw [← h.text, Buffer.point]
  nodup := h.nodup
  root := by
    rw [show (b.insert chars).root = b.root from rfl, h.root]
    cases rest <;> rfl
  linked := h.linked.move _

/-- `magit-insert-section--create` -/
theorem Sim.create (h : Sim σ initial b (f :: rest)) :
    Sim σ initial (b.magitInsertSectionCreate (some f.id))
      (⟨b.sections.length, none, .nil⟩ :: f :: rest) where
  text := by
    rw [textOf, Body.cells, List.append_nil]
    exact h.text
  sections := by
    refine ⟨?_, by rintro _ ⟨⟩, trivial, h.sections.of_same fun i s hi _ => ?_⟩
    · rw [Buffer.magitInsertSectionCreate, List.getElem?_concat_length, Buffer.point, h.text]
      simp [opened, Settings.order, Body.ids]
    · rw [Buffer.magitInsertSectionCreate,
        List.getElem?_append_left (List.getElem?_eq_some_iff.mp hi).1, hi]
  nodup := by
    refine List.nodup_cons.mpr ⟨fun hmem => ?_, h.nodup⟩
    exact absurd (h.sections.lt_length _ hmem) (lt_irrefl _)
  root := by
    rw [List.getLast?_cons_cons]
    exact h.root
  linked := h.linked.create rfl rfl

/-- Setting slots of the innermost section leaves the others alone. -/
theorem Sim.modify_of_ne (h : Sim σ initial b (f :: rest)) (g : Section → Section) {i : ℕ}
    {s : Section} (hi : b.sections[i]? = some s) (hs : s.fin ≠ none ∨ i ∈ rest.map Frame.id) :
    (b.modify f.id g).sections[i]? = some s := by
  have hne : f.id ≠ i := by
    rintro rfl
    rcases hs with hfin | hmem
    · rw [h.record, Option.some_inj] at hi
      exact hfin (hi ▸ rfl)
    · exact (List.nodup_cons.mp h.nodup).1 hmem
  rw [Buffer.modify, List.getElem?_modify_ne _ _ hne, hi]

/-- A change of the innermost section. -/
theorem Sim.modify_record (h : Sim σ initial b (f :: rest)) (g : Section → Section) :
    (b.modify f.id g).sections[f.id]?
      = some (g (opened σ (rest.head?.map Frame.id) (startOf initial rest) f)) := by
  rw [Buffer.modify, List.getElem?_modify_eq, h.record]
  rfl

/-- A placeholder that the section owns is in the text behind its last child. -/
theorem countsOwn_of_owns {sections : List Section} {start : ℕ} {body : Body}
    (hplaced : Placed sections f.id start body) {text : Propertied ℕ} {h : Placeholder}
    (hh : placeholder text (start + body.size) = some h) (hstart : start ≤ h.pos (start + body.size))
    (hends : EndsBefore sections (h.pos (start + body.size)) body) :
    ∃ front c c' chars back, body = front ++ .char c (.char c' (.ofChars chars)) ++ back ∧
      h.pos (start + body.size) = start + front.size ∧ body.size = front.size + 2 + chars.length := by
  have hpos := placeholder_pos hh
  obtain ⟨front, chars, hbody, hfront⟩ := hplaced.split hstart (by omega) hends
  have hsize : body.size = front.size + chars.length := by
    rw [hbody, Body.size_append, Body.size_ofChars]
  match chars with
  | [] => rw [List.length_nil] at hsize; omega
  | [c] => rw [List.length_singleton] at hsize; omega
  | c :: c' :: chars =>
    refine ⟨front, c, c', chars, .nil, by rw [Body.append_nil]; exact hbody, hfront, ?_⟩
    rw [hsize, List.length_cons, List.length_cons]
    omega

/-- A heading with its count keeps the simulation. -/
theorem Sim.insertHeadingText (h : Sim σ initial b (f :: rest)) (count : Option Count)
    (heading : List Char) :
    ∃ f', f'.id = f.id ∧ Sim σ initial (b.insertHeadingText σ count heading) (f' :: rest) := by
  have hinsert : ∀ {b} chars, (∃ f', f'.id = f.id ∧ Sim σ initial b (f' :: rest)) →
      ∃ f', f'.id = f.id ∧ Sim σ initial (b.insert chars) (f' :: rest) := by
    rintro b chars ⟨f', hid, h'⟩
    exact ⟨f'.extend (.ofChars chars), hid, h'.insert chars⟩
  have hheading := hinsert heading ⟨f, rfl, h⟩
  have hcount : ∃ f', f'.id = f.id ∧
      Sim σ initial ((b.insert heading).insertCount σ count) (f' :: rest) := by
    unfold Buffer.insertCount
    split
    · split
      · exact hinsert _ hheading
      · exact hheading
    · exact hheading
  unfold Buffer.insertHeadingText
  dsimp only
  split
  · exact hcount
  · exact hinsert _ hcount

/-- The heading ends here. -/
theorem Sim.setContent (h : Sim σ initial b (f :: rest))
    (howns : (b.setContent f.id).ownsPlaceholder σ f.id = true) :
    Sim σ initial (b.setContent f.id) ({ f with content := some f.body.size } :: rest) := by
  have hpoint : b.point = startOf initial rest + f.body.size := h.point_eq
  have hrecord : (b.setContent f.id).sections[f.id]? = some (opened σ (rest.head?.map Frame.id)
      (startOf initial rest) { f with content := some f.body.size }) := by
    rw [Buffer.setContent, h.modify_record, hpoint]
    rfl
  have hsame : ∀ (i : ℕ) (s : Section), b.sections[i]? = some s →
      s.fin ≠ none ∨ i ∈ rest.map Frame.id → (b.setContent f.id).sections[i]? = some s :=
    fun i s => h.modify_of_ne _
  have hplaced := h.sections.2.2.1.of_closed fun i s hi hfin => hsame i s hi (.inl hfin)
  constructor
  · exact h.text
  · refine ⟨hrecord, ?_, hplaced, h.sections.2.2.2.of_same hsame⟩
    intro k hk
    cases hk
    refine ⟨le_rfl, fun hσ p hp => ?_⟩
    have hp' : placeholder (b.setContent f.id).text (startOf initial rest + f.body.size)
        = some p := by
      rw [show (b.setContent f.id).text = b.text from rfl, h.text]
      exact hp
    rw [Buffer.ownsPlaceholder, Buffer.get_eq hrecord] at howns
    simp only [hσ, opened, Option.map_some, Option.all_some, hp', Bool.not_true, Bool.false_or,
      Bool.and_eq_true, List.all_eq_true, mem_order] at howns
    refine countsOwn_of_owns (f := f) hplaced hp (of_decide_eq_true howns.1)
      fun i hi s hs fin hfin => ?_
    have hend := howns.2 i hi
    rw [Buffer.get_eq hs, hfin] at hend
    exact of_decide_eq_true hend
  · exact h.nodup
  · rw [show (b.setContent f.id).root = b.root from rfl, h.root]
    cases rest <;> rfl
  · exact h.linked.modify _ fun s => rfl

/-- `magit-insert-heading` -/
theorem Sim.magitInsertHeading (h : Sim σ initial b (f :: rest)) (count : Option Count)
    (heading : List Char)
    (howns : (b.magitInsertHeading σ f.id count heading).ownsPlaceholder σ f.id = true) :
    ∃ f', f'.id = f.id ∧ Sim σ initial (b.magitInsertHeading σ f.id count heading) (f' :: rest) := by
  obtain ⟨f', hid, h'⟩ := h.insertHeadingText count heading
  rw [Buffer.magitInsertHeading, ← hid] at howns ⊢
  exact ⟨{ f' with content := some f'.body.size }, rfl, h'.setContent howns⟩

/-- `magit-cancel-section` -/
theorem Sim.magitCancelSection (h : Sim σ initial b (f :: rest)) (ifEmpty : Bool) :
    (∃ b' f', b.magitCancelSection f.id ifEmpty = .ok b' ∧ f'.id = f.id ∧
        Sim σ initial b' (f' :: rest)) ∨
      ∃ b', b.magitCancelSection f.id ifEmpty = .error b' ∧ rest ≠ [] ∧ Sim σ initial b' rest := by
  unfold Buffer.magitCancelSection
  dsimp only
  split
  · split
    · exact .inl ⟨_, f.extend (.ofChars "(empty)\n".toList), rfl, rfl, h.insert _⟩
    · next hroot =>
      have hrest : rest ≠ [] := fun hrest => hroot (h.root_iff.mpr hrest)
      refine .inr ⟨_, rfl, hrest, ?_⟩
      rw [h.get_eq]
      constructor
      · have htext : b.text = textOf initial rest ++ f.body.cells none ++ [] := by
          rw [List.append_nil, h.text, textOf]
        refine (deleteText_append htext rfl ?_).trans (List.append_nil _)
        rw [h.point_eq, Body.length_cells, startOf, Nat.add_right_comm]
      · refine h.sections.2.2.2.before (Marker.within_deleted le_rfl ?_ (le_refl b.point)) le_rfl
        rw [h.point_eq]
        exact Nat.le_add_right _ _
      · exact (List.nodup_cons.mp h.nodup).2
      · rw [show (b.deleteRegion _ _).root = b.root from rfl, h.root]
        obtain ⟨g, rest, rfl⟩ := List.exists_cons_of_ne_nil hrest
        rw [List.getLast?_cons_cons]
      · exact h.linked.move _
  · exact .inl ⟨b, f, rfl, rfl, h⟩

end Magit.Insertion

import Magit.Section.InsertSteps

/-!
# Section/InsertFinish — what happens when a section is finished

The number of children goes into the heading, what is behind it moves, and the text property is
given to the text that belongs to none of the children.
-/

namespace Magit.Insertion

open Emacs Propertied

/-! ## Filling the gaps -/

/-- One round of the loop, at a stretch of text with one value of the property. -/
theorem fill_stretch (obj : ℕ) (done piece rest : Propertied ℕ) {value : Option ℕ}
    (hpiece : ∀ c ∈ piece, c.2 = value) :
    (if value.isNone = true then
        (done ++ piece ++ rest).addProperty (done.length + 1) (done.length + 1 + piece.length) obj
      else done ++ piece ++ rest)
      = done ++ piece.map (filled obj) ++ rest := by
  cases value with
  | none => exact (addProperty_append done piece rest obj).trans (by rw [map_filled_of_none hpiece])
  | some value =>
    rw [map_filled_of_some hpiece]
    rfl

/-- Up to the end of the buffer, every character without the property gets it. -/
theorem fillGaps_eq (obj : ℕ) : ∀ (n : ℕ) (done rest : Propertied ℕ), rest.length ≤ n →
    fillGaps obj ((done ++ rest).length + 1) n (done.length + 1) (done ++ rest)
      = done ++ rest.map (filled obj) := by
  intro n
  induction n with
  | zero =>
    intro done rest hrest
    rw [List.eq_nil_of_length_eq_zero (Nat.le_zero.mp hrest)]
    rfl
  | succ n ih =>
    intro done rest hrest
    cases rest with
    | nil =>
      rw [fillGaps, if_neg (by simp)]
      rfl
    | cons c cs =>
      rw [List.length_cons] at hrest
      have hlt : done.length + 1 < (done ++ c :: cs).length + 1 := by
        rw [List.length_append, List.length_cons]
        omega
      have hat : (done ++ c :: cs).propertyAt (done.length + 1) = c.2 :=
        propertyAt_append done (c :: cs) 0
      have hnext := nextChange_append done c cs
      -- the text with the same value, and what follows it
      have hcs := List.takeWhile_append_dropWhile (p := fun c' : Char × Option ℕ => c'.2 = c.2)
        (l := cs)
      have hsame : ∀ c' ∈ c :: cs.takeWhile (·.2 = c.2), c'.2 = c.2 := by
        intro c' hc'
        rcases List.mem_cons.mp hc' with rfl | hc'
        · rfl
        · simpa using List.mem_takeWhile_imp hc'
      generalize cs.takeWhile (·.2 = c.2) = same at hnext hcs hsame
      generalize cs.dropWhile (·.2 = c.2) = cs' at hcs
      subst hcs
      have hstretch := fill_stretch obj done (c :: same) cs' hsame
      rw [List.length_append] at hrest
      have hdone := ih (done ++ (c :: same).map (filled obj)) cs' (by omega)
      rw [fillGaps, if_pos hlt]
      dsimp only
      rw [hnext, hat]
      have htext : done ++ c :: (same ++ cs') = done ++ (c :: same) ++ cs' := by
        rw [List.append_assoc, List.cons_append]
      have hlen : (done ++ c :: (same ++ cs')).length
          = (done ++ (c :: same).map (filled obj) ++ cs').length := by
        rw [htext, List.length_append, List.length_append, List.length_append, List.length_append,
          List.length_map]
      have hp : done.length + 1 + same.length + 1
          = (done ++ (c :: same).map (filled obj)).length + 1 := by
        rw [List.length_append, List.length_map, List.length_cons]
        omega
      have hround := (congrArg (fun text : Propertied ℕ => if c.2.isNone = true then
        text.addProperty (done.length + 1) (done.length + 1 + same.length + 1) obj else text)
          htext).trans hstretch
      rw [hround, hlen, hp, hdone, List.append_assoc, ← List.map_append, List.cons_append]

/-! ## A section that is about to be finished -/

/-- As if the section were not finished. -/
def reopen (obj : ℕ) (sections : List Section) : List Section :=
  sections.modify obj fun s => { s with fin := none }

theorem getElem?_reopen_of_ne {obj i : ℕ} (hne : obj ≠ i) (sections : List Section) :
    (reopen obj sections)[i]? = sections[i]? :=
  List.getElem?_modify_ne _ _ hne

/-- A reopened section has no end. -/
theorem fin_of_getElem?_reopen {obj : ℕ} {sections : List Section} {s : Section}
    (h : (reopen obj sections)[obj]? = some s) : s.fin = none := by
  rw [reopen, List.getElem?_modify_eq] at h
  obtain ⟨s', -, rfl⟩ := Option.map_eq_some_iff.mp h
  rfl

/-- Reopening and moving the markers do not depend on their order. -/
theorem reopen_map (obj : ℕ) (sections : List Section) (e : Marker → Marker) :
    (reopen obj sections).map (·.move e) = reopen obj (sections.map (·.move e)) := by
  refine List.ext_getElem? fun i => ?_
  rw [List.getElem?_map, reopen, reopen, List.getElem?_modify, List.getElem?_modify,
    List.getElem?_map]
  cases sections[i]? with
  | none => rfl
  | some s =>
    simp only [Option.map_eq_map, Option.map_some]
    split <;> rfl

/-- The slots of a section whose end is set; the children are yet to be put in order. -/
def ending (σ : Settings) (parent start : ℕ) (content : Option ℕ) (inner : Body) : Section :=
  { closed (some parent) start content inner with children := σ.order inner.ids }

/-- The end of the section is set, and the text in front of it is what was in it before the number
of children went in. -/
structure Closing (σ : Settings) (initial : Propertied ℕ) (b : Buffer) (obj : ℕ)
    (owner : Option ℕ) (extra : List Char) (content : Option ℕ) (body : Body) (g : Frame)
    (rest : List Frame) : Prop where
  text : b.text = textOf initial (g :: rest) ++ plain extra ++ body.cells owner
  record : b.sections[obj]?
    = some (ending σ g.id (startOf initial (g :: rest) + extra.length) content body)
  content_le : ∀ k ∈ content, k ≤ body.size
  size_pos : 0 < body.size
  placed : Placed (reopen obj b.sections) obj (startOf initial (g :: rest) + extra.length) body
  sections : Opened σ initial (reopen obj b.sections) (g :: rest)
  notMem : obj ∉ (g :: rest).map Frame.id
  nodup : ((g :: rest).map Frame.id).Nodup
  root : b.root = (g :: rest).getLast?.map Frame.id
  linked : Linked (some obj) b.sections

section

variable {σ : Settings} {initial : Propertied ℕ} {b : Buffer} {f g : Frame} {rest : List Frame}

/-- The end is set. -/
theorem Sim.close (h : Sim σ initial b (f :: g :: rest)) (hsize : 0 < f.body.size) :
    Closing σ initial (b.modify f.id (·.close b.point)) f.id none [] f.content f.body g rest := by
  have hsame : ∀ (i : ℕ) (s : Section), b.sections[i]? = some s →
      s.fin ≠ none ∨ i ∈ (g :: rest).map Frame.id →
        (reopen f.id (b.modify f.id (·.close b.point)).sections)[i]? = some s := by
    intro i s hi hs
    have hne : f.id ≠ i := by
      rintro rfl
      rcases hs with hfin | hmem
      · rw [h.record, Option.some_inj] at hi
        exact hfin (hi ▸ rfl)
      · exact (List.nodup_cons.mp h.nodup).1 hmem
    rw [getElem?_reopen_of_ne hne]
    exact h.modify_of_ne _ hi hs
  constructor
  · rw [show (b.modify f.id (·.close b.point)).text = b.text from rfl, h.text, textOf]
    simp [plain]
  · rw [h.modify_record, h.point_eq]
    rfl
  · exact fun k hk => (h.sections.2.1 k hk).1
  · exact hsize
  · exact h.sections.2.2.1.of_closed fun i s hi hfin => hsame i s hi (.inl hfin)
  · exact h.sections.2.2.2.of_same hsame
  · exact (List.nodup_cons.mp h.nodup).1
  · exact (List.nodup_cons.mp h.nodup).2
  · rw [show (b.modify f.id (·.close b.point)).root = b.root from rfl, h.root,
      List.getLast?_cons_cons]
  · exact h.linked.close _ _

/-! ## The number of children -/

/-- A character is replaced by `n` of them, and what is behind it and the next one moves. -/
structure Replaced (e : Marker → Marker) (p n : ℕ) : Prop where
  within : Marker.Within e p (p + 2) (p + 1 + n)
  advances : e ⟨p, true⟩ = ⟨p + n, true⟩

theorem inserted_self (p n : ℕ) : Marker.inserted p n ⟨p, true⟩ = ⟨p + n, true⟩ := by
  rw [Marker.inserted, if_pos (Or.inr ⟨rfl, rfl⟩)]

theorem deleted_beg (p q : ℕ) (advances : Bool) :
    Marker.deleted p q ⟨p, advances⟩ = ⟨p, advances⟩ :=
  Marker.deleted_of_le le_rfl

theorem move_move (sections : List Section) (e e' : Marker → Marker) :
    (sections.map (·.move e)).map (·.move e') = sections.map (·.move (e' ∘ e)) := by
  rw [List.map_map]
  refine List.map_congr_left fun s _ => ?_
  simp only [Function.comp_apply, Section.move, Option.map_map]

/-- A character of the text is replaced. -/
structure Replacement (p : ℕ) (piece : List Char) (b b' : Buffer) : Prop where
  sections : ∃ e, Replaced e p piece.length ∧ b'.sections = b.sections.map (·.move e)
  root : b'.root = b.root
  text : ∀ front c back, b.text = front ++ [c] ++ back → p = front.length + 1 →
    b'.text = front ++ plain piece ++ back

/-- Inserting first. -/
theorem replacement_colon (p : ℕ) (piece : List Char) (b : Buffer) :
    Replacement p piece b ((b.insertAt p piece).deleteRegion (p + piece.length)
      (p + piece.length + 1)) where
  sections := by
    have hinserted := Marker.within_inserted piece.length (le_refl p)
      (show p < p + 2 by omega)
    have hdeleted := Marker.within_deleted (show p ≤ p + piece.length by omega)
      (Nat.le_succ _) (show p + piece.length + 1 ≤ p + 2 + piece.length by omega)
    have hboth := hdeleted.comp hinserted
    rw [show p + 2 + piece.length - (p + piece.length + 1 - (p + piece.length))
      = p + 1 + piece.length by omega] at hboth
    refine ⟨_, ⟨hboth, ?_⟩, move_move _ _ _⟩
    rw [Function.comp_apply, inserted_self, deleted_beg]
  root := rfl
  text := fun front c back htext hp => by
    have hinsert : insertText b.text p (plain piece) = front ++ plain piece ++ ([c] ++ back) :=
      insertText_append (htext.trans (List.append_assoc _ _ _)) hp
    have hthen : insertText b.text p (plain piece) = front ++ plain piece ++ [c] ++ back :=
      hinsert.trans (List.append_assoc _ _ _).symm
    refine deleteText_append hthen ?_ ?_
    · rw [List.length_append, length_plain, hp, Nat.add_right_comm]
    · rw [List.length_append, length_plain, hp, List.length_singleton]
      omega

/-- Deleting first. -/
theorem replacement_t (p : ℕ) (piece : List Char) (b : Buffer) :
    Replacement p piece b ((b.deleteRegion p (p + 1)).insertAt p piece) where
  sections := by
    have hdeleted := Marker.within_deleted (le_refl p) (Nat.le_succ p)
      (show p + 1 ≤ p + 2 by omega)
    have hinserted := Marker.within_inserted piece.length (le_refl p) (Nat.lt_succ_self p)
    rw [show p + 2 - (p + 1 - p) = p + 1 by omega] at hdeleted
    refine ⟨_, ⟨hinserted.comp hdeleted, ?_⟩, move_move _ _ _⟩
    rw [Function.comp_apply, deleted_beg, inserted_self]
  root := rfl
  text := fun front c back htext hp => by
    have hdelete : deleteText b.text p (p + 1) = front ++ back :=
      deleteText_append htext hp (by rw [hp, List.length_singleton])
    exact insertText_append hdelete hp

/-- **What `magit-insert-child-count` does** — nothing, or it replaces a character of a
placeholder. -/
theorem magitInsertChildCount_cases (b : Buffer) (obj : ℕ) :
    b.magitInsertChildCount σ obj = b ∨
      ∃ content h piece, (b.get obj).content = some content ∧ σ.showChildCount = true ∧
        placeholder b.text content.pos = some h ∧
        Replacement (h.pos content.pos) piece b (b.magitInsertChildCount σ obj) := by
  unfold Buffer.magitInsertChildCount
  split
  · exact .inl rfl
  · next content hcontent =>
    dsimp only
    split
    · next hσ =>
      cases hh : placeholder b.text content.pos with
      | none => exact .inl rfl
      | some h =>
        cases h with
        | colon => exact .inr ⟨content, .colon, _, hcontent, hσ.1, hh, replacement_colon _ _ _⟩
        | t => exact .inr ⟨content, .t, _, hcontent, hσ.1, hh, replacement_t _ _ _⟩
    · exact .inl rfl

/-- The slots of the section itself, when something in it is replaced by `n` characters. -/
theorem ending_move {e : Marker → Marker} {p n start start' k k' parent : ℕ} {inner inner' : Body}
    (he : Replaced e p n) (hstart : e ⟨start, true⟩ = ⟨start', true⟩) (hk : p + 2 ≤ start + k)
    (hle : k ≤ inner.size) (hk' : start' + k' + 1 = start + k + n)
    (hsize : start' + inner'.size + 1 = start + inner.size + n) (hids : inner'.ids = inner.ids) :
    (ending σ parent start (some k) inner).move e = ending σ parent start' (some k') inner' := by
  have hbehind : ∀ {q q'}, p + 2 ≤ q → q' + 1 = q + n → e ⟨q, false⟩ = ⟨q', false⟩ := by
    intro q q' hq hq'
    rw [he.within.behind _ hq]
    exact congrArg (Marker.mk · false) (show q - (p + 2) + (p + 1 + n) = q' by omega)
  simp only [Section.move, ending, closed, hstart, Option.map_some, hbehind hk hk',
    hbehind (show p + 2 ≤ start + inner.size by omega) hsize, hids]

/-- The number of children goes into the section, or if its heading starts with the placeholder, in
front of it. -/
theorem Closing.magitInsertChildCount {obj : ℕ} {content : Option ℕ} {body : Body}
    (h : Closing σ initial b obj none [] content body g rest)
    (hcounts : Frame.CountsOwn σ b.text (startOf initial (g :: rest)) ⟨obj, content, body⟩) :
    ∃ extra content' body', Closing σ initial (b.magitInsertChildCount σ obj) obj none extra
      content' body' g rest := by
  rcases magitInsertChildCount_cases (σ := σ) b obj with heq | ⟨cm, p, piece, hcm, hσ, hp, hrep⟩
  · exact ⟨[], content, body, by rwa [heq]⟩
  generalize hstart : startOf initial (g :: rest) = start at h hcounts
  obtain ⟨k, hk, hcm⟩ : ∃ k ∈ content, cm.pos = start + k := by
    rw [Buffer.get_eq h.record, hstart] at hcm
    obtain ⟨k, hk, rfl⟩ := Option.map_eq_some_iff.mp hcm
    exact ⟨k, hk, rfl⟩
  cases hk
  rw [hcm] at hp hrep
  have hkle := (hcounts k rfl).1
  obtain ⟨front, c, c', chars, back, hbody, hpos, hk⟩ := (hcounts k rfl).2 hσ p hp
  obtain ⟨e, he, hsections⟩ := hrep.sections
  rw [hpos] at he
  have hreopen : reopen obj (b.magitInsertChildCount σ obj).sections
      = (reopen obj b.sections).map (·.move e) := by rw [hsections, reopen_map]
  -- whatever is in the section now, nothing else has changed
  have hclosing : ∀ extra k' body', e ⟨start, true⟩ = ⟨start + extra.length, true⟩ →
      (b.magitInsertChildCount σ obj).text
        = textOf initial (g :: rest) ++ plain extra ++ body'.cells none →
      body'.ids = body.ids → start + extra.length + body'.size + 1
        = start + body.size + piece.length →
      start + extra.length + k' + 1 = start + k + piece.length → k' ≤ body'.size →
      0 < body'.size →
      Placed (reopen obj (b.magitInsertChildCount σ obj).sections) obj (start + extra.length)
        body' →
      Closing σ initial (b.magitInsertChildCount σ obj) obj none extra (some k') body' g rest := by
    intro extra k' body' hadvances htext hids hsize hk' hle hpositive hplaced
    constructor
    · exact htext
    · have hrecord := h.record
      rw [List.length_nil, Nat.add_zero, hstart] at hrecord
      rw [hsections, List.getElem?_map, hrecord, Option.map_some, hstart,
        ending_move he hadvances (by omega) hkle hk' hsize hids]
    · exact fun k hk => by cases hk; exact hle
    · exact hpositive
    · rwa [hstart]
    · rw [hreopen]
      exact h.sections.before he.within (by rw [← hstart]; exact Nat.le_add_right _ _)
    · exact h.notMem
    · exact h.nodup
    · rw [hrep.root, h.root]
    · rw [hsections]
      exact h.linked.move e
  have htext := hrep.text (textOf initial (g :: rest) ++ front.cells none) (c, none)
    ((Body.char c' (.ofChars chars) ++ back).cells none) (by
      rw [h.text, show body = _ from hbody]
      simp [Body.cells_append, Body.cells, plain]) (by
      rw [hpos, List.length_append, Body.length_cells, ← hstart, startOf, Nat.add_right_comm])
  have hplaced := h.placed
  rw [List.length_nil, Nat.add_zero, hstart, show body = _ from hbody, placed_append,
    placed_append] at hplaced
  obtain ⟨⟨hfront, -⟩, hback⟩ := hplaced
  have hsize : body.size = front.size + (chars.length + 2) + back.size := by
    rw [show body = _ from hbody]
    simp only [Body.size_append, Body.size, Body.size_ofChars]
  simp only [Body.size_append, Body.size, Body.size_ofChars] at hback
  have hback' := hback.behind he.within (by omega)
  rw [← hreopen] at hback'
  rcases Nat.eq_zero_or_pos front.size with hzero | hpositive
  · -- the marker in the slot `start` is at the placeholder, and it advances
    obtain rfl := hfront.eq_nil hzero
    refine ⟨piece, _, _, hclosing piece (chars.length + 1) (.char c' (.ofChars chars) ++ back)
      he.advances ?_ ?_ ?_ ?_ ?_ ?_ ?_⟩
    · rw [htext, Body.cells, List.append_nil]
    · rw [show body = _ from hbody, Body.nil_append, Body.ids_append, Body.ids_append]
      rfl
    · rw [hsize]
      simp only [Body.size_append, Body.size, Body.size_ofChars]
      omega
    · rw [hk, Body.size]
      omega
    · simp only [Body.size_append, Body.size, Body.size_ofChars]
      omega
    · rw [Body.size_append, Body.size]
      omega
    · refine placed_append.mpr ⟨placed_ofChars (c' :: chars), ?_⟩
      convert hback' using 1
      rw [Body.size, Body.size, Body.size_ofChars]
      omega
  · have hfront' := hfront.before he.within le_rfl
    rw [← hreopen] at hfront'
    refine ⟨[], _, _, hclosing [] (front.size + piece.length + (chars.length + 1))
      (front ++ .ofChars piece ++ (.char c' (.ofChars chars) ++ back)) ?_ ?_ ?_ ?_ ?_ ?_ ?_ ?_⟩
    · exact he.within.before _ (.inl (show start < start + front.size by omega))
    · rw [htext]
      simp [Body.cells_append, Body.cells_ofChars, plain]
    · rw [show body = _ from hbody]
      simp [Body.ids]
    · rw [hsize]
      simp only [Body.size_append, Body.size, Body.size_ofChars, List.length_nil]
      omega
    · rw [hk, List.length_nil]
      omega
    · simp only [Body.size_append, Body.size, Body.size_ofChars]
      omega
    · rw [Body.size_append, Body.size_append]
      omega
    · refine placed_append.mpr ⟨placed_append.mpr ⟨hfront', placed_ofChars piece⟩,
        placed_append.mpr ⟨placed_ofChars (c' :: chars), ?_⟩⟩
      convert hback' using 1
      simp only [Body.size_append, Body.size, Body.size_ofChars, List.length_nil]
      omega

/-! ## The property, and the children of the parent -/

theorem order_eq_nil {ids : List ℕ} : σ.order ids = [] ↔ ids = [] := by
  unfold Settings.order
  split
  · exact List.reverse_eq_nil_iff
  · exact Iff.rfl

/-- Text without sections belongs to none. -/
theorem mem_cells_of_ids {body : Body} (hids : body.ids = []) : ∀ c ∈ body.cells none, c.2 = none := by
  induction body with
  | nil => exact fun c hc => absurd hc List.not_mem_nil
  | char ch rest ih =>
    intro c hc
    rcases List.mem_cons.mp hc with rfl | hc
    · rfl
    · exact ih hids c hc
  | sect id content inner rest _ _ => exact absurd hids (List.cons_ne_nil _ _)

/-- The text between start and end that had no value of the property gets one. -/
theorem Closing.filled {obj : ℕ} {extra : List Char} {content : Option ℕ} {body : Body}
    (h : Closing σ initial b obj none extra content body g rest) {text : Propertied ℕ}
    (htext : text = textOf initial (g :: rest) ++ plain extra ++ (body.cells none).map (filled obj)) :
    Closing σ initial { b with text } obj (some obj) extra content body g rest where
  text := by rw [htext, Body.map_filled_cells]
  record := h.record
  content_le := h.content_le
  size_pos := h.size_pos
  placed := h.placed
  sections := h.sections
  notMem := h.notMem
  nodup := h.nodup
  root := h.root
  linked := h.linked

/-- The section that is closed begins behind what is around it. -/
theorem Closing.start_eq {obj : ℕ} {owner : Option ℕ} {extra : List Char} {content : Option ℕ}
    {body : Body} (h : Closing σ initial b obj owner extra content body g rest) :
    (b.get obj).start.pos = (textOf initial (g :: rest) ++ plain extra).length + 1 := by
  rw [Buffer.get_eq h.record, List.length_append, length_plain]
  exact Nat.add_right_comm _ _ _

theorem Closing.point_eq {obj : ℕ} {owner : Option ℕ} {extra : List Char} {content : Option ℕ}
    {body : Body} (h : Closing σ initial b obj owner extra content body g rest) :
    b.point = (textOf initial (g :: rest) ++ plain extra).length + 1 + (body.cells owner).length := by
  rw [Buffer.point, h.text, List.length_append, Nat.add_right_comm]

/-- Filling in the counts leaves the section as it was, apart from its text. -/
theorem Closing.fill {obj : ℕ} {content : Option ℕ} {body : Body}
    (h : Closing σ initial b obj none [] content body g rest)
    (hcounts : Frame.CountsOwn σ b.text (startOf initial (g :: rest)) ⟨obj, content, body⟩) :
    ∃ extra content' body', Closing σ initial (b.fill σ obj) obj (some obj) extra content' body' g
      rest := by
  unfold Buffer.fill
  dsimp only
  split
  · next hchildren =>
    refine ⟨[], content, body, h.filled ?_⟩
    have hids : body.ids = [] := by
      rw [Buffer.get_eq h.record, List.isEmpty_iff] at hchildren
      exact order_eq_nil.mp hchildren
    rw [h.start_eq, h.point_eq, map_filled_of_none (mem_cells_of_ids hids)]
    have hadd := addProperty_append (textOf initial (g :: rest) ++ plain []) (body.cells none) [] obj
    rwa [List.append_nil, List.append_nil, ← h.text] at hadd
  · obtain ⟨extra, content', body', h'⟩ := h.magitInsertChildCount hcounts
    refine ⟨extra, content', body', h'.filled ?_⟩
    have hfill := fillGaps_eq obj (body'.cells none).length
      (textOf initial (g :: rest) ++ plain extra) (body'.cells none) le_rfl
    rw [← h'.text] at hfill
    have hrounds : (b.magitInsertChildCount σ obj).point
        - ((textOf initial (g :: rest) ++ plain extra).length + 1) = (body'.cells none).length := by
      rw [h'.point_eq, Nat.add_sub_cancel_left]
    rw [h'.start_eq, hrounds]
    exact hfill

/-- Putting children in order twice leaves them as they were: the order is the same or the reverse.
-/
theorem order_order (ids : List ℕ) : σ.order (σ.order ids) = ids := by
  unfold Settings.order
  split
  · exact List.reverse_reverse ids
  · rfl

/-- The children of the section are put in order. -/
def reorder (σ : Settings) (s : Section) : Section := { s with children := σ.order s.children }

/-- The children are reversed exactly if the sections are inserted in reverse. -/
theorem modify_reorder (b : Buffer) (obj : ℕ) :
    (if σ.insertInReverse = true then
        b.modify obj fun s => { s with children := s.children.reverse }
      else b) = b.modify obj (reorder σ) := by
  by_cases hσ : σ.insertInReverse = true
  · rw [if_pos hσ]
    congr 1
    funext s
    rw [reorder, Settings.order, if_pos hσ]
  · have hid : reorder σ = id := funext fun s => by
      rw [reorder, Settings.order, if_neg hσ]
      rfl
    rw [if_neg hσ, Buffer.modify, hid, List.modify_id]

/-- The section becomes a child of its parent. -/
theorem Closing.addChild {obj : ℕ} {extra : List Char} {content : Option ℕ} {body : Body}
    (h : Closing σ initial b obj (some obj) extra content body g rest) :
    Sim σ initial ((b.addChild σ obj).modify obj (reorder σ))
      (g.extend (.ofChars extra ++ .sect obj content body .nil) :: rest) := by
  have hparent : (b.get obj).parent = some g.id := by rw [Buffer.get_eq h.record]; rfl
  have hne : obj ≠ g.id := fun heq => h.notMem (heq ▸ List.mem_cons_self)
  have hgrecord := h.sections.1
  rw [getElem?_reopen_of_ne hne] at hgrecord
  -- the section, its parent, and all the rest
  have hobj : ((b.addChild σ obj).modify obj (reorder σ)).sections[obj]?
      = some (closed (some g.id) (startOf initial (g :: rest) + extra.length) content body) := by
    simp only [Buffer.addChild, hparent, Buffer.modify]
    rw [List.getElem?_modify_eq, List.getElem?_modify_ne _ _ hne.symm, h.record, Option.map_eq_map,
      Option.map_some, reorder, ending]
    dsimp only
    rw [order_order]
    rfl
  have hg : ((b.addChild σ obj).modify obj (reorder σ)).sections[g.id]?
      = some (opened σ (rest.head?.map Frame.id) (startOf initial rest)
          (g.extend (.ofChars extra ++ .sect obj content body .nil))) := by
    simp only [Buffer.addChild, hparent, Buffer.modify]
    rw [List.getElem?_modify_ne _ _ hne, List.getElem?_modify_eq, hgrecord, Option.map_eq_map,
      Option.map_some]
    simp only [opened, Frame.extend, Body.ids_append, Body.ids_ofChars, Body.ids, Settings.order,
      List.nil_append, startOf]
    split
    · rw [List.reverse_append]
      rfl
    · rfl
  have hsame : ∀ (i : ℕ) (s : Section), (reopen obj b.sections)[i]? = some s →
      s.fin ≠ none ∨ i ∈ rest.map Frame.id →
        ((b.addChild σ obj).modify obj (reorder σ)).sections[i]? = some s := by
    intro i s hi hs
    have hobji : obj ≠ i := by
      rintro rfl
      rcases hs with hfin | hmem
      · exact hfin (fin_of_getElem?_reopen hi)
      · exact h.notMem (List.mem_cons_of_mem _ hmem)
    rw [getElem?_reopen_of_ne hobji] at hi
    have hgi : g.id ≠ i := by
      rintro rfl
      rcases hs with hfin | hmem
      · rw [hgrecord, Option.some_inj] at hi
        exact hfin (hi ▸ rfl)
      · exact (List.nodup_cons.mp h.nodup).1 hmem
    simp only [Buffer.addChild, hparent, Buffer.modify]
    rw [List.getElem?_modify_ne _ _ hobji, List.getElem?_modify_ne _ _ hgi, hi]
  obtain ⟨-, hcounts, hplaced, hrest⟩ := h.sections
  have hbody := h.placed.of_closed fun i s hi hfin => hsame i s hi (.inl hfin)
  have hcells : textOf initial (g.extend (.ofChars extra ++ .sect obj content body .nil) :: rest)
      = textOf initial (g :: rest) ++ (plain extra ++ body.cells (some obj)) := by
    rw [textOf, textOf, Frame.extend, Body.cells_append, Body.cells_append, Body.cells_ofChars,
      Body.cells, Body.cells, List.append_nil, List.append_assoc]
  constructor
  · rw [hcells, ← List.append_assoc, ← h.text]
    simp only [Buffer.addChild, hparent, Buffer.modify]
  · refine ⟨hg, ?_, ?_, hrest.of_same hsame⟩
    · rw [hcells]
      exact hcounts.extend length_textOf_cons _ _
    · refine placed_append.mpr ⟨hplaced.of_closed fun i s hi hfin => hsame i s hi (.inl hfin),
        placed_append.mpr ⟨placed_ofChars extra, ?_⟩⟩
      have hstart : (textOf initial rest).length + 1 + g.body.size + (Body.ofChars extra).size
          = startOf initial (g :: rest) + extra.length := by
        rw [Body.size_ofChars, startOf, length_textOf_cons, startOf]
      rw [hstart]
      exact ⟨hobj, h.size_pos, h.content_le, hbody, trivial⟩
  · exact h.nodup
  · simp only [Buffer.addChild, hparent, Buffer.modify]
    rw [h.root]
    cases rest <;> rfl
  · simp only [Buffer.addChild, hparent, Buffer.modify]
    refine Linked.modify (h.linked.addChild h.record rfl (Option.some_ne_none _) hgrecord ?_) obj fun s =>
      kin_eq_iff.mpr ⟨rfl, Iff.rfl, fun j => mem_order _ _⟩
    refine fun s => ⟨rfl, rfl, fun j => ?_⟩
    dsimp only
    split
    · rw [List.mem_cons, or_comm]
    · rw [List.mem_append, List.mem_singleton]

/-- `magit-insert-section--finish`, except for the root. -/
theorem Sim.magitInsertSectionFinish (h : Sim σ initial b (f :: g :: rest))
    (hsize : 0 < f.body.size) :
    ∃ g', g'.id = g.id ∧ Sim σ initial (b.magitInsertSectionFinish σ f.id) (g' :: rest) := by
  obtain ⟨extra, content, body, h'⟩ := (h.close hsize).fill (by
    rw [show (b.modify f.id (·.close b.point)).text = b.text from rfl, h.text]
    exact h.sections.2.1)
  have hroot : (b.modify f.id (·.close b.point)).root ≠ some f.id := fun hroot =>
    absurd (h.root_iff.mp hroot) (List.cons_ne_nil _ _)
  refine ⟨g.extend (.ofChars extra ++ .sect f.id content body .nil), rfl, ?_⟩
  rw [Buffer.magitInsertSectionFinish, if_neg hroot, modify_reorder]
  exact h'.addChild

end

end Magit.Insertion

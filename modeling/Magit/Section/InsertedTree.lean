import Magit.Section.InsertFinish
import Magit.Section.Laminar
import Mathlib.Data.List.Pairwise

/-!
# Section/InsertedTree — inserted sections are well formed

Once the root is finished its sections are inside each other, in order, and the text property leads
to the innermost one (`wellFormed_of_proper`).  It takes headings of the sections' own: a heading
that ends with a placeholder in front of its section is changed there (`not_wellFormed`).
-/

namespace Magit.Insertion

open Emacs Propertied

variable {σ : Settings}

/-! ## Runs -/

/-- **What a body does** — in the end the section that it is the body of holds more, or it has been
canceled and the text that is left is that of the sections around it. -/
theorem sim_run {initial : Propertied ℕ} (forms : Forms) :
    ∀ (b : Buffer) (f : Frame) (rest : List Frame), Sim σ initial b (f :: rest) →
      forms.proper σ f.id b = true →
      (∃ b' f', run σ forms f.id b = .ok b' ∧ f'.id = f.id ∧ Sim σ initial b' (f' :: rest)) ∨
        ∃ b', run σ forms f.id b = .error b' ∧ rest ≠ [] ∧ Sim σ initial b' rest := by
  induction forms with
  | done => exact fun b f rest h _ => .inl ⟨b, f, rfl, rfl, h⟩
  | insert text rest ih =>
    intro b f stack h hproper
    exact ih _ (f.extend (.ofChars text)) stack (h.insert text) hproper
  | insertHeading count heading rest ih =>
    intro b f stack h hproper
    rw [Forms.proper, Bool.and_eq_true] at hproper
    obtain ⟨f', hid, h'⟩ := h.magitInsertHeading count heading hproper.1
    have hrest := ih _ f' stack h' (hid ▸ hproper.2)
    rwa [hid] at hrest
  | cancelSection ifEmpty rest ih =>
    intro b f stack h hproper
    rw [Forms.proper] at hproper
    rcases h.magitCancelSection ifEmpty with ⟨b', f', hb', hid, h'⟩ | ⟨b', hb', hstack, h'⟩
    · rw [hb'] at hproper
      have hrest := ih _ f' stack h' (hid ▸ hproper)
      rw [hid] at hrest
      rw [run, hb']
      exact hrest
    · exact .inr ⟨b', by rw [run, hb']; rfl, hstack, h'⟩
  | insertSection body rest ihbody ih =>
    intro b f stack h hproper
    rw [Forms.proper, Bool.and_eq_true] at hproper
    obtain ⟨hbody, hrest⟩ := hproper
    rcases ihbody _ _ _ h.create hbody with ⟨b', f', hb', hid, h'⟩ | ⟨b', hb', -, h'⟩
    · dsimp only at hb' hid
      rw [hb', Bool.and_eq_true, ← hid, h'.get_eq, h'.point_eq] at hrest
      have hsize : 0 < f'.body.size := by
        have hlt := of_decide_eq_true hrest.1
        dsimp only [opened] at hlt
        omega
      obtain ⟨g, hg, hfinish⟩ := h'.magitInsertSectionFinish hsize
      have hrun := ih _ g stack hfinish (hg ▸ hrest.2)
      rw [hg] at hrun
      rw [run, hb', ← hid]
      exact hrun
    · dsimp only at hb'
      rw [hb'] at hrest
      rw [run, hb']
      exact ih _ f stack h' hrest

/-! ## The tree -/

/-- Everything is finished: the root holds the text from a position on. -/
structure Finished (initial : Propertied ℕ) (b : Buffer) (root : ℕ) (content : Option ℕ)
    (body : Body) : Prop where
  text : b.text = initial ++ body.cells none
  isRoot : b.root = some root
  record : b.sections[root]? = some (closed none (initial.length + 1) content body)
  content_le : ∀ k ∈ content, k ≤ body.size
  placed : Placed b.sections root (initial.length + 1) body
  linked : Linked none b.sections

/-- The end of the root is set; it has no parent. -/
theorem Linked.closeRoot {sections : List Section} (h : Linked none sections) {i p : ℕ}
    {s : Section} (hs : sections[i]? = some s) (hparent : s.parent = none) :
    Linked none (sections.modify i (·.close p)) := by
  have hclose := h.close i p
  refine ⟨hclose.ofChild, fun {j k t} ht htparent htfin => ?_⟩
  rcases hclose.ofParent ht htparent htfin with hpending | hchild
  · cases hpending
    rw [List.getElem?_modify_eq, hs] at ht
    cases ht
    exact absurd (hparent.symm.trans htparent) nofun
  · exact .inr hchild

/-- Finishing the root finishes the buffer. -/
theorem Sim.finishRoot {initial : Propertied ℕ} {b : Buffer} {f : Frame}
    (h : Sim σ initial b [f]) :
    Finished initial (b.magitInsertSectionFinish σ f.id) f.id f.content f.body := by
  have hroot : (b.modify f.id (·.close b.point)).root = some f.id := h.root
  rw [Buffer.magitInsertSectionFinish, if_pos hroot, modify_reorder]
  constructor
  · exact h.text
  · exact hroot
  · rw [Buffer.modify, List.getElem?_modify_eq, h.modify_record, h.point_eq, Option.map_eq_map,
      Option.map_some, reorder, Section.close, opened]
    dsimp only
    rw [order_order]
    rfl
  · exact fun k hk => (h.sections.2.1 k hk).1
  · refine h.sections.2.2.1.of_closed fun i s hi hfin => ?_
    have hne : f.id ≠ i := by
      rintro rfl
      rw [h.record, Option.some_inj] at hi
      exact hfin (hi ▸ rfl)
    rw [Buffer.modify, List.getElem?_modify_ne _ _ hne]
    exact h.modify_of_ne _ hi (.inl hfin)
  · exact (h.linked.closeRoot h.record rfl).modify _ fun s =>
      kin_eq_iff.mpr ⟨rfl, Iff.rfl, fun j => mem_order _ _⟩

/-- The body is inserted into a section that nothing is around. -/
theorem finished_of_proper (body : Forms) (initial : List Char)
    (hproper : body.proper σ 0 { (Buffer.mk (plain initial) [] none).magitInsertSectionCreate none
      with root := some 0 } = true) :
    ∃ content inner, Finished (plain initial)
      (magitInsertSection σ body ⟨plain initial, [], none⟩) 0 content inner := by
  have hinit : Sim σ (plain initial)
      { (Buffer.mk (plain initial) [] none).magitInsertSectionCreate none with root := some 0 }
      [⟨0, none, .nil⟩] := by
    constructor
    · exact (List.append_nil _).symm
    · exact ⟨by simp [opened, Settings.order, Body.ids, Buffer.magitInsertSectionCreate,
        Buffer.point, textOf], by rintro _ ⟨⟩, trivial, trivial⟩
    · exact List.nodup_cons.mpr ⟨List.not_mem_nil, List.nodup_nil⟩
    · rfl
    · exact (show Linked none [] from ⟨by simp, by simp⟩).create rfl rfl
  rcases sim_run body _ _ _ hinit hproper with ⟨b', f', hb', hid, h'⟩ | ⟨_, _, hnil, _⟩
  · refine ⟨f'.content, f'.body, ?_⟩
    have hfinish := h'.finishRoot
    rw [hid] at hfinish
    rw [magitInsertSection]
    dsimp only [List.length_nil] at hb' ⊢
    rw [hb']
    exact hfinish
  · exact absurd rfl hnil

/-! ## Well-formedness -/

namespace Buffer

/-- The position in the slot `start`. -/
def start (b : Buffer) (i : ℕ) : ℕ := (b.get i).start.pos

/-- The position in the slot `end`. -/
def fin (b : Buffer) (i : ℕ) : ℕ := ((b.get i).fin.getD default).pos

/-- The second section is in the slot `children` of the first. -/
def IsChild (b : Buffer) (i j : ℕ) : Prop := j ∈ (b.get i).children

/-- A section, and those in it at any depth. -/
def Inside (b : Buffer) : ℕ → ℕ → Prop := Relation.ReflTransGen b.IsChild

/-- The position is in the section. -/
def Covers (b : Buffer) (i q : ℕ) : Prop := b.start i ≤ q ∧ q < b.fin i

/-- The innermost section that covers a position; none if only the root does. -/
def Innermost (b : Buffer) (root q : ℕ) : Option ℕ → Prop
  | none => ∀ k, b.Inside root k → b.Covers k q → k = root
  | some j => b.Inside root j ∧ j ≠ root ∧ b.Covers j q ∧
      ∀ k, b.Inside root k → b.Covers k q → b.Inside k j

/-- **Section trees** — of the sections in the root, those are finished that have not been
canceled. -/
structure WellFormed (b : Buffer) (root : ℕ) : Prop where
  isRoot : b.root = some root
  finished : ∀ i, b.Inside root i → i < b.sections.length ∧ (b.get i).fin ≠ none
  start_le_fin : ∀ i, b.Inside root i → b.start i ≤ b.fin i
  heading : ∀ i, b.Inside root i → ∀ content ∈ (b.get i).content,
    b.start i ≤ content.pos ∧ content.pos ≤ b.fin i
  nested : ∀ i j, b.Inside root i → b.IsChild i j → b.start i ≤ b.start j ∧ b.fin j ≤ b.fin i
  inOrder : ∀ i, b.Inside root i → (b.get i).children.Pairwise fun j k => b.fin j ≤ b.start k
  isChild_iff : ∀ i j, b.Inside root i → (b.IsChild i j ↔
    j < b.sections.length ∧ (b.get j).parent = some i ∧ (b.get j).fin ≠ none)
  property : ∀ q, b.Innermost root q (b.text.propertyAt q)

/-- Where a section stands. -/
structure Located (b : Buffer) (i start : ℕ) (inner : Body) : Prop where
  record : ∃ parent content, b.sections[i]? = some (closed parent start content inner) ∧
    ∀ k ∈ content, k ≤ inner.size
  placed : Placed b.sections i start inner

variable {b : Buffer} {i j start : ℕ} {inner : Body}

theorem Located.start_eq (h : b.Located i start inner) : b.start i = start := by
  obtain ⟨parent, content, hrecord, -⟩ := h.record
  rw [Buffer.start, get_eq hrecord]
  rfl

theorem Located.fin_eq (h : b.Located i start inner) : b.fin i = start + inner.size := by
  obtain ⟨parent, content, hrecord, -⟩ := h.record
  rw [Buffer.fin, get_eq hrecord]
  rfl

theorem Located.isChild_iff (h : b.Located i start inner) : b.IsChild i j ↔ j ∈ inner.ids := by
  obtain ⟨parent, content, hrecord, -⟩ := h.record
  rw [IsChild, get_eq hrecord]
  rfl

theorem Located.covers_iff (h : b.Located i start inner) {q : ℕ} :
    b.Covers i q ↔ start ≤ q ∧ q < start + inner.size := by
  rw [Covers, h.start_eq, h.fin_eq]

end Buffer

section

variable {b : Buffer} {parent start : ℕ} {body : Body}

/-- The sections in a section take up parts of its text. -/
theorem Placed.located (h : Placed b.sections parent start body) {j : ℕ} (hj : j ∈ body.ids) :
    ∃ start' inner, b.Located j start' inner ∧ 0 < inner.size ∧ start ≤ start' ∧
      start' + inner.size ≤ start + body.size := by
  induction body generalizing start with
  | nil => exact absurd hj List.not_mem_nil
  | char c rest ih =>
    obtain ⟨start', inner, hloc, hpos, hstart, hfin⟩ := ih h.char hj
    rw [Body.size]
    exact ⟨start', inner, hloc, hpos, by omega, by omega⟩
  | sect id content inner rest _ ih =>
    obtain ⟨hid, hpos, hcontent, hinner, hrest⟩ := h
    rw [Body.size]
    rcases List.mem_cons.mp hj with rfl | hj
    · exact ⟨start, inner, ⟨⟨_, _, hid, hcontent⟩, hinner⟩, hpos, le_rfl, by omega⟩
    · obtain ⟨start', inner', hloc, hpos', hstart, hfin⟩ := ih hrest hj
      exact ⟨start', inner', hloc, hpos', by omega, by omega⟩

/-- Sections that are placed one after the other do not overlap. -/
theorem Placed.pairwise (h : Placed b.sections parent start body) :
    body.ids.Pairwise fun j k => b.fin j ≤ b.start k := by
  induction body generalizing start with
  | nil => exact .nil
  | char c rest ih => exact ih h.char
  | sect id content inner rest _ ih =>
    obtain ⟨hid, hpos, hcontent, hinner, hrest⟩ := h
    refine List.pairwise_cons.mpr ⟨fun k hk => ?_, ih hrest⟩
    obtain ⟨start', inner', hloc, -, hstart, -⟩ := hrest.located hk
    have hself : b.Located id start inner := ⟨⟨_, _, hid, hcontent⟩, hinner⟩
    rw [hself.fin_eq, hloc.start_eq]
    exact hstart

/-- **The property of a character** — it leads to the innermost section that covers it. -/
theorem Placed.owner (h : Placed b.sections parent start body) (owner : Option ℕ) {n : ℕ}
    (hn : n < body.size) :
    ∃ c r, (body.cells owner)[n]? = some (c, r) ∧
      ((r = owner ∧ ∀ j ∈ body.ids, ¬ b.Covers j (start + n)) ∨
        ∃ i ∈ body.ids, ∃ j, r = some j ∧ b.Inside i j ∧ b.Covers j (start + n) ∧
          ∀ k, b.IsChild j k → ¬ b.Covers k (start + n)) := by
  induction body generalizing parent start owner n with
  | nil => exact absurd hn (Nat.not_lt_zero n)
  | char c rest ih =>
    cases n with
    | zero =>
      refine ⟨c, owner, rfl, .inl ⟨rfl, fun j hj hcovers => ?_⟩⟩
      obtain ⟨start', inner, hloc, -, hstart, -⟩ := h.char.located hj
      have hle := (hloc.covers_iff.mp hcovers).1
      omega
    | succ n =>
      have hrest := ih h.char owner (n := n) (by rw [Body.size] at hn; omega)
      rwa [Nat.add_assoc, Nat.add_comm 1] at hrest
  | sect id content inner rest ihi ih =>
    obtain ⟨hid, hpos, hcontent, hinner, hrest⟩ := h
    have hself : b.Located id start inner := ⟨⟨_, _, hid, hcontent⟩, hinner⟩
    rw [Body.size] at hn
    rcases Nat.lt_or_ge n inner.size with hlt | hge
    · obtain ⟨c, r, hcell, howner⟩ := ihi hinner (some id) hlt
      refine ⟨c, r, ?_, .inr ⟨id, List.mem_cons_self, ?_⟩⟩
      · rw [Body.cells, List.getElem?_append_left (by rwa [Body.length_cells]), hcell]
      · rcases howner with ⟨rfl, hnone⟩ | ⟨i, hi, j, rfl, hij, hj⟩
        · exact ⟨id, rfl, .refl, hself.covers_iff.mpr ⟨by omega, by omega⟩,
            fun k hk => hnone k (hself.isChild_iff.mp hk)⟩
        · exact ⟨j, rfl, .head (hself.isChild_iff.mpr hi) hij, hj⟩
    · obtain ⟨m, rfl⟩ := Nat.exists_eq_add_of_le hge
      obtain ⟨c, r, hcell, howner⟩ := ih hrest owner (n := m) (by omega)
      rw [Nat.add_assoc] at howner
      refine ⟨c, r, ?_, ?_⟩
      · rw [Body.cells, List.getElem?_append_right (by rw [Body.length_cells]; omega),
          Body.length_cells, Nat.add_sub_cancel_left, hcell]
      · rcases howner with ⟨rfl, hnone⟩ | ⟨i, hi, hj⟩
        · refine .inl ⟨rfl, fun j hj => ?_⟩
          rcases List.mem_cons.mp hj with rfl | hj
          · intro hcovers
            have hlt := (hself.covers_iff.mp hcovers).2
            omega
          · exact hnone j hj
        · exact .inr ⟨i, List.mem_cons_of_mem _ hi, hj⟩

end

section

variable {b : Buffer} {initial : List Char} {root : ℕ} {content : Option ℕ} {body : Body}

/-- In a finished buffer the root is located. -/
theorem Finished.located (h : Finished (plain initial) b root content body) :
    b.Located root (initial.length + 1) body := by
  have hrecord := h.record
  have hplaced := h.placed
  rw [length_plain] at hrecord hplaced
  exact ⟨⟨none, content, hrecord, h.content_le⟩, hplaced⟩

/-- Every section in the root stands somewhere in its text. -/
theorem Finished.located_of_inside (h : Finished (plain initial) b root content body) {i : ℕ}
    (hi : b.Inside root i) : ∃ start inner, b.Located i start inner := by
  induction hi with
  | refl => exact ⟨_, _, h.located⟩
  | tail _ hchild ih =>
    obtain ⟨start, inner, hloc⟩ := ih
    obtain ⟨start', inner', hloc', -⟩ := hloc.placed.located (hloc.isChild_iff.mp hchild)
    exact ⟨start', inner', hloc'⟩

/-- In a finished buffer every child is within its parent. -/
theorem Finished.nested (h : Finished (plain initial) b root content body) {i j : ℕ}
    (hi : b.Inside root i) (hchild : b.IsChild i j) :
    b.start i ≤ b.start j ∧ b.fin j ≤ b.fin i := by
  obtain ⟨start, inner, hloc⟩ := h.located_of_inside hi
  obtain ⟨start', inner', hloc', -, hstart, hfin⟩ :=
    hloc.placed.located (hloc.isChild_iff.mp hchild)
  rw [hloc.start_eq, hloc.fin_eq, hloc'.start_eq, hloc'.fin_eq]
  exact ⟨hstart, hfin⟩

/-- In a finished buffer the children are in the order of the text. -/
theorem Finished.inOrder (h : Finished (plain initial) b root content body) {i : ℕ}
    (hi : b.Inside root i) :
    (b.get i).children.Pairwise fun j k => b.fin j ≤ b.start k := by
  obtain ⟨start, inner, hloc⟩ := h.located_of_inside hi
  obtain ⟨parent, content', hrecord, -⟩ := hloc.record
  rw [Buffer.get_eq hrecord]
  exact hloc.placed.pairwise

/-- In a finished buffer the sections are laminar. -/
theorem Finished.laminar (h : Finished (plain initial) b root content body) :
    Laminar b.IsChild b.Covers root where
  nested := fun hi hchild q hq => by
    obtain ⟨hstart, hfin⟩ := h.nested hi hchild
    exact ⟨hstart.trans hq.1, hq.2.trans_le hfin⟩
  disjoint := fun {i j k} hi hj hk q hjq hkq => by
    by_contra hne
    have hsymm : Std.Symm fun j k => b.fin j ≤ b.start k ∨ b.fin k ≤ b.start j :=
      ⟨fun _ _ => Or.symm⟩
    have hapart := ((h.inOrder hi).imp Or.inl).forall (R := fun j k =>
      b.fin j ≤ b.start k ∨ b.fin k ≤ b.start j) hj hk hne
    obtain ⟨hj₁, hj₂⟩ := hjq
    obtain ⟨hk₁, hk₂⟩ := hkq
    omega

/-- Nothing is inside a child of the root but has a parent. -/
theorem Finished.ne_root (h : Finished (plain initial) b root content body) {i j : ℕ}
    (hi : b.IsChild root i) (hij : b.Inside i j) : j ≠ root := by
  have hparent : ∃ parent, b.IsChild parent j := by
    rcases hij.cases_tail with rfl | ⟨k, -, hk⟩
    · exact ⟨root, hi⟩
    · exact ⟨k, hk⟩
  obtain ⟨parent, hparent⟩ := hparent
  rintro rfl
  have hvalid : ∃ s, b.sections[parent]? = some s ∧ j ∈ s.children := by
    rw [Buffer.IsChild, Buffer.get, List.getD_eq_getElem?_getD] at hparent
    cases hs : b.sections[parent]? with
    | none => rw [hs] at hparent; exact absurd hparent List.not_mem_nil
    | some s => rw [hs] at hparent; exact ⟨s, rfl, hparent⟩
  obtain ⟨s, hs, hj⟩ := hvalid
  obtain ⟨s', hs', hsome, -⟩ := h.linked.ofChild hs hj
  rw [h.record, Option.some_inj] at hs'
  rw [← hs'] at hsome
  cases hsome

/-- **In a finished buffer the property of a character is its innermost section.** -/
theorem Finished.property (h : Finished (plain initial) b root content body) (q : ℕ) :
    b.Innermost root q (b.text.propertyAt q) := by
  have hlocated := h.located
  -- no child of the root covers the position
  have hnone : (∀ j ∈ body.ids, ¬ b.Covers j q) → b.Innermost root q none := by
    intro hids k hk hcovers
    exact h.laminar.eq_root_of_covers (fun j hj => hids j (hlocated.isChild_iff.mp hj)) hk hcovers
  have hout : ¬ (initial.length + 1 ≤ q ∧ q < initial.length + 1 + body.size) →
      ∀ j ∈ body.ids, ¬ b.Covers j q := by
    intro hq j hj hcovers
    have hroot := h.laminar.nested .refl (hlocated.isChild_iff.mpr hj) q hcovers
    exact hq (hlocated.covers_iff.mp hroot)
  rcases Nat.lt_or_ge q (initial.length + 1) with hlt | hge
  · have hproperty : b.text.propertyAt q = none := by
      rw [propertyAt]
      split
      · rw [h.text, List.getElem?_append_left (by rw [length_plain]; omega), plain,
          List.getElem?_map]
        cases initial[q - 1]? <;> rfl
      · rfl
    rw [hproperty]
    exact hnone (hout (by omega))
  · obtain ⟨n, rfl⟩ := Nat.exists_eq_add_of_le hge
    have hproperty : b.text.propertyAt (initial.length + 1 + n)
        = (body.cells none)[n]?.bind Prod.snd := by
      rw [h.text, ← length_plain (α := ℕ) initial, propertyAt_append]
    rw [hproperty]
    rcases Nat.lt_or_ge n body.size with hlt | hge'
    · obtain ⟨c, r, hcell, howner⟩ := hlocated.placed.owner none hlt
      rw [hcell]
      rcases howner with ⟨rfl, hids⟩ | ⟨i, hi, j, rfl, hij, hcovers, hinner⟩
      · exact hnone hids
      · have hchild := hlocated.isChild_iff.mpr hi
        have hj : b.Inside root j := .head hchild hij
        exact ⟨hj, h.ne_root hchild hij, hcovers, fun k hk hkcovers =>
          h.laminar.reaches_of_covers hj hcovers hinner hk hkcovers⟩
    · rw [List.getElem?_eq_none (by rw [Body.length_cells]; exact hge')]
      exact hnone (hout (by omega))

/-- A finished buffer is well formed. -/
theorem Finished.wellFormed (h : Finished (plain initial) b root content body) :
    b.WellFormed root := by
  have hsection : ∀ i, b.Inside root i → ∃ parent start content inner,
      b.sections[i]? = some (closed parent start content inner) ∧
        ∀ k ∈ content, k ≤ inner.size := by
    intro i hi
    obtain ⟨start, inner, hloc⟩ := h.located_of_inside hi
    obtain ⟨parent, content, hrecord, hle⟩ := hloc.record
    exact ⟨parent, start, content, inner, hrecord, hle⟩
  constructor
  · exact h.isRoot
  · intro i hi
    obtain ⟨parent, start, content, inner, hrecord, -⟩ := hsection i hi
    rw [Buffer.get_eq hrecord]
    exact ⟨(List.getElem?_eq_some_iff.mp hrecord).1, nofun⟩
  · intro i hi
    obtain ⟨start, inner, hloc⟩ := h.located_of_inside hi
    rw [hloc.start_eq, hloc.fin_eq]
    exact Nat.le_add_right _ _
  · intro i hi c hc
    obtain ⟨parent, start, content, inner, hrecord, hle⟩ := hsection i hi
    rw [Buffer.start, Buffer.fin]
    rw [Buffer.get_eq hrecord] at hc ⊢
    obtain ⟨k, hk, rfl⟩ := Option.map_eq_some_iff.mp hc
    exact ⟨Nat.le_add_right _ _, Nat.add_le_add_left (hle k hk) _⟩
  · exact fun i j hi hj => h.nested hi hj
  · exact fun i hi => h.inOrder hi
  · intro i j hi
    obtain ⟨parent, start, content, inner, hrecord, -⟩ := hsection i hi
    rw [Buffer.IsChild, Buffer.get_eq hrecord]
    constructor
    · intro hj
      obtain ⟨s, hs, hparent, hfin⟩ := h.linked.ofChild hrecord hj
      rw [Buffer.get_eq hs]
      exact ⟨(List.getElem?_eq_some_iff.mp hs).1, hparent, hfin⟩
    · rintro ⟨hlt, hparent, hfin⟩
      have hs := List.getElem?_eq_getElem hlt
      rw [Buffer.get_eq hs] at hparent hfin
      rcases h.linked.ofParent hs hparent hfin with hpending | ⟨s, hs', hj⟩
      · cases hpending
      · rw [hrecord, Option.some_inj] at hs'
        exact hs' ▸ hj
  · exact h.property

end

/-- **Inserted sections are well formed** — after text that has been there before. -/
theorem wellFormed_of_proper (body : Forms) (initial : List Char)
    (hproper : body.proper σ 0 { (Buffer.mk (plain initial) [] none).magitInsertSectionCreate none
      with root := some 0 } = true) :
    (magitInsertSection σ body ⟨plain initial, [], none⟩).WellFormed 0 := by
  obtain ⟨content, inner, h⟩ := finished_of_proper body initial hproper
  exact h.wellFormed

/-- A heading with two children behind it, one of which has a child of its own that is canceled. -/
def Forms.listing : Forms :=
  .insertSection (.insertHeading none "Stashes:".toList
    (.insertSection (.insert "one\n".toList .done)
      (.insertSection (.insertHeading none ":".toList
        (.insertSection (.insert "two\n".toList .done)
          (.insertSection (.insert "three".toList (.cancelSection false .done)) .done))) .done))) .done

/-- Both headings count their children, the second one in front of its section. -/
theorem wellFormed_of_proper_listing :
    (magitInsertSection ⟨true, false⟩ .listing ⟨plain "\n".toList, [], none⟩).WellFormed 0 :=
  wellFormed_of_proper .listing "\n".toList (by decide)

/-- A section without a heading, and one whose heading is empty. -/
def Forms.unheaded : Forms :=
  .insertSection (.insert "a:\n".toList .done)
    (.insertSection (.insertHeading none []
      (.insertSection (.insert "c\n".toList .done) (.insert "b\n".toList .done))) .done)

/-- The number of children goes into the first section, where it does not get the property. -/
theorem not_wellFormed :
    ¬ (magitInsertSection ⟨true, false⟩ .unheaded ⟨plain [], [], none⟩).WellFormed 0 := by
  intro h
  have hproperty := h.property 2
  have hnone : (magitInsertSection ⟨true, false⟩ .unheaded
      ⟨plain [], [], none⟩).text.propertyAt 2 = none := by decide
  rw [hnone] at hproperty
  have hchild : 1 ∈ ((magitInsertSection ⟨true, false⟩ .unheaded
      ⟨plain [], [], none⟩).get 0).children := by decide
  have hstart : (magitInsertSection ⟨true, false⟩ .unheaded ⟨plain [], [], none⟩).start 1 ≤ 2 := by
    decide
  have hfin : 2 < (magitInsertSection ⟨true, false⟩ .unheaded ⟨plain [], [], none⟩).fin 1 := by
    decide
  exact absurd (hproperty 1 (.single hchild) ⟨hstart, hfin⟩) (by decide)

end Magit.Insertion

import Magit.Section.CachedCommands

/-!
# Section/SameSlots — one set of commands in two models

The visibility commands are modelled for what is invisible (`Section.SectionBuffer`) and for what is
cached (`Recreation.State`).  Where no washer is left that inserts anything they set the same slots:
a buffer and a tree with the same slots `hidden` have the same ones after any command, and the
command signals in both or in neither (`sameState_step`).
-/

namespace Magit.Recreation

open Section (Sections SectionBuffer Command)

variable {α : Type} {f f' body : Forest α} {g g' body' : Sections}

/-- A tree and sections that have the same slots.  No washer is left but to paint, and a section
without the slot `content` has no children. -/
inductive SameSlots : Forest α → Sections → Prop
  | nil : SameSlots .nil .nil
  | text {f : Forest α} {g : Sections} (n : ℕ) (h : SameSlots f g) : SameSlots f (.text n g)
  | leaf {s : Slots α} {f : Forest α} {g : Sections} (hcontent : s.content = false) (n : ℕ)
      (h : SameSlots f g) :
    SameSlots (.node s .nil f) (.leaf n s.hidden g)
  | node {s : Slots α} {body f : Forest α} {body' g : Sections} (hcontent : s.content = true)
      (heading : ℕ) (washer : Option (List ℕ)) (hbody : SameSlots body body') (h : SameSlots f g) :
    SameSlots (.node s body f) (.node heading washer s.hidden body' g)

namespace SameSlots

/-! ## What the commands ask of the children -/

theorem hasChildren_eq (h : SameSlots f g) : f.hasChildren = g.hasChildren := by
  induction h with
  | nil => rfl
  | text n _ ih => exact ih
  | leaf | node => rfl

theorem anyHidden_eq (h : SameSlots f g) : f.anyHidden = g.anyHidden := by
  induction h with
  | nil => rfl
  | text n _ ih => exact ih
  | @leaf s _ _ _ _ _ ih => exact congrArg (s.hidden || ·) ih
  | @node s _ _ _ _ _ _ _ _ _ _ ih => exact congrArg (s.hidden || ·) ih

theorem anyChildren_eq (h : SameSlots f g) : f.anyChildren = g.anyChildren := by
  induction h with
  | nil => rfl
  | text n _ ih => exact ih
  | leaf _ _ _ ih => exact ih
  | node _ _ _ hbody _ _ ih =>
    rw [Forest.anyChildren, Sections.anyChildren, hbody.hasChildren_eq, ih]

theorem hiddenBody_eq (h : SameSlots f g) : f.hiddenBody = g.hiddenBody := by
  induction h with
  | nil => rfl
  | text n _ ih => exact ih
  | leaf hcontent _ _ ih =>
    rw [Forest.hiddenBody, Sections.hiddenBody, hcontent, ih]
    rfl
  | node hcontent _ _ hbody _ ihbody ih =>
    rw [Forest.hiddenBody, Sections.hiddenBody, hcontent, hbody.hasChildren_eq, ihbody, ih,
      Bool.true_and]

/-! ## The recursions over the children -/

section

variable [DecidableEq α] {o : Options}

/-- Hiding each section, with or without the cache. -/
theorem hideEach (h : SameSlots f g) (parent : Ident α) (c : Cache α) (beg : ℕ)
    (d : Emacs.Display) : SameSlots (f.hideEach o parent c).1 (g.hideEach beg d).1 := by
  induction h generalizing c beg d with
  | nil => exact nil
  | text n _ ih => exact text n (ih _ _ _)
  | @leaf s _ _ hcontent n _ ih => exact @leaf _ { s with hidden := true } _ _ hcontent n (ih _ _ _)
  | @node s _ _ _ _ hcontent heading washer hbody _ _ ih =>
    exact @node _ { s with hidden := true } _ _ _ _ hcontent heading washer hbody (ih _ _ _)

/-- What a washer would insert does not matter. -/
theorem showWith (h : SameSlots f g) (wash : Washer α) (parent : Ident α) (c : Cache α)
    (beg : ℕ) (d : Emacs.Display) :
    SameSlots (f.showWith o wash parent c).1 (g.showEach beg d).1 := by
  induction h generalizing parent c beg d with
  | nil => exact nil
  | text n _ ih => exact text n (ih _ _ _ _)
  | @leaf s _ _ hcontent n _ ih =>
    rw [Forest.showWith]
    dsimp only
    split_ifs
    · exact leaf hcontent n (ih _ _ _ _)
    · exact leaf hcontent n (ih _ _ _ _)
  | @node s _ _ _ _ hcontent heading washer hbody _ ihbody ih =>
    obtain ⟨type, value, hidden, content⟩ := s
    cases hidden with
    | false =>
      exact @node _ ⟨type, value, false, content⟩ _ _ _ _ hcontent heading none (ihbody _ _ _ _)
        (ih _ _ _ _)
    | true =>
      exact @node _ ⟨type, value, true, content⟩ _ _ _ _ hcontent heading washer hbody (ih _ _ _ _)

/-- Showing the children down to a depth, with or without the cache. -/
theorem showChildren1 (h : SameSlots f g) (parent : Ident α) (depth : Option ℤ) (c : Cache α)
    (beg : ℕ) (d : Emacs.Display) :
    SameSlots (f.showChildren1 o parent depth c).1 (g.showChildren1 beg depth d).1 := by
  induction h generalizing parent depth c beg d with
  | nil => exact nil
  | text n _ ih => exact text n (ih _ _ _ _ _)
  | @leaf s _ _ hcontent n _ ih =>
    rw [Forest.showChildren1, Sections.showChildren1]
    rcases Sections.childDepth depth with _ | deeper
    · exact @leaf _ { s with hidden := true } _ _ hcontent n (ih _ _ _ _ _)
    · exact @leaf _ { s with hidden := false } _ _ hcontent n (ih _ _ _ _ _)
  | @node s _ _ _ _ hcontent heading washer hbody _ ihbody ih =>
    rw [Forest.showChildren1, Sections.showChildren1]
    rcases Sections.childDepth depth with _ | deeper
    · exact @node _ { s with hidden := true } _ _ _ _ hcontent heading washer hbody (ih _ _ _ _ _)
    · exact @node _ { s with hidden := false } _ _ _ _ hcontent heading washer (ihbody _ _ _ _ _)
        (ih _ _ _ _ _)

end

theorem setEach (h : SameSlots f g) (hidden : Bool) :
    SameSlots (f.setEach hidden) (g.setEach hidden) := by
  induction h with
  | nil => exact nil
  | text n _ ih => exact text n ih
  | @leaf s _ _ hcontent n _ ih => exact @leaf _ { s with hidden } _ _ hcontent n ih
  | @node s _ _ _ _ hcontent heading washer hbody _ _ ih =>
    exact @node _ { s with hidden } _ _ _ _ hcontent heading washer hbody ih

/-- Showing the headings only, with or without the cache. -/
theorem showHeadings1 (h : SameSlots f g) : SameSlots f.showHeadings1 g.showHeadings1 := by
  induction h with
  | nil => exact nil
  | text n _ ih => exact text n ih
  | @leaf s _ _ hcontent n _ ih =>
    have hnil : (if (Forest.nil : Forest α).hasChildren || !s.content then
        (Forest.nil : Forest α).showHeadings1 else .nil) = .nil := ite_self _
    rw [Forest.showHeadings1, hnil]
    exact @leaf _ { s with hidden := false } _ _ hcontent n ih
  | @node s body _ _ _ hcontent heading washer hbody _ ihbody ih =>
    have htest : (body.hasChildren || !s.content) = body.hasChildren := by
      rw [hcontent, Bool.not_true, Bool.or_false]
    rw [Forest.showHeadings1, Sections.showHeadings1, htest, hbody.hasChildren_eq]
    refine @node _ { s with hidden := false } _ _ _ _ hcontent heading washer ?_ ih
    split_ifs
    · exact ihbody
    · exact hbody

theorem append (h : SameSlots f g) (h' : SameSlots f' g') :
    SameSlots (f.append f') (g.append g') := by
  induction h with
  | nil => exact h'
  | text n _ ih => exact text n ih
  | leaf hcontent n _ ih => exact leaf hcontent n ih
  | node hcontent heading washer hbody _ _ ih => exact node hcontent heading washer hbody ih

end SameSlots

/-- A section as a command gets it: the root, which is not hidden, or one with a parent. -/
inductive SamePlace : Bool → Place α → Section.Place → Prop
  | root {s : Slots α} {body : Forest α} {sections : Sections} (hhidden : s.hidden = false)
      (content : Bool) (beg : ℕ) (c : Cache α) (d : Emacs.Display)
      (h : SameSlots body sections) :
    SamePlace true ⟨[], .node s body .nil, c⟩ ⟨.root content, beg, sections, d⟩
  | leaf {s : Slots α} {parent : Ident α} (hparent : parent ≠ []) (hcontent : s.content = false)
      (n beg : ℕ) (c : Cache α) (d : Emacs.Display) :
    SamePlace false ⟨parent, .node s .nil .nil, c⟩ ⟨.child, beg, .leaf n s.hidden .nil, d⟩
  | node {s : Slots α} {parent : Ident α} {body : Forest α} {body' : Sections}
      (hparent : parent ≠ []) (hcontent : s.content = true) (heading : ℕ)
      (washer : Option (List ℕ)) (beg : ℕ) (c : Cache α) (d : Emacs.Display)
      (hbody : SameSlots body body') :
    SamePlace false ⟨parent, .node s body .nil, c⟩
      ⟨.child, beg, .node heading washer s.hidden body' .nil, d⟩

/-- Two commands that signal alike and leave the same slots. -/
def SameCommand (command : Place α → Option (Place α))
    (command' : Section.Place → Option Section.Place) : Prop :=
  ∀ ⦃root : Bool⦄ ⦃p : Place α⦄ ⦃q : Section.Place⦄, SamePlace root p q →
    Option.Rel (SamePlace root) (command p) (command' q)

theorem sameCommand_some {command : Place α → Place α} {command' : Section.Place → Section.Place}
    (h : ∀ {root p q}, SamePlace root p q → SamePlace root (command p) (command' q)) :
    SameCommand (fun p => some (command p)) (fun q => some (command' q)) :=
  fun _ _ _ hplace => .some (h hplace)

namespace SamePlace

variable {root : Bool} {p : Place α} {q : Section.Place}

theorem isRoot_eq (h : SamePlace root p q) : p.isRoot = root := by
  cases h with
  | root => rfl
  | leaf hparent | node hparent => exact List.isEmpty_eq_false_iff.mpr hparent

theorem hidden_eq (h : SamePlace root p q) : p.hidden = q.hidden := by
  cases h with
  | root hhidden => exact (Bool.or_false _).trans hhidden
  | leaf | node => rfl

theorem children (h : SamePlace root p q) : SameSlots p.children q.children := by
  cases h with
  | root _ _ _ _ _ h => exact h
  | leaf => exact .nil
  | node _ _ _ _ _ _ _ hbody => exact hbody

/-- What a command leaves of a section with a parent. -/
theorem sameSlots (h : SamePlace false p q) : SameSlots p.sections q.sections := by
  cases h with
  | leaf _ hcontent n => exact .leaf hcontent n .nil
  | node _ hcontent heading washer _ _ _ hbody => exact .node hcontent heading washer hbody .nil

/-- What is done to the children is done to the same slots. -/
theorem onChildren {action : Ident α → Forest α → Cache α → Forest α × Cache α}
    {action' : ℕ → Sections → Emacs.Display → Sections × Emacs.Display}
    (hnil : ∀ ident c, (action ident .nil c).1 = .nil)
    (haction : ∀ {f g}, SameSlots f g → ∀ ident c beg d,
      SameSlots (action ident f c).1 (action' beg g d).1)
    (h : SamePlace root p q) : SamePlace root (p.onChildren action) (q.onChildren action') := by
  cases h with
  | root hhidden content beg c d h =>
    exact root hhidden content beg _ _ (haction h _ _ _ _)
  | leaf hparent hcontent n beg c d =>
    rw [Place.onChildren]
    dsimp only
    rw [hnil]
    exact leaf hparent hcontent n beg _ _
  | node hparent hcontent heading washer beg c d hbody =>
    exact node hparent hcontent heading washer beg _ _ (haction hbody _ _ _ _)

/-! ## The commands -/

variable [DecidableEq α] (o : Options)

/-- `magit-section-show` in both models. -/
theorem magitSectionShow (h : SamePlace root p q) :
    SamePlace root (p.magitSectionShow o) q.magitSectionShow := by
  cases h with
  | @root s _ _ hhidden content beg c d h =>
    exact @root _ { s with hidden := false } _ _ rfl content beg _ _ (h.showWith _ _ _ _ _)
  | @leaf s _ hparent hcontent n beg c d =>
    exact @leaf _ { s with hidden := false } _ hparent hcontent n beg _ _
  | @node s _ _ _ hparent hcontent heading washer beg c d hbody =>
    exact @node _ { s with hidden := false } _ _ _ hparent hcontent heading none beg _ _
      (hbody.showWith _ _ _ _ _)

/-- `magit-section-hide` in both models; it fails for the root in both. -/
theorem magitSectionHide :
    @SameCommand α (Place.magitSectionHide o) Section.Place.magitSectionHide := by
  intro root p q h
  have hroot := h.isRoot_eq
  rw [Place.magitSectionHide, hroot]
  cases h with
  | root => exact .none
  | @leaf s _ hparent hcontent n beg c d =>
    exact .some (@leaf _ { s with hidden := true } _ hparent hcontent n beg _ _)
  | @node s _ _ _ hparent hcontent heading washer beg c d hbody =>
    exact .some (@node _ { s with hidden := true } _ _ _ hparent hcontent heading washer beg _ _
      hbody)

/-- `magit-section-toggle` in both models. -/
theorem magitSectionToggle :
    @SameCommand α (Place.magitSectionToggle o) Section.Place.magitSectionToggle := by
  intro root p q h
  have hhide := magitSectionHide o h
  have hshow := h.magitSectionShow o
  have hhidden := h.hidden_eq
  have hroot := h.isRoot_eq
  rw [Place.magitSectionToggle, hroot, hhidden]
  cases h with
  | root => exact .none
  | leaf | node =>
    rw [Section.Place.magitSectionToggle]
    dsimp only
    rw [if_neg Bool.false_ne_true]
    split_ifs
    · exact .some hshow
    · exact hhide

theorem magitSectionToggleChildren (h : SamePlace root p q) :
    SamePlace root (p.magitSectionToggleChildren o) q.magitSectionToggleChildren := by
  refine (h.onChildren (fun _ _ => rfl) fun h' _ _ _ _ => ?_).magitSectionShow o
  rw [h'.anyHidden_eq]
  exact h'.setEach _

theorem magitSectionShowChildren (h : SamePlace root p q) (depth : Option ℤ) :
    SamePlace root (p.magitSectionShowChildren o depth) (q.magitSectionShowChildren depth) :=
  (h.onChildren (fun _ _ => rfl) fun h' _ _ _ _ => h'.showChildren1 _ _ _ _ _).magitSectionShow o

theorem magitSectionHideChildren (h : SamePlace root p q) :
    SamePlace root (p.magitSectionHideChildren o) q.magitSectionHideChildren :=
  h.onChildren (fun _ _ => rfl) fun h' _ _ _ _ => h'.hideEach _ _ _ _

theorem magitSectionShowHeadings (h : SamePlace root p q) :
    SamePlace root (p.magitSectionShowHeadings o) q.magitSectionShowHeadings :=
  (h.onChildren (fun _ _ => rfl) fun h' _ _ _ _ => h'.showHeadings1).magitSectionShow o

/-- `magit-section-cycle` in both models, in each of its cases. -/
theorem magitSectionCycle (tabNext : Bool) :
    @SameCommand α (Place.magitSectionCycle o tabNext)
      (Section.Place.magitSectionCycle tabNext) := by
  intro root p q h
  have hchildren := h.children
  rw [Place.magitSectionCycle, Section.Place.magitSectionCycle, h.hidden_eq,
    hchildren.anyHidden_eq, hchildren.anyChildren_eq, hchildren.hiddenBody_eq]
  split_ifs
  · exact .some h
  · exact .some ((h.magitSectionShow o).magitSectionHideChildren o)
  · exact .some (h.magitSectionShowHeadings o)
  · exact .some (h.magitSectionShowChildren o none)
  · exact magitSectionHide o h

/-- `magit-section-cycle-global` in both models. -/
theorem magitSectionCycleGlobal (h : SamePlace root p q) :
    SamePlace root (p.magitSectionCycleGlobal o) q.magitSectionCycleGlobal := by
  have hchildren := h.children
  rw [Place.magitSectionCycleGlobal, Section.Place.magitSectionCycleGlobal,
    hchildren.anyHidden_eq, hchildren.anyChildren_eq, hchildren.hiddenBody_eq]
  split_ifs
  · exact h.magitSectionShowHeadings o
  · exact h.magitSectionShowChildren o none
  · exact h.magitSectionHideChildren o

end SamePlace

/-! ## Runs -/

/-- Related optional results stay related when both are mapped. -/
theorem rel_map {β γ δ ε : Type} {r : β → γ → Prop} {r' : δ → ε → Prop} {x : Option β}
    {y : Option γ} {k : β → δ} {k' : γ → ε} (h : Option.Rel r x y)
    (hk : ∀ {b c}, r b c → r' (k b) (k' c)) : Option.Rel r' (x.map k) (y.map k') := by
  cases h with
  | none => exact .none
  | some h => exact .some (hk h)

theorem rel_getD {β γ : Type} {r : β → γ → Prop} {x : Option β} {y : Option γ} {b : β} {c : γ}
    (h : Option.Rel r x y) (hdefault : r b c) : r (x.getD b) (y.getD c) := by
  cases h with
  | none => exact hdefault
  | some h => exact h

theorem atPath_nil (command : Place α → Option (Place α)) (path : List ℕ) (parent : Ident α)
    (c : Cache α) : (.nil : Forest α).atPath command path parent c = none := by
  rcases path with _ | ⟨_ | i, _ | ⟨j, path⟩⟩ <;> rfl

/-- **A command that sets the same slots of one section** sets the same ones of the section at a
path. -/
theorem SameSlots.atPath {command : Place α → Option (Place α)}
    {command' : Section.Place → Option Section.Place} (hcommand : SameCommand command command')
    (h : SameSlots f g) (path : List ℕ) {parent : Ident α} (hparent : parent ≠ []) (c : Cache α)
    (beg : ℕ) (d : Emacs.Display) :
    Option.Rel (fun r r' => SameSlots r.1 r'.1) (f.atPath command path parent c)
      (g.atPath command' path beg d) := by
  induction h generalizing path parent c beg d with
  | nil =>
    rw [atPath_nil]
    rcases path with _ | ⟨_ | i, _ | ⟨j, path⟩⟩ <;> exact .none
  | text n _ ih =>
    rw [Sections.atPath]
    rw [← @Option.map_id' _ (Forest.atPath _ _ _ _ _)]
    exact rel_map (ih path hparent c (beg + n) d) (text n)
  | leaf hcontent n h ih =>
    rcases path with _ | ⟨_ | i, _ | ⟨j, path⟩⟩
    · exact .none
    · exact rel_map (hcommand (.leaf hparent hcontent n beg c d)) fun hplace =>
        hplace.sameSlots.append h
    · rw [Forest.atPath, atPath_nil]
      exact .none
    · exact rel_map (ih _ hparent c _ d) (leaf hcontent n)
    · exact rel_map (ih _ hparent c _ d) (leaf hcontent n)
  | node hcontent heading washer hbody h ihbody ih =>
    rcases path with _ | ⟨_ | i, _ | ⟨j, path⟩⟩
    · exact .none
    · exact rel_map (hcommand (.node hparent hcontent heading washer beg c d hbody)) fun hplace =>
        hplace.sameSlots.append h
    · exact rel_map (ihbody _ (List.cons_ne_nil _ _) c _ d) fun hbody' =>
        node hcontent heading washer hbody' h
    · exact rel_map (ih _ hparent c _ d) (node hcontent heading washer hbody)
    · exact rel_map (ih _ hparent c _ d) (node hcontent heading washer hbody)

/-- A tree and a buffer that have the same slots; the root of both is shown. -/
def SameState (s : State α) (b : SectionBuffer) : Prop :=
  ∃ root body, s.tree = .node root body .nil ∧ root.hidden = false ∧ SameSlots body b.sections

variable {s : State α} {b : SectionBuffer}

/-- The same command at the same path leads to same states, or fails in both models. -/
theorem sameState_runAt {command : Place α → Option (Place α)}
    {command' : Section.Place → Option Section.Place} (hcommand : SameCommand command command')
    (h : SameState s b) (path : List ℕ) :
    Option.Rel SameState (s.runAt command path) (b.runAt command' path) := by
  obtain ⟨root, body, htree, hhidden, hbody⟩ := h
  rw [State.runAt, htree]
  rcases path with _ | ⟨i, path⟩
  · rw [SectionBuffer.runAt, Forest.atPath, Option.map_map]
    refine rel_map (hcommand (.root hhidden b.heading.isSome b.beg s.cache b.display hbody)) ?_
    rintro p q hplace
    cases hplace with
    | root hhidden' _ _ _ _ h => exact ⟨_, _, rfl, hhidden', h⟩
  · rw [SectionBuffer.runAt, Forest.atPath, Option.map_map]
    exact rel_map (hbody.atPath hcommand (i :: path) (List.cons_ne_nil _ _) s.cache b.beg b.display)
      fun hbody' => ⟨root, _, rfl, hhidden, hbody'⟩

variable [DecidableEq α] (o : Options)

theorem sameState_showChildren (h : SameState s b) (depth : Option ℤ) (path : List ℕ) :
    Option.Rel SameState (s.runAt (fun p => some (p.magitSectionShowChildren o depth)) path)
      (b.runAt (fun q => some (q.magitSectionShowChildren depth)) path) :=
  sameState_runAt (sameCommand_some fun hplace => hplace.magitSectionShowChildren o depth) h path

/-- `magit-section-show-level` in both models. -/
theorem sameState_showLevel (h : SameState s b) (level : ℤ) (path : List ℕ) :
    Option.Rel SameState (s.showLevel o level path) (b.showLevel level path) := by
  have hlevel (path : List ℕ) {parent : Option (State α)} {parent' : Option SectionBuffer}
      (hparent : Option.Rel SameState parent parent') :
      Option.Rel SameState (s.levelAt o level path parent) (b.levelAt level path parent') := by
    simp only [State.levelAt, SectionBuffer.levelAt]
    split_ifs
    · exact sameState_showChildren o h _ _
    · exact sameState_runAt (SamePlace.magitSectionHide o) h _
    · exact hparent
  induction path with
  | nil => exact hlevel [] .none
  | cons i parent ih => exact hlevel (i :: parent) ih

/-- **A command sets the same slots in both models**, and signals in both or in neither. -/
theorem sameState_step (h : SameState s b) (command : Command) :
    Option.Rel SameState (s.step o command) (b.step command) := by
  have hsome {act : Place α → Place α} {act' : Section.Place → Section.Place}
      (hact : ∀ {root p q}, SamePlace root p q → SamePlace root (act p) (act' q)) (path : List ℕ) :
      Option.Rel SameState (s.runAt (fun p => some (act p)) path)
        (b.runAt (fun q => some (act' q)) path) :=
    sameState_runAt (sameCommand_some hact) h path
  cases command with
  | sectionShow path => exact hsome (fun hplace => hplace.magitSectionShow o) path
  | sectionHide path => exact sameState_runAt (SamePlace.magitSectionHide o) h path
  | sectionToggle path => exact sameState_runAt (SamePlace.magitSectionToggle o) h path
  | sectionToggleChildren path =>
    exact hsome (fun hplace => hplace.magitSectionToggleChildren o) path
  | sectionShowChildren path depth => exact sameState_showChildren o h depth path
  | sectionHideChildren path => exact hsome (fun hplace => hplace.magitSectionHideChildren o) path
  | sectionShowHeadings path => exact hsome (fun hplace => hplace.magitSectionShowHeadings o) path
  | sectionCycle path tabNext =>
    exact sameState_runAt (SamePlace.magitSectionCycle o tabNext) h path
  | sectionCycleGlobal => exact hsome (fun hplace => hplace.magitSectionCycleGlobal o) []
  | sectionShowLevel path level =>
    simp only [State.step, SectionBuffer.step]
    split_ifs
    · exact sameState_showChildren o h _ []
    · exact sameState_showLevel o h level path.reverse

/-- So do the commands of a run, of which those that signal change nothing. -/
theorem sameState_run (h : SameState s b) (commands : List Command) :
    SameState (commands.foldl (fun s command => (s.step o command).getD s) s)
      (commands.foldl (fun b command => (b.step command).getD b) b) := by
  induction commands generalizing s b with
  | nil => exact h
  | cons command commands ih => exact ih (rel_getD (sameState_step o h command) h)

end Magit.Recreation

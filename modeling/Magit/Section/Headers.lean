import Magit.Section.Reached

/-!
# Section/Headers — the first header becomes the parent of the others

`magit-insert-headers` collects what `magit-insert-section-hook` gets to see, and that is every
section that is finished, at any depth.  What it then makes of the tree is right only if the headers
have no sections of their own, and are the first ones in their parent (`keepsTree_iff`).
-/

namespace Magit.Insertion

open Emacs Propertied

variable (σ : Settings)

/-- The sections that a body finishes, as the functions on `magit-insert-section-hook` see them. -/
def finishedBy : Forms → ℕ → Buffer → List ℕ
  | .done, _, _ => []
  | .insert text rest, current, b => finishedBy rest current (b.insert text)
  | .insertHeading count heading rest, current, b =>
    finishedBy rest current (b.magitInsertHeading σ current count heading)
  | .cancelSection ifEmpty rest, current, b =>
    match b.magitCancelSection current ifEmpty with
    | .ok b' => finishedBy rest current b'
    | .error _ => []
  | .insertSection body rest, current, b =>
    let obj := b.sections.length
    let b' := b.magitInsertSectionCreate (some current)
    finishedBy body obj b' ++
      match run σ body obj b' with
      | .ok b' => obj :: finishedBy rest current (b'.magitInsertSectionFinish σ obj)
      | .error b' => finishedBy rest current b'

/-- `magit-run-section-hook` -/
def magitRunSectionHook : List Forms → ℕ → Buffer → Except Buffer Buffer
  | [], _, b => .ok b
  | entry :: entries, current, b =>
    (run σ entry current b).bind (magitRunSectionHook entries current)

/-- What the hook function has collected then, in the order of `nreverse`. -/
def headerSections : List Forms → ℕ → Buffer → List ℕ
  | [], _, _ => []
  | entry :: entries, current, b =>
    finishedBy σ entry current b ++
      match run σ entry current b with
      | .ok b' => headerSections entries current b'
      | .error _ => []

/-- The first header is made into the parent of the rest. -/
def Buffer.nestHeaders (first : ℕ) (rest : List ℕ) (b : Buffer) : Buffer :=
  let b' := match (b.get first).parent with
    | some headerParent => b.modify headerParent fun s => { s with children := [first] }
    | none => b
  let b' := b'.modify first fun s => { s with
    children := rest
    content := rest.head?.map fun i => (b.get i).start
    fin := rest.getLast?.bind fun i => (b.get i).fin }
  rest.foldl (fun b' i => b'.modify i fun s => { s with parent := some first }) b'

/-- `magit-insert-headers`, in a section that has been begun; `error` throws. -/
def magitInsertHeaders (hook : List Forms) (current : ℕ) (b : Buffer) : Except Buffer Buffer :=
  (magitRunSectionHook σ hook current b).map fun b' =>
    match headerSections σ hook current b with
    | [] => b'
    | [_] => b'.insert ['\n']
    | first :: second :: rest => (b'.insert ['\n']).nestHeaders first (second :: rest)

/-! ## Parents and children -/

variable {σ} {b b' : Buffer}

/-- The slots that `magit-insert-headers` is about. -/
structure Links where
  parent : Option ℕ
  finished : Bool
  children : List ℕ
deriving Inhabited

/-- A section without its markers. -/
def Section.links (s : Section) : Links := ⟨s.parent, s.fin.isSome, s.children⟩

/-- The children in order, when more are added behind. -/
def Settings.adding (σ : Settings) (children more : List ℕ) : List ℕ :=
  if σ.insertInReverse = true then more.reverse ++ children else children ++ more

@[simp] theorem adding_nil (children : List ℕ) : σ.adding children [] = children := by
  unfold Settings.adding
  split
  · rfl
  · exact List.append_nil _

/-- Children are added one after the other. -/
theorem adding_append (children more more' : List ℕ) :
    σ.adding children (more ++ more') = σ.adding (σ.adding children more) more' := by
  unfold Settings.adding
  split
  · rw [List.reverse_append, List.append_assoc]
  · rw [List.append_assoc]

/-- Adding children only adds these. -/
theorem mem_adding {children more : List ℕ} {i : ℕ} :
    i ∈ σ.adding children more ↔ i ∈ children ∨ i ∈ more := by
  unfold Settings.adding
  split
  · rw [List.mem_append, List.mem_reverse, or_comm]
  · rw [List.mem_append]

/-- A change of one section leaves the others. -/
theorem get_modify (b : Buffer) (j : ℕ) (f : Section → Section) (i : ℕ) :
    (b.modify j f).get i = if i = j ∧ j < b.sections.length then f (b.get i) else b.get i := by
  rw [Buffer.get, Buffer.get, Buffer.modify, List.getD_eq_getElem?_getD,
    List.getD_eq_getElem?_getD, List.getElem?_modify]
  cases hs : b.sections[i]? with
  | none =>
    rw [if_neg]
    · rfl
    · rintro ⟨rfl, hlt⟩
      exact absurd hlt (not_lt.mpr (List.getElem?_eq_none_iff.mp hs))
  | some s =>
    have hlt := (List.getElem?_eq_some_iff.mp hs).1
    by_cases hi : i = j
    · subst hi
      rw [if_pos ⟨rfl, hlt⟩]
      simp
    · rw [if_neg fun h => hi h.1]
      simp [Ne.symm hi]

/-- Moving the markers leaves the links. -/
theorem get_move {e : Marker → Marker} (hb' : b'.sections = b.sections.map (·.move e)) (i : ℕ) :
    (b'.get i).links = (b.get i).links := by
  rw [Buffer.get, Buffer.get, hb', List.getD_eq_getElem?_getD, List.getD_eq_getElem?_getD,
    List.getElem?_map]
  cases b.sections[i]? with
  | none => rfl
  | some s => simp [Section.links, Section.move]

theorem Redone.links (h : Redone b b') (i : ℕ) : (b'.get i).links = (b.get i).links := by
  obtain ⟨e, -, hsections⟩ := h.sections
  exact get_move hsections i

theorem Redone.length (h : Redone b b') : b'.sections.length = b.sections.length := by
  obtain ⟨e, -, hsections⟩ := h.sections
  rw [hsections, List.length_map]

/-! ## What a body does to the tree -/

theorem Section.links_close (p : ℕ) (s : Section) :
    (s.close p).links = { s.links with finished := true } := rfl

theorem Section.links_reorder (s : Section) :
    (reorder σ s).links = { s.links with children := σ.order s.children } := rfl

/-- Adding a child changes the children of its parent only. -/
theorem links_addChild {obj current : ℕ} (hparent : (b.get obj).parent = some current)
    (hlt : current < b.sections.length) (i : ℕ) :
    ((b.addChild σ obj).get i).links = if i = current then
        { (b.get i).links with children := σ.adding (b.get i).children [obj] }
      else (b.get i).links := by
  rw [Buffer.addChild, hparent, get_modify]
  by_cases hi : i = current
  · rw [if_pos ⟨hi, hlt⟩, if_pos hi, Settings.adding]
    rfl
  · rw [if_neg fun h => hi h.1, if_neg hi]

section

variable {obj current : ℕ} {rest : List ℕ}

/-- The section that is finished, and what is done to the buffer until it is added to its parent. -/
structure Finishing (σ : Settings) (b b' : Buffer) (obj current : ℕ) : Prop where
  eq : b.magitInsertSectionFinish σ obj = (b'.addChild σ obj).modify obj (reorder σ)
  length : b'.sections.length = b.sections.length
  links : ∀ i, (b'.get i).links = if i = obj then { (b.get i).links with finished := true }
    else (b.get i).links
  parent : (b.get obj).parent = some current
  lt : obj < b.sections.length ∧ current < b.sections.length
  ne : current ≠ obj

/-- A section that is being inserted can be finished. -/
theorem finishing_of_reached (h : Reached σ b (obj :: current :: rest)) :
    ∃ b', Finishing σ b b' obj current := by
  have hgrown := h.grown
  obtain ⟨hnotMem, -⟩ := List.nodup_cons.mp hgrown.nodup
  obtain ⟨s, hs, -⟩ := hgrown.begun obj List.mem_cons_self
  obtain ⟨scur, hscur, -⟩ := hgrown.begun current (List.mem_cons_of_mem _ List.mem_cons_self)
  have hlt := (List.getElem?_eq_some_iff.mp hs).1
  have hroot : (b.modify obj (·.close b.point)).root ≠ some obj := by
    rw [show (b.modify obj (·.close b.point)).root = b.root from rfl, hgrown.root,
      List.getLast?_cons_cons]
    exact fun hlast => hnotMem (List.mem_of_getLast? hlast)
  have hclose : ∀ i, (b.modify obj (·.close b.point)).get i
      = if i = obj then (b.get i).close b.point else b.get i := fun i => by
    rw [get_modify]
    simp only [hlt, and_true]
  have hfill : Redone (b.modify obj (·.close b.point))
      ((b.modify obj (·.close b.point)).fill σ obj) :=
    redone_fill (by
      rw [hclose, if_pos rfl, Buffer.get_eq hs]
      exact (hgrown.marked s (List.mem_of_getElem? hs)).start)
  refine ⟨(b.modify obj (·.close b.point)).fill σ obj, ?_, ?_, fun i => ?_, hgrown.parents.1,
    ⟨hlt, (List.getElem?_eq_some_iff.mp hscur).1⟩, fun heq => hnotMem (heq ▸ List.mem_cons_self)⟩
  · rw [Buffer.magitInsertSectionFinish, if_neg hroot, modify_reorder]
  · rw [hfill.length, Buffer.modify, List.length_modify]
  · rw [hfill.links, hclose]
    split
    · rw [Section.links_close]
    · rfl

/-- Adding a child adds no section. -/
theorem Finishing.length_addChild (h : Finishing σ b b' obj current) :
    (b'.addChild σ obj).sections.length = b.sections.length := by
  rw [Buffer.addChild]
  split
  · exact h.length
  · rw [Buffer.modify, List.length_modify, h.length]

/-- What `magit-insert-section--finish` does to the tree, except for the root. -/
theorem Finishing.links_finish (h : Finishing σ b b' obj current) (i : ℕ) :
    ((b.magitInsertSectionFinish σ obj).get i).links =
      if i = obj then ⟨some current, true, σ.order (b.get obj).children⟩
      else if i = current then
        { (b.get i).links with children := σ.adding (b.get i).children [obj] }
      else (b.get i).links := by
  have hsame : ∀ i ≠ obj, (b'.get i).links = (b.get i).links := fun i hi => by
    rw [h.links, if_neg hi]
  have hself : (b'.get obj).links = { (b.get obj).links with finished := true } := by
    rw [h.links, if_pos rfl]
  have hparent : (b'.get obj).parent = some current :=
    (congrArg Links.parent hself).trans h.parent
  have hadd := links_addChild (σ := σ) hparent (h.length ▸ h.lt.2)
  rw [h.eq, get_modify, h.length_addChild]
  by_cases hi : i = obj
  · subst hi
    have hlinks := (hadd i).trans (if_neg h.ne.symm)
    rw [hself] at hlinks
    rw [if_pos ⟨rfl, h.lt.1⟩, if_pos rfl, Section.links_reorder, hlinks,
      show ((b'.addChild σ i).get i).children = (b.get i).children from
        congrArg Links.children hlinks]
    simp only [Section.links, h.parent]
  · rw [if_neg fun h => hi h.1, if_neg hi, hadd, hsame i hi,
      show (b'.get i).children = (b.get i).children from congrArg Links.children (hsame i hi)]

theorem Finishing.length_finish (h : Finishing σ b b' obj current) :
    (b.magitInsertSectionFinish σ obj).sections.length = b.sections.length := by
  rw [h.eq, Buffer.modify, List.length_modify, h.length_addChild]

end

/-- The sections of a list whose parent is a given one. -/
def directs (b : Buffer) (current : ℕ) (ids : List ℕ) : List ℕ :=
  ids.filter fun i => (b.get i).parent = some current

/-- A body of a section that finishes some sections, which are all new. -/
structure Ran (σ : Settings) (current : ℕ) (b b' : Buffer) (ids : List ℕ) : Prop where
  length : b.sections.length ≤ b'.sections.length
  same : ∀ i < b.sections.length, i ≠ current → (b'.get i).links = (b.get i).links
  children : (b'.get current).links = { (b.get current).links with
    children := σ.adding (b.get current).children (directs b' current ids) }
  fresh : ∀ i ∈ ids, b.sections.length ≤ i ∧ i < b'.sections.length
  mem_iff : ∀ i, b.sections.length ≤ i → ((b'.get i).fin ≠ none ↔ i ∈ ids)
  parent : ∀ i ∈ ids, ∃ p, (b'.get i).parent = some p ∧ (p = current ∨ b.sections.length ≤ p)
  nodup : ids.Nodup
  first : ∀ i ∈ ids.head?, (b'.get i).children = []

/-- Nothing is finished. -/
theorem Ran.of_links (σ : Settings) (current : ℕ) (hlength : b'.sections.length = b.sections.length)
    (hlinks : ∀ i, (b'.get i).links = (b.get i).links) : Ran σ current b b' [] := by
  refine ⟨hlength.ge, fun i _ _ => hlinks i, ?_, fun _ hi => absurd hi List.not_mem_nil,
    fun i hi => ?_, fun _ hi => absurd hi List.not_mem_nil, .nil,
    fun _ hi => absurd hi (Option.not_mem_none _)⟩
  · rw [directs, List.filter_nil, adding_nil]
    exact hlinks current
  · rw [Buffer.get, List.getD_eq_getElem?_getD, List.getElem?_eq_none (hlength ▸ hi)]
    exact ⟨fun h => absurd rfl h, fun h => absurd h List.not_mem_nil⟩

theorem Ran.of_redone (σ : Settings) (current : ℕ) (h : Redone b b') : Ran σ current b b' [] :=
  .of_links σ current h.length h.links

theorem Links.fin_iff {s s' : Section} (h : s.links = s'.links) : s.fin ≠ none ↔ s'.fin ≠ none := by
  rw [← Option.isSome_iff_ne_none, ← Option.isSome_iff_ne_none]
  exact iff_of_eq (congrArg (· = true) (congrArg Links.finished h))

/-- One after the other. -/
theorem Ran.trans {current : ℕ} {b'' : Buffer} {ids ids' : List ℕ} (h : Ran σ current b b' ids)
    (h' : Ran σ current b' b'' ids') (hcurrent : current < b.sections.length) :
    Ran σ current b b'' (ids ++ ids') := by
  -- the new sections stay what they are
  have hnew : ∀ i ∈ ids, (b''.get i).links = (b'.get i).links := fun i hi =>
    h'.same i (h.fresh i hi).2 fun heq =>
      absurd hcurrent (not_lt.mpr (heq ▸ (h.fresh i hi).1))
  have hdirects : directs b'' current (ids ++ ids')
      = directs b' current ids ++ directs b'' current ids' := by
    rw [directs, List.filter_append]
    congr 1
    refine List.filter_congr fun i hi => ?_
    rw [show (b''.get i).parent = (b'.get i).parent from congrArg Links.parent (hnew i hi)]
  constructor
  · exact h.length.trans h'.length
  · intro i hi hne
    rw [h'.same i (hi.trans_le h.length) hne, h.same i hi hne]
  · rw [h'.children, h.children, hdirects, adding_append]
    rw [show (b'.get current).children = σ.adding (b.get current).children (directs b' current ids)
      from congrArg Links.children h.children]
  · intro i hi
    rcases List.mem_append.mp hi with hi | hi
    · exact ⟨(h.fresh i hi).1, (h.fresh i hi).2.trans_le h'.length⟩
    · exact ⟨h.length.trans (h'.fresh i hi).1, (h'.fresh i hi).2⟩
  · intro i hi
    rw [List.mem_append]
    rcases Nat.lt_or_ge i b'.sections.length with hlt | hge
    · have hne : i ≠ current := fun heq => absurd hcurrent (not_lt.mpr (heq ▸ hi))
      rw [Links.fin_iff (h'.same i hlt hne), h.mem_iff i hi, or_iff_left]
      exact fun hmem => absurd hlt (not_lt.mpr (h'.fresh i hmem).1)
    · rw [h'.mem_iff i hge, or_iff_right]
      exact fun hmem => absurd (h.fresh i hmem).2 (not_lt.mpr hge)
  · intro i hi
    rcases List.mem_append.mp hi with hi | hi
    · rw [show (b''.get i).parent = (b'.get i).parent from congrArg Links.parent (hnew i hi)]
      exact h.parent i hi
    · obtain ⟨p, hp, hcases⟩ := h'.parent i hi
      exact ⟨p, hp, hcases.imp_right h.length.trans⟩
  · refine List.nodup_append.mpr ⟨h.nodup, h'.nodup, fun i hi j hj heq => ?_⟩
    exact absurd (h.fresh i hi).2 (not_lt.mpr (heq ▸ (h'.fresh j hj).1))
  · intro i hi
    cases ids with
    | nil => exact h'.first i hi
    | cons x ids =>
      have hx : x = i := Option.some.inj hi
      subst hx
      rw [show (b''.get x).children = (b'.get x).children from
        congrArg Links.children (hnew x List.mem_cons_self)]
      exact h.first x rfl

section

variable {current : ℕ} {ids : List ℕ}

/-- A new section is open and has no children. -/
theorem get_create (b : Buffer) (current i : ℕ) :
    (b.magitInsertSectionCreate (some current)).get i =
      if i = b.sections.length then ⟨some current, ⟨b.point, false⟩, none, none, []⟩
      else b.get i := by
  rw [Buffer.get, Buffer.get, Buffer.magitInsertSectionCreate, List.getD_eq_getElem?_getD,
    List.getD_eq_getElem?_getD]
  split
  · next hi =>
    rw [hi, List.getElem?_concat_length]
    rfl
  · next hi =>
    rcases Nat.lt_or_gt_of_ne hi with hlt | hgt
    · rw [List.getElem?_append_left hlt]
    · rw [List.getElem?_eq_none hgt.le, List.getElem?_eq_none]
      rw [List.length_append, List.length_singleton]
      exact hgt

theorem length_create (b : Buffer) (current : ℕ) :
    (b.magitInsertSectionCreate (some current)).sections.length = b.sections.length + 1 := by
  rw [Buffer.magitInsertSectionCreate, List.length_append, List.length_singleton]

/-! What the body of a new section does to the tree, before the section is finished or canceled. -/

/-- Inserting a section leaves the links of those before it. -/
theorem Ran.links_old
    (h : Ran σ b.sections.length (b.magitInsertSectionCreate (some current)) b' ids) {i : ℕ}
    (hi : i < b.sections.length) :
    (b'.get i).links = (b.get i).links := by
  have hlength := length_create b current
  rw [h.same i (by omega) hi.ne, get_create, if_neg hi.ne]

/-- The section that was created has what was inserted directly in it. -/
theorem Ran.links_obj
    (h : Ran σ b.sections.length (b.magitInsertSectionCreate (some current)) b' ids) :
    (b'.get b.sections.length).links
    = ⟨some current, false, σ.adding [] (directs b' b.sections.length ids)⟩ := by
  rw [h.children, get_create, if_pos rfl]
  rfl

/-- What the body has finished is inside the new section. -/
theorem Ran.directs_eq_nil
    (h : Ran σ b.sections.length (b.magitInsertSectionCreate (some current)) b' ids)
    (hcurrent : current < b.sections.length) :
    directs b' current ids = [] := by
  have hlength := length_create b current
  refine List.filter_eq_nil_iff.mpr fun i hi => ?_
  obtain ⟨p, hp, hcases⟩ := h.parent i hi
  rw [decide_eq_true_eq, hp, Option.some_inj]
  rintro rfl
  omega

/-- The new section is canceled. -/
theorem Ran.canceled
    (h : Ran σ b.sections.length (b.magitInsertSectionCreate (some current)) b' ids)
    (hcurrent : current < b.sections.length) : Ran σ current b b' ids := by
  have hlength := length_create b current
  constructor
  · have hle := h.length
    omega
  · exact fun i hi _ => h.links_old hi
  · rw [h.directs_eq_nil hcurrent, adding_nil, h.links_old hcurrent]
    rfl
  · intro i hi
    have hfresh := h.fresh i hi
    omega
  · intro i hi
    rcases Nat.lt_or_eq_of_le hi with hlt | rfl
    · exact h.mem_iff i (by omega)
    · refine iff_of_false (fun hne => ?_) fun hmem => ?_
      · have hfinished : (b'.get b.sections.length).fin.isSome = false :=
          congrArg Links.finished h.links_obj
        rw [Option.isSome_iff_ne_none.mpr hne] at hfinished
        cases hfinished
      · have hge := (h.fresh _ hmem).1
        omega
  · intro i hi
    obtain ⟨p, hp, hcases⟩ := h.parent i hi
    exact ⟨p, hp, by omega⟩
  · exact h.nodup
  · exact h.first

/-- The new section is finished. -/
theorem Ran.finished {b'' : Buffer}
    (h : Ran σ b.sections.length (b.magitInsertSectionCreate (some current)) b' ids)
    (hcurrent : current < b.sections.length)
    (hfinish : Finishing σ b' b'' b.sections.length current) :
    Ran σ current b (b'.magitInsertSectionFinish σ b.sections.length)
      (ids ++ [b.sections.length]) := by
  have hcanceled := h.canceled hcurrent
  have hlength := length_create b current
  have hlinks := hfinish.links_finish
  have hself := (hlinks b.sections.length).trans (if_pos rfl)
  have hkept : ∀ i, b.sections.length < i → ((b'.magitInsertSectionFinish σ b.sections.length).get
      i).links = (b'.get i).links := fun i hi => by
    rw [hlinks, if_neg hi.ne', if_neg (by omega)]
  have hnew : ∀ i ∈ ids, b.sections.length < i := fun i hi => by
    have hfresh := h.fresh i hi
    omega
  have hparent : ∀ i ∈ ids, ((b'.magitInsertSectionFinish σ b.sections.length).get i).parent
      = (b'.get i).parent := fun i hi => congrArg Links.parent (hkept i (hnew i hi))
  constructor
  · rw [hfinish.length_finish]
    exact hcanceled.length
  · intro i hi hne
    rw [hlinks, if_neg hi.ne, if_neg hne, hcanceled.same i hi hne]
  · have hdirects : directs (b'.magitInsertSectionFinish σ b.sections.length) current
        (ids ++ [b.sections.length]) = [b.sections.length] := by
      have hids : directs (b'.magitInsertSectionFinish σ b.sections.length) current ids = [] := by
        rw [← h.directs_eq_nil hcurrent]
        exact List.filter_congr fun i hi => by rw [hparent i hi]
      rw [directs, List.filter_append]
      rw [directs] at hids
      rw [hids, List.nil_append, List.filter_cons_of_pos, List.filter_nil]
      exact decide_eq_true (congrArg Links.parent hself)
    rw [hdirects, hlinks, if_neg hcurrent.ne, if_pos rfl, h.links_old hcurrent,
      show (b'.get current).children = (b.get current).children from
        congrArg Links.children (h.links_old hcurrent)]
  · intro i hi
    rw [hfinish.length_finish]
    rcases List.mem_append.mp hi with hi | hi
    · exact hcanceled.fresh i hi
    · rw [List.mem_singleton.mp hi]
      exact ⟨le_rfl, hfinish.lt.1⟩
  · intro i hi
    rw [List.mem_append, List.mem_singleton]
    rcases Nat.lt_or_eq_of_le hi with hlt | rfl
    · rw [Links.fin_iff (hkept i hlt), hcanceled.mem_iff i hi, or_iff_left hlt.ne']
    · refine iff_of_true ?_ (.inr rfl)
      exact Option.isSome_iff_ne_none.mp (congrArg Links.finished hself)
  · intro i hi
    rcases List.mem_append.mp hi with hi | hi
    · rw [hparent i hi]
      exact hcanceled.parent i hi
    · rw [List.mem_singleton.mp hi]
      exact ⟨current, congrArg Links.parent hself, .inl rfl⟩
  · refine List.nodup_append.mpr ⟨h.nodup, List.pairwise_singleton _ _, fun i hi j hj heq => ?_⟩
    rw [List.mem_singleton.mp hj] at heq
    exact absurd (hnew i hi) (heq ▸ Nat.lt_irrefl _)
  · intro i hi
    cases ids with
    | nil =>
      have hi : b.sections.length = i := Option.some.inj hi
      rw [← hi, show (_ : Section).children = _ from congrArg Links.children hself,
        show (b'.get b.sections.length).children = _ from congrArg Links.children h.links_obj,
        directs, List.filter_nil, adding_nil]
      exact order_eq_nil.mpr rfl
    | cons x ids =>
      have hx : x = i := Option.some.inj hi
      subst hx
      rw [show (_ : Section).children = (b'.get x).children from
        congrArg Links.children (hkept x (hnew x List.mem_cons_self))]
      exact h.first x rfl

/-- `magit-insert-heading` -/
theorem links_magitInsertHeading (b : Buffer) (current : ℕ) (count : Option Count)
    (heading : List Char) :
    (b.magitInsertHeading σ current count heading).sections.length = b.sections.length ∧
      ∀ i, ((b.magitInsertHeading σ current count heading).get i).links = (b.get i).links := by
  have htext := redone_insertHeadingText (σ := σ) b count heading
  refine ⟨?_, fun i => ?_⟩
  · rw [Buffer.magitInsertHeading, Buffer.setContent, Buffer.modify, List.length_modify,
      htext.length]
  · rw [← htext.links i, Buffer.magitInsertHeading, Buffer.setContent, get_modify]
    split <;> rfl

/-- `magit-cancel-section` -/
theorem links_magitCancelSection {ifEmpty : Bool}
    (hb' : b.magitCancelSection current ifEmpty = .ok b' ∨
      b.magitCancelSection current ifEmpty = .error b') :
    b'.sections.length = b.sections.length ∧ ∀ i, (b'.get i).links = (b.get i).links := by
  have hmove : ∀ {e : Marker → Marker}, b'.sections = b.sections.map (·.move e) →
      b'.sections.length = b.sections.length ∧ ∀ i, (b'.get i).links = (b.get i).links :=
    fun he => ⟨by rw [he, List.length_map], get_move he⟩
  unfold Buffer.magitCancelSection at hb'
  dsimp only at hb'
  split at hb'
  · split at hb'
    · rcases hb' with hb' | hb' <;> cases hb'
      exact hmove rfl
    · rcases hb' with hb' | hb' <;> cases hb'
      exact hmove rfl
  · rcases hb' with hb' | hb' <;> cases hb'
    exact ⟨rfl, fun _ => rfl⟩

theorem Reached.current_lt {rest : List ℕ} (h : Reached σ b (current :: rest)) :
    current < b.sections.length := by
  obtain ⟨s, hs, -⟩ := h.grown.begun current List.mem_cons_self
  exact (List.getElem?_eq_some_iff.mp hs).1

/-- **What a body does to the tree**, in the end or until it throws. -/
theorem ran_run (forms : Forms) : ∀ {b b' : Buffer} {current : ℕ} {rest : List ℕ},
    Reached σ b (current :: rest) →
    run σ forms current b = .ok b' ∨ run σ forms current b = .error b' →
    Ran σ current b b' (finishedBy σ forms current b) := by
  induction forms with
  | done =>
    rintro b b' current rest h (hb' | hb') <;> cases hb'
    exact .of_redone σ current (.refl b)
  | insert text rest ih =>
    intro b b' current stack h hb'
    exact Ran.trans (.of_redone σ current (redone_insert text)) (ih (h.insert text) hb')
      h.current_lt
  | insertHeading count heading rest ih =>
    intro b b' current stack h hb'
    obtain ⟨hlength, hlinks⟩ := links_magitInsertHeading (σ := σ) b current count heading
    exact Ran.trans (.of_links σ current hlength hlinks) (ih (h.insertHeading count heading) hb')
      h.current_lt
  | cancelSection ifEmpty rest ih =>
    intro b b' current stack h hb'
    rw [run] at hb'
    rw [finishedBy]
    cases hcancel : b.magitCancelSection current ifEmpty with
    | ok c =>
      rw [hcancel] at hb'
      obtain ⟨hlength, hlinks⟩ := links_magitCancelSection (.inl hcancel)
      exact Ran.trans (.of_links σ current hlength hlinks) (ih (h.cancelNot hcancel) hb')
        h.current_lt
    | error c =>
      rw [hcancel] at hb'
      have hc : c = b' := by rcases hb' with hb' | hb' <;> cases hb'; rfl
      obtain ⟨hlength, hlinks⟩ := links_magitCancelSection (.inr (hc ▸ hcancel))
      exact .of_links σ current hlength hlinks
  | insertSection body rest ihbody ih =>
    intro b b' current stack h hb'
    rw [run] at hb'
    rw [finishedBy]
    rcases reached_run body h.create with ⟨c, hc, hreached⟩ | ⟨c, hc, hreached⟩
    · rw [hc] at hb' ⊢
      have hbody := ihbody h.create (.inl hc)
      obtain ⟨c', hfinish⟩ := finishing_of_reached hreached
      have hrest := ih hreached.finish hb'
      have hboth := (hbody.finished h.current_lt hfinish).trans hrest h.current_lt
      rw [List.append_assoc] at hboth
      exact hboth
    · rw [hc] at hb' ⊢
      exact ((ihbody h.create (.inr hc)).canceled h.current_lt).trans (ih hreached hb') h.current_lt

/-- **What the header functions do to the tree.** -/
theorem ran_magitRunSectionHook (hook : List Forms) : ∀ {b b' : Buffer} {current : ℕ}
    {rest : List ℕ}, Reached σ b (current :: rest) →
    magitRunSectionHook σ hook current b = .ok b' →
    Reached σ b' (current :: rest) ∧ Ran σ current b b' (headerSections σ hook current b) := by
  induction hook with
  | nil =>
    intro b b' current rest h hb'
    cases hb'
    exact ⟨h, .of_redone σ current (.refl b)⟩
  | cons entry entries ih =>
    intro b b' current rest h hb'
    rw [magitRunSectionHook] at hb'
    rw [headerSections]
    rcases reached_run entry h with ⟨c, hc, hreached⟩ | ⟨c, hc, -⟩
    · rw [hc] at hb' ⊢
      obtain ⟨hreached', hran⟩ := ih hreached hb'
      exact ⟨hreached', (ran_run entry h (.inl hc)).trans hran h.current_lt⟩
    · rw [hc] at hb'
      cases hb'

end

/-! ## The headers -/

/-- Text that belongs to a finished section. -/
def Buffer.HasText (b : Buffer) (i : ℕ) : Prop := (b.get i).fin ≠ none ∧ b.start i < b.fin i

/-- **What `magit-insert-headers` is for** — the parent had some children, the header functions led
from `b` to `b'`, and `headers` are the sections that they inserted into the parent itself. -/
structure KeepsTree (σ : Settings) (b b' b'' : Buffer) (stack : List ℕ) (current : ℕ)
    (headers : List ℕ) : Prop where
  parentChildren : (b''.get current).children
    = σ.adding (b.get current).children (headers.take 1)
  firstChildren : ∀ first ∈ headers.head?,
    (b''.get first).children = (b'.get first).children ++ headers.tail
  agrees : ∀ i ∈ stack, ∀ j k, b''.Inside i j → b''.IsChild j k → (b''.get k).parent = some j
  inTree : ∀ k, b''.HasText k → ∃ i ∈ stack, b''.Inside i k

/-- A finished section with text is inside a section that has been begun. -/
theorem Grown.inside_of_hasText {stack : List ℕ} (h : Grown b none stack) {k : ℕ}
    (hstart : b.start k < b.point) (hfin : (b.get k).fin ≠ none) : ∃ i ∈ stack, b.Inside i k := by
  have hk : b.sections[k]? = some (b.get k) := by
    rw [Buffer.get, List.getD_eq_getElem?_getD] at hfin ⊢
    cases hs : b.sections[k]? with
    | none =>
      rw [hs] at hfin
      exact absurd rfl hfin
    | some s => rfl
  rcases h.inTree hk hfin with hend | ⟨i, hi, hik⟩
  · exact absurd hend hstart.ne
  · exact ⟨i, hi.resolve_left (Option.not_mem_none _), hik⟩

/-- No section ends behind point. -/
theorem Grown.fin_le {stack : List ℕ} (h : Grown b none stack) {k : ℕ} :
    ∀ m ∈ (b.get k).fin, m.pos ≤ b.point := by
  intro m hm
  rw [Buffer.get, List.getD_eq_getElem?_getD] at hm
  cases hs : b.sections[k]? with
  | none =>
    rw [hs] at hm
    cases hm
  | some s =>
    rw [hs] at hm
    exact (h.marked s (List.mem_of_getElem? hs)).fin m hm

/-- A child has its parent and is finished. -/
theorem Grown.parent_of_isChild {stack : List ℕ} (h : Grown b none stack) {i j : ℕ}
    (hij : b.IsChild i j) : (b.get j).parent = some i ∧ (b.get j).fin ≠ none := by
  obtain ⟨s, hs, hj⟩ := Buffer.isChild_iff.mp hij
  obtain ⟨t, ht, hparent⟩ := h.linked.ofChild hs hj
  rwa [Buffer.get_eq ht]

/-- The tree is left alone. -/
theorem keepsTree_of_grown {stack : List ℕ} {current : ℕ} {ids : List ℕ}
    (h : Grown b' none stack) (hran : Ran σ current b b' ids)
    (hone : (directs b' current ids).length ≤ 1) :
    KeepsTree σ b b' b' stack current (directs b' current ids) where
  parentChildren := by
    rw [List.take_of_length_le hone]
    exact congrArg Links.children hran.children
  firstChildren first _ := by
    rw [List.eq_nil_of_length_eq_zero (l := (directs b' current ids).tail)
      (by rw [List.length_tail]; omega), List.append_nil]
  agrees i _ j k _ hjk := (h.parent_of_isChild hjk).1
  inTree k hk := by
    obtain ⟨hfin, hlt⟩ := hk
    refine h.inside_of_hasText (hlt.trans_le ?_) hfin
    obtain ⟨m, hm⟩ := Option.ne_none_iff_exists'.mp hfin
    rw [Buffer.fin, hm]
    exact h.fin_le m hm

/-! ## The rewritten tree -/

/-- Setting the parent of several sections. -/
theorem get_foldl_parent (x : ℕ) (others : List ℕ) (i : ℕ) : ∀ b : Buffer,
    (∀ j ∈ others, j < b.sections.length) →
    (others.foldl (fun b' i => b'.modify i fun s => { s with parent := some x }) b).get i =
      { b.get i with parent := if i ∈ others then some x else (b.get i).parent } := by
  induction others with
  | nil =>
    intro b _
    rw [List.foldl_nil, if_neg List.not_mem_nil]
  | cons j others ih =>
    intro b hlt
    have hj := hlt j List.mem_cons_self
    rw [List.foldl_cons, ih _ fun k hk => by
      rw [Buffer.modify, List.length_modify]
      exact hlt k (List.mem_cons_of_mem _ hk), get_modify]
    by_cases hi : i = j
    · subst hi
      rw [if_pos ⟨rfl, hj⟩, if_pos List.mem_cons_self]
      simp only [ite_self]
    · rw [if_neg fun h => hi h.1]
      simp only [List.mem_cons, hi, false_or]

/-- What becomes of the sections. -/
theorem get_nestHeaders {x p : ℕ} {others : List ℕ} (hx : x < b.sections.length)
    (hp : (b.get x).parent = some p) (hplt : p < b.sections.length)
    (hothers : ∀ j ∈ others, j < b.sections.length) (i : ℕ) :
    (b.nestHeaders x others).get i = {
      parent := if i ∈ others then some x else (b.get i).parent
      start := (b.get i).start
      content := if i = x then others.head?.map fun j => (b.get j).start else (b.get i).content
      fin := if i = x then others.getLast?.bind fun j => (b.get j).fin else (b.get i).fin
      children := if i = x then others else if i = p then [x] else (b.get i).children } := by
  simp only [Buffer.nestHeaders, hp]
  rw [get_foldl_parent x others i _ fun j hj => by
    rw [Buffer.modify, List.length_modify, Buffer.modify, List.length_modify]
    exact hothers j hj, get_modify, get_modify]
  have hlength : (b.modify p fun s => { s with children := [x] }).sections.length
      = b.sections.length := by rw [Buffer.modify, List.length_modify]
  rw [hlength]
  by_cases hix : i = x
  · simp only [hix, hx, true_and, if_true]
    by_cases hxp : x = p ∧ p < b.sections.length
    · rw [if_pos hxp]
    · rw [if_neg hxp]
  · simp only [hix, false_and, if_false]
    by_cases hip : i = p
    · simp only [hip, hplt, true_and, if_true]
    · simp only [hip, false_and, if_false]

/-- The own children of the first header are what they were. -/
theorem KeepsTree.congr {b₁ b'' : Buffer} {stack : List ℕ} {current : ℕ} {headers : List ℕ}
    (h : Redone b' b₁) :
    KeepsTree σ b b₁ b'' stack current headers ↔ KeepsTree σ b b' b'' stack current headers := by
  have hchildren : ∀ i, (b₁.get i).children = (b'.get i).children := fun i =>
    congrArg Links.children (h.links i)
  constructor
  · rintro ⟨hparent, hfirst, hagrees, hin⟩
    exact ⟨hparent, fun i hi => hchildren i ▸ hfirst i hi, hagrees, hin⟩
  · rintro ⟨hparent, hfirst, hagrees, hin⟩
    exact ⟨hparent, fun i hi => (hchildren i).symm ▸ hfirst i hi, hagrees, hin⟩

/-- Two sections or more have been finished by the header functions, and `x` is the first one. -/
structure Nesting (σ : Settings) (b b' : Buffer) (stack : List ℕ) (current x p : ℕ)
    (others : List ℕ) : Prop where
  before : Grown b none stack
  after : Grown b' none stack
  mem : current ∈ stack
  ran : Ran σ current b b' (x :: others)
  parent : (b'.get x).parent = some p

namespace Nesting

variable {stack : List ℕ} {current x p : ℕ} {others : List ℕ}

theorem lt_of_mem (h : Nesting σ b b' stack current x p others) {i : ℕ} (hi : i ∈ stack) :
    i < b.sections.length := by
  obtain ⟨s, hs, -⟩ := h.before.begun i hi
  exact (List.getElem?_eq_some_iff.mp hs).1

theorem le_of_mem (h : Nesting σ b b' stack current x p others) {i : ℕ} (hi : i ∈ x :: others) :
    b.sections.length ≤ i := (h.ran.fresh i hi).1

theorem current_lt (h : Nesting σ b b' stack current x p others) : current < x :=
  (h.lt_of_mem h.mem).trans_le (h.le_of_mem List.mem_cons_self)

theorem notMem (h : Nesting σ b b' stack current x p others) : x ∉ others :=
  (List.nodup_cons.mp h.ran.nodup).1

theorem fin_ne_none (h : Nesting σ b b' stack current x p others) {i : ℕ} (hi : i ∈ x :: others) :
    (b'.get i).fin ≠ none :=
  (h.ran.mem_iff i (h.le_of_mem hi)).mpr hi

/-- What nesting the headers changes: the parents of the others, and two lists of children. -/
theorem get (h : Nesting σ b b' stack current x p others) (i : ℕ) :
    (b'.nestHeaders x others).get i = {
      parent := if i ∈ others then some x else (b'.get i).parent
      start := (b'.get i).start
      content := if i = x then others.head?.map fun j => (b'.get j).start else (b'.get i).content
      fin := if i = x then others.getLast?.bind fun j => (b'.get j).fin else (b'.get i).fin
      children := if i = x then others else if i = p then [x] else (b'.get i).children } := by
  have hx := (h.ran.fresh x List.mem_cons_self).2
  have hsection : b'.sections[x]? = some (b'.get x) := by
    rw [Buffer.get, List.getD_eq_getElem?_getD, List.getElem?_eq_getElem hx]
    rfl
  refine get_nestHeaders hx h.parent ?_ (fun j hj =>
    (h.ran.fresh j (List.mem_cons_of_mem _ hj)).2) i
  rcases h.after.linked.ofParent hsection h.parent (h.fin_ne_none List.mem_cons_self) with
    hpending | ⟨s, hs, -⟩
  · cases hpending
  · exact (List.getElem?_eq_some_iff.mp hs).1

theorem children (h : Nesting σ b b' stack current x p others) (i : ℕ) :
    ((b'.nestHeaders x others).get i).children
      = if i = x then others else if i = p then [x] else (b'.get i).children := by rw [h.get]

theorem parent_eq (h : Nesting σ b b' stack current x p others) (i : ℕ) :
    ((b'.nestHeaders x others).get i).parent
      = if i ∈ others then some x else (b'.get i).parent := by rw [h.get]

/-- No section gets text that has been inserted elsewhere. -/
theorem inside_of_hasText (h : Nesting σ b b' stack current x p others) {k : ℕ}
    (hk : (b'.nestHeaders x others).HasText k) : ∃ i ∈ stack, b'.Inside i k := by
  obtain ⟨hfin, hlt⟩ := hk
  rw [Buffer.start, Buffer.fin] at hlt
  rw [h.get] at hfin hlt
  dsimp only at hfin hlt
  obtain ⟨m, hm⟩ := Option.ne_none_iff_exists'.mp hfin
  rw [hm, Option.getD_some] at hlt
  by_cases hkx : k = x
  · rw [if_pos hkx] at hm
    obtain ⟨j, -, hj⟩ := Option.bind_eq_some_iff.mp hm
    exact h.after.inside_of_hasText (hlt.trans_le (h.after.fin_le m hj))
      (h.fin_ne_none (hkx ▸ List.mem_cons_self))
  · rw [if_neg hkx] at hm
    exact h.after.inside_of_hasText (hlt.trans_le (h.after.fin_le m hm)) (hm ▸ Option.some_ne_none m)

/-- **No header is inserted into the parent**: nothing that is in the tree is touched. -/
theorem keepsTree_of_nil (h : Nesting σ b b' stack current x p others)
    (hnil : directs b' current (x :: others) = []) :
    KeepsTree σ b b' (b'.nestHeaders x others) stack current [] := by
  have hp : b.sections.length ≤ p := by
    obtain ⟨p', hp', hcases⟩ := h.ran.parent x List.mem_cons_self
    rw [h.parent, Option.some_inj] at hp'
    subst hp'
    refine hcases.resolve_left fun heq => ?_
    have hx := List.filter_eq_nil_iff.mp hnil x List.mem_cons_self
    exact hx (decide_eq_true (by rw [h.parent, heq]))
  have hx := h.le_of_mem List.mem_cons_self
  -- the old sections keep the children that they had
  have hchildren : ∀ j < b.sections.length, ((b'.nestHeaders x others).get j).children
      = (b'.get j).children ∧ (b'.get j).children = (b.get j).children := by
    intro j hj
    refine ⟨by rw [h.children, if_neg (by omega), if_neg (by omega)], ?_⟩
    by_cases hjc : j = current
    · subst hjc
      have hlinks := congrArg Links.children h.ran.children
      rw [hnil, adding_nil] at hlinks
      exact hlinks
    · exact congrArg Links.children (h.ran.same j hj hjc)
  have hold : ∀ {j k}, j < b.sections.length → b'.IsChild j k → k < b.sections.length := by
    intro j k hj hjk
    rw [Buffer.IsChild, (hchildren j hj).2] at hjk
    have hfin := (h.before.parent_of_isChild hjk).2
    by_contra hge
    rw [Buffer.get, List.getD_eq_getElem?_getD, List.getElem?_eq_none (not_lt.mp hge)] at hfin
    exact hfin rfl
  have hiff : ∀ {j k}, j < b.sections.length →
      ((b'.nestHeaders x others).IsChild j k ↔ b'.IsChild j k) := by
    intro j k hj
    rw [Buffer.IsChild, Buffer.IsChild, (hchildren j hj).1]
  have hback : ∀ {i k}, i ∈ stack → (b'.nestHeaders x others).Inside i k →
      k < b.sections.length := by
    intro i k hi hik
    induction hik with
    | refl => exact h.lt_of_mem hi
    | tail _ hjk ih => exact hold ih ((hiff ih).mp hjk)
  have hforth : ∀ {i k}, i ∈ stack → b'.Inside i k →
      k < b.sections.length ∧ (b'.nestHeaders x others).Inside i k := by
    intro i k hi hik
    induction hik with
    | refl => exact ⟨h.lt_of_mem hi, .refl⟩
    | tail _ hjk ih => exact ⟨hold ih.1 hjk, ih.2.tail ((hiff ih.1).mpr hjk)⟩
  constructor
  · rw [List.take_nil, adding_nil, (hchildren _ (h.lt_of_mem h.mem)).1,
      (hchildren _ (h.lt_of_mem h.mem)).2]
  · exact fun _ h => absurd h (Option.not_mem_none _)
  · intro i hi j k hij hjk
    have hj := hback hi hij
    have hjk' := (hiff hj).mp hjk
    rw [h.parent_eq, if_neg fun hmem => ?_, (h.after.parent_of_isChild hjk').1]
    exact absurd (hold hj hjk') (not_lt.mpr (h.le_of_mem (List.mem_cons_of_mem _ hmem)))
  · intro k hk
    obtain ⟨i, hi, hik⟩ := h.inside_of_hasText hk
    exact ⟨i, hi, (hforth hi hik).2⟩

/-- **Nothing but headers**, and they are the first sections in the parent. -/
theorem keepsTree_of_first (h : Nesting σ b b' stack current x p others)
    (hfirst : (b.get current).children = [])
    (hall : directs b' current (x :: others) = x :: others) :
    KeepsTree σ b b' (b'.nestHeaders x others) stack current (x :: others) := by
  have hparent : ∀ i ∈ x :: others, (b'.get i).parent = some current := fun i hi =>
    of_decide_eq_true (List.filter_eq_self.mp hall i hi)
  have hp : p = current := Option.some.inj (h.parent.symm.trans (hparent x List.mem_cons_self))
  have hne : current ≠ x := h.current_lt.ne
  have hcurrent : (b'.get current).children = σ.adding [] (x :: others) := by
    have hlinks := congrArg Links.children h.ran.children
    rw [hall, hfirst] at hlinks
    exact hlinks
  have hown : (b'.get x).children = [] := h.ran.first x rfl
  constructor
  · rw [h.children, if_neg hne, if_pos hp.symm, hfirst, List.take_succ_cons, List.take_zero,
      Settings.adding, List.reverse_singleton, List.append_nil, List.nil_append, ite_self]
  · intro first hx
    have hx : x = first := Option.some.inj hx
    subst hx
    rw [h.children, if_pos rfl, hown, List.nil_append, List.tail_cons]
  · intro i _ j k _ hjk
    rw [Buffer.IsChild, h.children] at hjk
    rw [h.parent_eq]
    split at hjk
    · next hjx => rw [if_pos hjk, hjx]
    · split at hjk
      · next hjp =>
        rw [List.mem_singleton.mp hjk, if_neg h.notMem, h.parent, hjp]
      · next hjp =>
        have hjk' := (h.after.parent_of_isChild hjk).1
        rw [if_neg fun hmem => ?_, hjk']
        have hkp := hparent k (List.mem_cons_of_mem _ hmem)
        exact hjp (Option.some.inj (hjk'.symm.trans (hkp.trans (congrArg some hp.symm))))
  · intro k hk
    obtain ⟨i, hi, hik⟩ := h.inside_of_hasText hk
    refine ⟨i, hi, ?_⟩
    have hself : (b'.nestHeaders x others).IsChild current x := by
      rw [Buffer.IsChild, h.children, if_neg hne, if_pos hp.symm]
      exact List.mem_singleton_self x
    clear hk
    induction hik with
    | refl => exact .refl
    | @tail j k _ hjk ih =>
      by_cases hjx : j = x
      · rw [Buffer.IsChild, hjx, hown] at hjk
        exact absurd hjk List.not_mem_nil
      · by_cases hjc : j = current
        · subst hjc
          rw [Buffer.IsChild, hcurrent, mem_adding, List.mem_cons] at hjk
          rcases hjk with hnil | rfl | hk
          · exact absurd hnil List.not_mem_nil
          · exact ih.tail hself
          · refine (ih.tail hself).tail ?_
            rw [Buffer.IsChild, h.children, if_pos rfl]
            exact hk
        · refine ih.tail ?_
          rw [Buffer.IsChild, h.children, if_neg hjx, if_neg (hp ▸ hjc)]
          exact hjk

/-- **Otherwise** the tree is not kept. -/
theorem not_keepsTree (h : Nesting σ b b' stack current x p others)
    (hne : directs b' current (x :: others) ≠ [])
    (hnot : ¬((b.get current).children = [] ∧ directs b' current (x :: others) = x :: others)) :
    ¬KeepsTree σ b b' (b'.nestHeaders x others) stack current
      (directs b' current (x :: others)) := by
  intro hkeeps
  have hne' : current ≠ x := h.current_lt.ne
  by_cases hp : p = current
  · -- the first section is a header
    have hcons : directs b' current (x :: others) = x :: directs b' current others :=
      List.filter_cons_of_pos (decide_eq_true (hp ▸ h.parent))
    have hparent := hkeeps.parentChildren
    have hfirst := hkeeps.firstChildren x (by rw [hcons]; rfl)
    rw [h.children, if_neg hne', if_pos hp.symm, hcons, List.take_succ_cons, List.take_zero]
      at hparent
    rw [h.children, if_pos rfl, h.ran.first x rfl, hcons, List.nil_append, List.tail_cons] at hfirst
    refine hnot ⟨List.eq_nil_of_length_eq_zero ?_, by rw [hcons, ← hfirst]⟩
    have hlength := congrArg List.length hparent
    rw [Settings.adding] at hlength
    split at hlength <;> simpa using hlength
  · -- it is inside one, or in a section that has been canceled
    have hcons : directs b' current (x :: others) = directs b' current others :=
      List.filter_cons_of_neg (by
        rw [decide_eq_true_eq, h.parent, Option.some_inj]
        exact hp)
    rw [hcons] at hne
    obtain ⟨header, hheader⟩ := List.exists_mem_of_ne_nil _ hne
    have hchild : (b'.nestHeaders x others).IsChild current header := by
      rw [Buffer.IsChild, h.children, if_neg hne', if_neg (Ne.symm hp),
        show (b'.get current).children = _ from congrArg Links.children h.ran.children, hcons,
        mem_adding]
      exact .inr hheader
    have hagrees := hkeeps.agrees current h.mem current header .refl hchild
    rw [h.parent_eq, if_pos (List.mem_of_mem_filter hheader), Option.some_inj] at hagrees
    exact hne' hagrees.symm

end Nesting

/-- **The first header as the parent of the others** — the tree is kept exactly when at most one
section has been finished by the header functions, or none of those is a header, or nothing has been
in the parent before and all of them are headers. -/
theorem keepsTree_iff (hook : List Forms) {current : ℕ} {rest : List ℕ}
    (h : Reached σ b (current :: rest)) (hb' : magitRunSectionHook σ hook current b = .ok b') :
    ∃ b'', magitInsertHeaders σ hook current b = .ok b'' ∧
      (KeepsTree σ b b' b'' (current :: rest) current
          (directs b' current (headerSections σ hook current b)) ↔
        (headerSections σ hook current b).length ≤ 1 ∨
        directs b' current (headerSections σ hook current b) = [] ∨
        (b.get current).children = [] ∧
          directs b' current (headerSections σ hook current b)
            = headerSections σ hook current b) := by
  obtain ⟨hreached, hran⟩ := ran_magitRunSectionHook hook h hb'
  have hnewline : Redone b' (b'.insert ['\n']) := redone_insert _
  have hgrown := (hreached.insert ['\n']).grown
  have hran' : Ran σ current b (b'.insert ['\n']) (headerSections σ hook current b) := by
    have hboth := hran.trans (.of_redone σ current hnewline) h.current_lt
    rwa [List.append_nil] at hboth
  have hdirects : directs (b'.insert ['\n']) current (headerSections σ hook current b)
      = directs b' current (headerSections σ hook current b) := by
    refine List.filter_congr fun i _ => ?_
    rw [show ((b'.insert ['\n']).get i).parent = (b'.get i).parent from
      congrArg Links.parent (hnewline.links i)]
  have hone : (headerSections σ hook current b).length ≤ 1 →
      (directs b' current (headerSections σ hook current b)).length ≤ 1 :=
    (List.length_filter_le _ _).trans
  rw [magitInsertHeaders, hb']
  refine ⟨_, rfl, ?_⟩
  dsimp only
  cases hids : headerSections σ hook current b with
  | nil =>
    rw [hids] at hran hone
    exact iff_of_true (keepsTree_of_grown hreached.grown hran (hone (Nat.zero_le 1)))
      (.inl (Nat.zero_le 1))
  | cons x others =>
    rw [hids] at hran' hone hdirects
    cases others with
    | nil =>
      refine iff_of_true ?_ (.inl le_rfl)
      rw [← KeepsTree.congr hnewline, ← hdirects]
      exact keepsTree_of_grown hgrown hran' (hdirects ▸ hone le_rfl)
    | cons y others =>
      obtain ⟨p, hp, -⟩ := hran'.parent x List.mem_cons_self
      have hnesting : Nesting σ b (b'.insert ['\n']) (current :: rest) current x p (y :: others) :=
        ⟨h.grown, hgrown, List.mem_cons_self, hran', hp⟩
      rw [← KeepsTree.congr hnewline, ← hdirects]
      constructor
      · intro hkeeps
        by_contra hnot
        rw [not_or, not_or] at hnot
        exact hnesting.not_keepsTree hnot.2.1 hnot.2.2 hkeeps
      · rintro (hlength | hnil | ⟨hfirst, hall⟩)
        · exact absurd hlength (by rw [List.length_cons, List.length_cons]; omega)
        · rw [hnil]
          exact hnesting.keepsTree_of_nil hnil
        · rw [hall]
          exact hnesting.keepsTree_of_first hfirst hall

/-- A function that inserts one section. -/
def Forms.line (text : List Char) : Forms := .insertSection (.insert text .done) .done

/-- The root has been begun. -/
def Buffer.begun : Buffer :=
  { (Buffer.mk (plain []) [] none).magitInsertSectionCreate none with root := some 0 }

/-- Two headers at the beginning of the root. -/
theorem keepsTree_iff_begun : ∃ b' b'',
    magitRunSectionHook ⟨true, false⟩ [.line ['h', '\n'], .line ['t', '\n']] 0 .begun = .ok b' ∧
    magitInsertHeaders ⟨true, false⟩ [.line ['h', '\n'], .line ['t', '\n']] 0 .begun = .ok b'' ∧
    KeepsTree ⟨true, false⟩ .begun b' b'' [0] 0 [1, 2] := by
  obtain ⟨b'', hb'', hiff⟩ := keepsTree_iff (σ := ⟨true, false⟩)
    [.line ['h', '\n'], .line ['t', '\n']] (.root []) rfl
  exact ⟨_, b'', rfl, hb'', hiff.mpr (.inr (.inr (by decide)))⟩

/-- The root, with a section in it. -/
def Buffer.listed : Buffer :=
  ((Buffer.begun.magitInsertSectionCreate (some 0)).insert ['s', '\n']).magitInsertSectionFinish
    ⟨true, false⟩ 1

theorem reached_listed : Reached ⟨true, false⟩ .listed [0] :=
  ((Reached.root []).create.insert ['s', '\n']).finish

/-- That section is not in the root any more, once two headers have been inserted behind it. -/
theorem not_keepsTree_listed : Reached ⟨true, false⟩ .listed [0] ∧ ∃ b' b'',
    magitRunSectionHook ⟨true, false⟩ [.line ['h', '\n'], .line ['t', '\n']] 0 .listed = .ok b' ∧
    magitInsertHeaders ⟨true, false⟩ [.line ['h', '\n'], .line ['t', '\n']] 0 .listed = .ok b'' ∧
    ¬KeepsTree ⟨true, false⟩ .listed b' b'' [0] 0 (directs b' 0 (headerSections ⟨true, false⟩
      [.line ['h', '\n'], .line ['t', '\n']] 0 .listed)) :=
  ⟨reached_listed, _, _, rfl, rfl, fun h => absurd h.parentChildren (by decide)⟩

end Magit.Insertion

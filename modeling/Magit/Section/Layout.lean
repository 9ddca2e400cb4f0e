import Magit.Section.Insert

/-!
# Section/Layout — where sections stand

`Body` is what has been inserted into a section: text of its own, and sections.  `Placed` says that
the slots of these sections hold the positions that the text leads to.
-/

namespace Magit.Insertion

open Emacs Propertied

/-- The inside of a section.  The heading of a section ends at an offset into it. -/
inductive Body
  | nil
  | char (c : Char) (rest : Body)
  | sect (id : ℕ) (content : Option ℕ) (inner rest : Body)

namespace Body

/-- The body followed by another. -/
def append : Body → Body → Body
  | nil, b => b
  | char c rest, b => char c (rest.append b)
  | sect id content inner rest, b => sect id content inner (rest.append b)

instance : Append Body := ⟨append⟩

/-- A body of characters only. -/
def ofChars : List Char → Body
  | [] => nil
  | c :: chars => char c (ofChars chars)

/-- The characters of a body. -/
def size : Body → ℕ
  | nil => 0
  | char _ rest => rest.size + 1
  | sect _ _ inner rest => inner.size + rest.size

/-- The sections in it, but not those in them. -/
def ids : Body → List ℕ
  | nil => []
  | char _ rest => rest.ids
  | sect id _ _ rest => id :: rest.ids

/-- The text, if what belongs to no section in it has some value of the property. -/
def cells : Body → Option ℕ → Propertied ℕ
  | nil, _ => []
  | char c rest, owner => (c, owner) :: rest.cells owner
  | sect id _ inner rest, owner => inner.cells (some id) ++ rest.cells owner

@[simp] theorem nil_append (b : Body) : nil ++ b = b := rfl

@[simp] theorem char_append (c : Char) (b b' : Body) : char c b ++ b' = char c (b ++ b') := rfl

@[simp] theorem sect_append (id : ℕ) (content : Option ℕ) (inner b b' : Body) :
    sect id content inner b ++ b' = sect id content inner (b ++ b') := rfl

theorem append_assoc (b b' b'' : Body) : b ++ b' ++ b'' = b ++ (b' ++ b'') := by
  induction b with
  | nil => rfl
  | char c rest ih => rw [char_append, char_append, char_append, ih]
  | sect id content inner rest _ ih => rw [sect_append, sect_append, sect_append, ih]

@[simp] theorem append_nil (b : Body) : b ++ nil = b := by
  induction b with
  | nil => rfl
  | char c rest ih => rw [char_append, ih]
  | sect id content inner rest _ ih => rw [sect_append, ih]

@[simp] theorem size_append (b b' : Body) : (b ++ b').size = b.size + b'.size := by
  induction b with
  | nil => exact (Nat.zero_add _).symm
  | char c rest ih => rw [char_append, size, size, ih, Nat.add_right_comm]
  | sect id content inner rest _ ih => rw [sect_append, size, size, ih, Nat.add_assoc]

@[simp] theorem ids_append (b b' : Body) : (b ++ b').ids = b.ids ++ b'.ids := by
  induction b with
  | nil => rfl
  | char c rest ih => exact ih
  | sect id content inner rest _ ih => rw [sect_append, ids, ids, ih, List.cons_append]

/-- The cells of two bodies one after the other. -/
theorem cells_append (b b' : Body) (owner : Option ℕ) :
    (b ++ b').cells owner = b.cells owner ++ b'.cells owner := by
  induction b with
  | nil => rfl
  | char c rest ih => rw [char_append, cells, cells, ih, List.cons_append]
  | sect id content inner rest _ ih => rw [sect_append, cells, cells, ih, List.append_assoc]

@[simp] theorem size_ofChars (chars : List Char) : (ofChars chars).size = chars.length := by
  induction chars with
  | nil => rfl
  | cons c chars ih => rw [ofChars, size, ih, List.length_cons]

@[simp] theorem ids_ofChars (chars : List Char) : (ofChars chars).ids = [] := by
  induction chars with
  | nil => rfl
  | cons c chars ih => exact ih

theorem cells_ofChars (chars : List Char) : (ofChars chars).cells none = plain chars := by
  induction chars with
  | nil => rfl
  | cons c chars ih => rw [ofChars, cells, ih]; rfl

@[simp] theorem length_cells (b : Body) (owner : Option ℕ) : (b.cells owner).length = b.size := by
  induction b generalizing owner with
  | nil => rfl
  | char c rest ih => rw [cells, List.length_cons, ih, size]
  | sect id content inner rest ihi ih => rw [cells, List.length_append, ihi, ih, size]

/-- What belongs to no section is filled. -/
theorem map_filled_cells (b : Body) (id : ℕ) :
    (b.cells none).map (filled id) = b.cells (some id) := by
  have hsome : ∀ (b : Body) (owner : ℕ), (b.cells (some owner)).map (filled id)
      = b.cells (some owner) := by
    intro b
    induction b with
    | nil => exact fun _ => rfl
    | char c rest ih => exact fun owner => by rw [cells, List.map_cons, ih]; rfl
    | sect id' content inner rest ihi ih =>
      exact fun owner => by rw [cells, List.map_append, ihi, ih]
  induction b with
  | nil => rfl
  | char c rest ih => rw [cells, cells, List.map_cons, ih]; rfl
  | sect id' content inner rest _ ih => rw [cells, cells, List.map_append, hsome, ih]

end Body

/-! ## The slots -/

/-- A section that has been inserted, from a position on. -/
def closed (parent : Option ℕ) (start : ℕ) (content : Option ℕ) (inner : Body) : Section where
  parent := parent
  start := ⟨start, true⟩
  content := content.map fun k => ⟨start + k, false⟩
  fin := some ⟨start + inner.size, false⟩
  children := inner.ids

/-- The slots of the sections hold the positions they stand at, from a position on. -/
def Placed (sections : List Section) : ℕ → ℕ → Body → Prop
  | _, _, .nil => True
  | parent, start, .char _ rest => Placed sections parent (start + 1) rest
  | parent, start, .sect id content inner rest =>
    sections[id]? = some (closed (some parent) start content inner) ∧ 0 < inner.size ∧
      (∀ k ∈ content, k ≤ inner.size) ∧ Placed sections id start inner ∧
      Placed sections parent (start + inner.size) rest

section

variable {sections : List Section} {parent start : ℕ}

/-- Bodies are placed one after the other. -/
theorem placed_append {b b' : Body} :
    Placed sections parent start (b ++ b') ↔
      Placed sections parent start b ∧ Placed sections parent (start + b.size) b' := by
  induction b generalizing start with
  | nil => simp [Placed, Body.size]
  | char c rest ih =>
    rw [Body.char_append, Placed, Placed, ih, Body.size, Nat.add_assoc, Nat.add_comm 1]
  | sect id content inner rest _ ih =>
    rw [Body.sect_append, Placed, Placed, ih, Body.size, Nat.add_assoc]
    tauto

/-- Behind a character. -/
theorem Placed.char {c : Char} {rest : Body} (h : Placed sections parent start (.char c rest)) :
    Placed sections parent (start + 1) rest := h

/-- Plain characters are placed anywhere. -/
theorem placed_ofChars (chars : List Char) :
    Placed sections parent start (.ofChars chars) := by
  induction chars generalizing start with
  | nil => trivial
  | cons c chars ih => exact ih

/-- A section takes up space. -/
theorem Placed.eq_nil {b : Body} (h : Placed sections parent start b) (hsize : b.size = 0) :
    b = .nil := by
  cases b with
  | nil => rfl
  | char c rest => exact absurd hsize (Nat.succ_ne_zero _)
  | sect id content inner rest => exact absurd (Nat.eq_zero_of_add_eq_zero hsize).1 h.2.1.ne'

/-- Only sections that are not finished change, or new ones come. -/
theorem Placed.of_closed {sections' : List Section} {b : Body}
    (h : Placed sections parent start b)
    (hsections : ∀ (i : ℕ) (s : Section), sections[i]? = some s → s.fin ≠ none →
      sections'[i]? = some s) :
    Placed sections' parent start b := by
  induction b generalizing parent start with
  | nil => trivial
  | char c rest ih => exact ih h
  | sect id content inner rest ihi ih =>
    obtain ⟨hid, hpos, hcontent, hinner, hrest⟩ := h
    exact ⟨hsections id _ hid (by simp [closed]), hpos, hcontent, ihi hinner, ih hrest⟩

/-- The text behind changes. -/
theorem Placed.before {b : Body} (h : Placed sections parent start b) {f : Marker → Marker}
    {beg fin fin' : ℕ} (hf : Marker.Within f beg fin fin') (hbeg : start + b.size ≤ beg) :
    Placed (sections.map (·.move f)) parent start b := by
  induction b generalizing parent start with
  | nil => trivial
  | char c rest ih => exact ih h (by rw [Body.size] at hbeg; omega)
  | sect id content inner rest ihi ih =>
    obtain ⟨hid, hpos, hcontent, hinner, hrest⟩ := h
    rw [Body.size] at hbeg
    refine ⟨?_, hpos, hcontent, ihi hinner (by omega), ih hrest (by omega)⟩
    rw [List.getElem?_map, hid]
    have hstart := hf.before ⟨start, true⟩ (Or.inl (show start < beg by omega))
    have hmarks : ∀ k ≤ inner.size, f ⟨start + k, false⟩ = ⟨start + k, false⟩ := fun k hk =>
      hf.before _ (by rcases Nat.lt_or_eq_of_le (show start + k ≤ beg by omega) with h | h
                      exacts [Or.inl h, Or.inr ⟨h, rfl⟩])
    simp only [Option.map_some, closed, Section.move, hstart, hmarks _ le_rfl, Option.map_map]
    congr 2
    cases content with
    | none => rfl
    | some k => exact congrArg some (hmarks k (hcontent k rfl))

/-- The text in front changes. -/
theorem Placed.behind {b : Body} (h : Placed sections parent start b) {f : Marker → Marker}
    {beg fin fin' : ℕ} (hf : Marker.Within f beg fin fin') (hfin : fin ≤ start) :
    Placed (sections.map (·.move f)) parent (start - fin + fin') b := by
  induction b generalizing parent start with
  | nil => trivial
  | char c rest ih =>
    have hrest := ih h.char (by omega)
    rwa [show start + 1 - fin + fin' = start - fin + fin' + 1 by omega] at hrest
  | sect id content inner rest ihi ih =>
    obtain ⟨hid, hpos, hcontent, hinner, hrest⟩ := h
    have hrest := ih hrest (by omega)
    have hmarks : ∀ k advances, f ⟨start + k, advances⟩
        = ⟨start - fin + fin' + k, advances⟩ := by
      intro k advances
      rw [hf.behind _ (show fin ≤ start + k by omega)]
      exact congrArg (Marker.mk · advances) (show start + k - fin + fin' = _ by omega)
    refine ⟨?_, hpos, hcontent, ihi hinner hfin, ?_⟩
    · rw [List.getElem?_map, hid]
      have hstart := hmarks 0 true
      rw [Nat.add_zero, Nat.add_zero] at hstart
      simp only [Option.map_some, closed, Section.move, hstart, hmarks, Option.map_map,
        Function.comp_def]
    · rwa [show start + inner.size - fin + fin' = start - fin + fin' + inner.size by omega]
        at hrest

/-- No section ends behind `p`. -/
def EndsBefore (sections : List Section) (p : ℕ) (b : Body) : Prop :=
  ∀ i ∈ b.ids, ∀ s, sections[i]? = some s → ∀ fin ∈ s.fin, fin.pos ≤ p

/-- A body that ends before a position behind which it begins has no sections. -/
theorem Placed.eq_ofChars {b : Body} (h : Placed sections parent start b) {p : ℕ}
    (hp : p ≤ start) (hends : EndsBefore sections p b) : ∃ chars, b = .ofChars chars := by
  induction b generalizing start with
  | nil => exact ⟨[], rfl⟩
  | char c rest ih =>
    obtain ⟨chars, rfl⟩ := ih h (by omega) hends
    exact ⟨c :: chars, rfl⟩
  | sect id content inner rest _ ih =>
    obtain ⟨hid, hpos, -⟩ := h
    have hend : start + inner.size ≤ p := hends id List.mem_cons_self _ hid _ rfl
    omega

/-- Behind the last section in it there is only text of its own. -/
theorem Placed.split {b : Body} (h : Placed sections parent start b) {p : ℕ} (hstart : start ≤ p)
    (hp : p ≤ start + b.size) (hends : EndsBefore sections p b) :
    ∃ front chars, b = front ++ .ofChars chars ∧ p = start + front.size := by
  induction b generalizing start with
  | nil =>
    rw [Body.size] at hp
    exact ⟨.nil, [], rfl, by rw [Body.size]; omega⟩
  | char c rest ih =>
    rcases Nat.eq_or_lt_of_le hstart with rfl | hlt
    · obtain ⟨chars, hchars⟩ := h.eq_ofChars le_rfl hends
      exact ⟨.nil, chars, hchars, rfl⟩
    · rw [Body.size] at hp
      obtain ⟨front, chars, rfl, hfront⟩ := ih h.char hlt (by omega) hends
      exact ⟨.char c front, chars, rfl, by rw [Body.size]; omega⟩
  | sect id content inner rest _ ih =>
    obtain ⟨hid, -, -, -, hrest⟩ := h
    rw [Body.size] at hp
    have hend : start + inner.size ≤ p := hends id List.mem_cons_self _ hid _ rfl
    obtain ⟨front, chars, rfl, hfront⟩ := ih hrest hend (by omega)
      fun i hi => hends i (List.mem_cons_of_mem _ hi)
    exact ⟨.sect id content inner front, chars, rfl, by rw [Body.size]; omega⟩

end

end Magit.Insertion

import Magit.Emacs.Display

/-!
# Section/Tree — the sections of a buffer and where they stand

`Sections` is what stands side by side in the content of a section, with the text between.  A
section is followed by the next one and its children stand in its content, so every tree of this
type is well nested; `extents` are the markers that the slots of its sections hold.  `Hidden` is
the same read off the tree, at an offset into it: the offset is in the content of a section whose
slot `hidden` is set (`hiddenAt_add`).
-/

namespace Magit.Section

open Emacs Display

/-- The sections in the content of a section, in order. -/
inductive Sections
  | nil
  /-- Text of the parent, which belongs to none of its children. -/
  | text (length : ℕ) (rest : Sections)
  /-- A section without content, and so without children. -/
  | leaf (length : ℕ) (hidden : Bool) (rest : Sections)
  /-- A section whose washer has yet to insert its body.  Its slot `content` may be set already, and
  is its end then. -/
  | unwashed (heading : ℕ) (content hidden : Bool) (body rest : Sections)
  /-- A section with content behind a line of heading.  A washer that is left only paints: it makes
  the characters at some offsets into the body invisible. -/
  | node (heading : ℕ) (washer : Option (List ℕ)) (hidden : Bool) (body rest : Sections)

/-- The slots `start`, `content`, `end` and `hidden` of a section. -/
structure Extent where
  start : ℕ
  content : Option ℕ
  fin : ℕ
  hidden : Bool

/-- The slot `hidden` is set, and the position is in the content. -/
def Extent.Hides (e : Extent) (p : ℕ) : Prop :=
  e.hidden = true ∧ ∃ content ∈ e.content, content ≤ p ∧ p < e.fin

/-- The position is in the content of a section whose slot `hidden` is set. -/
def HiddenAt (extents : List Extent) (p : ℕ) : Prop := ∃ e ∈ extents, e.Hides p

instance (e : Extent) (p : ℕ) : Decidable (e.Hides p) :=
  decidable_of_iff (e.hidden && e.content.any fun content => content ≤ p && p < e.fin) (by
    simp [Extent.Hides, Option.any_eq_true])

instance (extents : List Extent) (p : ℕ) : Decidable (HiddenAt extents p) :=
  inferInstanceAs (Decidable (∃ e ∈ extents, e.Hides p))

theorem hiddenAt_cons (e : Extent) (extents : List Extent) (p : ℕ) :
    HiddenAt (e :: extents) p ↔ e.Hides p ∨ HiddenAt extents p := by
  simp only [HiddenAt, List.mem_cons, exists_eq_or_imp]

theorem hiddenAt_append (extents extents' : List Extent) (p : ℕ) :
    HiddenAt (extents ++ extents') p ↔ HiddenAt extents p ∨ HiddenAt extents' p := by
  simp only [HiddenAt, List.mem_append, or_and_right, exists_or]

/-- A section hides nothing before its content and behind its end. -/
theorem Extent.not_hides {e : Extent} {p : ℕ}
    (h : ∀ content ∈ e.content, p < content ∨ e.fin ≤ p) : ¬e.Hides p := by
  rintro ⟨-, content, hcontent, hp⟩
  rcases h content hcontent with hlt | hge <;> omega

namespace Sections

/-- The characters of the sections; a heading ends with a newline. -/
def length : Sections → ℕ
  | nil => 0
  | text n rest => n + rest.length
  | leaf n _ rest => n + rest.length
  | unwashed heading _ _ _ rest => (heading + 1) + rest.length
  | node heading _ _ body rest => (heading + 1) + (body.length + rest.length)

/-- The sections that stand at the position, each before its children. -/
def extents (beg : ℕ) : Sections → List Extent
  | nil => []
  | text n rest => rest.extents (beg + n)
  | leaf n hidden rest => ⟨beg, none, beg + n, hidden⟩ :: rest.extents (beg + n)
  | unwashed heading content hidden _ rest =>
    let fin := beg + (heading + 1)
    ⟨beg, if content then some fin else none, fin, hidden⟩ :: rest.extents fin
  | node heading _ hidden body rest =>
    let content := beg + (heading + 1)
    let fin := content + body.length
    ⟨beg, some content, fin, hidden⟩ :: (body.extents content ++ rest.extents fin)

/-- The offset is in the content of a section that is hidden. -/
def Hidden : Sections → ℕ → Prop
  | nil => fun _ => False
  | text n rest => splice n (fun _ => False) rest.Hidden
  | leaf n _ rest => splice n (fun _ => False) rest.Hidden
  | unwashed heading _ _ _ rest => splice (heading + 1) (fun _ => False) rest.Hidden
  | node heading _ hidden body rest =>
    splice (heading + 1) (fun _ => False)
      (splice body.length (fun p => hidden = true ∨ body.Hidden p) rest.Hidden)

/-- The offset is in the content of one of the sections side by side. -/
def InContent : Sections → ℕ → Prop
  | nil => fun _ => False
  | text n rest => splice n (fun _ => False) rest.InContent
  | leaf n _ rest => splice n (fun _ => False) rest.InContent
  | unwashed heading _ _ _ rest => splice (heading + 1) (fun _ => False) rest.InContent
  | node heading _ _ body rest =>
    splice (heading + 1) (fun _ => False) (splice body.length (fun _ => True) rest.InContent)

/-- The offsets that the washers left in the tree would make invisible. -/
def offsets : Sections → List ℕ
  | nil => []
  | text _ rest => rest.offsets
  | leaf _ _ rest => rest.offsets
  | unwashed _ _ _ body rest => body.offsets ++ rest.offsets
  | node _ washer _ body rest => washer.getD [] ++ (body.offsets ++ rest.offsets)

/-- The slot `children` has an element. -/
def hasChildren : Sections → Bool
  | nil => false
  | text _ rest => rest.hasChildren
  | _ => true

/-- The sections followed by others. -/
def append : Sections → Sections → Sections
  | nil, others => others
  | text n rest, others => text n (rest.append others)
  | leaf n hidden rest, others => leaf n hidden (rest.append others)
  | unwashed heading content hidden body rest, others =>
    unwashed heading content hidden body (rest.append others)
  | node heading washer hidden body rest, others =>
    node heading washer hidden body (rest.append others)

/-- What is hidden is content. -/
theorem inContent_of_hidden {f : Sections} : ∀ {p : ℕ}, f.Hidden p → f.InContent p := by
  induction f with
  | nil => exact id
  | text n rest ih | leaf n hidden rest ih | unwashed n content hidden body rest _ ih =>
    exact splice_imp (fun _ => id) fun _ => ih
  | node heading washer hidden body rest _ ih =>
    exact splice_imp (fun _ => id) fun _ => splice_imp (fun _ _ => trivial) fun _ => ih

/-- What comes first is a heading or text. -/
theorem not_inContent_zero (f : Sections) : ¬f.InContent 0 := by
  induction f with
  | nil => exact id
  | text n rest ih | leaf n hidden rest ih =>
    unfold InContent splice
    split_ifs
    · exact id
    · rwa [Nat.zero_sub]
  | unwashed heading content hidden body rest | node heading washer hidden body rest =>
    unfold InContent splice
    rw [if_pos (Nat.succ_pos heading)]
    exact id

/-- Behind the sections there is no content. -/
theorem not_inContent_of_length_le {f : Sections} {p : ℕ} (h : f.length ≤ p) : ¬f.InContent p := by
  induction f generalizing p with
  | nil => exact id
  | text n rest ih | leaf n hidden rest ih | unwashed n content hidden body rest _ ih =>
    unfold length at h
    obtain ⟨q, rfl⟩ := Nat.exists_eq_add_of_le (Nat.le_of_add_right_le h)
    unfold InContent
    rw [splice_add]
    exact ih (by omega)
  | node heading washer hidden body rest _ ih =>
    unfold length at h
    obtain ⟨q, rfl⟩ := Nat.exists_eq_add_of_le (Nat.le_of_add_right_le h)
    obtain ⟨r, rfl⟩ := Nat.exists_eq_add_of_le (show body.length ≤ q by omega)
    unfold InContent
    rw [splice_add, splice_add]
    exact ih (by omega)

theorem not_hidden_zero (f : Sections) : ¬f.Hidden 0 :=
  fun h => f.not_inContent_zero (inContent_of_hidden h)

theorem not_hidden_of_length_le {f : Sections} {p : ℕ} (h : f.length ≤ p) : ¬f.Hidden p :=
  fun hp => not_inContent_of_length_le h (inContent_of_hidden hp)

/-- Before the sections nothing is hidden. -/
theorem not_hiddenAt_of_lt {f : Sections} {beg p : ℕ} (h : p < beg) :
    ¬HiddenAt (f.extents beg) p := by
  induction f generalizing beg with
  | nil => simp [HiddenAt, extents]
  | text n rest ih => exact ih (by omega)
  | leaf n hidden rest ih | unwashed n content hidden body rest _ ih =>
    rw [extents, hiddenAt_cons, not_or]
    exact ⟨Extent.not_hides (by grind), ih (by omega)⟩
  | node heading washer hidden body rest ihbody ih =>
    rw [extents, hiddenAt_cons, hiddenAt_append, not_or, not_or]
    exact ⟨Extent.not_hides (by grind), ihbody (by omega), ih (by omega)⟩

/-- Behind text, and behind a section without content, the rest decides. -/
theorem hiddenAt_behind {rest : Sections}
    (ih : ∀ beg p, HiddenAt (rest.extents beg) (beg + p) ↔ rest.Hidden p) (n beg p : ℕ) :
    HiddenAt (rest.extents (beg + n)) (beg + p) ↔ splice n (fun _ => False) rest.Hidden p := by
  rcases Nat.lt_or_ge p n with hlt | hge
  · rw [splice_of_lt hlt, iff_false]
    exact not_hiddenAt_of_lt (by omega)
  · obtain ⟨q, rfl⟩ := Nat.exists_eq_add_of_le hge
    rw [splice_add, ← Nat.add_assoc, ih]

/-- **The slots agree with the tree.** -/
theorem hiddenAt_add (f : Sections) (beg p : ℕ) :
    HiddenAt (f.extents beg) (beg + p) ↔ f.Hidden p := by
  induction f generalizing beg p with
  | nil => simp [HiddenAt, extents, Hidden]
  | text n rest ih => exact hiddenAt_behind ih n beg p
  | leaf n hidden rest ih | unwashed n content hidden body rest _ ih =>
    rw [extents, hiddenAt_cons, or_iff_right (Extent.not_hides (by grind))]
    exact hiddenAt_behind ih _ beg p
  | node heading washer hidden body rest ihbody ih =>
    unfold extents Hidden
    rw [hiddenAt_cons, hiddenAt_append]
    rcases Nat.lt_or_ge p (heading + 1) with hlt | hge
    · rw [splice_of_lt hlt, iff_false, not_or, not_or]
      exact ⟨Extent.not_hides (by grind), not_hiddenAt_of_lt (by omega),
        not_hiddenAt_of_lt (by omega)⟩
    obtain ⟨q, rfl⟩ := Nat.exists_eq_add_of_le hge
    rw [splice_add, ← Nat.add_assoc beg (heading + 1) q, ihbody]
    rcases Nat.lt_or_ge q body.length with hlt | hge
    · rw [splice_of_lt hlt, ← or_assoc, or_iff_left (not_hiddenAt_of_lt (by omega))]
      simp [Extent.Hides, hlt]
    · obtain ⟨r, rfl⟩ := Nat.exists_eq_add_of_le hge
      rw [splice_add, ← Nat.add_assoc (beg + (heading + 1)), ih,
        or_iff_right (Extent.not_hides (by grind)), or_iff_right (not_hidden_of_length_le hge)]

end Sections

end Magit.Section

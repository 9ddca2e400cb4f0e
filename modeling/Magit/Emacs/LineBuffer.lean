import Magit.Emacs.Buffer

/-!
# Emacs/LineBuffer — a buffer that is worked through line by line

Code that washes the output of a process looks at the line after point, deletes it or passes over
it, and inserts text in its place.  A region is what stands between two positions: what stood before
point stays where it is (`region_point`).
-/

namespace Emacs

/-- The text before point, and the lines after it. -/
structure LineBuffer where
  before : List Char
  after : List (List Char)

/-- `(buffer-substring beg end)`. -/
def region (text : List Char) (beg fin : ℕ) : List Char := (text.drop (beg - 1)).take (fin - beg)

/-- What `case-fold-search` makes of the characters is compared. -/
def lookingAt (fold : Char → Char) (piece text : List Char) : Bool :=
  (text.take piece.length).map fold == piece.map fold

namespace LineBuffer

/-- `(point)` -/
def point (b : LineBuffer) : ℕ := b.before.length + 1

/-- `(insert text)` -/
def insert (b : LineBuffer) (text : List Char) : LineBuffer := { b with before := b.before ++ text }

/-- `(bolp)` -/
def bolp (b : LineBuffer) : Bool := b.before.getLast?.all (· == '\n')

/-- Passes over lines until one matches, or to the end. -/
def passUntil (stop : List Char → Bool) (before : List Char) : List (List Char) → LineBuffer
  | [] => ⟨before, []⟩
  | line :: lines =>
    if stop line then ⟨before, line :: lines⟩ else passUntil stop (before ++ line ++ ['\n']) lines

theorem length_append_succ (before text : List Char) :
    (before ++ text).length + 1 = before.length + 1 + text.length := by
  rw [List.length_append, Nat.add_right_comm]

/-- Lines at which one does not stop are passed. -/
theorem passUntil_append {stop : List Char → Bool} {lines : List (List Char)}
    (h : ∀ line ∈ lines, stop line = false) (before : List Char) (rest : List (List Char)) :
    passUntil stop before (lines ++ rest) = passUntil stop (before ++ unlines lines) rest := by
  induction lines generalizing before with
  | nil => rw [List.nil_append, unlines_nil, List.append_nil]
  | cons line lines ih =>
    obtain ⟨hline, hlines⟩ := List.forall_mem_cons.mp h
    rw [List.cons_append, passUntil, hline, if_neg Bool.false_ne_true, ih hlines, unlines_cons,
      List.append_assoc, List.append_assoc]
    rfl

/-- One stops in front of a line at which one does. -/
theorem passUntil_of_stop {stop : List Char → Bool} {rest : List (List Char)}
    (h : ∀ line, rest.head? = some line → stop line = true) (before : List Char) :
    passUntil stop before rest = ⟨before, rest⟩ := by
  rcases rest with _ | ⟨line, rest⟩
  · rfl
  · rw [passUntil, h line rfl, if_pos rfl]

end LineBuffer

/-- What is inserted stands between where point was and where it is then. -/
theorem region_point (before text more : List Char) :
    region (before ++ text ++ more) (before.length + 1) ((before ++ text).length + 1) = text := by
  rw [region, Nat.add_sub_cancel, List.append_assoc, List.drop_left, List.length_append,
    Nat.add_sub_add_right, Nat.add_sub_cancel_left, List.take_left]

/-! ## Looking at a literal piece -/

/-- What is relied on of the folding: of the ASCII characters it changes the capital letters. -/
def FoldsAscii (fold : Char → Char) : Prop := ∀ c : Char, c.toNat < 128 → fold c = c.toLower

section

variable {fold : Char → Char}

theorem lookingAt_append (piece rest : List Char) : lookingAt fold piece (piece ++ rest) = true := by
  rw [lookingAt, List.take_left, beq_self_eq_true]

/-- A text that does not look at a piece is not the piece. -/
theorem map_ne_of_lookingAt {piece text : List Char} (h : lookingAt fold piece text = false) :
    text.map fold ≠ piece.map fold := by
  intro heq
  have hpiece : (text.take piece.length).map fold = piece.map fold := by
    rw [List.map_take, heq, ← List.length_map, List.take_length]
  rw [lookingAt, hpiece, beq_self_eq_true] at h
  exact Bool.false_ne_true h.symm

/-- Two ASCII texts that differ at some place but for the case. -/
def differs (piece text : List Char) : Bool :=
  (piece.zip text).any fun c => c.1.toNat < 128 && c.2.toNat < 128 && c.1.toLower != c.2.toLower

/-- Texts that differ in an ASCII character do not look at each other. -/
theorem lookingAt_of_differs (hfold : FoldsAscii fold) {piece text : List Char}
    (h : differs piece text = true) (rest : List Char) :
    lookingAt fold piece (text ++ rest) = false := by
  induction piece generalizing text with
  | nil => simp [differs] at h
  | cons c piece ih =>
    rcases text with _ | ⟨c', text⟩
    · simp [differs] at h
    rw [differs, List.zip_cons_cons, List.any_cons, Bool.or_eq_true] at h
    rw [lookingAt, List.cons_append, List.length_cons, List.take_succ_cons, List.map_cons,
      List.map_cons]
    rcases h with h | h
    · simp only [Bool.and_eq_true, decide_eq_true_eq, bne_iff_ne] at h
      obtain ⟨⟨hc, hc'⟩, hne⟩ := h
      rw [hfold c hc, hfold c' hc']
      exact beq_eq_false_iff_ne.mpr fun heq => hne (List.cons.inj heq).1.symm
    · have hrest := beq_eq_false_iff_ne.mp (ih h)
      exact beq_eq_false_iff_ne.mpr fun heq => hrest (List.cons.inj heq).2

/-- Texts that differ in an ASCII character are no fronts of each other. -/
theorem isPrefixOf_of_differs (hfold : FoldsAscii fold) {piece text : List Char}
    (h : differs piece text = true) (rest : List Char) : piece.isPrefixOf (text ++ rest) = false := by
  by_contra hpre
  obtain ⟨rest', hrest⟩ := List.isPrefixOf_iff_prefix.mp (Bool.of_not_eq_false hpre)
  have hlook := lookingAt_of_differs hfold h rest
  rw [← hrest, lookingAt_append] at hlook
  exact Bool.false_ne_true hlook.symm

end

end Emacs

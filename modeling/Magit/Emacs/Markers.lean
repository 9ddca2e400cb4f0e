import Magit.Emacs.LineBuffer
import Magit.Emacs.Overwriting

/-!
# Emacs/Markers — positions that move with the text

A marker before a change of the text stays where it is, and one behind it moves by as much as the
text there does (`Within`).  At the place of an insertion its insertion type decides.
-/

namespace Emacs

/-- A position, and the insertion type: whether it advances when text is inserted there. -/
structure Marker where
  pos : ℕ
  advances : Bool
deriving DecidableEq, Inhabited

namespace Marker

/-- When `n` characters are inserted at a position. -/
def inserted (p n : ℕ) (m : Marker) : Marker :=
  if p < m.pos ∨ (p = m.pos ∧ m.advances = true) then { m with pos := m.pos + n } else m

/-- When the text between two positions is deleted. -/
def deleted (beg fin : ℕ) (m : Marker) : Marker :=
  if m.pos ≤ beg then m else { m with pos := max beg (m.pos - (fin - beg)) }

theorem inserted_of_lt {p n : ℕ} {m : Marker} (h : m.pos < p) : m.inserted p n = m := by
  rw [inserted, if_neg]
  omega

/-- A marker that does not advance stays where the insertion is. -/
theorem inserted_of_le {p n : ℕ} {m : Marker} (h : m.pos ≤ p) (hm : m.advances = false) :
    m.inserted p n = m := by
  rw [inserted, if_neg]
  rintro (hlt | ⟨-, htrue⟩)
  · omega
  · exact absurd (hm.symm.trans htrue) Bool.false_ne_true

theorem inserted_of_gt {p n : ℕ} {m : Marker} (h : p < m.pos) :
    m.inserted p n = ⟨m.pos + n, m.advances⟩ := by
  rw [inserted, if_pos (Or.inl h)]

/-- A marker that advances moves with an insertion at its place. -/
theorem inserted_of_ge {p n : ℕ} {m : Marker} (h : p ≤ m.pos) (hm : m.advances = true) :
    m.inserted p n = ⟨m.pos + n, m.advances⟩ := by
  rw [inserted, if_pos]
  rcases Nat.lt_or_eq_of_le h with hlt | heq
  · exact Or.inl hlt
  · exact Or.inr ⟨heq, hm⟩

theorem deleted_of_le {beg fin : ℕ} {m : Marker} (h : m.pos ≤ beg) : m.deleted beg fin = m := by
  rw [deleted, if_pos h]

/-- A marker behind a deletion moves back. -/
theorem deleted_of_ge {beg fin : ℕ} {m : Marker} (hfin : beg ≤ fin) (h : fin ≤ m.pos) :
    m.deleted beg fin = ⟨m.pos - (fin - beg), m.advances⟩ := by
  rw [deleted]
  split
  · next hle =>
    have hnone : fin - beg = 0 := by omega
    rw [hnone, Nat.sub_zero]
  · rw [Nat.max_eq_right (by omega)]

@[simp] theorem inserted_advances (p n : ℕ) (m : Marker) :
    (m.inserted p n).advances = m.advances := by
  rw [inserted]
  split <;> rfl

@[simp] theorem deleted_advances (beg fin : ℕ) (m : Marker) :
    (m.deleted beg fin).advances = m.advances := by
  rw [deleted]
  split <;> rfl

@[simp] theorem deleted_self (p : ℕ) (m : Marker) : m.deleted p p = m := by
  rcases Nat.le_total m.pos p with h | h
  · exact deleted_of_le h
  · rw [deleted_of_ge le_rfl h, Nat.sub_self, Nat.sub_zero]

@[simp] theorem inserted_zero (p : ℕ) (m : Marker) : m.inserted p 0 = m := by
  rw [inserted]
  split <;> rfl

/-- Text that is inserted in two pieces. -/
theorem inserted_inserted (p n k : ℕ) (m : Marker) :
    (m.inserted p n).inserted (p + n) k = m.inserted p (n + k) := by
  unfold inserted
  split
  · next h =>
    have hbehind : p + n < m.pos + n ∨ p + n = m.pos + n ∧ m.advances = true := by
      rcases h with h | ⟨h, hm⟩
      · exact Or.inl (Nat.add_lt_add_right h n)
      · exact Or.inr ⟨congrArg (· + n) h, hm⟩
    rw [if_pos hbehind, Nat.add_assoc]
  · next h =>
    rw [if_neg]
    rintro (hlt | ⟨heq, hm⟩)
    · exact h (Or.inl (by omega))
    · rcases Nat.eq_zero_or_pos n with hn | hn
      · exact h (Or.inr ⟨by omega, hm⟩)
      · exact h (Or.inl (by omega))

/-- The text between `beg` and `fin` changes, so that it ends at `fin'`. -/
structure Within (f : Marker → Marker) (beg fin fin' : ℕ) : Prop where
  before : ∀ m, m.pos < beg ∨ (m.pos = beg ∧ m.advances = false) → f m = m
  behind : ∀ m, fin ≤ m.pos → f m = ⟨m.pos - fin + fin', m.advances⟩

/-- An insertion changes the markers within the region only, apart from moving those behind it. -/
theorem within_inserted {beg p fin : ℕ} (n : ℕ) (hbeg : beg ≤ p) (hfin : p < fin) :
    Within (inserted p n) beg fin (fin + n) where
  before m hm := by
    rcases hm with hm | ⟨hm, hadvances⟩
    · exact inserted_of_lt (hm.trans_le hbeg)
    · exact inserted_of_le (hm.trans_le hbeg) hadvances
  behind m hm := by
    rw [inserted_of_gt (hfin.trans_le hm), ← Nat.add_assoc, Nat.sub_add_cancel hm]

/-- A deletion changes the markers within the region only, apart from moving those behind it. -/
theorem within_deleted {beg p q fin : ℕ} (hbeg : beg ≤ p) (hpq : p ≤ q) (hfin : q ≤ fin) :
    Within (deleted p q) beg fin (fin - (q - p)) where
  before m hm := deleted_of_le (by omega)
  behind m hm := by
    rw [deleted_of_ge hpq (hfin.trans hm)]
    exact congrArg (Marker.mk · _) (by omega)

/-- The text in front of the change may be counted in. -/
theorem Within.of_le {f : Marker → Marker} {beg beg' fin fin' : ℕ} (hf : Within f beg fin fin')
    (h : beg' ≤ beg) : Within f beg' fin fin' where
  before m hm := hf.before m (by
    rcases hm with hm | ⟨hm, hadvances⟩
    · exact Or.inl (hm.trans_le h)
    · rcases Nat.lt_or_eq_of_le h with hlt | heq
      · exact Or.inl (hm.trans_lt hlt)
      · exact Or.inr ⟨hm.trans heq, hadvances⟩)
  behind := hf.behind

/-- And the text behind it. -/
theorem Within.of_ge {f : Marker → Marker} {beg fin fin' q : ℕ} (hf : Within f beg fin fin')
    (h : fin ≤ q) : Within f beg q (q - fin + fin') where
  before := hf.before
  behind m hm := by
    rw [hf.behind m (h.trans hm)]
    exact congrArg (Marker.mk · _) (by omega)

/-- Two changes within a region are one. -/
theorem Within.comp {f g : Marker → Marker} {beg fin fin' fin'' : ℕ} (hg : Within g beg fin' fin'')
    (hf : Within f beg fin fin') : Within (g ∘ f) beg fin fin'' where
  before m hm := by rw [Function.comp_apply, hf.before m hm, hg.before m hm]
  behind m hm := by
    rw [Function.comp_apply, hf.behind m hm, hg.behind _ (Nat.le_add_left _ _),
      Nat.add_sub_cancel]

end Marker

/-! ## The text -/

/-- `insert`, at a position.  Characters may come with properties. -/
def insertText {α : Type*} (text : List α) (p : ℕ) (piece : List α) : List α :=
  text.take (p - 1) ++ piece ++ text.drop (p - 1)

/-- `delete-region` -/
def deleteText {α : Type*} (text : List α) (beg fin : ℕ) : List α :=
  text.take (beg - 1) ++ text.drop (fin - 1)

/-- `line-beginning-position` -/
def lineBeginning (text : List Char) (p : ℕ) : ℕ := (completed (text.take (p - 1))).length + 1

/-- `line-end-position` -/
def lineEnd (text : List Char) (p : ℕ) : ℕ :=
  p + ((text.drop (p - 1)).takeWhile (· ≠ '\n')).length

section

variable {α : Type*} {text before piece rest : List α} {p q : ℕ}

theorem insertText_append (htext : text = before ++ rest) (hp : p = before.length + 1) :
    insertText text p piece = before ++ piece ++ rest := by
  rw [insertText, htext, hp, Nat.add_sub_cancel, List.take_left, List.drop_left]

theorem deleteText_append (htext : text = before ++ piece ++ rest) (hp : p = before.length + 1)
    (hq : q = before.length + piece.length + 1) : deleteText text p q = before ++ rest := by
  rw [deleteText, htext, hp, hq, Nat.add_sub_cancel, Nat.add_sub_cancel, ← List.length_append,
    List.drop_left, List.append_assoc, List.take_left]

theorem insertText_nil (text : List α) (p : ℕ) : insertText text p [] = text := by
  rw [insertText, List.append_nil, List.take_append_drop]

theorem deleteText_self (text : List α) (p : ℕ) : deleteText text p p = text :=
  List.take_append_drop _ _

end

section

variable {text before piece rest : List Char} {p q : ℕ}

theorem region_append (htext : text = before ++ piece ++ rest) (hp : p = before.length + 1)
    (hq : q = before.length + piece.length + 1) : region text p q = piece := by
  rw [htext, hp, hq, ← List.length_append]
  exact region_point before piece rest

/-- A line that is completed ends there, whatever follows it. -/
theorem completed_newline_append (text line : List Char) :
    completed (text ++ '\n' :: line) = text ++ '\n' :: completed line := by
  induction line using List.reverseRecOn with
  | nil => exact completed_append_newline text
  | append_singleton line c ih =>
    by_cases hc : c = '\n'
    · rw [hc, completed_append_newline, ← List.cons_append, ← List.append_assoc,
        completed_append_newline]
    · have hline : '\n' ∉ [c] := by simpa using Ne.symm hc
      rw [completed_append_of_not_mem _ hline, ← ih, ← List.cons_append, ← List.append_assoc,
        completed_append_of_not_mem _ hline]

theorem lineBeginning_append (htext : text = before ++ rest) (hp : p = before.length + 1) :
    lineBeginning text p = (completed before).length + 1 := by
  rw [lineBeginning, htext, hp, Nat.add_sub_cancel, List.take_left]

/-- Both are the position behind the last newline in front of point. -/
theorem posBol_eq_lineBeginning (hp : 1 ≤ p) (hp' : p ≤ text.length + 1) :
    posBol text p = lineBeginning text p := by
  induction p with
  | zero => omega
  | succ p ih =>
    rcases Nat.eq_zero_or_pos p with rfl | hpos
    · rfl
    · have hlt : p - 1 < text.length := by omega
      have htake : text.take p = text.take (p - 1) ++ [text[p - 1]] := by
        rw [← List.take_succ_eq_append_getElem hlt, Nat.sub_add_cancel hpos]
      have hchar : charAfter text p = some text[p - 1] := by
        rw [charAfter, textFrom, List.head?_drop, List.getElem?_eq_getElem hlt]
      have hnext : lineBeginning text (p + 1)
          = (completed (text.take (p - 1) ++ [text[p - 1]])).length + 1 := by
        rw [lineBeginning, Nat.add_sub_cancel, htake]
      rw [posBol, hchar, hnext]
      by_cases hnewline : text[p - 1] = '\n'
      · have hlength : (text.take (p - 1)).length = p - 1 := by
          rw [List.length_take, Nat.min_eq_left (Nat.le_of_lt hlt)]
        rw [if_pos (.inr (congrArg some hnewline)), hnewline, completed_append_newline,
          List.length_append, hlength, List.length_singleton, Nat.sub_add_cancel hpos]
      · have hline : '\n' ∉ [text[p - 1]] := by simpa using Ne.symm hnewline
        rw [if_neg (not_or.mpr ⟨Nat.ne_of_gt hpos, fun h => hnewline (Option.some.inj h)⟩),
          ih hpos (Nat.le_of_succ_le hp'), completed_append_of_not_mem _ hline, lineBeginning]

theorem lineEnd_append (htext : text = before ++ rest) (hp : p = before.length + 1) :
    lineEnd text p = p + (rest.takeWhile (· ≠ '\n')).length := by
  rw [lineEnd, htext, hp, Nat.add_sub_cancel, List.drop_left]

end

end Emacs

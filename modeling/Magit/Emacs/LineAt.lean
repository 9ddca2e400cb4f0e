import Mathlib.Logic.Function.Iterate
import Magit.Emacs.Markers

/-!
# Emacs/LineAt — the line that a position is on

The positions of a line are those from its beginning to its end, where the newline stands unless it
is the last one (`Line`).  Positions on the same line have the same beginning and end.
-/

namespace Emacs

/-- The line that a position is on. -/
def lineAt (text : List Char) (p : ℕ) : List Char := lineText (textFrom text (lineBeginning text p))

/-- `(forward-line -1)` -/
def backwardLine (text : List Char) (p : ℕ) : ℕ := lineBeginning text (lineBeginning text p - 1)

/-- `(forward-line n)` -/
def forwardLines (text : List Char) (p : ℕ) : ℤ → ℕ
  | .ofNat 0 => lineBeginning text p
  | .ofNat (n + 1) => (forwardLine text)^[n + 1] p
  | .negSucc n => (backwardLine text)^[n + 1] p

/-- A line of the text, between what stands before and behind it. -/
structure Line (text before line rest : List Char) : Prop where
  text_eq : text = before ++ line ++ rest
  bol : completed before = before
  notMem : '\n' ∉ line
  eol : rest = [] ∨ ∃ more, rest = '\n' :: more

variable {text before line rest : List Char} {lines : List (List Char)} {p : ℕ}

/-- The text of complete lines is complete. -/
theorem completed_unlines (lines : List (List Char)) : completed (unlines lines) = unlines lines := by
  induction lines using List.reverseRecOn with
  | nil => rfl
  | append_singleton lines line _ =>
    have hline : unlines (lines ++ [line]) = unlines lines ++ line ++ ['\n'] := by
      rw [unlines_append, List.append_assoc, unlines_cons, unlines_nil]
    rw [hline, completed_append_newline]

namespace Line

/-- A position on the line splits it. -/
theorem split (h : Line text before line rest) (hp : before.length + 1 ≤ p)
    (hp' : p ≤ before.length + line.length + 1) :
    ∃ front back, line = front ++ back ∧ p = (before ++ front).length + 1
      ∧ text = before ++ front ++ (back ++ rest) := by
  refine ⟨line.take (p - 1 - before.length), line.drop (p - 1 - before.length),
    (List.take_append_drop _ _).symm, ?_, ?_⟩
  · rw [List.length_append, List.length_take]
    omega
  · rw [h.text_eq, List.append_assoc, List.append_assoc, ← List.append_assoc (List.take _ _),
      List.take_append_drop]

/-- From within a line the rest of it comes first. -/
theorem takeWhile_append (h : Line text before line rest) {front back : List Char}
    (hline : line = front ++ back) : (back ++ rest).takeWhile (· ≠ '\n') = back := by
  have hback : ∀ c ∈ back, (decide (c ≠ '\n')) = true := fun c hc =>
    decide_eq_true fun hn => h.notMem (hline ▸ hn ▸ List.mem_append_right front hc)
  rw [List.takeWhile_append_of_pos hback]
  rcases h.eol with hrest | ⟨more, hrest⟩ <;> rw [hrest]
  · rw [List.takeWhile_nil, List.append_nil]
  · rw [List.takeWhile_cons_of_neg (by simp), List.append_nil]

/-- Within a line, its beginning is found. -/
theorem lineBeginning (h : Line text before line rest) (hp : before.length + 1 ≤ p)
    (hp' : p ≤ before.length + line.length + 1) : lineBeginning text p = before.length + 1 := by
  obtain ⟨front, back, hline, hpos, htext⟩ := h.split hp hp'
  have hfront : '\n' ∉ front := fun hmem => h.notMem (hline ▸ List.mem_append_left back hmem)
  rw [lineBeginning_append htext hpos, completed_append_of_not_mem _ hfront, h.bol]

/-- Within a line, its end is found. -/
theorem lineEnd (h : Line text before line rest) (hp : before.length + 1 ≤ p)
    (hp' : p ≤ before.length + line.length + 1) :
    lineEnd text p = before.length + line.length + 1 := by
  obtain ⟨front, back, hline, hpos, htext⟩ := h.split hp hp'
  rw [lineEnd_append htext hpos, h.takeWhile_append hline, hpos, hline, List.length_append,
    List.length_append]
  omega

theorem textFrom (h : Line text before line rest) :
    textFrom text (before.length + 1) = line ++ rest := by
  rw [Emacs.textFrom, Nat.add_sub_cancel, h.text_eq, List.append_assoc, List.drop_left]

theorem lineText (h : Line text before line rest) : lineText (line ++ rest) = line := by
  rcases h.eol with hrest | ⟨more, hrest⟩ <;> rw [hrest]
  · rw [List.append_nil, lineText_of_notMem h.notMem]
  · exact lineText_append h.notMem more

theorem lineAt (h : Line text before line rest) (hp : before.length + 1 ≤ p)
    (hp' : p ≤ before.length + line.length + 1) : lineAt text p = line := by
  rw [Emacs.lineAt, h.lineBeginning hp hp', h.textFrom, h.lineText]

/-- From within a line, the next one begins behind the newline. -/
theorem forwardLine (h : Line text before line ('\n' :: rest)) (hp : before.length + 1 ≤ p)
    (hp' : p ≤ before.length + line.length + 1) :
    forwardLine text p = before.length + line.length + 2 := by
  obtain ⟨front, back, hline, hpos, htext⟩ := h.split hp hp'
  have hback : '\n' ∉ back := fun hmem => h.notMem (hline ▸ List.mem_append_right front hmem)
  have hfrom : Emacs.textFrom text p = back ++ '\n' :: rest := by
    rw [Emacs.textFrom, htext, hpos, Nat.add_sub_cancel, List.drop_left]
  rw [forwardLine_line (by omega) hback hfrom, hpos, hline, List.length_append, List.length_append]
  omega

/-- From within the last line one gets to the end of the text. -/
theorem forwardLine_last (h : Line text before line []) (hp : before.length + 1 ≤ p)
    (hp' : p ≤ before.length + line.length + 1) : Emacs.forwardLine text p = text.length + 1 := by
  obtain ⟨front, back, hline, hpos, htext⟩ := h.split hp hp'
  have hback : '\n' ∉ back := fun hmem => h.notMem (hline ▸ List.mem_append_right front hmem)
  have hfrom : Emacs.textFrom text p = back := by
    rw [Emacs.textFrom, htext, hpos, Nat.add_sub_cancel, List.drop_left, List.append_nil]
  rw [Emacs.forwardLine, hfrom, lineText_of_notMem hback, h.text_eq, hpos, hline, List.append_nil]
  simp only [List.length_append]
  omega

end Line

/-! ## From line to line -/

/-- The beginning of the line with the number, or the end of the text. -/
def linePos (lines : List (List Char)) (i : ℕ) : ℕ := (unlines (lines.take i)).length + 1

/-- The position of a line is its beginning. -/
theorem lineBeginning_linePos (lines : List (List Char)) (i : ℕ) :
    lineBeginning (unlines lines) (linePos lines i) = linePos lines i := by
  have htext : unlines lines = unlines (lines.take i) ++ unlines (lines.drop i) := by
    rw [← unlines_append, List.take_append_drop]
  rw [lineBeginning_append (p := linePos lines i) htext rfl, completed_unlines]
  rfl

section

variable (hlines : ∀ l ∈ lines, '\n' ∉ l) {i : ℕ}
include hlines

/-- At the position of a line there is one. -/
theorem exists_line_at (hi : i < lines.length) : ∃ line rest,
    Line (unlines lines) (unlines (lines.take i)) line ('\n' :: rest) ∧
      linePos lines (i + 1) = linePos lines i + line.length + 1 := by
  refine ⟨lines[i], unlines (lines.drop (i + 1)), ⟨?_, completed_unlines _,
    hlines _ (List.getElem_mem hi), .inr ⟨_, rfl⟩⟩, ?_⟩
  · rw [List.append_assoc, ← unlines_cons, ← unlines_append, List.cons_getElem_drop_succ,
      List.take_append_drop]
  · rw [linePos, linePos, List.take_add_one, List.getElem?_eq_getElem hi, Option.toList_some,
      unlines_append, List.length_append, length_unlines_cons, unlines_nil, List.length_nil]
    omega

/-- One line down, as far as there are lines. -/
theorem forwardLine_linePos (hi : i ≤ lines.length) :
    forwardLine (unlines lines) (linePos lines i) = linePos lines (min (i + 1) lines.length) := by
  rcases Nat.lt_or_eq_of_le hi with hlt | rfl
  · obtain ⟨line, rest, hline, hnext⟩ := exists_line_at hlines hlt
    rw [Nat.min_eq_left hlt, hnext, linePos, hline.forwardLine le_rfl (by omega)]
    omega
  · rw [Nat.min_eq_right (Nat.le_succ _), linePos, List.take_length, forwardLine]
    exact Nat.min_eq_right (by omega)

/-- One line up, as far as there are lines. -/
theorem backwardLine_linePos (hi : i ≤ lines.length) :
    backwardLine (unlines lines) (linePos lines i) = linePos lines (i - 1) := by
  rw [backwardLine, lineBeginning_linePos]
  cases i with
  | zero =>
    rw [linePos, List.take_zero]
    rfl
  | succ i =>
    obtain ⟨line, rest, hline, hnext⟩ := exists_line_at hlines hi
    rw [hnext, Nat.add_sub_cancel, Nat.add_sub_cancel, linePos]
    exact hline.lineBeginning (by omega) (by omega)

/-- **Moving by lines** stops at either end of the text. -/
theorem forwardLines_linePos (hi : i ≤ lines.length) (n : ℤ) :
    forwardLines (unlines lines) (linePos lines i) n
      = linePos lines (min (i + n).toNat lines.length) := by
  have hforward : ∀ k i, i ≤ lines.length → (forwardLine (unlines lines))^[k] (linePos lines i)
      = linePos lines (min (i + k) lines.length) := by
    intro k
    induction k with
    | zero =>
      intro i hi
      rw [Nat.add_zero, Nat.min_eq_left hi]
      rfl
    | succ k ih =>
      intro i hi
      rw [Function.iterate_succ_apply, forwardLine_linePos hlines hi, ih _ (Nat.min_le_right _ _)]
      congr 1
      omega
  have hbackward : ∀ k i, i ≤ lines.length → (backwardLine (unlines lines))^[k] (linePos lines i)
      = linePos lines (i - k) := by
    intro k
    induction k with
    | zero => exact fun i hi => rfl
    | succ k ih =>
      intro i hi
      rw [Function.iterate_succ_apply, backwardLine_linePos hlines hi, ih _ (by omega)]
      congr 1
      omega
  cases n with
  | ofNat n =>
    have hsum : ((i : ℤ) + Int.ofNat n).toNat = i + n := by
      rw [Int.ofNat_eq_natCast]
      omega
    rw [hsum]
    cases n with
    | zero =>
      rw [Nat.add_zero, Nat.min_eq_left hi]
      exact lineBeginning_linePos lines i
    | succ n => exact hforward _ _ hi
  | negSucc n =>
    rw [forwardLines, hbackward _ _ hi]
    congr 1
    omega

end

end Emacs

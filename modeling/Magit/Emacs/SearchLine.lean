import Magit.Emacs.Buffer
import Magit.Emacs.SplitString

/-!
# Emacs/SearchLine — searches for a line and flushes of lines

A regexp that begins with `^` and matches within a line is what it says of the line.  A search for
it passes over the lines it does not match (`searchLine_unlines`), and `flush-lines` goes through
the text line by line (`flushLines_unlines`).
-/

namespace Emacs

variable {lines : List (List Char)} {matching : List Char → Bool} {text rest : List Char}

/-- Where the line begins that `re-search-forward` finds from the beginning of the text. -/
def searchLine (matching : List Char → Bool) (text : List Char) : Option ℕ :=
  if (text.splitOn '\n').any matching then
    some ((unlines ((text.splitOn '\n').takeWhile (!matching ·))).length + 1)
  else none

/-- `flush-lines`, from the beginning of the text. -/
def flushLines (matching : List Char → Bool) (text : List Char) : List Char :=
  unlines ((text.splitOn '\n').dropLast.filter (!matching ·))
    ++ ((text.splitOn '\n').getLast?.filter (!matching ·)).getD []

/-- Every text is complete lines and a last one. -/
theorem exists_lines (text : List Char) : ∃ lines last, (∀ l ∈ lines, '\n' ∉ l) ∧ '\n' ∉ last ∧
    text = unlines lines ++ last := by
  induction text with
  | nil => exact ⟨[], [], fun _ h => absurd h List.not_mem_nil, List.not_mem_nil, rfl⟩
  | cons c text ih =>
    obtain ⟨lines, last, hlines, hlast, rfl⟩ := ih
    by_cases hc : c = '\n'
    · subst hc
      exact ⟨[] :: lines, last, List.forall_mem_cons.mpr ⟨List.not_mem_nil, hlines⟩, hlast,
        by rw [unlines_cons, List.nil_append, List.cons_append]⟩
    · have hcons : ∀ {line : List Char}, '\n' ∉ line → '\n' ∉ c :: line := by
        intro line hline hmem
        rcases List.mem_cons.mp hmem with heq | hmem
        · exact hc heq.symm
        · exact hline hmem
      rcases lines with _ | ⟨line, lines⟩
      · exact ⟨[], c :: last, hlines, hcons hlast, rfl⟩
      · obtain ⟨hline, hmore⟩ := List.forall_mem_cons.mp hlines
        exact ⟨(c :: line) :: lines, last, List.forall_mem_cons.mpr ⟨hcons hline, hmore⟩, hlast,
          by rw [unlines_cons, unlines_cons, List.cons_append, List.cons_append]⟩

theorem splitOn_unlines (hlines : ∀ l ∈ lines, '\n' ∉ l) (rest : List Char) :
    (unlines lines ++ rest).splitOn '\n' = lines ++ rest.splitOn '\n' :=
  splitOn_terminated_append hlines rest

/-- A line has no newline in it. -/
theorem notMem_of_mem_splitOn {l : List Char} (h : l ∈ text.splitOn '\n') : '\n' ∉ l := by
  obtain ⟨lines, last, hlines, hlast, rfl⟩ := exists_lines text
  rw [splitOn_unlines hlines, List.splitOn_eq_singleton hlast] at h
  rcases List.mem_append.mp h with h | h
  · exact hlines l h
  · exact List.mem_singleton.mp h ▸ hlast

theorem unlines_splitOn (text : List Char) : unlines (text.splitOn '\n') = text ++ ['\n'] := by
  obtain ⟨lines, last, hlines, hlast, rfl⟩ := exists_lines text
  rw [splitOn_unlines hlines, List.splitOn_eq_singleton hlast, unlines_append, unlines_cons,
    unlines_nil, List.append_assoc]

/-- The search goes past the lines that do not match. -/
theorem searchLine_unlines (hlines : ∀ l ∈ lines, '\n' ∉ l)
    (hmatching : ∀ l ∈ lines, matching l = false) (rest : List Char) :
    searchLine matching (unlines lines ++ rest)
      = (searchLine matching rest).map ((unlines lines).length + ·) := by
  have hnone : lines.any matching = false := by
    rw [List.any_eq_false]
    intro l hl
    rw [hmatching l hl]
    exact Bool.false_ne_true
  have hpass : ∀ l ∈ lines, (!matching l) = true := by
    intro l hl
    rw [hmatching l hl, Bool.not_false]
  rw [searchLine, searchLine, splitOn_unlines hlines, List.any_append, hnone, Bool.false_or,
    List.takeWhile_append_of_pos hpass]
  split
  · rw [unlines_append, List.length_append, Nat.add_assoc, Option.map_some]
  · rfl

theorem one_le_of_searchLine {p : ℕ} (h : searchLine matching text = some p) : 1 ≤ p := by
  rw [searchLine] at h
  split at h
  · obtain rfl := Option.some.inj h
    exact Nat.le_add_left 1 _
  · cases h

/-- A search finds the line it begins with. -/
theorem searchLine_of_head {line : List Char} (hline : line ∈ (text.splitOn '\n').head?)
    (hmatching : matching line = true) : searchLine matching text = some 1 := by
  obtain ⟨more, hmore⟩ := List.head?_eq_some_iff.mp hline
  rw [searchLine, hmore, List.any_cons, hmatching, Bool.true_or, if_pos rfl,
    List.takeWhile_cons_of_neg (by rw [hmatching]; exact Bool.false_ne_true), unlines_nil]
  rfl

/-- The lines that match are flushed, the others stay. -/
theorem flushLines_unlines (hlines : ∀ l ∈ lines, '\n' ∉ l) (rest : List Char) :
    flushLines matching (unlines lines ++ rest)
      = unlines (lines.filter (!matching ·)) ++ flushLines matching rest := by
  have hne : rest.splitOn '\n' ≠ [] := List.splitOn_ne_nil '\n' rest
  rw [flushLines, flushLines, splitOn_unlines hlines, List.dropLast_append_of_ne_nil hne,
    List.filter_append, unlines_append, List.append_assoc,
    List.getLast?_append_of_ne_nil lines hne]

/-- No line that is left matches. -/
theorem forall_mem_flushLines (h : matching [] = false) :
    ∀ l ∈ (flushLines matching text).splitOn '\n', matching l = false := by
  obtain ⟨lines, last, hlines, hlast, rfl⟩ := exists_lines text
  have hkept : ∀ l ∈ lines.filter (!matching ·), '\n' ∉ l ∧ matching l = false := by
    intro l hl
    obtain ⟨hl, hnot⟩ := List.mem_filter.mp hl
    exact ⟨hlines l hl, by rwa [Bool.not_eq_true'] at hnot⟩
  have hend : ∃ last', '\n' ∉ last' ∧ matching last' = false
      ∧ flushLines matching last = last' := by
    rw [flushLines, List.splitOn_eq_singleton hlast]
    cases hm : matching last with
    | true => exact ⟨[], List.not_mem_nil, h, by simp [Option.filter, hm]⟩
    | false => exact ⟨last, hlast, hm, by simp [Option.filter, hm]⟩
  obtain ⟨last', hlast', hm, heq⟩ := hend
  rw [flushLines_unlines hlines, heq, splitOn_unlines fun l hl => (hkept l hl).1,
    List.splitOn_eq_singleton hlast']
  intro l hl
  rcases List.mem_append.mp hl with hl | hl
  · exact (hkept l hl).2
  · exact List.mem_singleton.mp hl ▸ hm

end Emacs

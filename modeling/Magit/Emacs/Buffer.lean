import Mathlib.Algebra.Order.Ring.Nat
import Mathlib.Data.List.Flatten
import Mathlib.Data.List.Infix
import Mathlib.Data.List.TakeWhile

/-!
# Emacs/Buffer — positions and lines of a buffer

A buffer is its text; positions count from 1, and the character after position `p` is the `p`-th.
`forwardLine` and `posBol` move between lines.  Where a line without a newline in it stands at a
position, the next line begins behind it (`forwardLine_line`), and a position is on or before that
line exactly if it is at most the line's end (`posBol_le_iff_line`).  `searchLines` looks for the
beginning of a line where something matches, and passes lines where nothing does
(`searchLines_unlines`).
-/

namespace Emacs

/-- The text from a position on. -/
def textFrom (buf : List Char) (p : ℕ) : List Char := buf.drop (p - 1)

/-- `(char-after p)`. -/
def charAfter (buf : List Char) (p : ℕ) : Option Char := (textFrom buf p).head?

/-- The text up to the first newline. -/
def lineText (text : List Char) : List Char := text.takeWhile (· != '\n')

/-- The first line of what a process wrote; nil if it wrote nothing. -/
def outputLine (output : List Char) : Option (List Char) :=
  if output = [] then none else some (lineText output)

/-- Where `(forward-line)` goes from `p`: behind the next newline, or to the end. -/
def forwardLine (buf : List Char) (p : ℕ) : ℕ :=
  min (p + (lineText (textFrom buf p)).length + 1) (buf.length + 1)

/-- The text behind the first newline. -/
def behindLine (text : List Char) : List Char := text.drop ((lineText text).length + 1)

/-- What matches at the beginning of a line behind the first newline. -/
def searchBehind {β : Type*} (looking : List Char → Option β) : List Char → Option β
  | [] => none
  | c :: text =>
    if c = '\n' then (looking text).or (searchBehind looking text) else searchBehind looking text

/-- `re-search-forward` from the beginning of a line for a regexp that begins with `^`: what matches
at the beginning of the first line where it does. -/
def searchLines {β : Type*} (looking : List Char → Option β) (text : List Char) : Option β :=
  (looking text).or (searchBehind looking text)

/-- `(pos-bol)` at `p`. -/
def posBol (buf : List Char) : ℕ → ℕ
  | 0 => 0
  | p + 1 => if p = 0 ∨ charAfter buf p = some '\n' then p + 1 else posBol buf p

/-- Inserts a newline at the end unless there is one. -/
def ended (text : List Char) : List Char :=
  if text.getLast? = some '\n' then text else text ++ ['\n']

/-- Lines, each with its newline. -/
def unlines (lines : List (List Char)) : List Char := lines.flatMap (· ++ ['\n'])

@[simp] theorem unlines_nil : unlines [] = [] := rfl

@[simp] theorem unlines_cons (line : List Char) (lines : List (List Char)) :
    unlines (line :: lines) = line ++ '\n' :: unlines lines := by
  rw [unlines, List.flatMap_cons, List.append_assoc]
  rfl

theorem unlines_append (lines lines' : List (List Char)) :
    unlines (lines ++ lines') = unlines lines ++ unlines lines' := List.flatMap_append

theorem length_unlines_cons (line : List Char) (lines : List (List Char)) :
    (unlines (line :: lines)).length = line.length + 1 + (unlines lines).length := by
  rw [unlines_cons, List.length_append, List.length_cons]
  omega

/-- A text is at least as long as it has lines. -/
theorem length_le_length_unlines (lines : List (List Char)) :
    lines.length ≤ (unlines lines).length := by
  induction lines with
  | nil => exact le_rfl
  | cons line lines ih =>
    rw [length_unlines_cons, List.length_cons]
    omega

/-! ## Lines in a text -/

/-- The text of a line ends at its newline. -/
theorem lineText_append {line : List Char} (h : '\n' ∉ line) (rest : List Char) :
    lineText (line ++ '\n' :: rest) = line := by
  have hline : ∀ c ∈ line, (c != '\n') = true := fun c hc => bne_iff_ne.mpr fun heq => h (heq ▸ hc)
  rw [lineText, List.takeWhile_append_of_pos hline, List.takeWhile_cons_of_neg (by simp),
    List.append_nil]

theorem behindLine_append {line : List Char} (h : '\n' ∉ line) (rest : List Char) :
    behindLine (line ++ '\n' :: rest) = rest := by
  rw [behindLine, lineText_append h, ← List.drop_drop, List.drop_left]
  rfl

theorem lineText_of_notMem {line : List Char} (h : '\n' ∉ line) : lineText line = line :=
  List.takeWhile_eq_self_iff.mpr fun _ hc => bne_iff_ne.mpr fun heq => h (heq ▸ hc)

theorem behindLine_of_notMem {line : List Char} (h : '\n' ∉ line) : behindLine line = [] := by
  rw [behindLine, lineText_of_notMem h]
  exact List.drop_eq_nil_of_le (Nat.le_succ _)

section

variable {β : Type*} {looking : List Char → Option β}

/-- The search goes on behind the line. -/
theorem searchBehind_append {line : List Char} (h : '\n' ∉ line) (rest : List Char) :
    searchBehind looking (line ++ '\n' :: rest) = searchLines looking rest := by
  induction line with
  | nil => exact if_pos rfl
  | cons c line ih =>
    rw [List.mem_cons, not_or] at h
    rw [List.cons_append, searchBehind, if_neg (Ne.symm h.1), ih h.2]

/-- **A search passes a line where nothing matches.** -/
theorem searchLines_append {line rest : List Char} (h : '\n' ∉ line)
    (hnone : looking (line ++ '\n' :: rest) = none) :
    searchLines looking (line ++ '\n' :: rest) = searchLines looking rest := by
  rw [searchLines, hnone, Option.none_or, searchBehind_append h]

theorem searchLines_of_some {text : List Char} {b : β} (h : looking text = some b) :
    searchLines looking text = some b := by
  rw [searchLines, h, Option.some_or]

/-- …and several such lines. -/
theorem searchLines_unlines {lines : List (List Char)} {rest : List Char}
    (h : ∀ line ∈ lines, '\n' ∉ line ∧ ∀ text, looking (line ++ '\n' :: text) = none) :
    searchLines looking (unlines lines ++ rest) = searchLines looking rest := by
  induction lines with
  | nil => rfl
  | cons line lines ih =>
    obtain ⟨hline, hnone⟩ := h line List.mem_cons_self
    rw [unlines_cons, List.append_assoc, List.cons_append, searchLines_append hline (hnone _),
      ih fun l hl => h l (List.mem_cons_of_mem _ hl)]

end

/-- The first line of a text is determined. -/
theorem line_inj {line line' rest rest' : List Char} (h : '\n' ∉ line) (h' : '\n' ∉ line')
    (heq : line ++ '\n' :: rest = line' ++ '\n' :: rest') : line = line' ∧ rest = rest' := by
  have hline : line = line' := by
    rw [← lineText_append h rest, heq, lineText_append h']
  subst hline
  exact ⟨rfl, (List.cons.inj (List.append_cancel_left heq)).2⟩

/-- **A text has one division into lines.** -/
theorem unlines_inj {lines lines' : List (List Char)} (h : ∀ l ∈ lines, '\n' ∉ l)
    (h' : ∀ l ∈ lines', '\n' ∉ l) (heq : unlines lines = unlines lines') : lines = lines' := by
  induction lines generalizing lines' with
  | nil =>
    cases lines' with
    | nil => rfl
    | cons line' lines' => simp at heq
  | cons line lines ih =>
    cases lines' with
    | nil => simp at heq
    | cons line' lines' =>
      rw [unlines_cons, unlines_cons] at heq
      obtain ⟨rfl, hrest⟩ := line_inj (h _ List.mem_cons_self) (h' _ List.mem_cons_self) heq
      rw [ih (fun l hl => h l (List.mem_cons_of_mem _ hl))
        (fun l hl => h' l (List.mem_cons_of_mem _ hl)) hrest]

/-! ## Lines at a position -/

variable {buf : List Char} {p : ℕ}

theorem textFrom_add (hp : 1 ≤ p) (n : ℕ) : textFrom buf (p + n) = (textFrom buf p).drop n := by
  rw [textFrom, textFrom, List.drop_drop]
  congr 1
  omega

theorem charAfter_add (hp : 1 ≤ p) (n : ℕ) : charAfter buf (p + n) = (textFrom buf p)[n]? := by
  rw [charAfter, textFrom_add hp, List.head?_drop]

/-- What is behind a position ends with the buffer. -/
theorem length_textFrom_le (hp : 1 ≤ p) (h : textFrom buf p ≠ []) :
    p + (textFrom buf p).length = buf.length + 1 := by
  rw [textFrom, ne_eq, List.drop_eq_nil_iff] at h
  rw [textFrom, List.length_drop]
  omega

variable {line rest : List Char}

/-- **The next line begins behind the newline.** -/
theorem forwardLine_line (hp : 1 ≤ p) (hline : '\n' ∉ line)
    (h : textFrom buf p = line ++ '\n' :: rest) :
    forwardLine buf p = p + line.length + 1 := by
  have hlen := length_textFrom_le hp (h ▸ List.append_ne_nil_of_right_ne_nil _ (by simp))
  rw [h, List.length_append, List.length_cons] at hlen
  rw [forwardLine, h, lineText_append hline]
  omega

theorem textFrom_line (hp : 1 ≤ p) (h : textFrom buf p = line ++ '\n' :: rest) :
    textFrom buf (p + line.length + 1) = rest := by
  rw [add_assoc, textFrom_add hp, h, ← List.drop_drop, List.drop_left]
  rfl

/-- **The line of `q` begins at `p` or before it exactly if no newline stands between them.** -/
theorem posBol_le_iff (hp : 1 ≤ p) (q : ℕ) :
    posBol buf q ≤ p ↔ ∀ r, p ≤ r → r < q → charAfter buf r ≠ some '\n' := by
  induction q with
  | zero => exact ⟨fun _ r _ hr => absurd hr (Nat.not_lt_zero r), fun _ => Nat.zero_le p⟩
  | succ q ih =>
    rw [posBol]
    split
    · next hq =>
      constructor
      · intro hle r hpr hr
        omega
      · intro h
        by_contra hlt
        rcases hq with hq | hq
        · omega
        · exact h q (by omega) (Nat.lt_succ_self q) hq
    · next hq =>
      rw [ih]
      constructor
      · intro h r hpr hr
        rcases Nat.lt_succ_iff_lt_or_eq.mp hr with hr | rfl
        · exact h r hpr hr
        · exact fun heq => hq (.inr heq)
      · exact fun h r hpr hr => h r hpr (Nat.lt_succ_of_lt hr)

/-- **The line of `q` begins at `p` or before it exactly if `q` is at most the end of the line at
`p`.** -/
theorem posBol_le_iff_line (hp : 1 ≤ p) (hline : '\n' ∉ line)
    (h : textFrom buf p = line ++ '\n' :: rest) (q : ℕ) :
    posBol buf q ≤ p ↔ q ≤ p + line.length := by
  rw [posBol_le_iff hp]
  constructor
  · intro hnone
    by_contra hlt
    refine hnone (p + line.length) (Nat.le_add_right _ _) (by omega) ?_
    rw [charAfter_add hp, h, List.getElem?_append_right le_rfl, Nat.sub_self]
    rfl
  · intro hq r hpr hr
    obtain ⟨n, rfl⟩ := Nat.exists_eq_add_of_le hpr
    have hn : n < line.length := by omega
    rw [charAfter_add hp, h, List.getElem?_append_left hn, List.getElem?_eq_getElem hn, ne_eq,
      Option.some.injEq]
    exact fun heq => hline (heq ▸ List.getElem_mem hn)

end Emacs

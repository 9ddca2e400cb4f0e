import Magit.Diff.Positions
import Magit.Diff.Unified
import Mathlib.Algebra.Order.BigOperators.Group.List

/-!
# Diff/VisitOffset — a line of the old version in the worktree

`magit-diff-visit--offset` reads the hunk headers of a diff and adds up how far the hunks above a
line move it; in the hunk of the line it walks through the body.  It does not find a header that
leaves out a count of 1 (`lookingAtHeader_omitted`), and the walk ends before the insertions that
stand directly above the line.  The result is the line's number in the new file exactly if these do
not move the line (`offset_correct_iff`).
-/

namespace Magit.VisitOffset

open Diff Emacs UnifiedDiff

/-! ## `magit-diff-visit--offset` -/

/-- The groups of a hunk header that are read. -/
structure HeaderGroups where
  fromBeg : ℕ
  fromLen : ℕ
  toLen : ℕ

/-- A literal piece of a regexp at the front of a text, and what follows it. -/
def literal (piece text : Text) : Option Text :=
  if piece.isPrefixOf text then some (text.drop piece.length) else none

/-- `[0-9]+` at the front of a text, as a number, and what follows it. -/
def number (text : Text) : Option (ℕ × Text) :=
  let digits := text.takeWhile Char.isDigit
  if digits = [] then none else some (Nat.ofDigitChars 10 digits 0, text.drop digits.length)

/-- `@@ -\([0-9]+\),\([0-9]+\) \+\([0-9]+\),\([0-9]+\) @@.*\n` at the front of a text, and what
follows it. -/
def lookingAtHeader (text : Text) : Option (HeaderGroups × Text) := do
  let text ← literal "@@ -".toList text
  let (fromBeg, text) ← number text
  let text ← literal ",".toList text
  let (fromLen, text) ← number text
  let text ← literal " +".toList text
  let (_, text) ← number text
  let text ← literal ",".toList text
  let (toLen, text) ← number text
  let text ← literal " @@".toList text
  if '\n' ∈ text then some (⟨fromBeg, fromLen, toLen⟩, behindLine text) else none

/-- The inner `while` loop, with the offset and the text after point that it leaves.  At the end of
the buffer it does not go on: `none`. -/
def walk : ℕ → ℕ → ℤ → Text → Option (ℤ × Text)
  | _, 0, offset, text => some (offset, text)
  | 0, _ + 1, _, _ => none
  | fuel + 1, rest + 1, offset, text =>
    match text.head? with
    | some ' ' => walk fuel rest offset (behindLine text)
    | some '-' => walk fuel rest (offset - 1) (behindLine text)
    | some '+' => walk fuel (rest + 1) (offset + 1) (behindLine text)
    | _ => walk fuel (rest + 1) offset (behindLine text)

/-- The outer `while` loop, until the search fails or a hunk begins behind the line.  A round takes
a header or more off the text. -/
def offsetLoop (line : ℕ) : ℕ → ℤ → Text → Option ℤ
  | 0, _, _ => none
  | fuel + 1, offset, text =>
    match searchLines lookingAtHeader text with
    | none => some offset
    | some (⟨fromBeg, fromLen, toLen⟩, text) =>
      if fromBeg ≤ line then
        if fromBeg + fromLen < line then offsetLoop line fuel (offset + (toLen - fromLen)) text
        else
          match walk text.length (line - fromBeg) offset text with
          | none => none
          | some (offset, text) => offsetLoop line fuel offset text
      else some offset

/-- The line in the worktree, for what `git diff` prints for a revision and a file. -/
def magitDiffVisitOffset (gitDiff : Text → Text → Text) (file rev : Text) (line : ℕ) : Option ℤ :=
  let text := gitDiff rev file
  (offsetLoop line (text.length + 1) 0 text).map fun offset => line + offset

/-! ## A diff of two files -/

/-- A hunk and the unchanged lines above it.  A count of 1 may be left out of the header; `heading`
is what follows the second `@@`. -/
structure DiffHunk where
  gap : List Content
  body : List (Line Content)
  fromLenShown : Bool
  toLenShown : Bool
  heading : Text
  body_line : ∀ l ∈ body, '\n' ∉ l.content.text
  heading_line : '\n' ∉ heading

/-- A count in a header. -/
def countText (shown : Bool) (len : ℕ) : Text :=
  if len = 1 ∧ shown = false then [] else ',' :: Nat.toDigits 10 len

/-- The line number in a header, for a side of `len` lines behind `before` lines: that of its first
line, or of the line before an empty side. -/
def beginning (before len : ℕ) : ℕ := if len = 0 then before else before + 1

namespace DiffHunk

variable (h : DiffHunk)

/-- The lines of the hunk's old side. -/
def fromLen : ℕ := (oldSide h.body).length

/-- The lines of the hunk's new side. -/
def toLen : ℕ := (newSide h.body).length

/-- Both counts are in the header. -/
def Explicit : Prop :=
  ¬ (h.fromLen = 1 ∧ h.fromLenShown = false) ∧ ¬ (h.toLen = 1 ∧ h.toLenShown = false)

instance : Decidable h.Explicit := inferInstanceAs (Decidable (_ ∧ _))

end DiffHunk

/-- A hunk with the number of lines before it in the old and in the new file. -/
structure PlacedHunk where
  hunk : DiffHunk
  before : ℕ
  newBefore : ℕ

/-- Hunks one after another, behind so many lines of both files. -/
def placeHunks : ℕ → ℕ → List DiffHunk → List PlacedHunk
  | _, _, [] => []
  | before, newBefore, h :: hunks =>
    ⟨h, before + h.gap.length, newBefore + h.gap.length⟩
      :: placeHunks (before + h.gap.length + h.fromLen) (newBefore + h.gap.length + h.toLen) hunks

namespace PlacedHunk

variable (p : PlacedHunk)

/-- The hunk's header. -/
def header : Text :=
  "@@ -".toList ++ (Nat.toDigits 10 (beginning p.before p.hunk.fromLen)
    ++ (countText p.hunk.fromLenShown p.hunk.fromLen ++ (" +".toList
    ++ (Nat.toDigits 10 (beginning p.newBefore p.hunk.toLen)
    ++ (countText p.hunk.toLenShown p.hunk.toLen ++ (" @@".toList ++ p.hunk.heading))))))

/-- All lines of the hunk. -/
def lines : List Text := p.header :: bodyLines p.hunk.body

end PlacedHunk

/-- Hunks between two files, with what is printed before them and the unchanged lines below the
last one. -/
structure TwoFileDiff where
  preamble : List Text
  hunks : List DiffHunk
  tail : List Content
  preamble_line : ∀ line ∈ preamble, '\n' ∉ line ∧ line.head? ≠ some '@'

/-- Unchanged lines. -/
def contextLines (lines : List Content) : List (Line Content) := lines.map (⟨.context, ·⟩)

/-- The lines of hunks and of what is above them. -/
def hunksScript (hunks : List DiffHunk) : List (Line Content) :=
  hunks.flatMap fun h => contextLines h.gap ++ h.body

namespace TwoFileDiff

variable (d : TwoFileDiff)

/-- The hunks of a diff where they stand in both files. -/
def placed : List PlacedHunk := placeHunks 0 0 d.hunks

/-- The diff as git prints it. -/
def text : Text := unlines (d.preamble ++ d.placed.flatMap PlacedHunk.lines)

/-- All lines of both files. -/
def script : List (Line Content) := hunksScript d.hunks ++ contextLines d.tail

end TwoFileDiff

/-! ## Reading headers -/

theorem literal_append (piece rest : Text) : literal piece (piece ++ rest) = some rest := by
  rw [literal, if_pos (List.isPrefixOf_iff_prefix.mpr (List.prefix_append _ _)), List.drop_left]

theorem literal_of_head {c : Char} {piece text : Text} (h : text.head? ≠ some c) :
    literal (c :: piece) text = none := by
  refine if_neg fun hpre => h ?_
  obtain ⟨rest, rfl⟩ := List.isPrefixOf_iff_prefix.mp hpre
  rfl

/-- A printed number is read back. -/
theorem number_toDigits (n : ℕ) {rest : Text}
    (h : ∀ c, rest.head? = some c → c.isDigit = false) :
    number (Nat.toDigits 10 n ++ rest) = some (n, rest) := by
  have hrest : rest.takeWhile Char.isDigit = [] := by
    cases rest with
    | nil => rfl
    | cons c rest => exact List.takeWhile_cons_of_neg (by simp [h c rfl])
  have hdigits : (Nat.toDigits 10 n ++ rest).takeWhile Char.isDigit = Nat.toDigits 10 n := by
    rw [List.takeWhile_append_of_pos fun d hd =>
      Nat.isDigit_of_mem_toDigits (by decide) (by decide) hd, hrest, List.append_nil]
  rw [number, hdigits, if_neg Nat.toDigits_ne_nil, List.drop_left, Nat.ofDigitChars_ten_toDigits]

theorem lookingAtHeader_of_head {text : Text} (h : text.head? ≠ some '@') :
    lookingAtHeader text = none := by
  rw [lookingAtHeader, show "@@ -".toList = '@' :: "@ -".toList from rfl, literal_of_head h]
  rfl

variable {p : PlacedHunk}

section

variable (n : ℕ) (rest : Text)

/-- A number ends where a piece begins that is not a digit. -/
theorem number_append {piece : Text} {c : Char} (hpiece : piece.head? = some c)
    (hc : c.isDigit = false) :
    number (Nat.toDigits 10 n ++ (piece ++ rest)) = some (n, piece ++ rest) := by
  refine number_toDigits n fun c' hc' => ?_
  rw [List.head?_append, hpiece] at hc'
  rw [← Option.some.inj hc', hc]

theorem number_comma : number (Nat.toDigits 10 n ++ (",".toList ++ rest))
    = some (n, ",".toList ++ rest) := number_append n rest rfl rfl

theorem number_plus : number (Nat.toDigits 10 n ++ (" +".toList ++ rest))
    = some (n, " +".toList ++ rest) := number_append n rest rfl rfl

theorem number_at : number (Nat.toDigits 10 n ++ (" @@".toList ++ rest))
    = some (n, " @@".toList ++ rest) := number_append n rest rfl rfl

/-- Where a count is left out a space stands in the place of the comma. -/
theorem literal_comma_plus : literal ",".toList (" +".toList ++ rest) = none :=
  @literal_of_head ',' [] _ (by simp)

theorem literal_comma_at : literal ",".toList (" @@".toList ++ rest) = none :=
  @literal_of_head ',' [] _ (by simp)

end

/-- **A header with both counts is found.** -/
theorem lookingAtHeader_explicit (h : p.hunk.Explicit) (rest : Text) :
    lookingAtHeader (p.header ++ '\n' :: rest)
      = some (⟨beginning p.before p.hunk.fromLen, p.hunk.fromLen, p.hunk.toLen⟩, rest) := by
  have hfrom : countText p.hunk.fromLenShown p.hunk.fromLen
      = ",".toList ++ Nat.toDigits 10 p.hunk.fromLen := if_neg h.1
  have hto : countText p.hunk.toLenShown p.hunk.toLen
      = ",".toList ++ Nat.toDigits 10 p.hunk.toLen := if_neg h.2
  simp only [PlacedHunk.header, hfrom, hto, List.append_assoc, lookingAtHeader, literal_append,
    number_comma, number_plus, number_at, Option.bind_eq_bind, Option.bind_some]
  rw [if_pos (List.mem_append_right _ List.mem_cons_self),
    behindLine_append p.hunk.heading_line]

/-- **A header with a count left out is not found.** -/
theorem lookingAtHeader_omitted (h : ¬ p.hunk.Explicit) (rest : Text) :
    lookingAtHeader (p.header ++ '\n' :: rest) = none := by
  by_cases hfrom : p.hunk.fromLen = 1 ∧ p.hunk.fromLenShown = false
  · have hnone : countText p.hunk.fromLenShown p.hunk.fromLen = [] := if_pos hfrom
    simp only [PlacedHunk.header, hnone, List.append_assoc, List.nil_append, lookingAtHeader,
      literal_append, number_plus, literal_comma_plus, Option.bind_eq_bind, Option.bind_some,
      Option.bind_none]
  · have hto : p.hunk.toLen = 1 ∧ p.hunk.toLenShown = false := by
      by_contra hto
      exact h ⟨hfrom, hto⟩
    have hnone : countText p.hunk.toLenShown p.hunk.toLen = [] := if_pos hto
    have hfrom : countText p.hunk.fromLenShown p.hunk.fromLen
        = ",".toList ++ Nat.toDigits 10 p.hunk.fromLen := if_neg hfrom
    simp only [PlacedHunk.header, hfrom, hnone, List.append_assoc, List.nil_append,
      lookingAtHeader, literal_append, number_comma, number_plus, number_at, literal_comma_at,
      Option.bind_eq_bind, Option.bind_some, Option.bind_none]

example : lookingAtHeader "@@ -1 +1,2 @@\n a\n+x\n".toList = none := by decide +kernel

/-! ## Walking through a body -/

/-- A round of the inner loop takes a line. -/
theorem walk_line {c : Char} {line : Text} (h : '\n' ∉ c :: line) (fuel k : ℕ) (offset : ℤ)
    (lines : List Text) (rest : Text) :
    walk (fuel + 1) (k + 1) offset (unlines ((c :: line) :: lines) ++ rest)
      = match some c with
        | some ' ' => walk fuel k offset (unlines lines ++ rest)
        | some '-' => walk fuel k (offset - 1) (unlines lines ++ rest)
        | some '+' => walk fuel (k + 1) (offset + 1) (unlines lines ++ rest)
        | _ => walk fuel (k + 1) offset (unlines lines ++ rest) := by
  have htext : unlines ((c :: line) :: lines) ++ rest
      = c :: line ++ '\n' :: (unlines lines ++ rest) := by
    rw [unlines_cons, List.append_assoc]
    rfl
  rw [htext, walk, behindLine_append h]
  rfl

/-- A marker is passed. -/
theorem walk_markerLines (shown : Bool) {fuel : ℕ} (k : ℕ) (offset : ℤ) {lines : List Text}
    (rest : Text) (hfuel : (markerLines shown ++ lines).length ≤ fuel) :
    ∃ fuel', lines.length ≤ fuel'
      ∧ walk fuel (k + 1) offset (unlines (markerLines shown ++ lines) ++ rest)
        = walk fuel' (k + 1) offset (unlines lines ++ rest) := by
  cases shown with
  | false => exact ⟨fuel, hfuel, rfl⟩
  | true =>
    obtain ⟨fuel, rfl⟩ := Nat.exists_eq_succ_of_ne_zero (Nat.ne_zero_of_lt hfuel)
    exact ⟨fuel, Nat.le_of_succ_le_succ hfuel,
      (walk_line not_mem_noEolMarker fuel k offset lines rest).trans rfl⟩

theorem isBodyLine_of_mem_lines {body : List (Line Content)}
    (hbody : ∀ l ∈ body, '\n' ∉ l.content.text) {shown : Bool} {line : Text}
    (h : line ∈ markerLines shown ++ bodyLines body) : IsBodyLine line := by
  rcases List.mem_append.mp h with h | h
  · exact isBodyLine_of_mem_markerLines h
  · exact isBodyLine_of_mem_bodyLines hbody h

/-- **The walk through a body counts up to the `k`-th line of the old side** and leaves lines of
the body. -/
theorem walk_bodyLines {body : List (Line Content)} (hbody : ∀ l ∈ body, '\n' ∉ l.content.text)
    {k : ℕ} (hk : k ≤ (oldSide body).length) (shown : Bool) (offset : ℤ) (rest : Text) {fuel : ℕ}
    (hfuel : (markerLines shown ++ bodyLines body).length ≤ fuel) :
    ∃ left, (∀ line ∈ left, IsBodyLine line)
      ∧ walk fuel k offset (unlines (markerLines shown ++ bodyLines body) ++ rest)
        = some (offset + netWithin body k, unlines left ++ rest) := by
  induction body generalizing k shown offset fuel with
  | nil =>
    obtain rfl := Nat.le_zero.mp hk
    refine ⟨markerLines shown ++ bodyLines [], fun line => isBodyLine_of_mem_lines hbody, ?_⟩
    rw [walk, netWithin, add_zero]
  | cons l body ih =>
    cases k with
    | zero =>
      refine ⟨markerLines shown ++ bodyLines (l :: body),
        fun line => isBodyLine_of_mem_lines hbody, ?_⟩
      rw [walk, netWithin, add_zero]
    | succ k =>
      obtain ⟨fuel, hfuel, hwalk⟩ := walk_markerLines shown k offset rest hfuel
      rw [hwalk]
      obtain ⟨hl, hrest⟩ := List.forall_mem_cons.mp hbody
      obtain ⟨fuel, rfl⟩ := Nat.exists_eq_succ_of_ne_zero (Nat.ne_zero_of_lt hfuel)
      have hlines : bodyLines (l :: body)
          = mainLine l :: (markerLines l.content.noEol ++ bodyLines body) := rfl
      rw [hlines] at hfuel ⊢
      have hfuel := Nat.le_of_succ_le_succ hfuel
      have hmain := (isBodyLine_mainLine hl).1
      obtain ⟨kind, content⟩ := l
      rw [mainLine] at hmain ⊢
      rw [walk_line hmain]
      cases kind with
      | context => exact ih hrest (Nat.le_of_succ_le_succ hk) _ _ hfuel
      | removed =>
        obtain ⟨left, hleft, heq⟩ := ih hrest (Nat.le_of_succ_le_succ hk) content.noEol
          (offset - 1) hfuel
        refine ⟨left, hleft, heq.trans ?_⟩
        rw [netWithin, sub_add_eq_add_sub, add_sub_assoc]
      | added =>
        obtain ⟨left, hleft, heq⟩ := ih hrest hk content.noEol (offset + 1) hfuel
        refine ⟨left, hleft, heq.trans ?_⟩
        rw [netWithin, add_assoc, add_comm 1]

/-- …as the outer loop calls it. -/
theorem walk_body {body : List (Line Content)} (hbody : ∀ l ∈ body, '\n' ∉ l.content.text) {k : ℕ}
    (hk : k ≤ (oldSide body).length) (offset : ℤ) (below : List Text) :
    ∃ left, (∀ line ∈ left, IsBodyLine line)
      ∧ walk (unlines (bodyLines body ++ below)).length k offset (unlines (bodyLines body ++ below))
        = some (offset + netWithin body k, unlines (left ++ below)) := by
  have hfuel : (bodyLines body).length ≤ (unlines (bodyLines body ++ below)).length := by
    refine (length_le_length_unlines (bodyLines body)).trans ?_
    rw [unlines_append, List.length_append]
    exact Nat.le_add_right _ _
  obtain ⟨left, hleft, hwalk⟩ := walk_bodyLines hbody hk false offset (unlines below) hfuel
  refine ⟨left, hleft, ?_⟩
  rw [unlines_append left, ← hwalk, unlines_append]
  rfl

/-! ## What the loop counts -/

namespace PlacedHunk

variable (p : PlacedHunk) (line : ℕ)

/-- How far the hunk moves a line: its insertions minus its deletions before the line. -/
def moved : ℤ := if line ≤ p.before then 0 else net p.hunk.body (line - 1 - p.before)

/-- What the loop adds for the hunk. -/
def counted : ℤ :=
  if p.hunk.Explicit ∧ beginning p.before p.hunk.fromLen ≤ line then
    if beginning p.before p.hunk.fromLen + p.hunk.fromLen < line then
      p.hunk.toLen - p.hunk.fromLen
    else netWithin p.hunk.body (line - beginning p.before p.hunk.fromLen)
  else 0

/-- What is left out: the insertions that stand directly before the line, in a hunk that has lines
of the old file, and everything in a hunk whose header leaves a count out. -/
def uncounted : ℤ :=
  if line ≤ p.before then 0
  else if p.hunk.Explicit then
    if p.hunk.fromLen = 0 then 0 else insertedAt p.hunk.body (line - 1 - p.before)
  else net p.hunk.body (line - 1 - p.before)

theorem counted_above {p : PlacedHunk} {line : ℕ} (h : p.hunk.Explicit)
    (hlt : beginning p.before p.hunk.fromLen + p.hunk.fromLen < line) :
    p.counted line = p.hunk.toLen - p.hunk.fromLen := by
  rw [counted, if_pos ⟨h, (Nat.le_add_right _ _).trans hlt.le⟩, if_pos hlt]

/-- A hunk that contains the line counts with the changes above it. -/
theorem counted_within {p : PlacedHunk} {line : ℕ} (h : p.hunk.Explicit)
    (hbeg : beginning p.before p.hunk.fromLen ≤ line)
    (hlt : ¬ beginning p.before p.hunk.fromLen + p.hunk.fromLen < line) :
    p.counted line = netWithin p.hunk.body (line - beginning p.before p.hunk.fromLen) := by
  rw [counted, if_pos ⟨h, hbeg⟩, if_neg hlt]

/-- A hunk below the line counts nothing. -/
theorem counted_of_le {p : PlacedHunk} {line : ℕ} (h : line ≤ p.before) : p.counted line = 0 := by
  rw [counted]
  split_ifs with hfound hbelow
  · rw [beginning] at hfound hbelow
    split_ifs at hfound hbelow <;> omega
  · have hbeg : line - beginning p.before p.hunk.fromLen = 0 := by
      rw [beginning]
      split_ifs <;> omega
    rw [hbeg, netWithin]
  · rfl

/-- **What is counted and what is left out is all that moves the line.** -/
theorem moved_eq : p.moved line = p.counted line + p.uncounted line := by
  by_cases hle : line ≤ p.before
  · rw [counted_of_le hle, moved, uncounted, if_pos hle, if_pos hle, add_zero]
  rw [moved, uncounted, if_neg hle, if_neg hle, counted]
  by_cases hexplicit : p.hunk.Explicit
  · rw [if_pos hexplicit]
    by_cases hempty : p.hunk.fromLen = 0
    · have hnet : net p.hunk.body (line - 1 - p.before) = p.hunk.toLen - p.hunk.fromLen :=
        net_of_le (hempty.le.trans (Nat.zero_le _))
      have hbelow : p.before < line := Nat.lt_of_not_le hle
      rw [beginning, if_pos hempty, if_pos hempty, if_pos ⟨hexplicit, hbelow.le⟩, if_pos (by omega),
        add_zero, hnet]
    · rw [beginning, if_neg hempty, if_neg hempty, if_pos ⟨hexplicit, Nat.lt_of_not_le hle⟩]
      have hindex : line - (p.before + 1) = line - 1 - p.before := by omega
      split_ifs with hbelow
      · have hlt : p.hunk.fromLen < line - 1 - p.before := by omega
        rw [insertedAt_of_lt hlt, net_of_le hlt.le, Nat.cast_zero, add_zero]
        rfl
      · rw [hindex]
        exact net_eq _ _
  · rw [if_neg hexplicit, if_neg fun h => hexplicit h.1, zero_add]

end PlacedHunk

/-- A line that the search passes. -/
def Passed (line : Text) : Prop :=
  '\n' ∉ line ∧ ∀ text, lookingAtHeader (line ++ '\n' :: text) = none

/-- A line that does not begin with `@` is passed. -/
theorem passed_of_head {line : Text} (hline : '\n' ∉ line) (h : line.head? ≠ some '@') :
    Passed line := by
  refine ⟨hline, fun text => lookingAtHeader_of_head ?_⟩
  cases line with
  | nil => exact (by decide : some '\n' ≠ some '@')
  | cons c line => exact h

/-- A line of a body is passed. -/
theorem passed_of_isBodyLine {line : Text} (h : IsBodyLine line) : Passed line := by
  obtain ⟨hline, c, hc, rest, rfl⟩ := h
  refine passed_of_head hline fun heq => ?_
  rw [Option.some.inj heq] at hc
  exact absurd hc (by decide)

theorem newline_not_mem_toDigits (n : ℕ) : '\n' ∉ Nat.toDigits 10 n := fun h =>
  absurd (Nat.isDigit_of_mem_toDigits (by decide) (by decide) h) (by decide)

theorem newline_not_mem_countText (shown : Bool) (len : ℕ) : '\n' ∉ countText shown len := by
  rw [countText]
  split_ifs
  · exact List.not_mem_nil
  · rw [List.mem_cons, not_or]
    exact ⟨by decide, newline_not_mem_toDigits len⟩

theorem newline_not_mem_header (p : PlacedHunk) : '\n' ∉ p.header := by
  simp only [PlacedHunk.header, List.mem_append, not_or]
  exact ⟨by decide, newline_not_mem_toDigits _, newline_not_mem_countText _ _, by decide,
    newline_not_mem_toDigits _, newline_not_mem_countText _ _, by decide, p.hunk.heading_line⟩

/-- A hunk whose header leaves a count out is passed as a whole. -/
theorem passed_of_mem_lines (h : ¬ p.hunk.Explicit) {line : Text} (hline : line ∈ p.lines) :
    Passed line := by
  rcases List.mem_cons.mp hline with rfl | hline
  · exact ⟨newline_not_mem_header p, lookingAtHeader_omitted h⟩
  · exact passed_of_isBodyLine (isBodyLine_of_mem_bodyLines p.hunk.body_line hline)

/-- Every hunk is behind the lines before the first one. -/
theorem le_before_of_mem {before newBefore : ℕ} {hunks : List DiffHunk}
    (h : p ∈ placeHunks before newBefore hunks) : before ≤ p.before := by
  induction hunks generalizing before newBefore with
  | nil => exact absurd h List.not_mem_nil
  | cons hunk hunks ih =>
    rcases List.mem_cons.mp h with rfl | h
    · exact Nat.le_add_right _ _
    · have := ih h
      omega

/-- Hunks below the line count nothing. -/
theorem sum_counted_of_le {line before newBefore : ℕ} (h : line ≤ before)
    (hunks : List DiffHunk) :
    ((placeHunks before newBefore hunks).map (PlacedHunk.counted · line)).sum = 0 := by
  refine List.sum_eq_zero fun x hx => ?_
  obtain ⟨p, hp, rfl⟩ := List.mem_map.mp hx
  exact PlacedHunk.counted_of_le (h.trans (le_before_of_mem hp))

/-- **The loop adds up what it counts for each hunk.** -/
theorem offsetLoop_hunks (line : ℕ) (before newBefore : ℕ) (hunks : List DiffHunk)
    {passed : List Text} (hpassed : ∀ l ∈ passed, Passed l) (offset : ℤ) {fuel : ℕ}
    (hfuel : hunks.length < fuel) :
    offsetLoop line fuel offset
        (unlines (passed ++ (placeHunks before newBefore hunks).flatMap PlacedHunk.lines))
      = some (offset
        + ((placeHunks before newBefore hunks).map (PlacedHunk.counted · line)).sum) := by
  induction hunks generalizing before newBefore passed offset fuel with
  | nil =>
    obtain ⟨fuel, rfl⟩ := Nat.exists_eq_succ_of_ne_zero (Nat.ne_zero_of_lt hfuel)
    rw [unlines_append, offsetLoop, searchLines_unlines hpassed]
    exact congrArg some (add_zero offset).symm
  | cons h hunks ih =>
    set p : PlacedHunk := ⟨h, before + h.gap.length, newBefore + h.gap.length⟩ with hp
    set below := placeHunks (before + h.gap.length + h.fromLen)
      (newBefore + h.gap.length + h.toLen) hunks with hbelow
    have hplace : placeHunks before newBefore (h :: hunks) = p :: below := rfl
    rw [hplace, List.flatMap_cons, List.map_cons, List.sum_cons]
    by_cases hexplicit : p.hunk.Explicit
    · obtain ⟨fuel, rfl⟩ := Nat.exists_eq_succ_of_ne_zero (Nat.ne_zero_of_lt hfuel)
      have hfuel := Nat.lt_of_succ_lt_succ hfuel
      have hbody : ∀ l ∈ bodyLines h.body, Passed l := fun l hl =>
        passed_of_isBodyLine (isBodyLine_of_mem_bodyLines h.body_line hl)
      have hsearch : searchLines lookingAtHeader
          (unlines (passed ++ (p.lines ++ below.flatMap PlacedHunk.lines)))
          = some (⟨beginning p.before h.fromLen, h.fromLen, h.toLen⟩,
            unlines (bodyLines h.body ++ below.flatMap PlacedHunk.lines)) := by
        rw [unlines_append, searchLines_unlines hpassed, PlacedHunk.lines, List.cons_append,
          unlines_cons]
        exact searchLines_of_some (lookingAtHeader_explicit hexplicit _)
      rw [offsetLoop, hsearch]
      dsimp only
      by_cases hbeg : beginning p.before h.fromLen ≤ line
      · rw [if_pos hbeg]
        by_cases hlt : beginning p.before h.fromLen + h.fromLen < line
        · rw [if_pos hlt, PlacedHunk.counted_above hexplicit hlt, ih _ _ hbody _ hfuel, add_assoc]
        · have hindex : line - beginning p.before h.fromLen ≤ h.fromLen := by omega
          obtain ⟨left, hleft, hwalk⟩ := walk_body h.body_line hindex offset
            (below.flatMap PlacedHunk.lines)
          rw [if_neg hlt, hwalk, PlacedHunk.counted_within hexplicit hbeg hlt, ← add_assoc]
          exact ih _ _ (fun l hl => passed_of_isBodyLine (hleft l hl)) _ hfuel
      · have hle : line ≤ p.before := by
          rw [beginning] at hbeg
          split_ifs at hbeg <;> omega
        rw [if_neg hbeg, PlacedHunk.counted_of_le hle,
          sum_counted_of_le (hle.trans (Nat.le_add_right _ _)), add_zero,
          add_zero]
    · rw [← List.append_assoc, ih _ _ ?_ offset (Nat.lt_of_succ_lt hfuel), PlacedHunk.counted,
        if_neg fun h => hexplicit h.1, zero_add]
      intro l hl
      rcases List.mem_append.mp hl with hl | hl
      · exact hpassed l hl
      · exact passed_of_mem_lines hexplicit hl

/-! ## When the line is the right one -/

theorem length_oldSide_contextLines (lines : List Content) :
    (oldSide (contextLines lines)).length = lines.length := by
  induction lines with
  | nil => rfl
  | cons line lines ih => exact congrArg (· + 1) ih

/-- Context moves nothing. -/
theorem net_contextLines (lines : List Content) (k : ℕ) : net (contextLines lines) k = 0 := by
  induction lines generalizing k with
  | nil => cases k <;> rfl
  | cons line lines ih =>
    cases k with
    | zero => rfl
    | succ k => exact ih k

theorem hunksScript_cons (h : DiffHunk) (hunks : List DiffHunk) :
    hunksScript (h :: hunks) = contextLines h.gap ++ (h.body ++ hunksScript hunks) := by
  rw [hunksScript, List.flatMap_cons, List.append_assoc]
  rfl

/-- **The hunks together move a line as the script does.** -/
theorem sum_moved (line before newBefore : ℕ) (hunks : List DiffHunk) (tail : List Content) :
    ((placeHunks before newBefore hunks).map (PlacedHunk.moved · line)).sum
      = if line ≤ before then 0
        else net (hunksScript hunks ++ contextLines tail) (line - 1 - before) := by
  induction hunks generalizing before newBefore with
  | nil =>
    rw [hunksScript, List.flatMap_nil, List.nil_append, net_contextLines, ite_self]
    rfl
  | cons h hunks ih =>
    rw [placeHunks, List.map_cons, List.sum_cons, ih, hunksScript_cons, List.append_assoc,
      List.append_assoc, net_append (contextLines h.gap), net_append h.body, net_contextLines,
      length_oldSide_contextLines, PlacedHunk.moved, zero_add]
    dsimp only
    rw [show (oldSide h.body).length = h.fromLen from rfl, ← Nat.sub_sub, ← Nat.sub_sub,
      ← Nat.sub_sub]
    -- above the gap, in it, or below it
    rcases Nat.lt_or_ge before line with habove | habove
    · rw [if_neg (Nat.not_le_of_lt habove)]
      rcases Nat.lt_or_ge (before + h.gap.length) line with hgap | hgap
      · have hbelow : ¬ line - 1 - before < h.gap.length := by omega
        rw [if_neg (Nat.not_le_of_lt hgap), if_neg hbelow]
        refine congrArg _ (if_congr ?_ rfl rfl)
        omega
      · rw [if_pos hgap, if_pos (by omega), if_pos (by omega), zero_add]
    · rw [if_pos habove, if_pos (by omega), if_pos (by omega), zero_add]

/-- There are no more hunks than lines. -/
theorem length_hunks_le (before newBefore : ℕ) (hunks : List DiffHunk) :
    hunks.length ≤ ((placeHunks before newBefore hunks).flatMap PlacedHunk.lines).length := by
  induction hunks generalizing before newBefore with
  | nil => exact le_rfl
  | cons h hunks ih =>
    have hle := ih (before + h.gap.length + h.fromLen) (newBefore + h.gap.length + h.toLen)
    rw [placeHunks, List.flatMap_cons, List.length_append, PlacedHunk.lines, List.length_cons,
      List.length_cons]
    omega

namespace TwoFileDiff

variable (d : TwoFileDiff)

/-- What is left out of the offset of a line. -/
def uncounted (line : ℕ) : ℤ := (d.placed.map (PlacedHunk.uncounted · line)).sum

/-- **The offset is what the loop counts**, and the loop ends. -/
theorem offset_eq {gitDiff : Text → Text → Text} {file rev : Text}
    (hdiff : gitDiff rev file = d.text) (line : ℕ) :
    magitDiffVisitOffset gitDiff file rev line
      = some (line + (d.placed.map (PlacedHunk.counted · line)).sum) := by
  have hfuel : d.hunks.length < d.text.length + 1 := by
    refine Nat.lt_succ_of_le ((length_hunks_le 0 0 d.hunks).trans ?_)
    refine .trans ?_ (length_le_length_unlines _)
    rw [List.length_append]
    exact Nat.le_add_left _ _
  have hpassed : ∀ l ∈ d.preamble, Passed l := fun l hl =>
    passed_of_head (d.preamble_line l hl).1 (d.preamble_line l hl).2
  have hloop := offsetLoop_hunks line 0 0 d.hunks hpassed 0 hfuel
  rw [magitDiffVisitOffset, hdiff]
  refine (congrArg (Option.map _) hloop).trans ?_
  rw [Option.map_some, zero_add]
  rfl

/-- What the hunks move is what is counted and what is not. -/
theorem sum_moved_eq (line : ℕ) :
    (d.placed.map (PlacedHunk.moved · line)).sum
      = (d.placed.map (PlacedHunk.counted · line)).sum + d.uncounted line := by
  rw [uncounted, ← List.sum_map_add]
  exact congrArg List.sum (List.map_congr_left fun p _ => p.moved_eq line)

/-- **When the line is the right one.**  For a line of the old file that a diff leaves unchanged or
removes, with `before` above it, the result is its line in the new file, or the line where it was
removed, if and only if nothing left out moves it. -/
theorem offset_correct_iff {d : TwoFileDiff} {before after : List (Line Content)}
    {l : Line Content} (hscript : d.script = before ++ l :: after) (hl : l.kind ≠ .added)
    {gitDiff : Text → Text → Text} {file rev : Text} (hdiff : gitDiff rev file = d.text) :
    magitDiffVisitOffset gitDiff file rev ((oldSide before).length + 1)
        = some (((newSide before).length + 1 : ℕ) : ℤ)
      ↔ d.uncounted ((oldSide before).length + 1) = 0 := by
  have hmoved := sum_moved ((oldSide before).length + 1) 0 0 d.hunks d.tail
  rw [if_neg (Nat.not_succ_le_zero _), ← script, hscript, Nat.add_sub_cancel, Nat.sub_zero,
    net_script before after hl] at hmoved
  have hsum := d.sum_moved_eq ((oldSide before).length + 1)
  rw [d.offset_eq hdiff, Option.some.injEq]
  have hsum := hmoved.symm.trans hsum
  push_cast
  constructor
  · intro h
    omega
  · intro h
    omega

end TwoFileDiff

/-- A line is inserted below the first of three. -/
def insertedLineDiff : TwoFileDiff where
  preamble := ["diff --git a/f b/f".toList, "--- a/f".toList, "+++ b/f".toList]
  hunks := [{
    gap := []
    body := [⟨.context, "a".toList, false⟩, ⟨.added, "x".toList, false⟩,
      ⟨.context, "b".toList, false⟩, ⟨.context, "c".toList, false⟩]
    fromLenShown := true
    toLenShown := true
    heading := []
    body_line := by decide
    heading_line := by decide }]
  tail := []
  preamble_line := by decide

/-- The first two lines of its script. -/
def aboveSecond : List (Line Content) :=
  [⟨.context, "a".toList, false⟩, ⟨.added, "x".toList, false⟩]

/-- The third line is the fourth in the new file. -/
theorem offset_third_line :
    magitDiffVisitOffset (fun _ _ => insertedLineDiff.text) "f".toList "HEAD".toList 3
      = some ((4 : ℕ) : ℤ) := by
  have hscript : insertedLineDiff.script
      = (aboveSecond ++ [⟨.context, "b".toList, false⟩]) ++ ⟨.context, "c".toList, false⟩ :: [] :=
    rfl
  exact (TwoFileDiff.offset_correct_iff hscript (by decide) rfl).mpr (by decide)

/-- The second line is the third in the new file, but the insertion directly before it is not
counted. -/
theorem insertion_above_missed :
    insertedLineDiff.text
        = "diff --git a/f b/f\n--- a/f\n+++ b/f\n@@ -1,3 +1,4 @@\n a\n+x\n b\n c\n".toList
      ∧ insertedLineDiff.script = aboveSecond ++ ⟨.context, "b".toList, false⟩
        :: [⟨.context, "c".toList, false⟩]
      ∧ (oldSide aboveSecond).length + 1 = 2 ∧ (newSide aboveSecond).length + 1 = 3
      ∧ magitDiffVisitOffset (fun _ _ => insertedLineDiff.text) "f".toList "HEAD".toList 2
        = some 2 := by
  refine ⟨by decide +kernel, rfl, rfl, rfl, ?_⟩
  exact (insertedLineDiff.offset_eq rfl 2).trans rfl

end Magit.VisitOffset

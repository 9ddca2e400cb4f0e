import Magit.Diff.WashHunks

/-!
# Diff/HunkLine — the number of a line in its file

`magit-diff-hunk-line` counts the lines of a hunk above point, but for those that are not on the
side asked for.  Of an ordinary hunk it looks at the first column, and counts the markers that a
side ends without a newline.  Of a hunk with two parents it looks at no column, as the slot
`from-ranges` is never set, and counts every line.  The number is right exactly if no line above is
counted that is not on the side (`numbered_iff`).
-/

namespace Magit.HunkLine

open DiffWash Emacs UnifiedDiff

/-! ## `magit-diff-hunk-line` -/

/-- The slot `from-ranges`, which nothing sets. -/
def fromRanges (_ : HunkSection) : List (List ℕ) := []

/-- Where `(re-search-forward "^[-+]")` goes. -/
def searchChange (buf : Text) (p : ℕ) : Option ℕ :=
  ((List.range' p (buf.length + 1 - p)).find? fun q =>
    posBol buf q = q ∧ (charAfter buf q = some '-' ∨ charAfter buf q = some '+')).map (· + 1)

/-- `(car (if goto-from from-range to-range))`; nothing if it is not a number. -/
def startOf (s : HunkSection) (gotoFrom : Bool) : Option ℕ :=
  if gotoFrom then
    -- the first of two ranges is itself a list
    if s.combined then none else s.fromRange.head?.bind List.head?
  else s.toRange.bind List.head?

/-- The `while` loop, which each round takes behind a newline. -/
def offsetLoop (buf : Text) (skipped : Char) (columns target : ℕ) : ℕ → ℕ → ℕ → ℕ
  | 0, _, offset => offset
  | fuel + 1, p, offset =>
    if p < target then
      offsetLoop buf skipped columns target fuel (forwardLine buf p)
        (if ((textFrom buf p).take columns).contains skipped then offset else offset + 1)
    else offset

/-- `none` where an error is signaled.  The argument `jump` is the variable
`magit-diff-visit-jump-to-change`. -/
def magitDiffHunkLine (jump : Bool) (buf : Text) (point : ℕ) (s : HunkSection) (gotoFrom : Bool) :
    Option (Option ℕ) :=
  let point := posBol buf point
  if s.fromRange.isEmpty ∧ s.toRange.isNone then some none
  else
    match if jump ∧ point < s.content then searchChange buf s.content else some point with
    | none => none
    | some target =>
      let columns := if s.combined then (fromRanges s).length else 1
      let offset :=
        offsetLoop buf (if gotoFrom then '+' else '-') columns target target s.content 0
      (startOf s gotoFrom).map fun start => some (start + offset)

/-! ## The lines of a file in a hunk -/

/-- `\ No newline at end of file` -/
def isMarker (line : Text) : Bool := line.head? == some '\\'

/-- A line of the result of a hunk: it is removed from no parent. -/
def onNew (parents : ℕ) (line : Text) : Bool :=
  !isMarker line && !(line.take parents).contains '-'

/-- A line of the first parent: it is removed from that, or from none and not added to that. -/
def onOld (parents : ℕ) (line : Text) : Bool :=
  !isMarker line && line.head? != some '+'
    && (line.head? == some '-' || !(line.take parents).contains '-')

section

variable (h : Hunk)

/-- How many columns there are. -/
def parents : ℕ := h.ranges.length - 1

/-- Where the first side begins. -/
def fromStart : Option ℕ := h.ranges.head?.map Range.beginning

/-- Where the last side begins. -/
def toStart : Option ℕ := h.ranges.getLast?.map Range.beginning

/-- The lines are numbered as they stand in the new file and, on the old side, in the first
parent: from the side's start in the header on.  Point is anywhere on the line. -/
def Numbered : Prop :=
  ∀ (jump : Bool) (pre post : Text) (before : List Text) (line : Text) (after : List Text)
    (column : ℕ), h.body = before ++ line :: after → column ≤ line.length →
    let buf := pre ++ h.part.text ++ post
    let s := h.part.place (pre.length + 1)
    let point := s.content + (unlines before).length + column
    (onNew (parents h) line →
      magitDiffHunkLine jump buf point s false
        = some ((toStart h).map (· + before.countP (onNew (parents h)))))
    ∧ (onOld (parents h) line →
      magitDiffHunkLine jump buf point s true
        = some ((fromStart h).map (· + before.countP (onOld (parents h)))))

/-- No line above one of the new file is a marker, or removed from another parent than the first,
or removed at all if there are two; with two parents there is no line of the first, and else none
above such a line is a marker, or unchanged there and removed from another parent. -/
structure CountsRight : Prop where
  new : ∀ before line after, h.body = before ++ line :: after → onNew (parents h) line →
    ∀ above ∈ before, isMarker above = false
      ∧ ('-' ∈ above.take (parents h) → parents h ≠ 2 ∧ above.head? = some '-')
  old : ∀ before line after, h.body = before ++ line :: after → onOld (parents h) line →
    parents h ≠ 2 ∧ ∀ above ∈ before, isMarker above = false
      ∧ ('-' ∈ above.take (parents h) → above.head? ≠ some ' ')

end

/-! ## What the loop counts -/

/-- **The loop counts the lines without the character in their first columns.** -/
theorem offsetLoop_unlines {buf : Text} {skipped : Char} {columns : ℕ} {lines : List Text}
    {rest : Text} (hlines : ∀ line ∈ lines, '\n' ∉ line ∧ columns ≤ line.length) {p : ℕ}
    (hp : 1 ≤ p) (hbuf : textFrom buf p = unlines lines ++ rest) {fuel : ℕ}
    (hfuel : lines.length < fuel) (offset : ℕ) :
    offsetLoop buf skipped columns (p + (unlines lines).length) fuel p offset
      = offset + lines.countP fun line => !(line.take columns).contains skipped := by
  induction lines generalizing p fuel offset with
  | nil =>
    obtain ⟨fuel, rfl⟩ := Nat.exists_eq_add_of_le' (Nat.one_le_of_lt hfuel)
    exact if_neg (Nat.lt_irrefl p)
  | cons line lines ih =>
    obtain ⟨⟨hline, hcolumns⟩, hrest⟩ := List.forall_mem_cons.mp hlines
    obtain ⟨fuel, rfl⟩ := Nat.exists_eq_add_of_le' (Nat.one_le_of_lt hfuel)
    have hbuf' : textFrom buf p = line ++ '\n' :: (unlines lines ++ rest) := by
      rw [hbuf, unlines_cons, List.append_assoc, List.cons_append]
    have htarget : p + (unlines (line :: lines)).length
        = p + line.length + 1 + (unlines lines).length := by
      rw [length_unlines_cons]
      omega
    have htake : (textFrom buf p).take columns = line.take columns := by
      rw [hbuf', List.take_append_of_le_length hcolumns]
    rw [offsetLoop, if_pos (by omega), forwardLine_line hp hline hbuf', htake, htarget,
      ih hrest (by omega) (textFrom_line hp hbuf') (Nat.lt_of_succ_lt_succ hfuel),
      List.countP_cons]
    cases (line.take columns).contains skipped
    · exact Nat.add_right_comm _ _ _
    · rfl

/-- A position on a line is brought to its beginning. -/
theorem posBol_add {buf line rest : Text} {p : ℕ} (hp : p = 0 ∨ charAfter buf p = some '\n')
    (hline : '\n' ∉ line) (h : textFrom buf (p + 1) = line ++ '\n' :: rest) {k : ℕ}
    (hk : k ≤ line.length) : posBol buf (p + 1 + k) = p + 1 := by
  induction k with
  | zero => exact if_pos hp
  | succ k ih =>
    have hchar : charAfter buf (p + 1 + k) = some (line.get ⟨k, hk⟩) := by
      rw [charAfter_add (Nat.le_add_left 1 p), h, List.getElem?_append_left hk,
        List.getElem?_eq_getElem hk]
      rfl
    have hne : ¬(p + 1 + k = 0 ∨ charAfter buf (p + 1 + k) = some '\n') := by
      rw [hchar, not_or, Option.some.injEq]
      exact ⟨by omega, fun heq => hline (heq ▸ List.get_mem line ⟨k, hk⟩)⟩
    rw [← Nat.add_assoc, posBol, if_neg hne, ih (Nat.le_of_succ_le hk)]

/-- …also behind further lines. -/
theorem posBol_unlines {buf line rest : Text} {lines : List Text} {p : ℕ}
    (hp : p = 0 ∨ charAfter buf p = some '\n') (hlines : ∀ l ∈ lines, '\n' ∉ l)
    (hline : '\n' ∉ line)
    (h : textFrom buf (p + 1) = unlines lines ++ (line ++ '\n' :: rest)) {k : ℕ}
    (hk : k ≤ line.length) :
    posBol buf (p + 1 + (unlines lines).length + k) = p + 1 + (unlines lines).length := by
  induction lines generalizing p with
  | nil => exact posBol_add hp hline h hk
  | cons l lines ih =>
    obtain ⟨hl, hlines⟩ := List.forall_mem_cons.mp hlines
    have hbuf : textFrom buf (p + 1)
        = l ++ '\n' :: (unlines lines ++ (line ++ '\n' :: rest)) := by
      rw [h, unlines_cons, List.append_assoc, List.cons_append]
    have hnewline : charAfter buf (p + 1 + l.length) = some '\n' := by
      rw [charAfter_add (Nat.le_add_left 1 p), hbuf, List.getElem?_append_right le_rfl,
        Nat.sub_self]
      rfl
    have hlength : p + 1 + (unlines (l :: lines)).length
        = p + 1 + l.length + 1 + (unlines lines).length := by
      rw [length_unlines_cons]
      omega
    rw [hlength]
    exact ih (.inr hnewline) hlines (textFrom_line (Nat.le_add_left 1 p) hbuf)

/-! ## A hunk in a buffer -/

section

variable {h : Hunk} (pre post : Text)

/-- The content of a placed hunk begins behind its heading. -/
theorem content_place :
    (h.part.place (pre.length + 1)).content = (pre ++ h.heading).length + 1 + 1 := by
  rw [Part.place, Hunk.part, List.length_append]
  dsimp only
  rw [List.length_append, List.length_singleton]
  omega

theorem text_place : pre ++ h.part.text ++ post
    = pre ++ h.heading ++ '\n' :: (unlines h.body ++ post) := by
  simp only [Part.text, Hunk.part, List.append_assoc, List.cons_append, List.nil_append]

/-- The heading ends where the content begins. -/
theorem charAfter_place :
    charAfter (pre ++ h.part.text ++ post) ((pre ++ h.heading).length + 1) = some '\n' := by
  rw [text_place, charAfter, textFrom, Nat.add_sub_cancel, List.drop_left]
  rfl

/-- From the content on there is the body. -/
theorem textFrom_content :
    textFrom (pre ++ h.part.text ++ post) (h.part.place (pre.length + 1)).content
      = unlines h.body ++ post := by
  rw [text_place, content_place, textFrom, Nat.add_sub_cancel, ← List.drop_drop, List.drop_left]
  rfl

end

section

variable {h : Hunk} {p : ℕ}

/-- What decides whether a line above is counted. -/
def counted (h : Hunk) (gotoFrom : Bool) (line : Text) : Bool :=
  !(line.take (if h.ranges.length = 3 then 0 else 1)).contains (if gotoFrom then '+' else '-')

/-- **The lines above that are counted**, whatever stands around the hunk. -/
theorem hunkLine_eq (hwf : h.WellFormed) (jump : Bool) (pre post : Text) {before : List Text}
    {line : Text} {after : List Text} (hbody : h.body = before ++ line :: after) {k : ℕ}
    (hk : k ≤ line.length) (gotoFrom : Bool) :
    magitDiffHunkLine jump (pre ++ h.part.text ++ post)
        ((h.part.place (pre.length + 1)).content + (unlines before).length + k)
        (h.part.place (pre.length + 1)) gotoFrom
      = (startOf (h.part.place (pre.length + 1)) gotoFrom).map fun start =>
          some (start + before.countP (counted h gotoFrom)) := by
  have hlines : ∀ l ∈ h.body, '\n' ∉ l ∧ 1 ≤ l.length := by
    intro l hl
    obtain ⟨hl, c, -, rest, rfl⟩ := hwf.body l hl
    exact ⟨hl, Nat.le_add_left 1 _⟩
  rw [hbody, List.forall_mem_append, List.forall_mem_cons] at hlines
  obtain ⟨hbefore, ⟨hline, -⟩, -⟩ := hlines
  have htext : textFrom (pre ++ h.part.text ++ post) (h.part.place (pre.length + 1)).content
      = unlines before ++ (line ++ '\n' :: (unlines after ++ post)) := by
    rw [textFrom_content, hbody, unlines_append, unlines_cons]
    simp only [List.append_assoc, List.cons_append]
  have hbol := posBol_unlines (.inr (charAfter_place pre post)) (fun l hl => (hbefore l hl).1)
    hline (content_place (h := h) pre ▸ htext) hk
  rw [← content_place] at hbol
  have hranges : ¬((h.part.place (pre.length + 1)).fromRange.isEmpty = true
      ∧ (h.part.place (pre.length + 1)).toRange.isNone = true) := by
    rintro ⟨-, hnil⟩
    exact hwf.ranges (List.map_eq_nil_iff.mp (List.getLast?_eq_none_iff.mp
      (Option.isNone_iff_eq_none.mp hnil)))
  have hfuel := length_le_length_unlines before
  have hcontent := content_place (h := h) pre
  set s := h.part.place (pre.length + 1) with hs
  have hjump : ¬(jump = true ∧ s.content + (unlines before).length < s.content) := by omega
  have hcolumns : (if s.combined then (fromRanges s).length else 1)
      = if h.ranges.length = 3 then 0 else 1 := by
    rw [hs, Part.place, Hunk.part]
    simp only [decide_eq_true_eq]
    rfl
  have hwide : ∀ l ∈ before, '\n' ∉ l ∧ (if h.ranges.length = 3 then 0 else 1) ≤ l.length := by
    refine fun l hl => ⟨(hbefore l hl).1, ?_⟩
    split_ifs
    · exact Nat.zero_le _
    · exact (hbefore l hl).2
  rw [magitDiffHunkLine]
  simp only [hbol, hranges, if_false, hjump, hcolumns]
  rw [offsetLoop_unlines hwide (by omega) htext (by omega), Nat.zero_add]
  rfl

/-- The start in the new file. -/
theorem startOf_new : startOf (h.part.place p) false = toStart h := by
  have hstart : startOf (h.part.place p) false
      = (h.ranges.map Range.numbers).getLast?.bind List.head? := rfl
  rw [hstart, List.getLast?_map, toStart]
  cases h.ranges.getLast? <;> rfl

/-- The start in the old file, which a diff of two parents has not. -/
theorem startOf_old : startOf (h.part.place p) true
    = if h.ranges.length = 3 then none else fromStart h := by
  rw [startOf, if_pos rfl, Part.place, Hunk.part, fromStart]
  simp only [decide_eq_true_eq]
  split_ifs
  · rfl
  · cases h.ranges <;> rfl

/-! ## When the lines counted are those of the file -/

/-- Two counts, one of which counts more, agree if they count the same. -/
theorem countP_eq_iff {p q : Text → Bool} {lines : List Text}
    (h : ∀ line ∈ lines, p line → q line) :
    lines.countP q = lines.countP p ↔ ∀ line ∈ lines, q line → p line := by
  induction lines with
  | nil => simp
  | cons line lines ih =>
    obtain ⟨hline, hlines⟩ := List.forall_mem_cons.mp h
    have hle := List.countP_mono_left hlines
    rw [List.countP_cons, List.countP_cons, List.forall_mem_cons, ← ih hlines]
    cases hp : p line
    · cases hq : q line
      · simp
      · simp only [if_true, Bool.false_eq_true, if_false, forall_const, false_and, iff_false]
        omega
    · simp [hline hp]

theorem parents_eq {n : ℕ} (h2 : h.ranges.length = 2 + n) : parents h = n + 1 := by
  rw [parents, h2]
  omega

theorem exists_kind {line : Text} (hline : IsBodyLine line) :
    ∃ c rest, line = c :: rest ∧ (c = ' ' ∨ c = '-' ∨ c = '+' ∨ c = '\\') := by
  obtain ⟨-, c, hc, rest, rfl⟩ := hline
  exact ⟨c, rest, rfl, by simpa using hc⟩

/-- The new side is counted; a line counted else is a marker, or removed in a column that is not
looked at. -/
theorem counted_new {line : Text} (hline : IsBodyLine line) (hparents : 2 ≤ h.ranges.length) :
    (onNew (parents h) line = true → counted h false line = true)
      ∧ ((counted h false line = true → onNew (parents h) line = true)
        ↔ isMarker line = false
          ∧ ('-' ∈ line.take (parents h) → parents h ≠ 2 ∧ line.head? = some '-')) := by
  obtain ⟨c, text, rfl, hc⟩ := exists_kind hline
  obtain ⟨n, hn⟩ := Nat.exists_eq_add_of_le hparents
  rw [onNew, counted, isMarker, parents_eq hn, hn]
  by_cases hcombined : 2 + n = 3
  · obtain rfl : n = 1 := by omega
    simp
  · have hordinary : n + 1 ≠ 2 := by omega
    rcases hc with rfl | rfl | rfl | rfl <;> simp [hcombined, hordinary]

/-- The same of the old side. -/
theorem counted_old {line : Text} (hline : IsBodyLine line) (hparents : 2 ≤ h.ranges.length)
    (hordinary : h.ranges.length ≠ 3) :
    (onOld (parents h) line = true → counted h true line = true)
      ∧ ((counted h true line = true → onOld (parents h) line = true)
        ↔ isMarker line = false ∧ ('-' ∈ line.take (parents h) → line.head? ≠ some ' ')) := by
  obtain ⟨c, text, rfl, hc⟩ := exists_kind hline
  obtain ⟨n, hn⟩ := Nat.exists_eq_add_of_le hparents
  rw [onOld, counted, isMarker, parents_eq hn, if_neg hordinary]
  rcases hc with rfl | rfl | rfl | rfl <;> simp

section

variable (hwf : h.WellFormed) (hparents : 2 ≤ h.ranges.length) (jump : Bool) (pre post : Text)
  {before : List Text} {line : Text} {after : List Text} (hbody : h.body = before ++ line :: after)
  {column : ℕ} (hcolumn : column ≤ line.length)

include hwf hparents hbody hcolumn

/-- **The number in the new file** is right exactly if no marker is above. -/
theorem newNumber_iff :
    magitDiffHunkLine jump (pre ++ h.part.text ++ post)
        ((h.part.place (pre.length + 1)).content + (unlines before).length + column)
        (h.part.place (pre.length + 1)) false
      = some ((toStart h).map (· + before.countP (onNew (parents h))))
    ↔ ∀ above ∈ before, isMarker above = false
        ∧ ('-' ∈ above.take (parents h) → parents h ≠ 2 ∧ above.head? = some '-') := by
  have hlines : ∀ above ∈ before, IsBodyLine above := fun above habove =>
    hwf.body above (hbody ▸ List.mem_append_left _ habove)
  obtain ⟨start, hstart⟩ : ∃ start, toStart h = some start := by
    rw [toStart, List.getLast?_eq_some_getLast hwf.ranges]
    exact ⟨_, rfl⟩
  rw [hunkLine_eq hwf jump pre post hbody hcolumn, startOf_new, hstart, Option.map_some,
    Option.map_some, Option.some.injEq, Option.some.injEq, Nat.add_left_cancel_iff,
    countP_eq_iff fun above habove => (counted_new (hlines above habove) hparents).1]
  exact forall₂_congr fun above habove => (counted_new (hlines above habove) hparents).2

/-- **The number in the old file** is right exactly if there are not two parents and no marker is
above. -/
theorem oldNumber_iff :
    magitDiffHunkLine jump (pre ++ h.part.text ++ post)
        ((h.part.place (pre.length + 1)).content + (unlines before).length + column)
        (h.part.place (pre.length + 1)) true
      = some ((fromStart h).map (· + before.countP (onOld (parents h))))
    ↔ parents h ≠ 2 ∧ ∀ above ∈ before, isMarker above = false
        ∧ ('-' ∈ above.take (parents h) → above.head? ≠ some ' ') := by
  have hlines : ∀ above ∈ before, IsBodyLine above := fun above habove =>
    hwf.body above (hbody ▸ List.mem_append_left _ habove)
  obtain ⟨start, hstart⟩ : ∃ start, fromStart h = some start := by
    rw [fromStart, List.head?_eq_some_head hwf.ranges]
    exact ⟨_, rfl⟩
  rw [hunkLine_eq hwf jump pre post hbody hcolumn, startOf_old]
  by_cases hcombined : h.ranges.length = 3
  · have htwo : parents h = 2 := parents_eq hcombined
    simp [hcombined, htwo]
  · have hordinary : parents h ≠ 2 := by
      rw [parents]
      omega
    rw [if_neg hcombined, hstart, Option.map_some, Option.map_some, Option.some.injEq,
      Option.some.injEq, Nat.add_left_cancel_iff,
      countP_eq_iff fun above habove => (counted_old (hlines above habove) hparents hcombined).1,
      and_iff_right hordinary]
    exact forall₂_congr fun above habove =>
      (counted_old (hlines above habove) hparents hcombined).2

end

/-- **The lines are numbered right exactly if none above is counted that is not on the side.** -/
theorem numbered_iff (hwf : h.WellFormed) (hparents : 2 ≤ h.ranges.length) :
    Numbered h ↔ CountsRight h := by
  constructor
  · intro hnumbered
    refine ⟨fun before line after hbody hnew => ?_, fun before line after hbody hold => ?_⟩
    · exact (newNumber_iff hwf hparents true [] [] hbody (Nat.zero_le _)).mp
        ((hnumbered true [] [] before line after 0 hbody (Nat.zero_le _)).1 hnew)
    · exact (oldNumber_iff hwf hparents true [] [] hbody (Nat.zero_le _)).mp
        ((hnumbered true [] [] before line after 0 hbody (Nat.zero_le _)).2 hold)
  · intro hcounts jump pre post before line after column hbody hcolumn
    refine ⟨fun hnew => ?_, fun hold => ?_⟩
    · exact (newNumber_iff hwf hparents jump pre post hbody hcolumn).mpr
        (hcounts.new before line after hbody hnew)
    · exact (oldNumber_iff hwf hparents jump pre post hbody hcolumn).mpr
        (hcounts.old before line after hbody hold)

/-- A file that did not end with a newline gets another line. -/
def twoLines : Hunk where
  ats := 2
  ranges := [⟨'-', 1, none⟩, ⟨'+', 1, some 2⟩]
  about := none
  body := bodyLines
    [⟨.removed, "a".toList, true⟩, ⟨.added, "a".toList, false⟩, ⟨.added, "b".toList, false⟩]

theorem wellFormed_twoLines : twoLines.WellFormed where
  ats := le_refl 2
  ranges := List.cons_ne_nil _ _
  sign := by decide
  about := by simp [twoLines]
  body _ := isBodyLine_of_mem_bodyLines (by decide)

theorem numbered_iff_twoLines : Numbered twoLines ↔ CountsRight twoLines :=
  numbered_iff wellFormed_twoLines (le_refl 2)

/-- The first line of the new file is taken for its second. -/
theorem not_numbered_twoLines : ¬ Numbered twoLines := by
  intro h
  have hfirst := (h true [] [] ["-a".toList, noEolMarker] "+a".toList ["+b".toList] 0 rfl
    (Nat.zero_le _)).1 (by decide)
  have hreturned : magitDiffHunkLine true ([] ++ twoLines.part.text ++ [])
      ((twoLines.part.place 1).content + (unlines ["-a".toList, noEolMarker]).length + 0)
      (twoLines.part.place 1) false = some (some 2) := by decide +kernel
  exact absurd (hreturned.symm.trans hfirst) (by decide)

end

end Magit.HunkLine

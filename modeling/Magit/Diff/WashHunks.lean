import Magit.Diff.Unified
import Magit.Diff.Wash

/-!
# Diff/WashHunks — the hunks of a diff and their sections

Each hunk of a file becomes a section where it stood: the sections follow one another, and the text
of each is the hunk's lines (`washHunks_eq`).  Its ranges are read from its first line
(`hunkMatch_heading`, `readRange_text`).
-/

namespace Magit.DiffWash

open Emacs UnifiedDiff

/-! ## The hunks of a diff -/

/-- A range in the first line of a hunk; a count of 1 may be left out. -/
structure Range where
  sign : Char
  beginning : ℕ
  count : Option ℕ

namespace Range

variable (r : Range)

/-- The count in a range, which may be left out. -/
def countText : Text := (r.count.map fun n => ',' :: Nat.toDigits 10 n).getD []

/-- A range as it is written. -/
def text : Text := r.sign :: (Nat.toDigits 10 r.beginning ++ r.countText)

/-- A range as the section has it. -/
def numbers : List ℕ := [r.beginning, r.count.getD 1]

end Range

/-- A hunk: how many `@` are at either side, the ranges of the parents and of the result, what
stands behind them, and the lines. -/
structure Hunk where
  ats : ℕ
  ranges : List Range
  about : Option Text
  body : List Text

namespace Hunk

variable (h : Hunk)

/-- The ranges of a hunk. -/
def rangesText : Text := [' '].intercalate (h.ranges.map Range.text)

/-- The first line of a hunk. -/
def heading : Text :=
  List.replicate h.ats '@' ++ ' ' :: h.rangesText ++ ' ' :: List.replicate h.ats '@'
    ++ aboutText h.about

/-- All lines of a hunk. -/
def lines : List Text := h.heading :: h.body

/-- A hunk as git prints it. -/
structure WellFormed : Prop where
  ats : 2 ≤ h.ats
  ranges : h.ranges ≠ []
  sign : ∀ r ∈ h.ranges, r.sign ∈ ['-', '+']
  about : ∀ about ∈ h.about, '\n' ∉ about
  body : ∀ line ∈ h.body, IsBodyLine line

end Hunk

/-! ## Reading the ranges -/

/-- `string-to-number` reads the digits of a number back. -/
theorem stringToNumber_toDigits (n : ℕ) : stringToNumber (Nat.toDigits 10 n) = n := by
  have hdigits : (Nat.toDigits 10 n).takeWhile Char.isDigit = Nat.toDigits 10 n :=
    List.takeWhile_eq_self_iff.mpr fun c hc =>
      Nat.isDigit_of_mem_toDigits (by decide) (by decide) hc
  rw [stringToNumber, hdigits, Nat.ofDigitChars_ten_toDigits]

/-- A digit is not one of the other characters of a range, and no space. -/
theorem notMem_toDigits {c : Char} (h : c.isDigit = false) (n : ℕ) : c ∉ Nat.toDigits 10 n :=
  fun hc => Bool.false_ne_true
    (h.symm.trans (Nat.isDigit_of_mem_toDigits (by decide) (by decide) hc))

/-- A range is read back. -/
theorem readRange_text (r : Range) : readRange r.text = r.numbers := by
  obtain ⟨sign, beginning, count⟩ := r
  have hcomma : ',' ∉ Nat.toDigits 10 beginning := notMem_toDigits rfl beginning
  rcases count with _ | n
  · have hsplit : (Nat.toDigits 10 beginning ++ []).splitOn ',' = [Nat.toDigits 10 beginning] := by
      rw [List.append_nil, List.splitOn_eq_singleton hcomma]
    simp only [readRange, Range.text, Range.countText, Option.map_none, Option.getD_none,
      List.drop_one, List.tail_cons, hsplit, List.map_singleton, stringToNumber_toDigits]
    rfl
  · have hcount : (Nat.toDigits 10 n).splitOn ',' = [Nat.toDigits 10 n] :=
      List.splitOn_eq_singleton (notMem_toDigits rfl n)
    simp only [readRange, Range.text, Range.countText, Option.map_some, Option.getD_some,
      List.drop_one, List.tail_cons, List.splitOn_append_cons_self_of_not_mem hcomma, hcount,
      List.map_cons, List.map_nil, stringToNumber_toDigits]
    rfl

/-- The characters of ranges. -/
def IsRangeChar (c : Char) : Prop := c.isDigit = true ∨ c ∈ ['-', '+', ',']

/-- A range is written with its own characters. -/
theorem isRangeChar_text {r : Range} (h : r.sign ∈ ['-', '+']) : ∀ c ∈ r.text, IsRangeChar c := by
  have hdigits : ∀ n : ℕ, ∀ c ∈ Nat.toDigits 10 n, IsRangeChar c := fun n c hc =>
    .inl (Nat.isDigit_of_mem_toDigits (by decide) (by decide) hc)
  obtain ⟨sign, beginning, count⟩ := r
  intro c hc
  rcases List.mem_cons.mp hc with rfl | hc
  · exact .inr (List.mem_append_left [','] h)
  rcases List.mem_append.mp hc with hc | hc
  · exact hdigits beginning c hc
  · rcases count with _ | n
    · exact absurd hc List.not_mem_nil
    · rcases List.mem_cons.mp hc with rfl | hc
      · exact .inr (by simp)
      · exact hdigits n c hc

theorem IsRangeChar.ne {c : Char} (h : IsRangeChar c) (c' : Char) (hdigit : c'.isDigit = false)
    (hc' : c' ∉ ['-', '+', ',']) : c ≠ c' := by
  rintro rfl
  rcases h with h | h
  · exact Bool.false_ne_true (hdigit.symm.trans h)
  · exact hc' h

/-- What stands between items that are joined with a character. -/
theorem mem_of_mem_intercalate {sep c : Char} {items : List Text}
    (h : c ∈ [sep].intercalate items) : c = sep ∨ ∃ item ∈ items, c ∈ item := by
  induction items with
  | nil => exact absurd h (by simp)
  | cons item items ih =>
    rcases items with _ | ⟨item', items⟩
    · exact .inr ⟨item, List.mem_cons_self, by simpa using h⟩
    · rw [List.intercalate_cons_cons, List.mem_append, List.mem_append, List.mem_singleton] at h
      rcases h with (h | h) | h
      · exact .inr ⟨item, List.mem_cons_self, h⟩
      · exact .inl h
      · exact (ih h).imp_right fun ⟨i, hi, hc⟩ => ⟨i, List.mem_cons_of_mem _ hi, hc⟩

/-- What separates words is not in a range. -/
theorem separators {c : Char} (h : c ∈ wordSeparators) :
    c.isDigit = false ∧ c ∉ ['-', '+', ','] := by
  simp only [wordSeparators, List.mem_cons, List.not_mem_nil, or_false] at h
  rcases h with rfl | rfl | rfl | rfl | rfl | rfl <;> exact ⟨rfl, by simp⟩

namespace Hunk.WellFormed

variable {h : Hunk}

theorem isRangeChar (hwf : h.WellFormed) {text : Text} (htext : text ∈ h.ranges.map Range.text) :
    text ≠ [] ∧ ∀ c ∈ text, IsRangeChar c := by
  obtain ⟨r, hr, rfl⟩ := List.mem_map.mp htext
  exact ⟨List.cons_ne_nil _ _, isRangeChar_text (hwf.sign r hr)⟩

theorem mem_rangesText (hwf : h.WellFormed) {c : Char} (hc : c ∈ h.rangesText) :
    c = ' ' ∨ IsRangeChar c := by
  rcases mem_of_mem_intercalate hc with rfl | ⟨text, htext, hc⟩
  · exact .inl rfl
  · exact .inr ((hwf.isRangeChar htext).2 c hc)

/-- **The ranges are read as they are printed.** -/
theorem readRanges (hwf : h.WellFormed) :
    (words h.rangesText).map readRange = h.ranges.map Range.numbers := by
  have hsplit : h.rangesText.splitOn ' ' = h.ranges.map Range.text :=
    List.splitOn_intercalate ' '
      (fun text htext hc => ((hwf.isRangeChar htext).2 _ hc).ne ' ' rfl (by simp) rfl)
      (by simpa using hwf.ranges)
  have hblank : h.rangesText.map (fun c => if wordSeparators.contains c then ' ' else c)
      = h.rangesText := by
    refine (List.map_congr_left fun c hc => ?_).trans h.rangesText.map_id
    rcases hwf.mem_rangesText hc with rfl | hrange
    · rfl
    · refine if_neg fun hmem => ?_
      obtain ⟨hdigit, hother⟩ := separators (List.contains_iff_mem.mp hmem)
      exact hrange.ne c hdigit hother rfl
  have hfilter : (h.ranges.map Range.text).filter (· ≠ []) = h.ranges.map Range.text :=
    List.filter_eq_self.mpr fun text htext => decide_eq_true (hwf.isRangeChar htext).1
  rw [words, hblank, splitString, hsplit, hfilter, List.map_map]
  exact List.map_congr_left fun r _ => readRange_text r

end Hunk.WellFormed

/-! ## The first line of a hunk -/

/-- The shortest group ends at the first `@`, if that is where the space and the `@@` are. -/
theorem rangesMatch_append {text : Text} (h : '@' ∉ text) {group : Text}
    (hgroup : group ++ text ≠ []) (more : Text) :
    rangesMatch group (text ++ ' ' :: '@' :: '@' :: more)
      = some (group ++ text, '@' :: '@' :: more) := by
  induction text generalizing group with
  | nil =>
    rw [List.append_nil] at hgroup
    rw [List.nil_append, rangesMatch, if_pos ⟨hgroup, rfl⟩, List.append_nil]
  | cons c text ih =>
    obtain ⟨hc, htext⟩ := not_or.mp (mt List.mem_cons.mpr h)
    have hshort : ¬(group ≠ []
        ∧ " @@".toList.isPrefixOf (c :: (text ++ ' ' :: '@' :: '@' :: more)) = true) := by
      rintro ⟨-, hpre⟩
      rcases text with _ | ⟨c', text⟩
      · simp at hpre
      · simp at hpre
        simp [← hpre.2.1] at htext
    rw [List.cons_append, rangesMatch, if_neg hshort, ih htext (by simp), List.append_assoc]
    rfl

/-- The number of the `@` in front. -/
theorem takeWhile_ats (n : ℕ) {text : Text} (h : text.head? ≠ some '@') :
    (List.replicate n '@' ++ text).takeWhile (· == '@') = List.replicate n '@' := by
  rw [List.takeWhile_append_of_pos fun c hc => by rw [List.eq_of_mem_replicate hc]; rfl]
  rcases text with _ | ⟨c, text⟩
  · exact List.append_nil _
  · rw [List.takeWhile_cons_of_neg (by simpa using h), List.append_nil]

namespace Hunk.WellFormed

variable {h : Hunk}

theorem rangesText_ne_nil (hwf : h.WellFormed) : h.rangesText ≠ [] := by
  obtain ⟨ats, ranges, about, body⟩ := h
  rcases ranges with _ | ⟨r, _ | ⟨r', ranges⟩⟩
  · exact absurd rfl hwf.ranges
  · rw [Hunk.rangesText, List.map_singleton, List.intercalate_singleton]
    exact List.cons_ne_nil _ _
  · rw [Hunk.rangesText, List.map_cons, List.map_cons, List.intercalate_cons_cons]
    exact List.append_ne_nil_of_left_ne_nil (List.append_ne_nil_of_left_ne_nil
      (List.cons_ne_nil _ _) _) _

theorem notMem_rangesText (hwf : h.WellFormed) : '@' ∉ h.rangesText := by
  intro hmem
  rcases hwf.mem_rangesText hmem with hblank | hrange
  · simp at hblank
  · exact hrange.ne '@' rfl (by simp) rfl

/-- **The first line of a hunk is recognised as a whole.** -/
theorem hunkMatch_heading (hwf : h.WellFormed) :
    hunkMatch h.heading = some ⟨h.heading, h.rangesText, h.about⟩ := by
  have htail : (aboutText h.about).head? ≠ some '@' ∧ aboutMatch (aboutText h.about) = h.about := by
    rcases h.about with _ | about
    · exact ⟨by simp [aboutText], rfl⟩
    · exact ⟨by simp [aboutText], rfl⟩
  have hranges : rangesMatch [] (h.rangesText ++ ' ' :: (List.replicate h.ats '@'
      ++ aboutText h.about))
      = some (h.rangesText, List.replicate h.ats '@' ++ aboutText h.about) := by
    obtain ⟨n, hats⟩ := Nat.exists_eq_add_of_le' hwf.ats
    rw [hats]
    exact rangesMatch_append hwf.notMem_rangesText hwf.rangesText_ne_nil
      (List.replicate n '@' ++ aboutText h.about)
  have hheading : h.heading = List.replicate h.ats '@' ++ (' ' :: (h.rangesText
      ++ ' ' :: (List.replicate h.ats '@' ++ aboutText h.about))) := by
    simp [Hunk.heading]
  have hats : h.heading.takeWhile (· == '@') = List.replicate h.ats '@' := by
    rw [hheading]
    exact takeWhile_ats h.ats (by simp)
  have hdrop : h.heading.drop (List.replicate h.ats '@').length = ' ' :: (h.rangesText
      ++ ' ' :: (List.replicate h.ats '@' ++ aboutText h.about)) := by
    rw [hheading, List.drop_left]
  have hlong : ¬(List.replicate h.ats '@').length < 2 := by
    rw [List.length_replicate]
    exact Nat.not_lt.mpr hwf.ats
  rw [hunkMatch]
  simp only [hats, hdrop, hlong, if_false, hranges, Option.map_some, takeWhile_ats _ htail.1,
    List.drop_left, htail.2]
  rfl

end Hunk.WellFormed

/-! ## The sections of the hunks -/

/-- The text of a section of a hunk, and its slots apart from the positions. -/
structure Part where
  heading : Text
  body : Text
  value : HunkValue
  combined : Bool
  fromRange : List (List ℕ)
  toRange : Option (List ℕ)
  about : Option Text

namespace Part

/-- What the part takes of the buffer. -/
def text (p : Part) : Text := p.heading ++ p.body

/-- The section at a position. -/
def place (pos : ℕ) (p : Part) : HunkSection where
  start := pos
  content := pos + p.heading.length
  fin := pos + p.text.length
  value := p.value
  combined := p.combined
  fromRange := p.fromRange
  toRange := p.toRange
  about := p.about

/-- Sections one after the other. -/
def placeAll : ℕ → List Part → List HunkSection
  | _, [] => []
  | pos, p :: parts => p.place pos :: placeAll (pos + p.text.length) parts

end Part

/-- What the section of a hunk is to hold. -/
def Hunk.part (h : Hunk) : Part where
  heading := h.heading ++ ['\n']
  body := unlines h.body
  value := .ranges h.about (h.ranges.map Range.numbers)
  combined := h.ranges.length = 3
  fromRange :=
    if h.ranges.length = 3 then (h.ranges.map Range.numbers).dropLast
    else (h.ranges.map Range.numbers).take 1
  toRange := (h.ranges.map Range.numbers).getLast?
  about := h.about

/-- Where a hunk ends, and no other begins. -/
def EndsHunks (rest : List Text) : Prop :=
  ∀ line, rest.head? = some line → endsHunk line = true ∧ hunkMatch line = none

/-- No line of a body ends a hunk. -/
theorem endsHunk_of_isBodyLine {line : Text} (h : IsBodyLine line) : endsHunk line = false := by
  obtain ⟨-, c, hc, rest, rfl⟩ := h
  have hkind : c ∈ ['-', '+', ' ', '\\'] := by
    simp only [List.mem_cons, List.not_mem_nil] at hc ⊢
    tauto
  rw [endsHunk, List.contains_iff_mem.mpr hkind, Bool.not_true]

theorem endsHunk_heading {h : Hunk} (hwf : h.WellFormed) : endsHunk h.heading = true := by
  obtain ⟨n, hats⟩ := Nat.exists_eq_add_of_le' hwf.ats
  rw [Hunk.heading, hats, List.replicate_succ]
  rfl

theorem insertHeading_newline (before text : Text) (after : List Text) :
    insertHeading ⟨before ++ (text ++ ['\n']), after⟩ = ⟨before ++ (text ++ ['\n']), after⟩ := by
  have hbolp : LineBuffer.bolp ⟨before ++ (text ++ ['\n']), after⟩ = true := by
    rw [LineBuffer.bolp, ← List.append_assoc, List.getLast?_concat]
    rfl
  rw [insertHeading, hbolp, if_pos rfl]

/-- **A hunk becomes a section where it stood.** -/
theorem washHunk_lines {h : Hunk} (hwf : h.WellFormed) (before : Text) {rest : List Text}
    (hrest : ∀ line, rest.head? = some line → endsHunk line = true) :
    washHunk ⟨before, h.lines ++ rest⟩
      = some (h.part.place (before.length + 1), ⟨before ++ h.part.text, rest⟩) := by
  have hbody : LineBuffer.passUntil endsHunk (before ++ (h.heading ++ ['\n'])) (h.body ++ rest)
      = ⟨before ++ h.part.text, rest⟩ := by
    rw [LineBuffer.passUntil_append fun line hline => endsHunk_of_isBodyLine (hwf.body line hline),
      LineBuffer.passUntil_of_stop hrest, List.append_assoc]
    rfl
  have hplace : h.part.place (before.length + 1)
      = { start := before.length + 1
          content := (before ++ (h.heading ++ ['\n'])).length + 1
          fin := (before ++ h.part.text).length + 1
          value := .ranges h.about (h.ranges.map Range.numbers)
          combined := h.ranges.length = 3
          fromRange := h.part.fromRange
          toRange := (h.ranges.map Range.numbers).getLast?
          about := h.about } := by
    rw [LineBuffer.length_append_succ, LineBuffer.length_append_succ]
    rfl
  have hlength : (words h.rangesText).length = h.ranges.length := by
    simpa only [List.length_map] using congrArg List.length hwf.readRanges
  rw [washHunk]
  simp only [Hunk.lines, List.cons_append, hwf.hunkMatch_heading, Option.map_some,
    LineBuffer.insert, insertHeading_newline, hwf.readRanges, hbody, LineBuffer.point,
    List.length_map, hlength]
  rw [hplace]
  simp only [Hunk.part]

/-- Behind a body there is another heading, or what ends the hunks. -/
theorem EndsHunks.lines {hunks : List Hunk} (hwf : ∀ h ∈ hunks, h.WellFormed) {rest : List Text}
    (hrest : EndsHunks rest) {line : Text}
    (hline : (hunks.flatMap Hunk.lines ++ rest).head? = some line) : endsHunk line = true := by
  rcases hunks with _ | ⟨h, hunks⟩
  · exact (hrest line hline).1
  · rw [← Option.some.inj hline]
    exact endsHunk_heading (hwf h List.mem_cons_self)

/-- What is no hunk is left alone. -/
theorem washHunks_of_endsHunks (fuel : ℕ) (before : Text) {rest : List Text}
    (hrest : EndsHunks rest) : washHunks fuel ⟨before, rest⟩ = ([], ⟨before, rest⟩) := by
  rcases fuel with _ | fuel
  · rfl
  · rcases rest with _ | ⟨line, rest⟩
    · rfl
    · simp only [washHunks, washHunk, (hrest line rfl).2, Option.map_none]

/-- **The hunks of a file become sections one after the other.** -/
theorem washHunks_eq {hunks : List Hunk} (hwf : ∀ h ∈ hunks, h.WellFormed) {fuel : ℕ}
    (hfuel : hunks.length ≤ fuel) (before : Text) {rest : List Text} (hrest : EndsHunks rest) :
    washHunks fuel ⟨before, hunks.flatMap Hunk.lines ++ rest⟩
      = (Part.placeAll (before.length + 1) (hunks.map Hunk.part),
          ⟨before ++ (hunks.map Hunk.part).flatMap Part.text, rest⟩) := by
  induction hunks generalizing fuel before with
  | nil =>
    rw [List.flatMap_nil, List.nil_append, washHunks_of_endsHunks fuel before hrest, List.map_nil,
      List.flatMap_nil, List.append_nil]
    rfl
  | cons h hunks ih =>
    obtain ⟨hh, hhunks⟩ := List.forall_mem_cons.mp hwf
    obtain ⟨fuel, rfl⟩ := Nat.exists_eq_add_of_le' (Nat.one_le_of_lt hfuel)
    have hone : washHunk ⟨before, h.lines ++ (hunks.flatMap Hunk.lines ++ rest)⟩
        = some (h.part.place (before.length + 1),
            ⟨before ++ h.part.text, hunks.flatMap Hunk.lines ++ rest⟩) :=
      washHunk_lines hh before fun line hline => hrest.lines hhunks hline
    rw [List.flatMap_cons, List.append_assoc, washHunks, hone]
    simp only [ih hhunks (Nat.le_of_succ_le_succ hfuel) (before ++ h.part.text),
      LineBuffer.length_append_succ, List.map_cons, List.flatMap_cons, List.append_assoc, Part.placeAll]

end Magit.DiffWash

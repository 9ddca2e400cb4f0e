import Magit.Diff.HunkLine
import Magit.Diff.WashFiles

/-!
# Diff/GotoPosition — from a line of a file to that line in its diff

`magit-diff--locate-hunk` looks for the hunk whose new side has a line, and takes the line behind a
hunk for one of its own (`locateHunks_iff`).  `magit-diff--goto-position` then passes over the
hunk's lines that do not begin with a minus sign, as `magit-diff-hunk-line` counts them: the two are
inverse to each other, but for markers, and for the second column of a combined diff
(`jumpsRight_iff`).
-/

namespace Magit.GotoPosition

open DiffWash Emacs HunkLine UnifiedDiff

/-! ## `magit-diff--locate-hunk` and `magit-diff--goto-position` -/

/-- The section that is found, and whether it contains the line. -/
inductive Located
  | file (s : FileSection)
  | hunk (s : HunkSection) (exact : Bool)

/-- The slot `to-range` of the section of a hunk; a mode change or a rename has none. -/
def toRange (s : HunkSection) : Option (ℕ × ℕ) :=
  match s.toRange with
  | some (beg :: len :: _) => some (beg, len)
  | _ => none

/-- The `while` loop. -/
def locateHunks (diff : FileSection) (line : ℕ) : List HunkSection → Option Located
  | [] => none
  | hunk :: hunks =>
    match toRange hunk with
    | none => locateHunks diff line hunks
    | some (beg, len) =>
      if line < beg then some (.file diff)
      else if line ≤ beg + len then some (.hunk hunk true)
      else if hunks.isEmpty then some (.hunk hunk false)
      else locateHunks diff line hunks

/-- The children of `parent` are those that are sections of files. -/
def magitDiffLocateHunk (children : List FileSection) (file : Text) (line : ℕ) : Option Located :=
  match children.find? (·.value == file) with
  | none => none
  | some diff => locateHunks diff line diff.children

/-- The `while` loop inside of a hunk; `none` where there is no character to look at. -/
def gotoLoop (buf : Text) (line : ℕ) : ℕ → ℕ → ℕ → Option ℕ
  | 0, _, _ => none
  | fuel + 1, p, pos =>
    match charAfter buf p with
    | none => none
    | some c =>
      if pos < line ∨ c = '-' then
        gotoLoop buf line fuel (forwardLine buf p) (if c = '-' then pos else pos + 1)
      else some p

/-- `(forward-char n)`; `none` where it signals. -/
def forwardChar (buf : Text) (p n : ℕ) : Option ℕ :=
  if p + n ≤ buf.length + 1 then some (p + n) else none

/-- Where point is put, if anything is found; `none` where an error is signaled. -/
def magitDiffGotoPosition (buf : Text) (children : List FileSection) (file : Text)
    (line column : ℕ) : Option (Option ℕ) :=
  match magitDiffLocateHunk children file line with
  | none => some none
  | some (.file s) => some (some s.start)
  | some (.hunk s false) => some (some s.start)
  | some (.hunk s true) =>
    match toRange s with
    | none => none
    | some (beg, _) =>
      ((gotoLoop buf line (buf.length + 1) s.content beg).bind
        (forwardChar buf · (1 + column))).map some

/-! ## Where a line is to be found -/

/-- The new side of a hunk has a line. -/
def hasLine (line : ℕ) (s : HunkSection) : Bool :=
  (toRange s).any fun range => range.1 ≤ line ∧ line < range.1 + range.2

/-- The hunk begins behind a line of the file. -/
def beginsBehind (line : ℕ) (s : HunkSection) : Bool := (toRange s).any fun range => line < range.1

/-- The hunk that has the line; else the file, if hunks are left behind the line, or the last
hunk. -/
def locateSpec (diff : FileSection) (line : ℕ) (hunks : List HunkSection) : Option Located :=
  match hunks.find? (hasLine line) with
  | some hunk => some (.hunk hunk true)
  | none =>
    if hunks.any (beginsBehind line) then some (.file diff)
    else (hunks.filter fun hunk => (toRange hunk).isSome).getLast?.map (.hunk · false)

/-- The new sides follow one another. -/
def Ordered (hunks : List HunkSection) : Prop :=
  (hunks.filterMap toRange).Pairwise fun range range' => range.1 + range.2 ≤ range'.1

section

variable {diff : FileSection} {line : ℕ} {special hunks : List HunkSection}

/-- Sections without a range are passed over. -/
theorem locateHunks_special (h : ∀ s ∈ special, toRange s = none) :
    locateHunks diff line (special ++ hunks) = locateHunks diff line hunks := by
  induction special with
  | nil => rfl
  | cons s special ih =>
    obtain ⟨hs, hspecial⟩ := List.forall_mem_cons.mp h
    rw [List.cons_append, locateHunks, hs]
    exact ih hspecial

/-- Sections without a range are passed over by the specification. -/
theorem locateSpec_special (h : ∀ s ∈ special, toRange s = none) :
    locateSpec diff line (special ++ hunks) = locateSpec diff line hunks := by
  induction special with
  | nil => rfl
  | cons s special ih =>
    obtain ⟨hs, hspecial⟩ := List.forall_mem_cons.mp h
    rw [← ih hspecial, List.cons_append, locateSpec, locateSpec, List.find?_cons, List.any_cons,
      List.filter_cons, hasLine, beginsBehind, hs]
    rfl

/-- Behind a hunk the others decide. -/
theorem locateSpec_cons {s : HunkSection} (hline : hasLine line s = false)
    (hbehind : beginsBehind line s = false) (hranges : ∀ s ∈ hunks, (toRange s).isSome)
    (hne : hunks ≠ []) : locateSpec diff line (s :: hunks) = locateSpec diff line hunks := by
  have hfilter : hunks.filter (fun hunk => (toRange hunk).isSome) = hunks :=
    List.filter_eq_self.mpr hranges
  rw [locateSpec, locateSpec, List.find?_cons, hline, List.any_cons, hbehind, Bool.false_or,
    List.filter_cons, hfilter]
  obtain ⟨s', hunks, rfl⟩ := List.exists_cons_of_ne_nil hne
  split_ifs
  · rfl
  · rw [List.getLast?_cons_cons]
  · rfl

/-- **A hunk is located right exactly if the line is not the one behind a hunk.** -/
theorem locateHunks_iff (hranges : ∀ s ∈ hunks, (toRange s).isSome) (hordered : Ordered hunks) :
    locateHunks diff line hunks = locateSpec diff line hunks
      ↔ ∀ range ∈ hunks.filterMap toRange, line ≠ range.1 + range.2 := by
  induction hunks with
  | nil => simp [locateHunks, locateSpec]
  | cons s hunks ih =>
    obtain ⟨hs, hhunks⟩ := List.forall_mem_cons.mp hranges
    obtain ⟨⟨beg, len⟩, hrange⟩ := Option.isSome_iff_exists.mp hs
    rw [Ordered, List.filterMap_cons, hrange, List.pairwise_cons] at hordered
    obtain ⟨hfirst, hordered⟩ := hordered
    have hnone (h : line < beg + len) : hunks.find? (hasLine line) = none := by
      refine List.find?_eq_none.mpr fun s' hs' => ?_
      obtain ⟨range, hrange'⟩ := Option.isSome_iff_exists.mp (hhunks s' hs')
      have hle := hfirst range (List.mem_filterMap.mpr ⟨s', hs', hrange'⟩)
      simp [hasLine, hrange']
      omega
    have hothers (h : line < beg + len) :
        ∀ range ∈ (s :: hunks).filterMap toRange, line ≠ range.1 + range.2 := by
      rw [List.filterMap_cons, hrange]
      refine List.forall_mem_cons.mpr ⟨h.ne, fun range hmem => ?_⟩
      have hle := hfirst range hmem
      omega
    rw [locateHunks, hrange]
    dsimp only
    by_cases hbefore : line < beg
    · -- in front of the hunk
      have hline : hasLine line s = false := by simp [hasLine, hrange, hbefore]
      have hbehind : beginsBehind line s = true := by simp [beginsBehind, hrange, hbefore]
      rw [if_pos hbefore, locateSpec, List.find?_cons, hline, List.any_cons, hbehind]
      dsimp only
      rw [hnone (by omega)]
      exact iff_of_true rfl (hothers (by omega))
    · rw [if_neg hbefore]
      rcases lt_trichotomy line (beg + len) with hlt | heq | hgt
      · -- in the hunk
        have hline : hasLine line s = true := by
          simp [hasLine, hrange, hlt, Nat.le_of_not_lt hbefore]
        rw [if_pos hlt.le, locateSpec, List.find?_cons, hline]
        exact iff_of_true rfl (hothers hlt)
      · -- the line behind the hunk is taken for one of its own
        have hline : hasLine line s = false := by simp [hasLine, hrange, heq]
        rw [if_pos heq.le, List.filterMap_cons, hrange]
        refine iff_of_false (fun h => ?_) fun h => (List.forall_mem_cons.mp h).1 heq
        rw [locateSpec, List.find?_cons, hline] at h
        dsimp only at h
        split at h
        · next hunk hfound =>
          have hhunk := List.find?_some hfound
          injection Option.some.inj h with hhunk'
          rw [← hhunk', hline] at hhunk
          exact Bool.false_ne_true hhunk
        · split_ifs at h
          · exact Located.noConfusion (Option.some.inj h)
          · obtain ⟨_, _, h⟩ := Option.map_eq_some_iff.mp h.symm
            injection h with _ h
            exact Bool.false_ne_true h
      · -- behind the hunk
        have hline : hasLine line s = false := by simp [hasLine, hrange, hgt.le]
        have hbehind : beginsBehind line s = false := by
          simp [beginsBehind, hrange, Nat.le_of_not_lt hbefore]
        rw [if_neg (Nat.not_le.mpr hgt), List.filterMap_cons, hrange]
        dsimp only
        rw [List.forall_mem_cons, and_iff_right hgt.ne']
        rcases hunks with _ | ⟨s', hunks⟩
        · simp [locateSpec, hline, hbehind, hs]
        · rw [locateSpec_cons hline hbehind hhunks (List.cons_ne_nil _ _), ← ih hhunks hordered]
          exact Iff.rfl

end

/-! ## Lines of a hunk by their places -/

section

variable {P : Text → Bool} {lines : List Text} {line : Text} {i j : ℕ}

/-- The lines up to one are in front of every later line. -/
theorem prefix_take_succ (h : lines[i]? = some line) (hij : i < j) :
    lines.take i ++ [line] <+: lines.take j := by
  have hsucc : lines.take (i + 1) = lines.take i ++ [line] := by
    rw [List.take_add_one, h]
    rfl
  rw [← hsucc]
  exact List.take_prefix_take_left hij

/-- A line that counts is counted for every later one. -/
theorem countP_take_lt (h : lines[i]? = some line) (hline : P line = true) (hij : i < j) :
    (lines.take i).countP P < (lines.take j).countP P := by
  have hle := (prefix_take_succ h hij).sublist.countP_le (p := P)
  rw [List.countP_append, List.countP_singleton, if_pos hline] at hle
  exact hle

/-- A later line begins behind an earlier one. -/
theorem length_take_lt (h : lines[i]? = some line) (hij : i < j) :
    (unlines (lines.take i)).length + line.length < (unlines (lines.take j)).length := by
  obtain ⟨rest, hrest⟩ := prefix_take_succ h hij
  rw [← hrest, unlines_append, unlines_append, unlines_cons, unlines_nil, List.length_append,
    List.length_append, List.length_append, List.length_singleton]
  omega

/-- Of a kind, no two lines are preceded by as many. -/
theorem countP_take_inj {line' : Text} (h : lines[i]? = some line) (hline : P line = true)
    (h' : lines[j]? = some line') (hline' : P line' = true)
    (heq : (lines.take i).countP P = (lines.take j).countP P) : i = j := by
  rcases lt_trichotomy i j with hij | hij | hij
  · exact absurd heq (countP_take_lt h hline hij).ne
  · exact hij
  · exact absurd heq (countP_take_lt h' hline' hij).ne'

/-- The line that so many of a kind precede. -/
theorem exists_countP_take {m : ℕ} (h : m < lines.countP P) :
    ∃ i line, lines[i]? = some line ∧ P line = true ∧ (lines.take i).countP P = m := by
  induction lines generalizing m with
  | nil => exact absurd h (Nat.not_lt_zero m)
  | cons line lines ih =>
    by_cases hline : P line = true
    · rcases m with _ | m
      · exact ⟨0, line, rfl, hline, rfl⟩
      · rw [List.countP_cons_of_pos hline, Nat.add_lt_add_iff_right] at h
        obtain ⟨i, l, hl, hP, hm⟩ := ih h
        refine ⟨i + 1, l, hl, hP, ?_⟩
        rw [List.take_succ_cons, List.countP_cons_of_pos hline, hm]
    · rw [List.countP_cons_of_neg hline] at h
      obtain ⟨i, l, hl, hP, hm⟩ := ih h
      refine ⟨i + 1, l, hl, hP, ?_⟩
      rw [List.take_succ_cons, List.countP_cons_of_neg hline, hm]

end

/-- What the loop passes over without counting does not satisfy this. -/
def kept (line : Text) : Bool := line.head? != some '-'

/-- **The loop ends at the line that so many lines without a minus sign precede.** -/
theorem gotoLoop_unlines {buf : Text} {line : ℕ} {lines : List Text} {l rest : Text}
    (hlines : ∀ a ∈ lines, '\n' ∉ a ∧ a ≠ []) (hl : l ≠ []) (hkept : kept l = true) {p pos : ℕ}
    (hp : 1 ≤ p) (hbuf : textFrom buf p = unlines lines ++ (l ++ rest))
    (hcount : pos + lines.countP kept = line) {fuel : ℕ} (hfuel : lines.length < fuel) :
    gotoLoop buf line fuel p pos = some (p + (unlines lines).length) := by
  induction lines generalizing p pos fuel with
  | nil =>
    obtain ⟨fuel, rfl⟩ := Nat.exists_eq_add_of_le' (Nat.one_le_of_lt hfuel)
    obtain ⟨c, l, rfl⟩ := List.exists_cons_of_ne_nil hl
    have hchar : charAfter buf p = some c := by
      rw [charAfter, hbuf]
      rfl
    have hstop : ¬(pos < line ∨ c = '-') := by
      rw [not_or]
      exact ⟨(Nat.le_of_eq hcount.symm).not_gt, by simpa [kept] using hkept⟩
    rw [gotoLoop, hchar]
    exact if_neg hstop
  | cons a lines ih =>
    obtain ⟨fuel, rfl⟩ := Nat.exists_eq_add_of_le' (Nat.one_le_of_lt hfuel)
    obtain ⟨⟨ha, hne⟩, hrest⟩ := List.forall_mem_cons.mp hlines
    obtain ⟨c, a, rfl⟩ := List.exists_cons_of_ne_nil hne
    have hbuf' : textFrom buf p = (c :: a) ++ '\n' :: (unlines lines ++ (l ++ rest)) := by
      simp only [hbuf, unlines_cons, List.append_assoc, List.cons_append]
    have hchar : charAfter buf p = some c := by
      rw [charAfter, hbuf']
      rfl
    have hlength : p + (unlines ((c :: a) :: lines)).length
        = p + (c :: a).length + 1 + (unlines lines).length := by
      rw [length_unlines_cons]
      omega
    rw [gotoLoop, hchar, forwardLine_line hp ha hbuf', hlength]
    have hnext (pos : ℕ) (hcount : pos + lines.countP kept = line) :=
      ih hrest (Nat.le_add_left 1 _) (textFrom_line hp hbuf') hcount
        (Nat.lt_of_succ_lt_succ hfuel)
    by_cases hminus : c = '-'
    · have hskip : kept (c :: a) = false := by simp [kept, hminus]
      rw [List.countP_cons_of_neg (Bool.eq_false_iff.mp hskip)] at hcount
      dsimp only
      rw [if_pos (.inr hminus), if_pos hminus]
      exact hnext pos hcount
    · have hcounted : kept (c :: a) = true := by simp [kept, hminus]
      rw [List.countP_cons_of_pos hcounted] at hcount
      dsimp only
      rw [if_pos (.inl (by omega)), if_neg hminus]
      exact hnext (pos + 1) (by omega)

/-! ## The line in its hunk -/

/-- The range of the new side in the header. -/
def newRange (h : Hunk) : Option (ℕ × ℕ) :=
  h.ranges.getLast?.map fun r => (r.beginning, r.count.getD 1)

/-- The range of a placed hunk is that of the new file. -/
theorem toRange_place (h : Hunk) (p : ℕ) : toRange (h.part.place p) = newRange h := by
  rw [toRange, Part.place, Hunk.part]
  dsimp only
  rw [List.getLast?_map, newRange]
  cases h.ranges.getLast? <;> rfl

/-- Where a line of a hunk begins. -/
def lineStart (s : HunkSection) (h : Hunk) (i : ℕ) : ℕ :=
  s.content + (unlines (h.body.take i)).length

/-- A line of the new file for which `magit-diff-hunk-line` gives the number. -/
def NumberedAt (jump : Bool) (buf : Text) (s : HunkSection) (h : Hunk) (line i : ℕ) : Prop :=
  ∃ l, h.body[i]? = some l ∧ onNew (parents h) l = true
    ∧ magitDiffHunkLine jump buf (lineStart s h i) s false = some (some line)

/-- The one line with the number is where point is. -/
def AtLine (jump : Bool) (buf : Text) (s : HunkSection) (h : Hunk) (line : ℕ)
    (point : Option ℕ) : Prop :=
  ∃ i, NumberedAt jump buf s h line i ∧ (∀ j, NumberedAt jump buf s h line j → j = i)
    ∧ ∃ l, h.body[i]? = some l ∧ ∃ k ≤ l.length, point = some (lineStart s h i + k)

/-- The line that so many without a minus sign precede is one of the new file, and longer than the
column; with two parents, none above begins with a minus sign. -/
def LineReached (h : Hunk) (beg line column : ℕ) : Prop :=
  ∀ i l, h.body[i]? = some l → kept l = true → beg + (h.body.take i).countP kept = line →
    onNew (parents h) l = true ∧ column < l.length
      ∧ (parents h = 2 → ∀ above ∈ h.body.take i, kept above = true)

section

variable {h : Hunk} {jump : Bool} {pre post : Text} {line column i beg len : ℕ} {l : Text}

theorem body_split (hl : h.body[i]? = some l) :
    h.body = h.body.take i ++ l :: h.body.drop (i + 1) := by
  obtain ⟨hi, rfl⟩ := List.getElem?_eq_some_iff.mp hl
  rw [List.cons_getElem_drop_succ, List.take_append_drop]

/-- A line has the number that the lines counted above give it. -/
theorem numberedAt_iff (hwf : h.WellFormed) (hrange : newRange h = some (beg, len)) :
    NumberedAt jump (pre ++ h.part.text ++ post) (h.part.place (pre.length + 1)) h line i
      ↔ ∃ l, h.body[i]? = some l ∧ onNew (parents h) l = true
        ∧ beg + (h.body.take i).countP (counted h false) = line := by
  have hstart : toStart h = some beg := by
    obtain ⟨r, hr, hnumbers⟩ := Option.map_eq_some_iff.mp hrange
    rw [toStart, hr, ← (Prod.mk.inj hnumbers).1]
    rfl
  refine exists_congr fun l => and_congr_right fun hl => and_congr_right fun _ => ?_
  have hnumber := hunkLine_eq hwf jump pre post (body_split hl) (Nat.zero_le l.length) false
  rw [startOf_new, hstart, Nat.add_zero] at hnumber
  rw [lineStart, hnumber, Option.map_some, Option.some.injEq, Option.some.injEq]

/-- What is kept in the new file is counted. -/
theorem counted_of_kept {l : Text} (hl : l ≠ []) (hkept : kept l = true) :
    counted h false l = true := by
  obtain ⟨c, l, rfl⟩ := List.exists_cons_of_ne_nil hl
  have hc : c ≠ '-' := by simpa [kept] using hkept
  by_cases htwo : h.ranges.length = 3 <;> simp [counted, htwo, hc.symm]

/-- What is counted is kept in the new file, unless there are two parents. -/
theorem kept_of_counted {l : Text} (hl : l ≠ []) (htwo : h.ranges.length ≠ 3)
    (hcounted : counted h false l = true) : kept l = true := by
  obtain ⟨c, l, rfl⟩ := List.exists_cons_of_ne_nil hl
  rw [counted, if_neg htwo] at hcounted
  have hc : '-' ≠ c := by simpa using hcounted
  simpa [kept] using hc.symm

/-- What is on the new side of a combined diff is kept. -/
theorem kept_of_onNew {l : Text} (hparents : 2 ≤ h.ranges.length)
    (hnew : onNew (parents h) l = true) : kept l = true := by
  obtain ⟨n, hn⟩ := Nat.exists_eq_add_of_le hparents
  rw [parents_eq hn] at hnew
  rcases l with _ | ⟨c, l⟩
  · rfl
  · simp [onNew] at hnew
    simpa [kept] using Ne.symm hnew.2.1

theorem bodyLine_ne (hwf : h.WellFormed) {a : Text} (ha : a ∈ h.body) : '\n' ∉ a ∧ a ≠ [] := by
  obtain ⟨hline, c, -, rest, rfl⟩ := hwf.body a ha
  exact ⟨hline, List.cons_ne_nil _ _⟩

variable (pre post) in
/-- Where the loop ends, and that the line is there. -/
theorem gotoLoop_body (hwf : h.WellFormed) (hl : h.body[i]? = some l) (hkept : kept l = true)
    (hcount : beg + (h.body.take i).countP kept = line) :
    gotoLoop (pre ++ h.part.text ++ post) line ((pre ++ h.part.text ++ post).length + 1)
        (h.part.place (pre.length + 1)).content beg
      = some (lineStart (h.part.place (pre.length + 1)) h i)
    ∧ lineStart (h.part.place (pre.length + 1)) h i + l.length
      ≤ (pre ++ h.part.text ++ post).length := by
  have htext : textFrom (pre ++ h.part.text ++ post) (h.part.place (pre.length + 1)).content
      = unlines (h.body.take i) ++ (l ++ '\n' :: (unlines (h.body.drop (i + 1)) ++ post)) := by
    have hsplit := congrArg unlines (body_split hl)
    rw [unlines_append, unlines_cons] at hsplit
    rw [textFrom_content, hsplit]
    simp only [List.append_assoc, List.cons_append]
  have hcontent : 1 ≤ (h.part.place (pre.length + 1)).content := by
    rw [content_place]
    exact Nat.le_add_left 1 _
  have hne :
      textFrom (pre ++ h.part.text ++ post) (h.part.place (pre.length + 1)).content ≠ [] := by
    rw [htext]
    simp
  have hlength := length_textFrom_le hcontent hne
  rw [htext, List.length_append, List.length_append, List.length_cons] at hlength
  have hfuel : (h.body.take i).length ≤ (unlines (h.body.take i)).length :=
    length_le_length_unlines _
  refine ⟨gotoLoop_unlines (fun a ha => bodyLine_ne hwf (List.mem_of_mem_take ha))
    (bodyLine_ne hwf (List.mem_of_getElem? hl)).2 hkept hcontent htext hcount (by omega), ?_⟩
  rw [lineStart]
  omega

/-- **Point is put on the line with the number exactly if that line can be reached.** -/
theorem atLine_iff (hwf : h.WellFormed) (hparents : 2 ≤ h.ranges.length)
    (hrange : newRange h = some (beg, len)) (hlen : len = h.body.countP (onNew (parents h)))
    (hbeg : beg ≤ line) (hend : line < beg + len) :
    AtLine jump (pre ++ h.part.text ++ post) (h.part.place (pre.length + 1)) h line
        ((gotoLoop (pre ++ h.part.text ++ post) line ((pre ++ h.part.text ++ post).length + 1)
          (h.part.place (pre.length + 1)).content beg).bind
          (forwardChar (pre ++ h.part.text ++ post) · (1 + column)))
      ↔ LineReached h beg line column := by
  have hcounts : h.body.countP (onNew (parents h)) ≤ h.body.countP kept :=
    List.countP_mono_left fun a _ => kept_of_onNew hparents
  obtain ⟨i, l, hl, hkept, hcount⟩ :=
    exists_countP_take (show line - beg < h.body.countP kept by omega)
  obtain ⟨hgoto, hroom⟩ := gotoLoop_body pre post hwf hl hkept
    (show beg + (h.body.take i).countP kept = line by omega)
  have hne (a : Text) (j : ℕ) (ha : a ∈ h.body.take j) : a ≠ [] :=
    (bodyLine_ne hwf (List.mem_of_mem_take ha)).2
  rw [hgoto, Option.bind_some, forwardChar]
  constructor
  · rintro ⟨j, hj, -, l', hl', k, hk, hpoint⟩
    obtain ⟨l'', hl'', hnew, hnumber⟩ := (numberedAt_iff hwf hrange).mp hj
    obtain rfl : l' = l'' := Option.some.inj (hl'.symm.trans hl'')
    -- the loop does not pass over fewer lines than are counted
    have hle : j ≤ i := by
      by_contra hlt
      have hlt' := countP_take_lt hl hkept (Nat.lt_of_not_le hlt)
      have hmono : (h.body.take j).countP kept ≤ (h.body.take j).countP (counted h false) :=
        List.countP_mono_left fun a ha => counted_of_kept (hne a j ha)
      omega
    have hsame : lineStart (h.part.place (pre.length + 1)) h i + (1 + column)
        = lineStart (h.part.place (pre.length + 1)) h j + k := by
      split_ifs at hpoint
      exact Option.some.inj hpoint
    obtain rfl : j = i := by
      by_contra hne'
      have hshort := length_take_lt hl' (lt_of_le_of_ne hle hne')
      rw [lineStart, lineStart] at hsame
      omega
    obtain rfl : l = l' := Option.some.inj (hl.symm.trans hl')
    intro j' l' hl' hkept' hcount'
    obtain rfl : j = j' := countP_take_inj hl hkept hl' hkept' (by omega)
    obtain rfl : l = l' := Option.some.inj (hl.symm.trans hl')
    refine ⟨hnew, by omega, fun htwo => ?_⟩
    have hall : (h.body.take j).countP (counted h false) = (h.body.take j).length := by
      rw [parents] at htwo
      have hthree : h.ranges.length = 3 := by omega
      exact List.countP_eq_length.mpr fun a _ => by simp [counted, hthree]
    exact List.countP_eq_length.mp (by omega)
  · intro hreached
    obtain ⟨hnew, hcolumn, hall⟩ := hreached i l hl hkept (by omega)
    have hagree : (h.body.take i).countP (counted h false) = (h.body.take i).countP kept := by
      refine List.countP_congr fun a ha => ⟨fun hcounted => ?_, counted_of_kept (hne a i ha)⟩
      by_cases hthree : h.ranges.length = 3
      · exact hall (parents_eq hthree) a ha
      · exact kept_of_counted (hne a i ha) hthree hcounted
    have hcounted : counted h false l = true :=
      counted_of_kept (bodyLine_ne hwf (List.mem_of_getElem? hl)).2 hkept
    refine ⟨i, (numberedAt_iff hwf hrange).mpr ⟨l, hl, hnew, by omega⟩, fun j hj => ?_, l, hl,
      1 + column, by omega, if_pos (by omega)⟩
    obtain ⟨l', hl', hnew', hnumber⟩ := (numberedAt_iff hwf hrange).mp hj
    have hcounted' : counted h false l' = true :=
      (counted_new (hwf.body l' (List.mem_of_getElem? hl')) hparents).1 hnew'
    exact countP_take_inj hl' hcounted' hl hcounted (by omega)

end

/-! ## The section of a file -/

/-- The sections above the hunks. -/
def specialParts (d : FileDiff) : List Part :=
  (d.headersAt .chmod).map (fun h => specialPart .chmod (unlines h.lines))
    ++ (d.headersAt .rename).map (fun h => specialPart .rename (unlines h.lines))

/-- The section of a hunk that others stand above. -/
def hunkSection (d : FileDiff) (s : FileSection) (above : List Hunk) (h : Hunk) : HunkSection :=
  h.part.place (s.content + ((specialParts d ++ above.map Hunk.part).flatMap Part.text).length)

/-- The headers of a diff agree with its hunks: each has the lines of the new file that the header
says, and the new sides follow one another. -/
structure Consistent (d : FileDiff) : Prop where
  twoSides : ∀ h ∈ d.hunks, 2 ≤ h.ranges.length
  lengths : ∀ h ∈ d.hunks, ∀ range, newRange h = some range →
    range.2 = h.body.countP (onNew (parents h))
  ordered : (d.hunks.filterMap newRange).Pairwise fun range range' => range.1 + range.2 ≤ range'.1

/-- The hunk is found that has the line; if there is one, point is put on the line of it with that
number. -/
def JumpsRight (jump : Bool) (buf : Text) (children : List FileSection) (d : FileDiff)
    (s : FileSection) (line column : ℕ) : Prop :=
  magitDiffLocateHunk children s.value line = locateSpec s line s.children
    ∧ ∀ above h below, d.hunks = above ++ h :: below → hasLine line (hunkSection d s above h) →
      AtLine jump buf (hunkSection d s above h) h line
        (magitDiffGotoPosition buf children s.value line column).join

/-- The line is not the one behind a hunk, and in the hunk that has it, it can be reached. -/
structure Reached (d : FileDiff) (line column : ℕ) : Prop where
  notBehind : ∀ h ∈ d.hunks, ∀ range, newRange h = some range → line ≠ range.1 + range.2
  inHunk : ∀ h ∈ d.hunks, ∀ range, newRange h = some range → range.1 ≤ line →
    line < range.1 + range.2 → LineReached h range.1 line column

/-- A placed section is one of the parts. -/
theorem mem_placeAll {c : HunkSection} {parts : List Part} {pos : ℕ}
    (h : c ∈ Part.placeAll pos parts) : ∃ p ∈ parts, ∃ q, c = p.place q := by
  induction parts generalizing pos with
  | nil => exact absurd h List.not_mem_nil
  | cons p parts ih =>
    rcases List.mem_cons.mp h with rfl | h
    · exact ⟨p, List.mem_cons_self, pos, rfl⟩
    · obtain ⟨p', hp', q, rfl⟩ := ih h
      exact ⟨p', List.mem_cons_of_mem _ hp', q, rfl⟩

/-- There are as many sections as parts. -/
theorem length_placeAll (pos : ℕ) (parts : List Part) :
    (Part.placeAll pos parts).length = parts.length := by
  induction parts generalizing pos with
  | nil => rfl
  | cons p parts ih => exact congrArg (· + 1) (ih _)

/-- Each section holds its text. -/
theorem hunkContent_of_map {buf : Text} {pos : ℕ} {parts parts' : List Part} {p : Part}
    (h : (Part.placeAll pos (parts ++ p :: parts')).map (hunkContent buf)
      = (parts ++ p :: parts').map Part.text) :
    hunkContent buf (p.place (pos + (parts.flatMap Part.text).length)) = p.text := by
  rw [Part.placeAll_append, Part.placeAll, List.map_append, List.map_append, List.map_cons,
    List.map_cons] at h
  have hlength : ((Part.placeAll pos parts).map (hunkContent buf)).length
      = (parts.map Part.text).length := by
    rw [List.length_map, List.length_map, length_placeAll]
  exact (List.cons.inj (List.append_inj h hlength).2).1

/-- …and so the buffer has it at its place. -/
theorem exists_around {buf : Text} {p : Part} {pos : ℕ} (hpos : 1 ≤ pos) (hne : p.text ≠ [])
    (h : hunkContent buf (p.place pos) = p.text) :
    ∃ pre post, buf = pre ++ p.text ++ post ∧ pos = pre.length + 1 := by
  have htake : (buf.drop (pos - 1)).take p.text.length = p.text := by
    rw [hunkContent, region, Part.place] at h
    simpa using h
  have hinside : pos - 1 < buf.length := by
    by_contra hout
    rw [List.drop_eq_nil_of_le (Nat.le_of_not_lt hout), List.take_nil] at htake
    exact hne htake.symm
  refine ⟨buf.take (pos - 1), (buf.drop (pos - 1)).drop p.text.length, ?_, ?_⟩
  · have hsplit := List.take_append_drop p.text.length (buf.drop (pos - 1))
    rw [htake] at hsplit
    rw [List.append_assoc, hsplit, List.take_append_drop]
  · rw [List.length_take, min_eq_left hinside.le]
    omega

section

variable {env : WashEnv} {jump : Bool} {buf : Text} {children : List FileSection} {d : FileDiff}
  {s : FileSection} {line column : ℕ}

theorem parts_eq (d : FileDiff) : d.parts = specialParts d ++ d.hunks.map Hunk.part :=
  (List.append_assoc _ _ _).symm

theorem toRange_special {p : Part} (hp : p ∈ specialParts d) (q : ℕ) :
    toRange (p.place q) = none := by
  rcases List.mem_append.mp hp with hp | hp
  · obtain ⟨header, -, rfl⟩ := List.mem_map.mp hp
    rfl
  · obtain ⟨header, -, rfl⟩ := List.mem_map.mp hp
    rfl

/-- The ranges of the sections are those of the hunks. -/
theorem filterMap_toRange_placeAll (hunks : List Hunk) (pos : ℕ) :
    (Part.placeAll pos (hunks.map Hunk.part)).filterMap toRange = hunks.filterMap newRange := by
  induction hunks generalizing pos with
  | nil => rfl
  | cons h hunks ih =>
    rw [List.map_cons, Part.placeAll, List.filterMap_cons, List.filterMap_cons, toRange_place, ih]

theorem newRange_isSome {h : Hunk} (hwf : h.WellFormed) : (newRange h).isSome := by
  rw [newRange, List.getLast?_eq_some_getLast hwf.ranges]
  rfl

variable (line) in
/-- **The hunk is found exactly if the line is not behind one.** -/
theorem locate_iff (hfind : children.find? (·.value == s.value) = some s)
    (hwashed : FileWashed env buf d s) (hwf : d.WellFormed) (hcons : Consistent d) :
    magitDiffLocateHunk children s.value line = locateSpec s line s.children
      ↔ ∀ h ∈ d.hunks, ∀ range, newRange h = some range → line ≠ range.1 + range.2 := by
  have hranges : ∀ c ∈ Part.placeAll (s.content + ((specialParts d).flatMap Part.text).length)
      (d.hunks.map Hunk.part), (toRange c).isSome := by
    intro c hc
    obtain ⟨p, hp, q, rfl⟩ := mem_placeAll hc
    obtain ⟨h, hh, rfl⟩ := List.mem_map.mp hp
    rw [toRange_place]
    exact newRange_isSome (hwf.hunks h hh)
  have hspecial : ∀ c ∈ Part.placeAll s.content (specialParts d), toRange c = none := by
    intro c hc
    obtain ⟨p, hp, q, rfl⟩ := mem_placeAll hc
    exact toRange_special hp q
  rw [magitDiffLocateHunk, hfind]
  dsimp only
  rw [hwashed.children, parts_eq, Part.placeAll_append, locateHunks_special hspecial,
    locateSpec_special hspecial, locateHunks_iff hranges, filterMap_toRange_placeAll]
  · simp only [List.mem_filterMap, forall_exists_index, and_imp]
    exact ⟨fun h hunk hhunk range hrange => h range hunk hhunk hrange,
      fun h range hunk hhunk hrange => h hunk hhunk range hrange⟩
  · rw [Ordered, filterMap_toRange_placeAll]
    exact hcons.ordered

/-- A section with the line has a range that contains it. -/
theorem hasLine_place {h : Hunk} {q : ℕ} (hline : hasLine line (h.part.place q) = true) :
    ∃ range, newRange h = some range ∧ range.1 ≤ line ∧ line < range.1 + range.2 := by
  rw [hasLine, toRange_place] at hline
  obtain ⟨range, hrange, hin⟩ := (Option.any_eq_true _ _).mp hline
  exact ⟨range, hrange, of_decide_eq_true hin⟩

/-- The hunk that has a line is the first one that does. -/
theorem locateSpec_of_hasLine (hwashed : FileWashed env buf d s) (hcons : Consistent d)
    {above : List Hunk} {h : Hunk} {below : List Hunk} (hhunks : d.hunks = above ++ h :: below)
    (hline : hasLine line (hunkSection d s above h) = true) :
    locateSpec s line s.children = some (.hunk (hunkSection d s above h) true) := by
  obtain ⟨range, hrange, hbeg, hend⟩ := hasLine_place hline
  have hordered := hcons.ordered
  rw [hhunks, List.filterMap_append, List.filterMap_cons, hrange, List.pairwise_append] at hordered
  have hnone : ∀ c ∈ Part.placeAll s.content (specialParts d ++ above.map Hunk.part),
      hasLine line c ≠ true := by
    intro c hc hhas
    obtain ⟨p, hp, q, rfl⟩ := mem_placeAll hc
    rcases List.mem_append.mp hp with hp | hp
    · rw [hasLine, toRange_special hp q] at hhas
      exact Bool.false_ne_true hhas
    · obtain ⟨h', hh', rfl⟩ := List.mem_map.mp hp
      obtain ⟨range', hrange', -, hend'⟩ := hasLine_place hhas
      have hle := hordered.2.2 range' (List.mem_filterMap.mpr ⟨h', hh', hrange'⟩) range
        List.mem_cons_self
      omega
  have hchildren : s.children = Part.placeAll s.content (specialParts d ++ above.map Hunk.part)
      ++ hunkSection d s above h :: Part.placeAll (s.content
        + ((specialParts d ++ above.map Hunk.part).flatMap Part.text).length + h.part.text.length)
        (below.map Hunk.part) := by
    rw [hwashed.children, parts_eq, hhunks, List.map_append, List.map_cons, ← List.append_assoc,
      Part.placeAll_append, Part.placeAll]
    rfl
  rw [locateSpec, hchildren, List.find?_append, List.find?_eq_none.mpr hnone, Option.none_or,
    List.find?_cons, hline]

/-- Where the buffer has the hunk. -/
theorem hunkSection_around (hwashed : FileWashed env buf d s) (hcontent : 1 ≤ s.content)
    {above : List Hunk} {h : Hunk} {below : List Hunk} (hhunks : d.hunks = above ++ h :: below) :
    ∃ pre post, buf = pre ++ h.part.text ++ post
      ∧ hunkSection d s above h = h.part.place (pre.length + 1) := by
  have hparts :
      d.parts = specialParts d ++ above.map Hunk.part ++ h.part :: below.map Hunk.part := by
    rw [parts_eq, hhunks, List.map_append, List.map_cons, List.append_assoc]
  have hcontents := hwashed.contents
  rw [hwashed.children, hparts] at hcontents
  have hne : h.part.text ≠ [] := by simp [Part.text, Hunk.part]
  obtain ⟨pre, post, hbuf, hpos⟩ := exists_around (by omega) hne (hunkContent_of_map hcontents)
  exact ⟨pre, post, hbuf, congrArg (h.part.place ·) hpos⟩

/-- In a hunk that is found, point is put on the line exactly if that can be reached. -/
theorem atLine_goto (hwashed : FileWashed env buf d s) (hcontent : 1 ≤ s.content)
    (hwf : d.WellFormed) (hcons : Consistent d) {above : List Hunk} {h : Hunk} {below : List Hunk}
    (hhunks : d.hunks = above ++ h :: below)
    (hfound : magitDiffLocateHunk children s.value line = locateSpec s line s.children)
    (hline : hasLine line (hunkSection d s above h) = true) {range : ℕ × ℕ}
    (hrange : newRange h = some range) (hbeg : range.1 ≤ line) (hend : line < range.1 + range.2) :
    AtLine jump buf (hunkSection d s above h) h line
        (magitDiffGotoPosition buf children s.value line column).join
      ↔ LineReached h range.1 line column := by
  have hh : h ∈ d.hunks := hhunks ▸ List.mem_append_right _ List.mem_cons_self
  have hspec := locateSpec_of_hasLine hwashed hcons hhunks hline
  have hjoin (point : Option ℕ) : (point.map some).join = point := by cases point <;> rfl
  obtain ⟨pre, post, rfl, hplace⟩ := hunkSection_around hwashed hcontent hhunks
  rw [magitDiffGotoPosition, hfound, hspec, hplace]
  dsimp only
  rw [toRange_place, hrange]
  dsimp only
  rw [hjoin]
  exact atLine_iff (hwf.hunks h hh) (hcons.twoSides h hh) hrange (hcons.lengths h hh range hrange)
    hbeg hend

/-- **A jump from a line ends at that line of the diff exactly if it can be reached.** -/
theorem jumpsRight_iff (hfind : children.find? (·.value == s.value) = some s)
    (hwashed : FileWashed env buf d s) (hcontent : 1 ≤ s.content) (hwf : d.WellFormed)
    (hcons : Consistent d) :
    JumpsRight jump buf children d s line column ↔ Reached d line column := by
  have hlocate := locate_iff line hfind hwashed hwf hcons
  constructor
  · rintro ⟨hfound, hjumps⟩
    refine ⟨hlocate.mp hfound, fun h hh range hrange hbeg hend => ?_⟩
    obtain ⟨above, below, hhunks⟩ := List.append_of_mem hh
    have hline : hasLine line (hunkSection d s above h) = true := by
      rw [hunkSection, hasLine, toRange_place, hrange]
      exact decide_eq_true ⟨hbeg, hend⟩
    exact (atLine_goto hwashed hcontent hwf hcons hhunks hfound hline hrange hbeg hend).mp
      (hjumps above h below hhunks hline)
  · intro hreached
    have hfound := hlocate.mpr hreached.notBehind
    refine ⟨hfound, fun above h below hhunks hline => ?_⟩
    obtain ⟨range, hrange, hbeg, hend⟩ := hasLine_place hline
    have hh : h ∈ d.hunks := hhunks ▸ List.mem_append_right _ List.mem_cons_self
    exact (atLine_goto hwashed hcontent hwf hcons hhunks hfound hline hrange hbeg hend).mpr
      (hreached.inHunk h hh range hrange hbeg hend)

end

/-! ## A file with one line -/

/-- The line is changed. -/
def oneLine : Hunk where
  ats := 2
  ranges := [⟨'-', 1, none⟩, ⟨'+', 1, none⟩]
  about := none
  body := ["-a".toList, "+b".toList]

/-- The diff of a file that has only that line. -/
def oneLineDiff : FileDiff where
  first := .git "a/f".toList "b/f".toList
  headers := []
  hunks := [oneLine]

/-- The text below the heading, and the section in a buffer that has only that. -/
def oneLineText : Text := oneLineDiff.parts.flatMap Part.text

/-- The section that shows it. -/
def oneLineSection : FileSection where
  start := 1
  content := 1
  fin := oneLineText.length + 1
  value := "f".toList
  source := none
  header := unlines oneLineDiff.headerLines
  binary := false
  children := Part.placeAll 1 oneLineDiff.parts

/-- Paths are as they are written, and no log is followed. -/
def plainEnv : WashEnv where
  fold := id
  readPath := some
  revisionMode := false
  logTraced := false
  others _ := none

theorem fileWashed_oneLine : FileWashed plainEnv oneLineText oneLineDiff oneLineSection where
  children := rfl
  contents := by decide
  header _ := rfl
  patch _ := by decide

theorem wellFormed_oneLine : oneLine.WellFormed where
  ats := le_refl 2
  ranges := List.cons_ne_nil _ _
  sign := by decide
  about := by simp [oneLine]
  body l hl :=
    have hbody : l ∈ bodyLines
      [⟨.removed, "a".toList, false⟩, ⟨.added, "b".toList, false⟩] := hl
    isBodyLine_of_mem_bodyLines (by decide) hbody

theorem wellFormed_oneLineDiff : oneLineDiff.WellFormed where
  first := by decide
  headers := by simp [oneLineDiff]
  chmod := Nat.zero_le _
  rename := Nat.zero_le _
  hunks := List.forall_mem_singleton.mpr wellFormed_oneLine

theorem consistent_oneLine : Consistent oneLineDiff where
  twoSides := List.forall_mem_singleton.mpr (le_refl 2)
  lengths := List.forall_mem_singleton.mpr fun range hrange => by
    rw [← Option.some.inj hrange]
    decide
  ordered := List.pairwise_singleton _ _

theorem jumpsRight_iff_oneLine :
    JumpsRight true oneLineText [oneLineSection] oneLineDiff oneLineSection 1 0
      ↔ Reached oneLineDiff 1 0 :=
  jumpsRight_iff rfl fileWashed_oneLine (le_refl 1) wellFormed_oneLineDiff consistent_oneLine

/-- The second line is taken for one of the hunk that ends with the first. -/
theorem not_jumpsRight_oneLine :
    ¬ JumpsRight true oneLineText [oneLineSection] oneLineDiff oneLineSection 2 0 := by
  rintro ⟨hfound, -⟩
  have hlocated : magitDiffLocateHunk [oneLineSection] oneLineSection.value 2
      = some (.hunk (oneLine.part.place 1) true) := rfl
  have hspec : locateSpec oneLineSection 2 oneLineSection.children
      = some (.hunk (oneLine.part.place 1) false) := rfl
  injection Option.some.inj (hlocated.symm.trans (hfound.trans hspec)) with _ hexact
  exact Bool.false_ne_true hexact.symm

end Magit.GotoPosition

import Magit.Diff.AdjustStarts
import Magit.Diff.RegionSelection

/-!
# Diff/PartialPatch — patches for a part of a file's diff

What git is given to apply some of the hunks of a diff is itself the diff between two files: between
the old file and the one in which only these hunks are applied.  Its headers are right for going
forward.  Going backward they would have to name the lines of the new file, which has the hunks
above, and they are right only if these do not move what is below them
(`magitApplyHunks_eq_iff`).
-/

namespace Magit.AdjustStarts

open Diff Emacs UnifiedDiff VisitOffset

/-! ## What git is given -/

/-- `magit-apply-hunks`: the patch, which has the file's header. -/
def magitApplyHunks (header : Text) (hunks : List Text) : Option Text :=
  (magitApplyAdjustHunkNewStarts hunks).map (header ++ ·.flatten)

/-- More unchanged lines above the first hunk. -/
def behindLines (front : List Content) : List DiffHunk → List DiffHunk
  | [] => []
  | h :: hunks => { h with gap := front ++ h.gap } :: hunks

/-- The diff that has only some hunks, the other ones being on one side of the diff in both of its
files. -/
def part (d : TwoFileDiff) (side : List (Line Content) → List Content)
    (above selected below : List DiffHunk) : TwoFileDiff where
  preamble := d.preamble
  hunks := behindLines (side (hunksScript above)) selected
  tail := side (hunksScript below) ++ d.tail
  preamble_line := d.preamble_line

/-- What the sections of hunks show. -/
def sectionTexts (before newBefore : ℕ) (hunks : List DiffHunk) : List Text :=
  (placeHunks before newBefore hunks).map fun p => unlines p.lines

variable {d : TwoFileDiff} {above selected below : List DiffHunk} {front : List Content}

/-! ## The texts of the hunks -/

/-- Hunks behind a number of unchanged lines are numbered from there. -/
theorem sectionTexts_behindLines (front : List Content) (hunks : List DiffHunk) :
    sectionTexts 0 0 (behindLines front hunks) = sectionTexts front.length front.length hunks := by
  rcases hunks with _ | ⟨h, hunks⟩
  · rfl
  · have hgap : 0 + (front ++ h.gap).length = front.length + h.gap.length := by
      rw [List.length_append, Nat.zero_add]
    rw [sectionTexts, sectionTexts, behindLines, placeHunks, placeHunks]
    dsimp only
    rw [hgap]
    rfl

/-- The text of the diff is its preamble and then its hunks. -/
theorem text_eq (d : TwoFileDiff) :
    d.text = unlines d.preamble ++ (sectionTexts 0 0 d.hunks).flatten := by
  have hunlines (ps : List PlacedHunk) :
      unlines (ps.flatMap PlacedHunk.lines) = (ps.map fun p => unlines p.lines).flatten := by
    induction ps with
    | nil => rfl
    | cons p ps ih => rw [List.flatMap_cons, unlines_append, ih, List.map_cons, List.flatten_cons]
  rw [TwoFileDiff.text, unlines_append, TwoFileDiff.placed, hunlines]
  rfl

/-- The text of a part of the diff: the selected hunks, with the starts that they have on one side.
-/
theorem text_part (side : List (Line Content) → List Content) :
    (part d side above selected below).text = unlines d.preamble
      ++ (sectionTexts (side (hunksScript above)).length (side (hunksScript above)).length
        selected).flatten := by
  rw [text_eq, ← sectionTexts_behindLines]
  rfl

/-- The hunks as they are given. -/
theorem map_whole (before newBefore : ℕ) (hunks : List DiffHunk) :
    ((placeHunks before newBefore hunks).map whole).map GivenHunk.text
      = sectionTexts before newBefore hunks := by
  rw [List.map_map, sectionTexts]
  exact List.map_congr_left fun p _ => text_whole p

/-- Shifted hunks are those of a file in which they stand so many lines further up. -/
theorem shifted_eq_sectionTexts {c : ℤ} {before newBefore m : ℕ} (h : (newBefore : ℤ) - c = m)
    (hunks : List DiffHunk) :
    shifted c ((placeHunks before newBefore hunks).map whole)
        (((placeHunks before newBefore hunks).map whole).map GivenHunk.newStart)
      = sectionTexts before m hunks := by
  induction hunks generalizing before newBefore m with
  | nil => rfl
  | cons hunk hunks ih =>
    have hfirst : (whole ⟨hunk, before + hunk.gap.length, newBefore + hunk.gap.length⟩).textAt
        (numberToString ((whole ⟨hunk, before + hunk.gap.length,
          newBefore + hunk.gap.length⟩).newStart - c))
        = unlines (PlacedHunk.lines ⟨hunk, before + hunk.gap.length, m + hunk.gap.length⟩) := by
      have hstart : ((newBefore + hunk.gap.length : ℕ) : ℤ) - c = (m + hunk.gap.length : ℕ) := by
        omega
      rw [← text_whole, GivenHunk.newStart, whole, beginning_sub hstart, numberToString_natCast]
      rfl
    have hrest := @ih (before + hunk.gap.length + hunk.fromLen)
      (newBefore + hunk.gap.length + hunk.toLen) (m + hunk.gap.length + hunk.toLen) (by omega)
    rw [placeHunks, List.map_cons, List.map_cons, shifted, List.zipWith_cons_cons, hfirst]
    rw [shifted] at hrest
    rw [hrest]
    rfl

/-- The two numbers in the header at the front of a text. -/
def headerStarts (text : Text) : Option (ℕ × ℕ) := do
  let text ← literal "@@ -".toList text
  let (oldStart, text) ← number text
  let text ← literal " +".toList (behindCount text)
  let (newStart, _) ← number text
  some (oldStart, newStart)

/-- The two starts of a printed header are read back. -/
theorem headerStarts_textAt (g : GivenHunk) (n : ℕ) (rest : Text) :
    headerStarts (g.textAt (Nat.toDigits 10 n) ++ rest) = some (g.oldStart, n) := by
  have hplus : " +".toList.head? = some ' ' := rfl
  have hold := number_countText g.oldStart g.fromLenShown (oldSide g.body).length
    (Nat.toDigits 10 n ++ (g.behind ++ rest)) hplus rfl
  have holdCount := behindCount_countText g.fromLenShown (oldSide g.body).length
    (Nat.toDigits 10 n ++ (g.behind ++ rest)) hplus rfl (by decide)
  have hbehind : g.behind ++ rest = countText g.toLenShown (newSide g.body).length
      ++ (" @@".toList
        ++ (g.placed.hunk.heading ++ '\n' :: unlines (bodyLines g.body) ++ rest)) := by
    simp only [GivenHunk.behind, List.append_assoc]
  have hnew : number (Nat.toDigits 10 n ++ (g.behind ++ rest)) = some (n, g.behind ++ rest) := by
    rw [hbehind]
    exact number_countText n g.toLenShown (newSide g.body).length _
      (show " @@".toList.head? = some ' ' from rfl) rfl
  have htext : g.textAt (Nat.toDigits 10 n) ++ rest = "@@ -".toList ++ (Nat.toDigits 10 g.oldStart
      ++ (countText g.fromLenShown (oldSide g.body).length ++ (" +".toList
        ++ (Nat.toDigits 10 n ++ (g.behind ++ rest))))) := by
    simp only [GivenHunk.textAt, GivenHunk.front, List.append_assoc]
  rw [headerStarts, htext, literal_append, Option.bind_eq_bind, Option.bind_some, hold,
    Option.bind_eq_bind, Option.bind_some]
  dsimp only
  rw [holdCount, literal_append, Option.bind_some, hnew, Option.bind_some]

/-- The first hunk is printed with its starts, and the others behind its lines. -/
theorem sectionTexts_cons (before newBefore : ℕ) (h : DiffHunk) (hunks : List DiffHunk) :
    sectionTexts before newBefore (h :: hunks)
      = (whole ⟨h, before + h.gap.length, newBefore + h.gap.length⟩).text
        :: sectionTexts (before + h.gap.length + h.fromLen) (newBefore + h.gap.length + h.toLen)
          hunks := by
  rw [text_whole]
  rfl

/-- **The hunks that are given are those of a file with so many lines above the first one exactly if
there are as many above its old side**, and its sides both have lines or neither has. -/
theorem magitApplyHunks_eq_sectionTexts_iff (header : Text) (before newBefore m : ℕ) (h : DiffHunk)
    (hunks : List DiffHunk) :
    magitApplyHunks header (sectionTexts before newBefore (h :: hunks))
        = some (header ++ (sectionTexts m m (h :: hunks)).flatten)
      ↔ before = m ∧ (h.fromLen = 0 ↔ h.toLen = 0) := by
  have hadjust : magitApplyAdjustHunkNewStarts (sectionTexts before newBefore (h :: hunks))
      = some (shifted (beginning (newBefore + h.gap.length) h.toLen
          - beginning (before + h.gap.length) h.fromLen)
        ((placeHunks before newBefore (h :: hunks)).map whole)
        (((placeHunks before newBefore (h :: hunks)).map whole).map GivenHunk.newStart)) := by
    rw [← map_whole, map_text]
    exact adjust_textsAt _ _ _ _
  rw [magitApplyHunks, hadjust, Option.map_some, Option.some.injEq, List.append_right_inj]
  constructor
  · intro heq
    have hstarts := congrArg headerStarts heq
    rw [sectionTexts_cons, GivenHunk.text, List.flatten_cons, headerStarts_textAt, placeHunks,
      List.map_cons, List.map_cons, shifted, List.zipWith_cons_cons, List.flatten_cons] at hstarts
    have hsub : ((whole ⟨h, before + h.gap.length, newBefore + h.gap.length⟩).newStart : ℤ)
        - (beginning (newBefore + h.gap.length) h.toLen
          - beginning (before + h.gap.length) h.fromLen)
        = (beginning (before + h.gap.length) h.fromLen : ℕ) := sub_sub_cancel _ _
    rw [hsub, numberToString_natCast, headerStarts_textAt, Option.some.injEq,
      Prod.mk.injEq] at hstarts
    obtain ⟨hfirst, hsecond⟩ := hstarts
    have hbefore : before + h.gap.length = m + h.gap.length := by
      have hbeginning : beginning (before + h.gap.length) h.fromLen
        = beginning (m + h.gap.length) h.fromLen := hfirst
      rw [beginning, beginning] at hbeginning
      split_ifs at hbeginning <;> omega
    refine ⟨Nat.add_right_cancel hbefore, ?_⟩
    rw [hbefore] at hsecond
    exact beginning_inj.mp hsecond
  · rintro ⟨rfl, halike⟩
    have hstart : beginning (before + h.gap.length) h.fromLen
        = beginning (before + h.gap.length) h.toLen := beginning_inj.mpr halike
    have hoffset : (newBefore : ℤ) - (beginning (newBefore + h.gap.length) h.toLen
        - beginning (before + h.gap.length) h.fromLen : ℤ) = before := by
      rw [hstart, beginning, beginning]
      split_ifs <;> push_cast <;> omega
    exact congrArg List.flatten (shifted_eq_sectionTexts hoffset (h :: hunks))

/-! ## The files of the patch -/

theorem oldSide_append (body body' : List (Line Content)) :
    oldSide (body ++ body') = oldSide body ++ oldSide body' := List.filterMap_append

theorem newSide_append (body body' : List (Line Content)) :
    newSide (body ++ body') = newSide body ++ newSide body' := List.filterMap_append

theorem oldSide_contextLines (lines : List Content) : oldSide (contextLines lines) = lines := by
  induction lines with
  | nil => rfl
  | cons line lines ih => exact congrArg (line :: ·) ih

theorem newSide_contextLines (lines : List Content) : newSide (contextLines lines) = lines := by
  induction lines with
  | nil => rfl
  | cons line lines ih => exact congrArg (line :: ·) ih

/-- The lines of a part: those of one side outside of the selected hunks, and the selected ones as
they are. -/
theorem script_part (side : List (Line Content) → List Content) (hselected : selected ≠ []) :
    (part d side above selected below).script = contextLines (side (hunksScript above))
      ++ (hunksScript selected ++ contextLines (side (hunksScript below) ++ d.tail)) := by
  obtain ⟨h, hunks, rfl⟩ := List.exists_cons_of_ne_nil hselected
  simp only [TwoFileDiff.script, part, behindLines, hunksScript_cons, contextLines, List.map_append,
    List.append_assoc]

/-- The lines of the whole diff: above, selected, below and the tail. -/
theorem script_eq (h : d.hunks = above ++ (selected ++ below)) :
    d.script = hunksScript above ++ (hunksScript selected ++ (hunksScript below
      ++ contextLines d.tail)) := by
  rw [TwoFileDiff.script, h]
  simp only [hunksScript, List.flatMap_append, List.append_assoc]

/-- The old file with only some of the hunks applied. -/
def oldWith (d : TwoFileDiff) (above selected below : List DiffHunk) : List Content :=
  oldSide (hunksScript above) ++ newSide (hunksScript selected)
    ++ oldSide (hunksScript below) ++ d.tail

/-- The new file with only some of the hunks reversed. -/
def newWithout (d : TwoFileDiff) (above selected below : List DiffHunk) : List Content :=
  newSide (hunksScript above) ++ oldSide (hunksScript selected)
    ++ newSide (hunksScript below) ++ d.tail

/-- A patch goes from the old file to the one with only these hunks. -/
theorem sides_part_oldSide (h : d.hunks = above ++ (selected ++ below))
    (hselected : selected ≠ []) :
    oldSide (part d oldSide above selected below).script = oldSide d.script
      ∧ newSide (part d oldSide above selected below).script = oldWith d above selected below := by
  rw [script_part oldSide hselected, script_eq h, oldWith]
  simp only [oldSide_append, newSide_append, oldSide_contextLines, newSide_contextLines,
    List.append_assoc, and_self]

/-- In reverse, the part of a diff leads from the file that lacks the selected changes to the new
one. -/
theorem sides_part_newSide (h : d.hunks = above ++ (selected ++ below))
    (hselected : selected ≠ []) :
    newSide (part d newSide above selected below).script = newSide d.script
      ∧ oldSide (part d newSide above selected below).script
        = newWithout d above selected below := by
  rw [script_part newSide hselected, script_eq h, newWithout]
  simp only [oldSide_append, newSide_append, oldSide_contextLines, newSide_contextLines,
    List.append_assoc, and_self]

/-- The first of some hunks has no lines on one side only if it has none on the other. -/
def FirstAlike (hunks : List DiffHunk) : Prop := ∀ h ∈ hunks.head?, h.fromLen = 0 ↔ h.toLen = 0

/-- The patch of the selected hunks is that part of the diff exactly if its starts are right. -/
theorem magitApplyHunks_eq_part_iff (side : List (Line Content) → List Content)
    (hselected : selected ≠ []) :
    magitApplyHunks (unlines d.preamble)
        (sectionTexts (oldSide (hunksScript above)).length (newSide (hunksScript above)).length
          selected) = some (part d side above selected below).text
      ↔ (oldSide (hunksScript above)).length = (side (hunksScript above)).length
        ∧ FirstAlike selected := by
  obtain ⟨h, hunks, rfl⟩ := List.exists_cons_of_ne_nil hselected
  rw [text_part, magitApplyHunks_eq_sectionTexts_iff, FirstAlike, List.head?_cons]
  simp only [Option.mem_def, Option.some.injEq, forall_eq']

/-- **What git is given of some hunks of a diff is the diff from the old file to the one with only
these hunks**, if and only if the first of them has lines on both sides or on none.  For going back
from the new file it is the right diff if and only if, besides, the hunks above have as many lines
on both sides: only the lines of the old file are in its headers. -/
theorem magitApplyHunks_eq_iff (h : d.hunks = above ++ (selected ++ below))
    (hselected : selected ≠ []) :
    let texts := sectionTexts (oldSide (hunksScript above)).length
      (newSide (hunksScript above)).length selected
    let patch := magitApplyHunks (unlines d.preamble) texts
    let forward := part d oldSide above selected below
    let backward := part d newSide above selected below
    texts.flatten <:+: d.text
      ∧ (oldSide forward.script = oldSide d.script
        ∧ newSide forward.script = oldWith d above selected below
        ∧ (patch = some forward.text ↔ FirstAlike selected))
      ∧ newSide backward.script = newSide d.script
      ∧ oldSide backward.script = newWithout d above selected below
      ∧ (patch = some backward.text
        ↔ (oldSide (hunksScript above)).length = (newSide (hunksScript above)).length
          ∧ FirstAlike selected) := by
  intro texts patch forward backward
  have hshown : d.text = unlines d.preamble ++ (sectionTexts 0 0 above).flatten ++ texts.flatten
      ++ (sectionTexts ((oldSide (hunksScript above)).length
          + (oldSide (hunksScript selected)).length)
        ((newSide (hunksScript above)).length + (newSide (hunksScript selected)).length)
        below).flatten := by
    have hplaced := placeHunks_append 0 0 above (selected ++ below)
    rw [placeHunks_append _ _ selected, Nat.zero_add, Nat.zero_add] at hplaced
    rw [text_eq, h, sectionTexts, hplaced]
    simp only [texts, sectionTexts, List.map_append, List.flatten_append, List.append_assoc]
  have hforward := @magitApplyHunks_eq_part_iff d above selected below oldSide hselected
  rw [eq_self, true_and] at hforward
  refine ⟨?_, ⟨(sides_part_oldSide h hselected).1, (sides_part_oldSide h hselected).2, hforward⟩,
    (sides_part_newSide h hselected).1, (sides_part_newSide h hselected).2,
    magitApplyHunks_eq_part_iff newSide hselected⟩
  exact ⟨unlines d.preamble ++ (sectionTexts 0 0 above).flatten, _, hshown.symm⟩

/-! ## A region of a hunk -/

/-- A hunk with some of its lines left out or turned into context. -/
def withBody (h : DiffHunk) (body : List (Line Content)) (fromLenShown toLenShown : Bool)
    (hbody : ∀ l ∈ body, '\n' ∉ l.content.text) : DiffHunk :=
  { h with body, fromLenShown, toLenShown, body_line := hbody }

/-- `magit-apply-region`, with the file's header. -/
def magitApplyRegion (diffFixupModifs : Text → Text) (buf : Text)
    (region : RegionPatch.Region) (sec : RegionPatch.HunkSection) (args : List Text)
    (header : Text) : Option Text :=
  (RegionPatch.magitDiffHunkRegionPatch diffFixupModifs buf region sec args).bind fun hunk =>
    magitApplyHunks header [hunk]

/-- What is relied on of `diff-fixup-modifs` for a hunk of which some lines are left: it writes the
counts of these lines into the header. -/
def FixesCounts (diffFixupModifs : Text → Text) (p : PlacedHunk)
    (body : List (Line Content)) : Prop :=
  diffFixupModifs (unlines (p.header :: bodyLines body))
    = (⟨p, body, true, true⟩ : GivenHunk).text

/-- What is given for one hunk with its lines restricted is a hunk with so many lines above it
exactly if both its sides begin where the old side of the whole hunk does. -/
theorem magitApplyHunks_given_iff (header : Text) (before newBefore m : ℕ) (h : DiffHunk)
    {body : List (Line Content)} (hbody : ∀ l ∈ body, '\n' ∉ l.content.text) :
    magitApplyHunks header
        [(⟨⟨h, before + h.gap.length, newBefore + h.gap.length⟩, body, true, true⟩
          : GivenHunk).text]
        = some (header ++ (sectionTexts m m [withBody h body true true hbody]).flatten)
      ↔ beginning (before + h.gap.length) h.fromLen
          = beginning (m + h.gap.length) (oldSide body).length
        ∧ beginning (before + h.gap.length) h.fromLen
          = beginning (m + h.gap.length) (newSide body).length := by
  set g : GivenHunk := ⟨⟨h, before + h.gap.length, newBefore + h.gap.length⟩, body, true, true⟩
    with hg
  have hadjust : magitApplyAdjustHunkNewStarts [g.text]
      = some [g.textAt (Nat.toDigits 10 g.oldStart)] := by
    have hone := adjust_textsAt g [] g.newStart []
    rw [shifted, List.zipWith_cons_cons, sub_sub_cancel, numberToString_natCast] at hone
    exact hone
  have hpart : (sectionTexts m m [withBody h body true true hbody]).flatten
      = (whole ⟨withBody h body true true hbody, m + h.gap.length, m + h.gap.length⟩).text := by
    rw [sectionTexts_cons, List.flatten_cons]
    exact List.append_nil _
  rw [magitApplyHunks, hadjust, Option.map_some, Option.some.injEq, List.append_right_inj, hpart,
    List.flatten_singleton]
  set w : GivenHunk := whole ⟨withBody h body true true hbody, m + h.gap.length, m + h.gap.length⟩
  have hstarts : g.textAt (Nat.toDigits 10 g.oldStart) = w.text
      ↔ g.oldStart = w.oldStart ∧ g.oldStart = w.newStart := by
    constructor
    · intro heq
      have hparsed := congrArg (fun text => headerStarts (text ++ [])) heq
      rw [GivenHunk.text, headerStarts_textAt, headerStarts_textAt, Option.some.injEq,
        Prod.mk.injEq] at hparsed
      exact hparsed
    · rintro ⟨hold, hnew⟩
      have hfront : g.front = w.front := by
        rw [GivenHunk.front, GivenHunk.front, hold]
        rfl
      rw [GivenHunk.text, GivenHunk.textAt, GivenHunk.textAt, hfront, hnew]
      rfl
  exact hstarts

section

variable {h : DiffHunk} {buf : Text} {sec : RegionPatch.HunkSection} {hunk : RegionPatch.Hunk}
  {diffFixupModifs : Text → Text}

/-- A hunk behind others. -/
def placeBehind (above : List DiffHunk) (h : DiffHunk) : PlacedHunk :=
  ⟨h, (oldSide (hunksScript above)).length + h.gap.length,
    (newSide (hunksScript above)).length + h.gap.length⟩

/-- A section of the buffer shows a hunk of the diff, in which nothing has an end-of-file marker. -/
structure ShowsHunk (above : List DiffHunk) (h : DiffHunk) (buf : Text)
    (sec : RegionPatch.HunkSection) (hunk : RegionPatch.Hunk) : Prop where
  shows : RegionPatch.Shows buf sec hunk
  header : hunk.header = (placeBehind above h).header
  body : hunk.body = h.body
  noEol : ∀ l ∈ h.body, l.content.noEol = false

/-- The lines that are given. -/
def regionBody (hunk : RegionPatch.Hunk) (sec : RegionPatch.HunkSection)
    (region : RegionPatch.Region) (args : List Text) : List (Line Content) :=
  restrict (RegionPatch.contextKind args) (hunk.marked sec region)

/-- Applying a region is applying a diff of one hunk, the one that the region leaves of it. -/
theorem magitApplyRegion_eq {region : RegionPatch.Region} {args : List Text}
    (hfix : FixesCounts diffFixupModifs (placeBehind above h) (regionBody hunk sec region args))
    (hshows : ShowsHunk above h buf sec hunk) (header : Text) :
    magitApplyRegion diffFixupModifs buf region sec args header
      = magitApplyHunks header
        [(⟨placeBehind above h, regionBody hunk sec region args, true, true⟩
          : GivenHunk).text] := by
  have hmarkers : (hunk.placed sec).flatMap
        (RegionPatch.Placed.choice (RegionPatch.contextKind args) region)
      = bodyLines (regionBody hunk sec region args) := by
    have hsettles : RegionPatch.Settles (RegionPatch.contextKind args) region false
        (hunk.placed sec) := by
      refine RegionPatch.settles_of_markersAgree (.inl fun l hl hnoEol => ?_)
      rw [hshows.noEol _ (hshows.body ▸ RegionPatch.line_of_mem_place hl)] at hnoEol
      cases hnoEol
    have hrestrict : regionBody hunk sec region args
        = (hunk.placed sec).filterMap
          (RegionPatch.Placed.shown (RegionPatch.contextKind args) region) :=
      List.filterMap_map
    rw [(RegionPatch.choices_eq_iff _ region false _).mpr hsettles, hrestrict]
    rfl
  rw [magitApplyRegion, RegionPatch.patch_eq hshows.shows, Option.bind_some, hmarkers,
    hshows.header, hfix]

/-- The hunk of the patch. -/
def regionHunk (h : DiffHunk) (hunk : RegionPatch.Hunk) (sec : RegionPatch.HunkSection)
    (region : RegionPatch.Region) (args : List Text) : DiffHunk :=
  withBody h (regionBody hunk sec region args) true true (RegionPatch.body_line_restrict _ region)

theorem hunksScript_regionHunk (region : RegionPatch.Region) (args : List Text) :
    hunksScript [regionHunk h hunk sec region args]
      = contextLines h.gap ++ regionBody hunk sec region args := List.append_nil _

/-- The patch of a region is that part of the diff exactly if the start of its hunk is right. -/
theorem magitApplyRegion_eq_part_iff {region : RegionPatch.Region} {args : List Text}
    (hfix : FixesCounts diffFixupModifs (placeBehind above h) (regionBody hunk sec region args))
    (hshows : ShowsHunk above h buf sec hunk) (side : List (Line Content) → List Content) :
    magitApplyRegion diffFixupModifs buf region sec args (unlines d.preamble)
        = some (part d side above [regionHunk h hunk sec region args] below).text
      ↔ beginning ((oldSide (hunksScript above)).length + h.gap.length) h.fromLen
          = beginning ((side (hunksScript above)).length + h.gap.length)
            (regionHunk h hunk sec region args).fromLen
        ∧ beginning ((oldSide (hunksScript above)).length + h.gap.length) h.fromLen
          = beginning ((side (hunksScript above)).length + h.gap.length)
            (regionHunk h hunk sec region args).toLen := by
  rw [magitApplyRegion_eq hfix hshows, text_part]
  exact magitApplyHunks_given_iff _ _ _ _ h _

/-- The two sides of the part that a region selects. -/
theorem sides_part_regionHunk (side : List (Line Content) → List Content)
    (region : RegionPatch.Region) (args : List Text) :
    oldSide (part d side above [regionHunk h hunk sec region args] below).script
        = side (hunksScript above) ++ h.gap ++ oldSide (regionBody hunk sec region args)
          ++ side (hunksScript below) ++ d.tail
      ∧ newSide (part d side above [regionHunk h hunk sec region args] below).script
        = side (hunksScript above) ++ h.gap ++ newSide (regionBody hunk sec region args)
          ++ side (hunksScript below) ++ d.tail := by
  rw [script_part side (List.cons_ne_nil _ _), hunksScript_regionHunk]
  simp only [oldSide_append, newSide_append, oldSide_contextLines, newSide_contextLines,
    List.append_assoc, and_self]

/-- A context line is on both sides. -/
theorem length_sides_ne_zero {body : List (Line Content)} {l : Line Content} (hl : l ∈ body)
    (hkind : l.kind = .context) : (oldSide body).length ≠ 0 ∧ (newSide body).length ≠ 0 := by
  have hold : l.content ∈ oldSide body :=
    List.mem_filterMap.mpr ⟨l, hl, by rw [Line.old?, hkind]; rfl⟩
  have hnew : l.content ∈ newSide body :=
    List.mem_filterMap.mpr ⟨l, hl, by rw [Line.new?, hkind]; rfl⟩
  exact ⟨(List.length_pos_of_mem hold).ne', (List.length_pos_of_mem hnew).ne'⟩

/-- A region keeps the context lines of the hunk. -/
theorem mem_regionBody (hshows : ShowsHunk above h buf sec hunk) (region : RegionPatch.Region)
    (args : List Text) {l : Line Content} (hl : l ∈ h.body) (hkind : l.kind = .context) :
    l ∈ regionBody hunk sec region args := by
  rw [← hshows.body, ← RegionPatch.map_fst_marked hunk sec region] at hl
  obtain ⟨m, hm, rfl⟩ := List.mem_map.mp hl
  exact List.mem_filterMap.mpr ⟨m, hm, if_pos (.inl hkind)⟩

/-- **What git is given of a region is the diff from the old file to the one with exactly the
changes that the region touches**, if and only if the hunk's old side and what is left of the new
one both have lines or neither has.  With `--reverse`, where context is left, it is the diff from the
file without these changes to the new file if and only if the hunks above have as many lines on both
sides. -/
theorem magitApplyRegion_eq_iff {region : RegionPatch.Region} {args : List Text}
    (hfix : FixesCounts diffFixupModifs (placeBehind above h) (regionBody hunk sec region args))
    (hd : d.hunks = above ++ h :: below) (hshows : ShowsHunk above h buf sec hunk) :
    let patch := magitApplyRegion diffFixupModifs buf region sec args (unlines d.preamble)
    let given := regionHunk h hunk sec region args
    ("--reverse".toList ∉ args →
      let forward := part d oldSide above [given] below
      oldSide forward.script = oldSide d.script
        ∧ newSide forward.script = oldSide (hunksScript above) ++ h.gap
          ++ applied (hunk.marked sec region) ++ oldSide (hunksScript below) ++ d.tail
        ∧ (patch = some forward.text ↔ (h.fromLen = 0 ↔ given.toLen = 0)))
      ∧ ("--reverse".toList ∈ args →
        let backward := part d newSide above [given] below
        newSide backward.script = newSide d.script
          ∧ oldSide backward.script = newSide (hunksScript above) ++ h.gap
            ++ undone (hunk.marked sec region) ++ newSide (hunksScript below) ++ d.tail
          ∧ ((∃ l ∈ h.body, l.kind = .context) → (patch = some backward.text
            ↔ (oldSide (hunksScript above)).length = (newSide (hunksScript above)).length))) := by
  intro patch given
  have hscript := @script_eq d above [h] below hd
  have hone : hunksScript [h] = contextLines h.gap ++ h.body := List.append_nil _
  have hfst : (hunk.marked sec region).map Prod.fst = h.body := by
    rw [RegionPatch.map_fst_marked, hshows.body]
  refine ⟨fun hargs => ?_, fun hargs => ?_⟩
  · have hbody : regionBody hunk sec region args = restrict .removed (hunk.marked sec region) := by
      rw [regionBody, RegionPatch.contextKind, if_neg hargs]
    obtain ⟨hpartOld, hpartNew⟩ :=
      @sides_part_regionHunk d above below h sec hunk oldSide region args
    rw [hbody, oldSide_restrict_removed, hfst] at hpartOld
    rw [hbody, newSide_restrict_removed] at hpartNew
    have hlen : given.fromLen = h.fromLen := by
      change (oldSide (regionBody hunk sec region args)).length = _
      rw [hbody, oldSide_restrict_removed, hfst]
      rfl
    refine ⟨?_, hpartNew, ?_⟩
    · rw [hpartOld, hscript, hone]
      simp only [oldSide_append, oldSide_contextLines, List.append_assoc]
    · rw [magitApplyRegion_eq_part_iff hfix hshows, hlen, eq_self, true_and]
      exact beginning_inj
  · have hbody : regionBody hunk sec region args = restrict .added (hunk.marked sec region) := by
      rw [regionBody, RegionPatch.contextKind, if_pos hargs]
    obtain ⟨hpartOld, hpartNew⟩ :=
      @sides_part_regionHunk d above below h sec hunk newSide region args
    rw [hbody, oldSide_restrict_added] at hpartOld
    rw [hbody, newSide_restrict_added, hfst] at hpartNew
    refine ⟨?_, hpartOld, ?_⟩
    · rw [hpartNew, hscript, hone]
      simp only [newSide_append, newSide_contextLines, List.append_assoc]
    · rintro ⟨l, hl, hkind⟩
      have hfrom : h.fromLen ≠ 0 := (length_sides_ne_zero hl hkind).1
      obtain ⟨hgivenFrom, hgivenTo⟩ :=
        length_sides_ne_zero (mem_regionBody hshows region args hl hkind) hkind
      have hgiven : given.fromLen ≠ 0 ∧ given.toLen ≠ 0 := ⟨hgivenFrom, hgivenTo⟩
      rw [magitApplyRegion_eq_part_iff hfix hshows, beginning, beginning, beginning, if_neg hfrom,
        if_neg hgiven.1, if_neg hgiven.2]
      omega

end

/-! ## Two hunks -/

/-- A line that ends with a newline. -/
def lineOf (kind : LineKind) (text : String) : Line Content := ⟨kind, ⟨text.toList, false⟩⟩

theorem noHeading_line : '\n' ∉ ([] : Text) := List.not_mem_nil

theorem addedHunk_line :
    ∀ l ∈ [lineOf .context "a", lineOf .added "b"], '\n' ∉ l.content.text :=
  List.forall_mem_cons.mpr ⟨by decide, List.forall_mem_singleton.mpr (by decide)⟩

theorem replacedHunk_line :
    ∀ l ∈ [lineOf .removed "d", lineOf .added "e"], '\n' ∉ l.content.text :=
  List.forall_mem_cons.mpr ⟨by decide, List.forall_mem_singleton.mpr (by decide)⟩

/-- A line is added. -/
def addedHunk : DiffHunk where
  gap := []
  body := [lineOf .context "a", lineOf .added "b"]
  fromLenShown := true
  toLenShown := true
  heading := []
  body_line := addedHunk_line
  heading_line := noHeading_line

/-- A line is replaced. -/
def replacedHunk : DiffHunk where
  gap := [⟨"c".toList, false⟩]
  body := [lineOf .removed "d", lineOf .added "e"]
  fromLenShown := true
  toLenShown := true
  heading := []
  body_line := replacedHunk_line
  heading_line := noHeading_line

/-- A diff of two hunks. -/
def twoHunks : TwoFileDiff where
  preamble := ["--- f".toList, "+++ f".toList]
  hunks := [addedHunk, replacedHunk]
  tail := []
  preamble_line := by decide

/-- Its second hunk can be applied, but to be reversed it would have to be a line further down. -/
theorem magitApplyHunks_eq_iff_twoHunks :
    magitApplyHunks (unlines twoHunks.preamble) ["@@ -3,1 +4,1 @@\n-d\n+e\n".toList]
        = some (part twoHunks oldSide [addedHunk] [replacedHunk] []).text
      ∧ magitApplyHunks (unlines twoHunks.preamble) ["@@ -3,1 +4,1 @@\n-d\n+e\n".toList]
        ≠ some (part twoHunks newSide [addedHunk] [replacedHunk] []).text := by
  have h := @magitApplyHunks_eq_iff twoHunks [addedHunk] [replacedHunk] [] rfl
    (List.cons_ne_nil _ _)
  have halike : FirstAlike [replacedHunk] := by
    rintro h ⟨⟩
    decide
  exact ⟨h.2.1.2.2.mpr halike, fun heq => absurd (h.2.2.2.2.mp heq).1 (by decide)⟩

theorem addedTwiceHunk_line :
    ∀ l ∈ [lineOf .context "a", lineOf .added "b", lineOf .added "c"], '\n' ∉ l.content.text :=
  List.forall_mem_cons.mpr ⟨by decide, List.forall_mem_cons.mpr
    ⟨by decide, List.forall_mem_singleton.mpr (by decide)⟩⟩

/-- Two lines are added. -/
def addedTwiceHunk : DiffHunk where
  gap := []
  body := [lineOf .context "a", lineOf .added "b", lineOf .added "c"]
  fromLenShown := true
  toLenShown := true
  heading := []
  body_line := addedTwiceHunk_line
  heading_line := noHeading_line

/-- The hunk in a buffer. -/
def addedTwiceSection : RegionPatch.Hunk where
  header := "@@ -1,1 +1,3 @@".toList
  body := addedTwiceHunk.body
  isHeader := ⟨⟨_, rfl⟩, by decide⟩
  body_line := addedTwiceHunk.body_line

/-- The section shows the hunk that adds two lines. -/
theorem showsHunk_addedTwice :
    ShowsHunk [] addedTwiceHunk addedTwiceSection.text ⟨1, 1 + addedTwiceSection.text.length⟩
      addedTwiceSection where
  shows := ⟨le_rfl, List.prefix_rfl, rfl⟩
  header := by decide
  body := rfl
  noEol := by decide

/-- `diff-fixup-modifs` on what is left of the hunk without its first added line. -/
def addedTwiceFixup : Text → Text :=
  RegionPatch.recount "@@ -1,1 +1,3 @@".toList "@@ -1,1 +1,2 @@".toList
    [" a".toList, "+c".toList]

theorem fixesCounts_addedTwice : FixesCounts addedTwiceFixup (placeBehind [] addedTwiceHunk)
    (regionBody addedTwiceSection ⟨1, 1 + addedTwiceSection.text.length⟩ ⟨23, 23, le_rfl⟩ []) := by
  rw [FixesCounts]
  decide +kernel

/-- Both hunks of a diff, of which the second replaces a line. -/
def addedTwiceDiff : TwoFileDiff where
  preamble := ["--- f".toList, "+++ f".toList]
  hunks := [addedTwiceHunk, replacedHunk]
  tail := []
  preamble_line := by decide

/-- The region touches the second added line: the first is left out, and the count is one less. -/
theorem magitApplyRegion_eq_iff_addedTwice :
    magitApplyRegion addedTwiceFixup addedTwiceSection.text ⟨23, 23, le_rfl⟩
        ⟨1, 1 + addedTwiceSection.text.length⟩ [] (unlines addedTwiceDiff.preamble)
      = some (part addedTwiceDiff oldSide [] [regionHunk addedTwiceHunk addedTwiceSection
        ⟨1, 1 + addedTwiceSection.text.length⟩ ⟨23, 23, le_rfl⟩ []] [replacedHunk]).text :=
  ((magitApplyRegion_eq_iff fixesCounts_addedTwice rfl showsHunk_addedTwice).1
    List.not_mem_nil).2.2.mpr (by decide)

end Magit.AdjustStarts

import Magit.Diff.Unified

/-!
# Diff/RegionPatch — the patch for the part of a hunk that the region touches

`magit-diff-hunk-region-patch` walks through the lines of a hunk section, keeps the header, context
and what the region touches, and turns the other lines of the kind of `op` into context.  On a hunk
that a section shows it makes one choice for each line and one for each end-of-file marker
(`patch_eq`).
-/

namespace Magit.RegionPatch

open Diff Emacs UnifiedDiff

/-! ## `magit-diff-hunk-region-patch` -/

/-- The slots `start` and `end` of a hunk section. -/
structure HunkSection where
  start : ℕ
  stop : ℕ

/-- `(region-beginning)` and `(region-end)`. -/
structure Region where
  beginning : ℕ
  stop : ℕ
  ordered : beginning ≤ stop

/-- `magit-diff-hunk-region-beginning` -/
def magitDiffHunkRegionBeginning (buf : Text) (region : Region) : ℕ := posBol buf region.beginning

/-- `(looking-at "\\(.\\)\\([^\n]*\n\\)")` with the two groups it finds. -/
def lookingAtLine (buf : Text) (point : ℕ) : Option (Char × Text) :=
  match textFrom buf point with
  | [] => none
  | c :: rest => if c ≠ '\n' ∧ '\n' ∈ rest then some (c, lineText rest ++ ['\n']) else none

/-- What the `cond` pushes for the groups of a line. -/
def patchPiece (op : Char) (inside : Bool) (groups : Char × Text) : Option Text :=
  if groups.1 ∈ ['@', ' '] ∨ inside then some (groups.1 :: groups.2)
  else if groups.1 = op then some (' ' :: groups.2)
  else none

/-- The `while` loop.  Where `looking-at` fails the groups are those of the line before; `none`
stands for groups of an earlier search, and for a loop that does not end. -/
def patchLoop (buf : Text) (op : Char) (rbeg rend send : ℕ) :
    ℕ → ℕ → Option (Char × Text) → List Text → Option (List Text)
  | 0, point, _, patch => if point < send then none else some patch
  | fuel + 1, point, groups, patch =>
    if point < send then
      match (lookingAtLine buf point).or groups with
      | none => none
      | some groups =>
        let piece := patchPiece op (rbeg ≤ point ∧ point ≤ rend) groups
        patchLoop buf op rbeg rend send fuel (forwardLine buf point) (some groups)
          (piece.toList ++ patch)
    else some patch

/-- The patch, for what `diff-fixup-modifs` does to the text of a buffer.  The loop goes forward a
position or more for each line. -/
def magitDiffHunkRegionPatch (diffFixupModifs : Text → Text) (buf : Text) (region : Region)
    (sec : HunkSection) (args : List Text) : Option Text :=
  let op := if "--reverse".toList ∈ args then '+' else '-'
  let rbeg := magitDiffHunkRegionBeginning buf region
  (patchLoop buf op rbeg region.stop sec.stop (sec.stop - sec.start) sec.start none []).map
    fun patch => diffFixupModifs patch.reverse.flatten

/-! ## One line after another -/

/-- The region touches a line of `len` characters, its newline not counted. -/
def Region.touches (region : Region) (bol len : ℕ) : Bool :=
  region.beginning ≤ bol + len ∧ bol ≤ region.stop

/-- Lines, each with the position it begins at. -/
def placeLines : ℕ → List Text → List (ℕ × Text)
  | _, [] => []
  | bol, line :: lines => (bol, line) :: placeLines (bol + line.length + 1) lines

/-- What becomes of a line that begins at a position. -/
def regionLine (op : Char) (region : Region) (l : ℕ × Text) : Option Text :=
  match l.2 with
  | [] => none
  | c :: rest => patchPiece op (region.touches l.1 l.2.length) (c, rest)

/-- The newline behind a piece is kept. -/
theorem patchPiece_newline (op : Char) (inside : Bool) (c : Char) (rest : Text) :
    patchPiece op inside (c, rest ++ ['\n'])
      = (patchPiece op inside (c, rest)).map (· ++ ['\n']) := by
  unfold patchPiece
  split_ifs <;> rfl

variable {buf post : Text} {p : ℕ}

/-- A line is looked at as its first character and the rest with its newline. -/
theorem lookingAtLine_line {c : Char} {rest : Text} (hline : '\n' ∉ c :: rest)
    (h : textFrom buf p = c :: rest ++ '\n' :: post) :
    lookingAtLine buf p = some (c, rest ++ ['\n']) := by
  rw [List.mem_cons, not_or] at hline
  rw [lookingAtLine, h, List.cons_append]
  dsimp only
  rw [if_pos ⟨Ne.symm hline.1, List.mem_append_right _ List.mem_cons_self⟩,
    lineText_append hline.2]

/-- **The loop makes one choice for each line.** -/
theorem patchLoop_unlines (op : Char) (region : Region) {lines : List Text}
    (hlines : ∀ l ∈ lines, l ≠ [] ∧ '\n' ∉ l) (hp : 1 ≤ p)
    (h : textFrom buf p = unlines lines ++ post) {fuel : ℕ} (hfuel : lines.length ≤ fuel)
    (groups : Option (Char × Text)) (patch : List Text) :
    patchLoop buf op (posBol buf region.beginning) region.stop (p + (unlines lines).length) fuel p
        groups patch
      = some ((((placeLines p lines).filterMap (regionLine op region)).map (· ++ ['\n'])).reverse
        ++ patch) := by
  induction lines generalizing p fuel groups patch with
  | nil =>
    rw [unlines_nil, List.length_nil, Nat.add_zero]
    cases fuel <;> exact if_neg (Nat.lt_irrefl p)
  | cons line lines ih =>
    obtain ⟨hne, hline⟩ := hlines line List.mem_cons_self
    obtain ⟨c, rest, rfl⟩ := List.exists_cons_of_ne_nil hne
    cases fuel with
    | zero => simp at hfuel
    | succ fuel =>
      have h : textFrom buf p = c :: rest ++ '\n' :: (unlines lines ++ post) := by
        rw [h, unlines_cons, List.append_assoc]
        rfl
      have hlt : p < p + (unlines ((c :: rest) :: lines)).length := by
        rw [length_unlines_cons]
        omega
      have hinside : decide (posBol buf region.beginning ≤ p ∧ p ≤ region.stop)
          = region.touches p (c :: rest).length :=
        decide_eq_decide.mpr (and_congr_left fun _ => posBol_le_iff_line hp hline h _)
      have hsend : p + (unlines ((c :: rest) :: lines)).length
          = p + (c :: rest).length + 1 + (unlines lines).length := by
        rw [length_unlines_cons]
        omega
      rw [patchLoop, if_pos hlt, lookingAtLine_line hline h, Option.some_or]
      dsimp only
      rw [hinside, patchPiece_newline, forwardLine_line hp hline h, hsend,
        ih (fun l hl => hlines l (List.mem_cons_of_mem _ hl)) (by omega) (textFrom_line hp h)
          (Nat.le_of_succ_le_succ hfuel), placeLines, List.filterMap_cons, regionLine]
      dsimp only
      cases patchPiece op (region.touches p (c :: rest).length) (c, rest) with
      | none => rfl
      | some piece =>
        rw [Option.map_some, Option.toList_some, List.map_cons, List.reverse_cons,
          List.append_assoc]

/-! ## Hunks -/

/-- The header of a hunk. -/
def IsHeader (line : Text) : Prop := (∃ rest, line = '@' :: rest) ∧ '\n' ∉ line

/-- A hunk in the unified format. -/
structure Hunk where
  header : Text
  body : List (Line Content)
  isHeader : IsHeader header
  body_line : ∀ l ∈ body, '\n' ∉ l.content.text

/-- A hunk as it is shown. -/
def Hunk.text (hunk : Hunk) : Text := unlines (hunk.header :: bodyLines hunk.body)

/-- A section of a buffer shows a hunk. -/
structure Shows (buf : Text) (sec : HunkSection) (hunk : Hunk) : Prop where
  start : 1 ≤ sec.start
  text : hunk.text <+: textFrom buf sec.start
  stop : sec.stop = sec.start + hunk.text.length

/-- A line of a hunk with the position it begins at. -/
structure Placed where
  line : Line Content
  bol : ℕ

/-- The lines of a body that begins at a position. -/
def place : ℕ → List (Line Content) → List Placed
  | _, [] => []
  | bol, l :: body => ⟨l, bol⟩ :: place (bol + (unlines (rawLines l)).length) body

/-- The lines of a hunk where they stand. -/
def Hunk.placed (hunk : Hunk) (sec : HunkSection) : List Placed :=
  place (sec.start + hunk.header.length + 1) hunk.body

namespace Placed

variable (op : LineKind) (region : Region) (l : Placed)

/-- Where the line's marker begins, if it has one. -/
def markerBol : ℕ := l.bol + (mainLine l.line).length + 1

/-- The region touches the line. -/
def touched : Bool := region.touches l.bol (mainLine l.line).length

/-- The region touches the line's marker. -/
def markerTouched : Bool := region.touches l.markerBol noEolMarker.length

/-- The line in the patch, if it is kept or converted. -/
def shown : Option (Line Content) := l.line.restrict op (l.touched region)

/-- The line is context, or the region touches it, or it is of the kind that is converted. -/
def Kept : Prop := l.line.kind = .context ∨ l.touched region ∨ l.line.kind = op

instance : Decidable (l.Kept op region) :=
  inferInstanceAs (Decidable (l.line.kind = .context ∨ l.touched region ∨ l.line.kind = op))

/-- What the patch has of the line and its marker. -/
def choice : List Text :=
  (l.shown op region).toList.map mainLine
    ++ markerLines (l.line.content.noEol && l.markerTouched region)

end Placed

/-- The lines of a hunk, and whether the region touches them. -/
def Hunk.marked (hunk : Hunk) (sec : HunkSection) (region : Region) : List (Line Content × Bool) :=
  (hunk.placed sec).map fun l => (l.line, l.touched region)

/-- The kind that `op` stands for. -/
def contextKind (args : List Text) : LineKind :=
  if "--reverse".toList ∈ args then .added else .removed

/-! ## The choices of a patch -/

theorem kindChar_contextKind (args : List Text) :
    kindChar (contextKind args) = if "--reverse".toList ∈ args then '+' else '-' := by
  rw [contextKind]
  split_ifs <;> rfl

/-- Lines behind others begin at the end of these. -/
theorem placeLines_append (bol : ℕ) (lines lines' : List Text) :
    placeLines bol (lines ++ lines')
      = placeLines bol lines ++ placeLines (bol + (unlines lines).length) lines' := by
  induction lines generalizing bol with
  | nil => rfl
  | cons line lines ih =>
    rw [List.cons_append, placeLines, placeLines, ih, length_unlines_cons, List.cons_append]
    congr 3
    omega

/-- What is kept of a line is what is left of the change. -/
theorem regionLine_mainLine (op : LineKind) (region : Region) (bol : ℕ) (l : Line Content) :
    regionLine (kindChar op) region (bol, mainLine l)
      = (l.restrict op (region.touches bol (mainLine l).length)).map mainLine := by
  obtain ⟨kind, content⟩ := l
  rw [regionLine]
  generalize region.touches bol (mainLine ⟨kind, content⟩).length = touched
  cases kind <;> cases op <;> cases touched <;> rfl

/-- A marker is kept exactly if the region touches it. -/
theorem regionLine_noEolMarker (op : LineKind) (region : Region) (bol : ℕ) :
    regionLine (kindChar op) region (bol, noEolMarker)
      = if region.touches bol noEolMarker.length then some noEolMarker else none := by
  rw [regionLine]
  generalize region.touches bol noEolMarker.length = touched
  cases op <;> cases touched <;> rfl

/-- The choices for a line and its marker. -/
theorem regionLine_rawLines (op : LineKind) (region : Region) (bol : ℕ) (l : Line Content) :
    (placeLines bol (rawLines l)).filterMap (regionLine (kindChar op) region)
      = Placed.choice op region ⟨l, bol⟩ := by
  have hmain : (placeLines bol [mainLine l]).filterMap (regionLine (kindChar op) region)
      = (Placed.shown op region ⟨l, bol⟩).toList.map mainLine := by
    rw [placeLines, placeLines, List.filterMap_cons, regionLine_mainLine, Placed.shown,
      Placed.touched]
    dsimp only
    cases l.restrict op (region.touches bol (mainLine l).length) <;> rfl
  have hmarker (bol' : ℕ) (shown : Bool) :
      (placeLines bol' (markerLines shown)).filterMap (regionLine (kindChar op) region)
        = markerLines (shown && region.touches bol' noEolMarker.length) := by
    cases shown
    · rfl
    · rw [markerLines, if_pos rfl, placeLines, placeLines, List.filterMap_cons,
        regionLine_noEolMarker, Bool.true_and]
      cases region.touches bol' noEolMarker.length <;> rfl
  rw [show rawLines l = [mainLine l] ++ markerLines l.content.noEol from rfl, placeLines_append,
    List.filterMap_append, hmain, hmarker, length_unlines_cons]
  rfl

/-- What is kept of a body is what is chosen of each line. -/
theorem regionLine_bodyLines (op : LineKind) (region : Region) (bol : ℕ)
    (body : List (Line Content)) :
    (placeLines bol (bodyLines body)).filterMap (regionLine (kindChar op) region)
      = (place bol body).flatMap (Placed.choice op region) := by
  induction body generalizing bol with
  | nil => rfl
  | cons l body ih =>
    rw [bodyLines, List.flatMap_cons, placeLines_append, List.filterMap_append,
      regionLine_rawLines, place, List.flatMap_cons]
    exact congrArg _ (ih _)

/-- What is chosen of a line is a line of a body. -/
theorem isBodyLine_of_mem_choice {op : LineKind} {region : Region} {l : Placed}
    (h : '\n' ∉ l.line.content.text) {line : Text} (hline : line ∈ l.choice op region) :
    IsBodyLine line := by
  rcases List.mem_append.mp hline with hline | hline
  · obtain ⟨l', hl', rfl⟩ := List.mem_map.mp hline
    refine isBodyLine_mainLine ?_
    rw [(Line.of_restrict (Option.mem_toList.mp hl')).1]
    exact h
  · exact isBodyLine_of_mem_markerLines hline

/-- **The patch is the header and the choices for the lines**, with what `diff-fixup-modifs` does
to them. -/
theorem patch_eq {sec : HunkSection} {hunk : Hunk} (h : Shows buf sec hunk)
    (diffFixupModifs : Text → Text) (region : Region) (args : List Text) :
    magitDiffHunkRegionPatch diffFixupModifs buf region sec args
      = some (diffFixupModifs (unlines (hunk.header
        :: (hunk.placed sec).flatMap (Placed.choice (contextKind args) region)))) := by
  obtain ⟨post, hpost⟩ := h.text
  obtain ⟨⟨rest, hrest⟩, hheader⟩ := hunk.isHeader
  have hlines : ∀ l ∈ hunk.header :: bodyLines hunk.body, l ≠ [] ∧ '\n' ∉ l := by
    intro l hl
    rcases List.mem_cons.mp hl with rfl | hl
    · exact ⟨by simp [hrest], hheader⟩
    · obtain ⟨hnl, c, -, rest, rfl⟩ := isBodyLine_of_mem_bodyLines hunk.body_line hl
      exact ⟨List.cons_ne_nil _ _, hnl⟩
  have hfuel : sec.stop - sec.start = hunk.text.length := by
    rw [h.stop]
    omega
  have hheaderLine : regionLine (kindChar (contextKind args)) region (sec.start, hunk.header)
      = some hunk.header := by
    rw [regionLine, hrest]
    exact if_pos (.inl List.mem_cons_self)
  have hloop := patchLoop_unlines (kindChar (contextKind args)) region hlines h.start hpost.symm
    (length_le_length_unlines _) none []
  rw [magitDiffHunkRegionPatch, magitDiffHunkRegionBeginning, hfuel, h.stop, ← kindChar_contextKind]
  refine (congrArg (Option.map _) hloop).trans ?_
  rw [Option.map_some, List.append_nil, List.reverse_reverse, ← List.flatMap_def, placeLines,
    List.filterMap_cons, hheaderLine]
  dsimp only
  rw [regionLine_bodyLines]
  rfl

end Magit.RegionPatch

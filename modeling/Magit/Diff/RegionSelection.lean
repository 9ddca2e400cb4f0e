import Magit.Diff.RegionPatch

/-!
# Diff/RegionSelection — what a region's patch has of a hunk's markers and changes

The patch for a region chooses an end-of-file marker like a line of its own, so that the marker
stays with its line only if the region and the line agree about it (`markers_kept_iff`).  Without
markers the patch is the restriction of the hunk to what the region touches, and so leads from one
side of the hunk to where the selected changes alone lead (`selects_exactly`).
-/

namespace Magit.RegionPatch

open Diff Emacs UnifiedDiff

variable {buf : Text}

/-! ## Markers that stay with their lines -/

/-- What is relied on of `diff-fixup-modifs`: of a hunk it changes the header. -/
def FixesHeader (diffFixupModifs : Text → Text) : Prop :=
  ∀ header lines, IsHeader header → (∀ l ∈ lines, IsBodyLine l) → ∃ header', IsHeader header'
    ∧ diffFixupModifs (unlines (header :: lines)) = unlines (header' :: lines)

/-- The patch's lines, kept or converted, are each followed by a marker exactly if they are in the
hunk. -/
def MarkersKept (diffFixupModifs : Text → Text) (buf : Text) (region : Region) (sec : HunkSection)
    (args : List Text) (hunk : Hunk) : Prop :=
  ∃ header, IsHeader header ∧ magitDiffHunkRegionPatch diffFixupModifs buf region sec args
    = some (unlines (header
      :: bodyLines (restrict (contextKind args) (hunk.marked sec region))))

/-- The region touches the marker of a line exactly if the line is kept. -/
def Agrees (op : LineKind) (region : Region) (l : Placed) : Prop :=
  l.line.content.noEol → (l.Kept op region ↔ l.markerTouched region)

instance (op : LineKind) (region : Region) (l : Placed) : Decidable (Agrees op region l) :=
  inferInstanceAs (Decidable (_ → _))

/-- All lines agree with their markers; or all but a kept line whose marker the region does not
touch and, behind it and dropped lines only, a dropped line whose marker it touches. -/
def MarkersAgree (op : LineKind) (region : Region) (placed : List Placed) : Prop :=
  (∀ l ∈ placed, Agrees op region l)
    ∨ ∃ before kept dropped stray after, placed = before ++ kept :: (dropped ++ stray :: after)
      ∧ (∀ l ∈ before, Agrees op region l)
      ∧ (kept.Kept op region ∧ kept.line.content.noEol ∧ ¬ kept.markerTouched region)
      ∧ (∀ l ∈ dropped, ¬ l.Kept op region ∧ Agrees op region l)
      ∧ (¬ stray.Kept op region ∧ stray.line.content.noEol ∧ stray.markerTouched region)
      ∧ ∀ l ∈ after, Agrees op region l

/-- Reading on, with a marker owed to the line kept last or not: it must be paid before the next
line that is kept, and no other line's marker comes. -/
def Settles (op : LineKind) (region : Region) : Bool → List Placed → Prop
  | owed, [] => owed = false
  | owed, l :: placed =>
    if l.Kept op region then
      owed = false ∧ Settles op region (l.line.content.noEol && !l.markerTouched region) placed
    else if l.line.content.noEol && l.markerTouched region then
      owed = true ∧ Settles op region false placed
    else Settles op region owed placed

section

variable {op : LineKind} {region : Region} {owed : Bool} {l : Placed} {placed : List Placed}

/-- A line that is kept is shown with its content. -/
theorem shown_of_kept (h : l.Kept op region) :
    ∃ l', l.shown op region = some l' ∧ l'.content = l.line.content := by
  rw [Placed.shown, Line.restrict]
  split_ifs with hstay hop
  · exact ⟨_, rfl, rfl⟩
  · exact ⟨_, rfl, rfl⟩
  · rcases h with h | h | h
    · exact absurd (.inl h) hstay
    · exact absurd (.inr h) hstay
    · exact absurd h hop

theorem shown_of_not_kept (h : ¬ l.Kept op region) : l.shown op region = none := by
  rw [Placed.Kept, not_or, not_or] at h
  rw [Placed.shown, Line.restrict, if_neg (not_or.mpr ⟨h.1, h.2.1⟩), if_neg h.2.2]

/-- No body begins with a marker. -/
theorem bodyLines_ne_noEolMarker_cons (body : List (Line Content)) (lines : List Text) :
    bodyLines body ≠ noEolMarker :: lines := by
  cases body with
  | nil => exact (List.cons_ne_nil _ _).symm
  | cons l body => exact fun h => mainLine_ne_noEolMarker l (List.cons.inj h).1

/-- **The choices are the lines with their own markers exactly if the markers settle.** -/
theorem choices_eq_iff (op : LineKind) (region : Region) (owed : Bool) (placed : List Placed) :
    placed.flatMap (Placed.choice op region)
        = markerLines owed ++ bodyLines (placed.filterMap (Placed.shown op region))
      ↔ Settles op region owed placed := by
  induction placed generalizing owed with
  | nil => cases owed <;> simp [Settles, markerLines, bodyLines]
  | cons l placed ih =>
    rw [List.flatMap_cons, List.filterMap_cons, Settles, Placed.choice]
    by_cases hkept : l.Kept op region
    · obtain ⟨l', hl', hcontent⟩ := shown_of_kept hkept
      rw [hl', if_pos hkept, bodyLines, List.flatMap_cons, rawLines, hcontent, ← bodyLines]
      cases owed with
      | true =>
        refine iff_of_false (fun h => ?_) fun h => Bool.noConfusion h.1
        exact mainLine_ne_noEolMarker l' (List.cons.inj h).1
      | false =>
        rw [← ih, eq_self, true_and]
        cases l.line.content.noEol <;> cases l.markerTouched region <;>
          simp [markerLines]
    · rw [shown_of_not_kept hkept, if_neg hkept]
      dsimp only
      cases l.line.content.noEol && l.markerTouched region with
      | false => exact ih owed
      | true =>
        rw [if_pos rfl, ← ih]
        cases owed with
        | true => simp [markerLines]
        | false =>
          refine iff_of_false (fun h => ?_) fun h => Bool.noConfusion h.1
          exact bodyLines_ne_noEolMarker_cons _ _ h.symm

/-- Lines that agree with their markers leave nothing owed. -/
theorem settles_append_of_agrees {before : List Placed} (h : ∀ l ∈ before, Agrees op region l) :
    Settles op region false (before ++ placed) ↔ Settles op region false placed := by
  induction before with
  | nil => rfl
  | cons l before ih =>
    have hl := h l List.mem_cons_self
    have hrest := ih fun l' h' => h l' (List.mem_cons_of_mem _ h')
    rw [List.cons_append, Settles]
    by_cases hkept : l.Kept op region
    · have hpaid : (l.line.content.noEol && !l.markerTouched region) = false := by
        rw [Bool.and_eq_false_imp, Bool.not_eq_false']
        exact fun hnoEol => (hl hnoEol).mp hkept
      rw [if_pos hkept, hpaid, eq_self, true_and, hrest]
    · have hnone : (l.line.content.noEol && l.markerTouched region) = false := by
        rw [Bool.and_eq_false_imp, ← Bool.not_eq_true]
        exact fun hnoEol htouched => hkept ((hl hnoEol).mpr htouched)
      rw [if_neg hkept, hnone, if_neg Bool.false_ne_true, hrest]

theorem agrees_of_dropped (hkept : ¬ l.Kept op region)
    (hstray : ¬ (l.line.content.noEol && l.markerTouched region) = true) : Agrees op region l :=
  fun hnoEol => iff_of_false hkept fun htouched =>
    hstray (Bool.and_eq_true_iff.mpr ⟨hnoEol, htouched⟩)

/-- A kept line agrees if its marker is kept with it. -/
theorem agrees_of_paid (hkept : l.Kept op region)
    (hpaid : ¬ (l.line.content.noEol && !l.markerTouched region) = true) : Agrees op region l := by
  refine fun hnoEol => iff_of_true hkept ?_
  rw [hnoEol, Bool.true_and, Bool.not_eq_true', Bool.not_eq_false] at hpaid
  exact hpaid

/-- A dropped line whose marker is dropped changes nothing. -/
theorem settles_cons_of_dropped (hkept : ¬ l.Kept op region) (hl : Agrees op region l) :
    Settles op region owed (l :: placed) ↔ Settles op region owed placed := by
  have hnone : (l.line.content.noEol && l.markerTouched region) = false := by
    rw [Bool.and_eq_false_imp, ← Bool.not_eq_true]
    exact fun hnoEol htouched => hkept ((hl hnoEol).mpr htouched)
  rw [Settles, if_neg hkept, hnone, if_neg Bool.false_ne_true]

/-- **An owed marker is paid** by a dropped line's, behind dropped lines only. -/
theorem settles_true_iff : Settles op region true placed
    ↔ ∃ dropped stray after, placed = dropped ++ stray :: after
      ∧ (∀ l ∈ dropped, ¬ l.Kept op region ∧ Agrees op region l)
      ∧ (¬ stray.Kept op region ∧ stray.line.content.noEol ∧ stray.markerTouched region)
      ∧ Settles op region false after := by
  constructor
  · intro h
    induction placed with
    | nil => exact Bool.noConfusion h
    | cons l placed ih =>
      rw [Settles] at h
      split_ifs at h with hkept hstray
      · exact h.1.elim
      · exact ⟨[], l, placed, rfl, fun _ h' => absurd h' List.not_mem_nil,
          ⟨hkept, Bool.and_eq_true_iff.mp hstray⟩, h.2⟩
      · obtain ⟨dropped, stray, after, rfl, hdropped, hrest⟩ := ih h
        refine ⟨l :: dropped, stray, after, rfl, fun l' h' => ?_, hrest⟩
        rcases List.mem_cons.mp h' with rfl | h'
        · exact ⟨hkept, agrees_of_dropped hkept hstray⟩
        · exact hdropped l' h'
  · rintro ⟨dropped, stray, after, rfl, hdropped, ⟨hkept, hnoEol, htouched⟩, hafter⟩
    induction dropped with
    | nil =>
      rw [List.nil_append, Settles, if_neg hkept, hnoEol, htouched]
      exact ⟨rfl, hafter⟩
    | cons l dropped ih =>
      obtain ⟨hl, hagrees⟩ := hdropped l List.mem_cons_self
      rw [List.cons_append, settles_cons_of_dropped hl hagrees]
      exact ih fun l' h' => hdropped l' (List.mem_cons_of_mem _ h')

/-- Where no marker in the region follows one outside it, only agreement settles. -/
theorem agrees_of_settles
    (hends : placed.Pairwise fun l l' => l'.markerTouched region → l.markerTouched region)
    (h : Settles op region false placed) : ∀ l ∈ placed, Agrees op region l := by
  induction placed with
  | nil => exact fun _ h' => absurd h' List.not_mem_nil
  | cons l placed ih =>
    obtain ⟨hfirst, hends⟩ := List.pairwise_cons.mp hends
    rw [Settles] at h
    split_ifs at h with hkept hstray
    · by_cases hpaid : (l.line.content.noEol && !l.markerTouched region) = true
      · rw [hpaid] at h
        obtain ⟨dropped, stray, after, rfl, -, ⟨-, -, htouched⟩, -⟩ := settles_true_iff.mp h.2
        have hl := hfirst stray (List.mem_append_right _ List.mem_cons_self) htouched
        rw [hl, Bool.not_true, Bool.and_false] at hpaid
        exact Bool.noConfusion hpaid
      · rw [Bool.eq_false_iff.mpr hpaid] at h
        exact List.forall_mem_cons.mpr ⟨agrees_of_paid hkept hpaid, ih hends h.2⟩
    · exact h.1.elim
    · exact List.forall_mem_cons.mpr ⟨agrees_of_dropped hkept hstray, ih hends h⟩

/-- The region touches what is between two markers that it touches. -/
theorem markerTouched_of_between {l₁ l₂ l₃ : Placed} (h₁₂ : l₁.markerBol < l₂.markerBol)
    (h₂₃ : l₂.markerBol < l₃.markerBol) (h₁ : l₁.markerTouched region)
    (h₃ : l₃.markerTouched region) : l₂.markerTouched region := by
  rw [Placed.markerTouched, Region.touches, decide_eq_true_eq] at h₁ h₃ ⊢
  omega

/-- The markers agree if the first line does and the others do. -/
theorem markersAgree_cons (hl : Agrees op region l) (h : MarkersAgree op region placed) :
    MarkersAgree op region (l :: placed) := by
  rcases h with h | ⟨before, kept, dropped, stray, after, rfl, hbefore, hrest⟩
  · exact .inl (List.forall_mem_cons.mpr ⟨hl, h⟩)
  · exact .inr ⟨l :: before, kept, dropped, stray, after, rfl,
      List.forall_mem_cons.mpr ⟨hl, hbefore⟩, hrest⟩

/-- **Markers that settle agree**: the region is in one piece. -/
theorem markersAgree_of_settles
    (horder : placed.Pairwise fun l l' => l.markerBol < l'.markerBol)
    (h : Settles op region false placed) : MarkersAgree op region placed := by
  induction placed with
  | nil => exact .inl fun _ h' => absurd h' List.not_mem_nil
  | cons l placed ih =>
    obtain ⟨-, horder⟩ := List.pairwise_cons.mp horder
    rw [Settles] at h
    split_ifs at h with hkept hstray
    · by_cases hpaid : (l.line.content.noEol && !l.markerTouched region) = true
      · rw [hpaid] at h
        obtain ⟨dropped, stray, after, rfl, hdropped, hstray, hafter⟩ := settles_true_iff.mp h.2
        obtain ⟨-, horder, -⟩ := List.pairwise_append.mp horder
        obtain ⟨hfirst, horder⟩ := List.pairwise_cons.mp horder
        have hends := horder.imp_of_mem fun {l₂ l₃} h₂ _ h₂₃ h₃ =>
          markerTouched_of_between (hfirst l₂ h₂) h₂₃ hstray.2.2 h₃
        have hl : l.line.content.noEol = true ∧ ¬ l.markerTouched region = true := by
          rw [Bool.and_eq_true_iff, Bool.not_eq_true'] at hpaid
          exact ⟨hpaid.1, Bool.eq_false_iff.mp hpaid.2⟩
        exact .inr ⟨[], l, dropped, stray, after, rfl, fun _ h' => absurd h' List.not_mem_nil,
          ⟨hkept, hl⟩, hdropped, hstray, agrees_of_settles hends hafter⟩
      · rw [Bool.eq_false_iff.mpr hpaid] at h
        exact markersAgree_cons (agrees_of_paid hkept hpaid) (ih horder h.2)
    · exact h.1.elim
    · exact markersAgree_cons (agrees_of_dropped hkept hstray) (ih horder h)

/-- With markers that agree, nothing is owed. -/
theorem settles_of_markersAgree (h : MarkersAgree op region placed) :
    Settles op region false placed := by
  rcases h with h | ⟨before, kept, dropped, stray, after, rfl, hbefore, ⟨hkept, hnoEol, htouched⟩,
    hdropped, hstray, hafter⟩
  · rw [← List.append_nil placed, settles_append_of_agrees h]
    rfl
  · have hrest : Settles op region false after := by
      rw [← List.append_nil after, settles_append_of_agrees hafter]
      rfl
    rw [settles_append_of_agrees hbefore, Settles, if_pos hkept, hnoEol,
      Bool.eq_false_iff.mpr htouched]
    exact ⟨rfl, settles_true_iff.mpr ⟨dropped, stray, after, rfl, hdropped, hstray, hrest⟩⟩

end

theorem le_bol_of_mem_place {bol : ℕ} {body : List (Line Content)} {l : Placed}
    (h : l ∈ place bol body) : bol ≤ l.bol := by
  induction body generalizing bol with
  | nil => exact absurd h List.not_mem_nil
  | cons line body ih =>
    rcases List.mem_cons.mp h with rfl | h
    · exact le_rfl
    · exact (Nat.le_add_right _ _).trans (ih h)

/-- The markers stand in the order of the lines. -/
theorem pairwise_place (bol : ℕ) (body : List (Line Content)) :
    (place bol body).Pairwise fun l l' => l.markerBol < l'.markerBol := by
  induction body generalizing bol with
  | nil => exact .nil
  | cons line body ih =>
    refine List.pairwise_cons.mpr ⟨fun l hl => ?_, ih _⟩
    have hbol := le_bol_of_mem_place hl
    rw [rawLines, length_unlines_cons] at hbol
    rw [Placed.markerBol, Placed.markerBol]
    dsimp only
    omega

theorem line_of_mem_place {bol : ℕ} {body : List (Line Content)} {l : Placed}
    (h : l ∈ place bol body) : l.line ∈ body := by
  induction body generalizing bol with
  | nil => exact absurd h List.not_mem_nil
  | cons line body ih =>
    rcases List.mem_cons.mp h with rfl | h
    · exact List.mem_cons_self
    · exact List.mem_cons_of_mem _ (ih h)

theorem map_line_place (bol : ℕ) (body : List (Line Content)) :
    (place bol body).map Placed.line = body := by
  induction body generalizing bol with
  | nil => rfl
  | cons line body ih => rw [place, List.map_cons, ih]

variable {diffFixupModifs : Text → Text} {sec : HunkSection} {hunk : Hunk}

/-- Restricting keeps lines without newlines. -/
theorem body_line_restrict (op : LineKind) (region : Region) :
    ∀ l ∈ restrict op (hunk.marked sec region), '\n' ∉ l.content.text := by
  intro l hl
  obtain ⟨m, hm, hl⟩ := List.mem_filterMap.mp hl
  obtain ⟨l', hl', rfl⟩ := List.mem_map.mp hm
  rw [(Line.of_restrict hl).1]
  exact hunk.body_line _ (line_of_mem_place hl')

/-- The patch has the markers kept exactly if the choices are the lines with their own markers. -/
theorem markersKept_iff_settles (hfix : FixesHeader diffFixupModifs) (h : Shows buf sec hunk)
    (region : Region) (args : List Text) :
    MarkersKept diffFixupModifs buf region sec args hunk
      ↔ Settles (contextKind args) region false (hunk.placed sec) := by
  set op := contextKind args with hop
  have hchoices : ∀ l ∈ (hunk.placed sec).flatMap (Placed.choice op region), IsBodyLine l := by
    intro l hl
    obtain ⟨l', hl', hl⟩ := List.mem_flatMap.mp hl
    exact isBodyLine_of_mem_choice (hunk.body_line _ (line_of_mem_place hl')) hl
  obtain ⟨header, hheader, heq⟩ := hfix _ _ hunk.isHeader hchoices
  have hrestrict : restrict op (hunk.marked sec region)
      = (hunk.placed sec).filterMap (Placed.shown op region) := List.filterMap_map
  refine Iff.trans ?_ (choices_eq_iff op region false _)
  rw [MarkersKept, patch_eq h, heq, ← hop, ← hrestrict]
  constructor
  · rintro ⟨header', hheader', heq'⟩
    have hlines := unlines_inj ?_ ?_ (Option.some.inj heq')
    · exact (List.cons.inj hlines).2
    · exact List.forall_mem_cons.mpr ⟨hheader.2, fun l hl => (hchoices l hl).1⟩
    · exact List.forall_mem_cons.mpr ⟨hheader'.2, fun l hl =>
        (isBodyLine_of_mem_bodyLines (body_line_restrict op region) hl).1⟩
  · intro hlines
    exact ⟨header, hheader, congrArg (fun lines => some (unlines (header :: lines))) hlines⟩

/-- **When every marker stays with its line**: exactly if the lines agree with their markers. -/
theorem markers_kept_iff (hfix : FixesHeader diffFixupModifs) (h : Shows buf sec hunk)
    (region : Region) (args : List Text) :
    MarkersKept diffFixupModifs buf region sec args hunk
      ↔ MarkersAgree (contextKind args) region (hunk.placed sec) := by
  rw [markersKept_iff_settles hfix h]
  exact ⟨markersAgree_of_settles (pairwise_place _ _), settles_of_markersAgree⟩

/-- What `diff-fixup-modifs` does to one patch. -/
def recount (header header' : Text) (lines : List Text) (text : Text) : Text :=
  if text = unlines (header :: lines) then unlines (header' :: lines) else text

/-- Counting the lines anew fixes the header. -/
theorem fixesHeader_recount {header header' : Text} {lines : List Text}
    (h : ∀ l ∈ header :: lines, '\n' ∉ l) (h' : IsHeader header') :
    FixesHeader (recount header header' lines) := by
  intro first rest hfirst hrest
  rw [recount]
  split_ifs with heq
  · have hlines := unlines_inj
      (List.forall_mem_cons.mpr ⟨hfirst.2, fun l hl => (hrest l hl).1⟩) h heq
    exact ⟨header', h', by rw [(List.cons.inj hlines).2]⟩
  · exact ⟨first, hfirst, rfl⟩

/-- A line is replaced by one that ends the file without a newline. -/
def lastLineHunk : Hunk where
  header := "@@ -1 +1 @@".toList
  body := [⟨.removed, "a".toList, false⟩, ⟨.added, "b".toList, true⟩]
  isHeader := ⟨⟨_, rfl⟩, by decide⟩
  body_line := by decide

/-- The section that shows the hunk. -/
def lastLineSection : HunkSection := ⟨1, 1 + lastLineHunk.text.length⟩

theorem shows_lastLineHunk : Shows lastLineHunk.text lastLineSection lastLineHunk :=
  ⟨le_rfl, List.prefix_rfl, rfl⟩

/-- `diff-fixup-modifs` on the patches for a region of that hunk. -/
def lastLineFixup (lines : List Text) : Text → Text :=
  recount "@@ -1 +1 @@".toList "@@ -1,1 +1,2 @@".toList lines

/-- The region touches the added line and its marker. -/
theorem markers_kept_lastLine : MarkersKept
    (lastLineFixup [" a".toList, "+b".toList, noEolMarker]) lastLineHunk.text
    ⟨16, 19, by decide⟩ lastLineSection [] lastLineHunk :=
  (markers_kept_iff (fixesHeader_recount (by decide) ⟨⟨_, rfl⟩, by decide⟩) shows_lastLineHunk _
    _).mpr (.inl (by decide))

/-- The region touches the added line but not its marker, which the patch drops: it adds the line
with a newline. -/
theorem marker_lost :
    FixesHeader (lastLineFixup [" a".toList, "+b".toList])
      ∧ Shows lastLineHunk.text lastLineSection lastLineHunk
      ∧ magitDiffHunkRegionPatch (lastLineFixup [" a".toList, "+b".toList]) lastLineHunk.text
          ⟨16, 18, by decide⟩ lastLineSection []
        = some "@@ -1,1 +1,2 @@\n a\n+b\n".toList
      ∧ ¬ MarkersKept (lastLineFixup [" a".toList, "+b".toList]) lastLineHunk.text
          ⟨16, 18, by decide⟩ lastLineSection [] lastLineHunk := by
  have hpatch : magitDiffHunkRegionPatch (lastLineFixup [" a".toList, "+b".toList])
      lastLineHunk.text ⟨16, 18, by decide⟩ lastLineSection []
        = some "@@ -1,1 +1,2 @@\n a\n+b\n".toList := by decide +kernel
  refine ⟨fixesHeader_recount (by decide) ⟨⟨_, rfl⟩, by decide⟩, shows_lastLineHunk, hpatch, ?_⟩
  rintro ⟨header, hheader, heq⟩
  have hlines : bodyLines (restrict (contextKind []) (lastLineHunk.marked lastLineSection
      ⟨16, 18, by decide⟩)) = [" a".toList, "+b".toList, noEolMarker] := by decide
  rw [hpatch, hlines, show "@@ -1,1 +1,2 @@\n a\n+b\n".toList
    = unlines ["@@ -1,1 +1,2 @@".toList, " a".toList, "+b".toList] from rfl] at heq
  have hlength := congrArg List.length (unlines_inj (by decide)
    (List.forall_mem_cons.mpr ⟨hheader.2, by decide⟩) (Option.some.inj heq))
  exact absurd (show 3 = 4 from hlength) (by decide)

/-! ## Exactly the selected changes -/

/-- A patch for the selected changes of a hunk: from the old side, or with `--reverse` from the new
side, it leads where these changes alone lead. -/
structure SelectsExactly (args : List Text) (hunk P : Hunk)
    (marked : List (Line Content × Bool)) : Prop where
  forward : "--reverse".toList ∉ args →
    oldSide P.body = oldSide hunk.body ∧ newSide P.body = applied marked
  reverse : "--reverse".toList ∈ args →
    newSide P.body = newSide hunk.body ∧ oldSide P.body = undone marked
  /-- The changes in the patch are the selected ones, in their order. -/
  changes : Diff.changes P.body = selectedChanges marked
  /-- The patch's lines are lines of the hunk in their order, some of them turned into context. -/
  order : List.SublistForall₂
    (fun l' l : Line Content => l'.content = l.content ∧ (l'.kind = l.kind ∨ l'.kind = .context))
    P.body hunk.body

theorem map_fst_marked (hunk : Hunk) (sec : HunkSection) (region : Region) :
    (hunk.marked sec region).map Prod.fst = hunk.body := by
  rw [Hunk.marked, List.map_map]
  exact map_line_place _ hunk.body

/-- The restriction of a hunk selects exactly. -/
theorem selectsExactly_of_body {P : Hunk} {args : List Text} {region : Region}
    (h : P.body = restrict (contextKind args) (hunk.marked sec region)) :
    SelectsExactly args hunk P (hunk.marked sec region) where
  forward hargs := by
    rw [h, contextKind, if_neg hargs, oldSide_restrict_removed, newSide_restrict_removed,
      map_fst_marked]
    exact ⟨rfl, rfl⟩
  reverse hargs := by
    rw [h, contextKind, if_pos hargs, newSide_restrict_added, oldSide_restrict_added,
      map_fst_marked]
    exact ⟨rfl, rfl⟩
  changes := by
    rw [h]
    exact changes_restrict _ _
  order := by
    have horder := sublist_restrict (hunk.marked sec region) (contextKind args)
    rw [map_fst_marked, ← h] at horder
    exact horder

/-- **The patch for a region has exactly the changes that the region touches**, whatever the hunk,
the region and the direction, if the hunk has no end-of-file markers. -/
theorem selects_exactly (hfix : FixesHeader diffFixupModifs) (h : Shows buf sec hunk)
    (hmarkers : ∀ l ∈ hunk.body, l.content.noEol = false) (region : Region) (args : List Text) :
    ∃ P : Hunk, magitDiffHunkRegionPatch diffFixupModifs buf region sec args = some P.text
      ∧ SelectsExactly args hunk P (hunk.marked sec region) := by
  have hagree : ∀ l ∈ hunk.placed sec, Agrees (contextKind args) region l := by
    intro l hl hnoEol
    rw [hmarkers _ (line_of_mem_place hl)] at hnoEol
    exact Bool.noConfusion hnoEol
  obtain ⟨header, hheader, hpatch⟩ := (markersKept_iff_settles hfix h region args).mpr
    (settles_of_markersAgree (.inl hagree))
  exact ⟨⟨header, _, hheader, body_line_restrict _ _⟩, hpatch, selectsExactly_of_body rfl⟩

/-- A line is replaced by another. -/
def replacedLineHunk : Hunk where
  header := "@@ -1,2 +1,2 @@".toList
  body := [⟨.context, "a".toList, false⟩, ⟨.removed, "b".toList, false⟩,
    ⟨.added, "c".toList, false⟩]
  isHeader := ⟨⟨_, rfl⟩, by decide⟩
  body_line := by decide

/-- The region touches the removed line. -/
theorem selects_exactly_replacedLine :
    ∃ P : Hunk, magitDiffHunkRegionPatch
        (recount "@@ -1,2 +1,2 @@".toList "@@ -1,2 +1,1 @@".toList [" a".toList, "-b".toList])
        replacedLineHunk.text ⟨20, 21, by decide⟩ ⟨1, 1 + replacedLineHunk.text.length⟩ []
        = some P.text
      ∧ SelectsExactly [] replacedLineHunk P
        (replacedLineHunk.marked ⟨1, 1 + replacedLineHunk.text.length⟩ ⟨20, 21, by decide⟩) :=
  selects_exactly (fixesHeader_recount (by decide) ⟨⟨_, rfl⟩, by decide⟩)
    ⟨le_rfl, List.prefix_rfl, rfl⟩ (by decide) _ _

end Magit.RegionPatch

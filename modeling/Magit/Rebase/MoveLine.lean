import Magit.Rebase.InstructionArea

/-!
# Rebase/MoveLine — moving lines of the todo list

`git-rebase-move-line-down` narrows the buffer to what is in front of the newline before the first
comment.  Where an empty line precedes it, as in the lists that Git writes, that is the lines of the
instructions, and a block is moved among them (`moveLines`).  Where none does, the last instruction
is without its newline, and a block that is moved behind it is joined with it.
-/

namespace Magit.GitRebase

open Emacs

/-- A buffer, point and the region. -/
structure TodoBuffer where
  text : List Char
  sel : Selection

/-- The positions of a block that is moved from one place to another. -/
def Selection.shift (sel : Selection) (beg beg' : ℕ) : Selection where
  point := beg' + sel.point - beg
  region := sel.region.map fun r => (beg' + r.1 - beg, beg' + r.2 - beg)

/-- What `git-rebase-move-line-down` does once it has found the lines to move, and where the
instructions end.  Where it rings the bell, or the narrowing signals, the buffer is as it was. -/
def moveWithin (n : ℤ) (b : TodoBuffer) (beg fin pointMax : ℕ) : TodoBuffer :=
  if pointMax = 0 then b
  else if (n < 0 ∧ beg = 1) ∨ (0 < n ∧ fin = pointMax) ∨ pointMax < fin then b
  else
    let p := forwardLines (b.text.take (pointMax - 1)) (if n < 0 then beg else fin) n
    let point := ((Marker.mk p false).deleted beg fin).pos
    { text := insertText (deleteText b.text beg fin) point (region b.text beg fin)
      sel := b.sel.shift beg point }

/-- `git-rebase-move-line-down`; none if it is still looking for the end of the instructions. -/
def gitRebaseMoveLineDown (cs : CommentStart) (ct : CaseTable) (showInstructions : Bool)
    (fuel : ℕ) (n : ℤ) (b : TodoBuffer) : Option TodoBuffer :=
  let bounds := (gitRebaseRegionBounds cs b.text b.sel false).getD
    (lineBeginning b.text b.sel.point, lineEnd b.text b.sel.point + 1)
  (if showInstructions then areaEnd cs ct fuel b.text else some (b.text.length + 1)).map
    fun areaEnd => moveWithin n b bounds.1 bounds.2 (areaEnd - 1)

/-- `git-rebase-move-line-up` -/
def gitRebaseMoveLineUp (cs : CommentStart) (ct : CaseTable) (showInstructions : Bool)
    (fuel : ℕ) (n : ℤ) (b : TodoBuffer) : Option TodoBuffer :=
  gitRebaseMoveLineDown cs ct showInstructions fuel (-n) b

/-! ## What it is to move lines -/

/-- The lines up to the first comment. -/
def passedLines (cs : CommentStart) (ct : CaseTable) (showInstructions : Bool) (text : List Char) :
    List (List Char) :=
  if showInstructions then (todoLines text).takeWhile (passes cs ct) else todoLines text

/-- The lines with the instructions, without the empty line that separates them from the
comments. -/
def instructionArea (passed : List (List Char)) : List (List Char) :=
  if passed.getLast? = some [] then passed.dropLast else passed

/-- The place among the other lines to which lines are moved. -/
def destination (pre post : List (List Char)) (n : ℤ) : ℕ :=
  min (pre.length + n).toNat (pre ++ post).length

/-- The lines would be moved out of the area. -/
def Clamped (pre post : List (List Char)) (n : ℤ) : Prop :=
  pre.length + n < 0 ∨ (pre.length + post.length : ℤ) < pre.length + n

/-- The lines are moved among the others, which keep their order, and the region with them. -/
def moved (pre block post : List (List Char)) (n : ℤ) (rest : List Char) (sel : Selection) :
    TodoBuffer where
  text := unlines ((pre ++ post).take (destination pre post n)) ++ unlines block
    ++ unlines ((pre ++ post).drop (destination pre post n)) ++ rest
  sel := sel.shift ((unlines pre).length + 1)
    ((unlines ((pre ++ post).take (destination pre post n))).length + 1)

/-! ## Cutting lines out and putting them back -/

section

variable {pre block post : List (List Char)} {rest : List Char} {b : TodoBuffer}

theorem Selection.shift_self (sel : Selection) (beg : ℕ) : sel.shift beg beg = sel := by
  cases sel with
  | mk point region =>
    cases region with
    | none => simp [Selection.shift]
    | some r => simp [Selection.shift]

/-- Lines that stay where they are. -/
theorem moved_self {n : ℤ} (htext : b.text = unlines (pre ++ block ++ post) ++ rest)
    (h : destination pre post n = pre.length) : moved pre block post n rest b.sel = b := by
  cases b with
  | mk text sel =>
    have htake : (pre ++ post).take pre.length = pre := List.take_left
    have hdrop : (pre ++ post).drop pre.length = post := List.drop_left
    rw [moved, h, htake, hdrop, Selection.shift_self, ← unlines_append, ← unlines_append, ← htext]

/-- Deleting the lines of a block. -/
theorem deleteText_block (htext : b.text = unlines (pre ++ block ++ post) ++ rest) :
    deleteText b.text ((unlines pre).length + 1) ((unlines (pre ++ block)).length + 1)
      = unlines (pre ++ post) ++ rest := by
  have hpre : b.text = unlines pre ++ (unlines block ++ (unlines post ++ rest)) := by
    rw [htext, unlines_append, unlines_append]
    simp only [List.append_assoc]
  have hblock : b.text = unlines (pre ++ block) ++ (unlines post ++ rest) := by
    rw [htext, unlines_append, List.append_assoc]
  rw [deleteText, Nat.add_sub_cancel, Nat.add_sub_cancel]
  nth_rewrite 1 [hpre]
  rw [List.take_left, hblock, List.drop_left, unlines_append, List.append_assoc]

/-- The region of a block is its lines. -/
theorem region_block (htext : b.text = unlines (pre ++ block ++ post) ++ rest) :
    region b.text ((unlines pre).length + 1) ((unlines (pre ++ block)).length + 1)
      = unlines block := by
  have hpre : b.text = unlines pre ++ unlines block ++ (unlines post ++ rest) := by
    rw [htext, unlines_append, unlines_append]
    simp only [List.append_assoc]
  rw [hpre, unlines_append]
  exact region_point (unlines pre) (unlines block) _

/-- Inserting at the position of a line. -/
theorem insertText_linePos (lines : List (List Char)) (d : ℕ) (piece rest : List Char) :
    insertText (unlines lines ++ rest) (linePos lines d) piece
      = unlines (lines.take d) ++ piece ++ unlines (lines.drop d) ++ rest := by
  have htext : unlines lines ++ rest
      = unlines (lines.take d) ++ (unlines (lines.drop d) ++ rest) := by
    rw [← List.append_assoc, ← unlines_append, List.take_append_drop]
  rw [insertText, linePos, Nat.add_sub_cancel, htext, List.take_left, List.drop_left]
  simp only [List.append_assoc]

theorem length_unlines_take (lines : List (List Char)) (i : ℕ) :
    (unlines (lines.take i)).length ≤ (unlines lines).length := by
  have heq := congrArg List.length (unlines_append (lines.take i) (lines.drop i))
  rw [List.take_append_drop, List.length_append] at heq
  omega

/-- Where point is when the lines behind it have been cut out. -/
theorem deleted_up (block : List (List Char)) {n : ℤ} (hn : n < 0) (fin : ℕ) :
    ((Marker.mk (linePos (pre ++ block ++ post) (min (pre.length + n).toNat
        (pre ++ block ++ post).length)) false).deleted ((unlines pre).length + 1) fin).pos
      = linePos (pre ++ post) (destination pre post n) := by
  obtain ⟨j, hj⟩ : ∃ j, (pre.length + n).toNat = j := ⟨_, rfl⟩
  have hle : j ≤ pre.length := by omega
  have hdestination : destination pre post n = j := by
    rw [destination, hj, Nat.min_eq_left (by rw [List.length_append]; omega)]
  have harea : min j (pre ++ block ++ post).length = j := by
    rw [List.length_append, List.length_append]
    omega
  have htake : ∀ more, linePos (pre ++ more) j = linePos pre j := fun more => by
    rw [linePos, linePos, List.take_append_of_le_length hle]
  rw [hj, harea, hdestination, List.append_assoc, htake, htake, Marker.deleted, if_pos]
  exact Nat.succ_le_succ (length_unlines_take pre j)

/-- The same when the lines are in front of it. -/
theorem deleted_down (hblock : block ≠ []) {n : ℤ} (hn : 0 ≤ n) :
    ((Marker.mk (linePos (pre ++ block ++ post) (min ((pre ++ block).length + n).toNat
        (pre ++ block ++ post).length)) false).deleted ((unlines pre).length + 1)
          ((unlines (pre ++ block)).length + 1)).pos
      = linePos (pre ++ post) (destination pre post n) := by
  obtain ⟨k, hk, hle⟩ : ∃ k, k = min n.toNat post.length ∧ k ≤ post.length :=
    ⟨_, rfl, Nat.min_le_right _ _⟩
  have hdestination : destination pre post n = pre.length + k := by
    rw [destination, List.length_append]
    omega
  have harea : min (((pre ++ block).length : ℕ) + n).toNat (pre ++ block ++ post).length
      = (pre ++ block).length + k := by
    have hlength : (pre ++ block ++ post).length = (pre ++ block).length + post.length :=
      List.length_append
    omega
  have hpos : 0 < (unlines block).length :=
    Nat.lt_of_lt_of_le (List.length_pos_iff.mpr hblock) (length_le_length_unlines block)
  rw [harea, hdestination, linePos, linePos, List.take_length_add_append,
    List.take_length_add_append, Marker.deleted, if_neg]
  · simp only [unlines_append, List.length_append]
    omega
  · simp only [unlines_append, List.length_append]
    omega

/-- **Lines are moved** among the other ones of the area, if that ends in a newline. -/
theorem moveWithin_eq (hlines : ∀ l ∈ pre ++ block ++ post, '\n' ∉ l) (hblock : block ≠ [])
    (htext : b.text = unlines (pre ++ block ++ post) ++ rest) (n : ℤ) :
    moveWithin n b ((unlines pre).length + 1) ((unlines (pre ++ block)).length + 1)
        ((unlines (pre ++ block ++ post)).length + 1)
      = moved pre block post n rest b.sel := by
  rw [moveWithin, if_neg (Nat.succ_ne_zero _)]
  split
  next hding =>
    refine (moved_self htext ?_).symm
    rcases hding with ⟨hn, hpre⟩ | ⟨hn, hpost⟩ | hfin
    · have hnil : pre.length = 0 := by
        have := length_le_length_unlines pre
        omega
      rw [destination, hnil]
      omega
    · have hnil : post.length = 0 := by
        rw [unlines_append (pre ++ block), List.length_append] at hpost
        have := length_le_length_unlines post
        omega
      rw [destination, List.length_append, hnil]
      omega
    · rw [unlines_append (pre ++ block), List.length_append] at hfin
      omega
  next =>
    have hnarrowed : b.text.take ((unlines (pre ++ block ++ post)).length + 1 - 1)
        = unlines (pre ++ block ++ post) := by
      rw [htext, Nat.add_sub_cancel, List.take_left]
    have hpoint : ((Marker.mk (forwardLines (unlines (pre ++ block ++ post))
        (if n < 0 then (unlines pre).length + 1 else (unlines (pre ++ block)).length + 1) n)
          false).deleted ((unlines pre).length + 1) ((unlines (pre ++ block)).length + 1)).pos
        = linePos (pre ++ post) (destination pre post n) := by
      have hbeg : (unlines pre).length + 1 = linePos (pre ++ block ++ post) pre.length := by
        rw [linePos, List.append_assoc, List.take_left]
      have hfin : (unlines (pre ++ block)).length + 1
          = linePos (pre ++ block ++ post) (pre ++ block).length := by
        rw [linePos, List.take_left]
      by_cases hn : n < 0
      · have hup := forwardLines_linePos hlines (i := pre.length)
          (by simp only [List.length_append]; omega) n
        rw [← hbeg] at hup
        rw [if_pos hn, hup]
        exact deleted_up block hn _
      · have hdown := forwardLines_linePos hlines (i := (pre ++ block).length)
          (by simp only [List.length_append]; omega) n
        rw [← hfin] at hdown
        rw [if_neg hn, hdown]
        exact deleted_down hblock (by omega)
    dsimp only
    rw [hnarrowed, hpoint, deleteText_block htext, region_block htext, insertText_linePos]
    rfl

end

/-! ## The instructions -/

section

variable (cs : CommentStart) (ct : CaseTable) (showInstructions : Bool)

/-- The lines with the instructions are followed by an empty line, and then by a comment unless
comments are not shown. -/
structure Instructions (text : List Char) (area : List (List Char)) (rest : List Char) : Prop where
  text_eq : text = unlines area ++ '\n' :: rest
  notMem : ∀ l ∈ area, '\n' ∉ l
  passes : showInstructions = true → ∀ l ∈ area, passes cs ct l = true
  stops : showInstructions = true → GitRebase.passes cs ct (lineText rest) = false
  ends : showInstructions = false → rest = []

variable {cs ct showInstructions} {text before rest : List Char} {area lines : List (List Char)}

/-- The test at the beginning of what is behind some lines. -/
theorem inArea_lineText (hbefore : completed before = before) (htext : text = before ++ rest) :
    inArea cs ct text (before.length + 1) = GitRebase.passes cs ct (lineText rest) := by
  have hsplit : rest = lineText rest ++ rest.dropWhile (· != '\n') :=
    (List.takeWhile_append_dropWhile (p := (· != '\n'))).symm
  have hnotMem : '\n' ∉ lineText rest := fun hmem =>
    absurd (List.mem_takeWhile_imp hmem) (by decide)
  have htext' : text = before ++ lineText rest ++ rest.dropWhile (· != '\n') := by
    rw [List.append_assoc, ← hsplit, htext]
  rcases hend : rest.dropWhile (· != '\n') with _ | ⟨c, more⟩
  · rw [hend] at htext'
    exact inArea_last cs ct ⟨htext', hbefore, hnotMem, .inl rfl⟩
  · have hc : c = '\n' := by
      have hhead := List.head?_dropWhile_not (· != '\n') rest
      rw [hend] at hhead
      simpa using hhead
    subst hc
    rw [hend] at htext'
    exact inArea_line cs ct ⟨htext', hbefore, hnotMem, .inr ⟨more, rfl⟩⟩

/-- The loop passes over lines up to one that stops it. -/
theorem whileLoop_passing (hstop : GitRebase.passes cs ct (lineText rest) = false)
    (hlines : ∀ l ∈ lines, '\n' ∉ l ∧ GitRebase.passes cs ct l = true)
    (hbefore : completed before = before) (htext : text = before ++ (unlines lines ++ rest)) :
    whileLoop (inArea cs ct text) (forwardLine text) (lines.length + 1) (before.length + 1)
      = some ((before ++ unlines lines).length + 1) := by
  induction lines generalizing before with
  | nil =>
    rw [unlines_nil, List.append_nil]
    exact whileLoop_of_false ((inArea_lineText hbefore htext).trans hstop)
  | cons line lines ih =>
    obtain ⟨⟨hline, hpass⟩, hmore⟩ := List.forall_mem_cons.mp hlines
    have hfirst : Line text before line ('\n' :: (unlines lines ++ rest)) := by
      refine ⟨?_, hbefore, hline, .inr ⟨_, rfl⟩⟩
      rw [htext, unlines_cons]
      simp only [List.append_assoc, List.cons_append]
    have hnext : forwardLine text (before.length + 1) = (before ++ line ++ ['\n']).length + 1 := by
      rw [hfirst.forwardLine le_rfl (by omega), List.length_append, List.length_append,
        List.length_singleton]
    have htext' : text = before ++ line ++ ['\n'] ++ (unlines lines ++ rest) := by
      rw [hfirst.text_eq]
      simp only [List.append_assoc, List.cons_append, List.nil_append]
    rw [List.length_cons, whileLoop_of_true ((inArea_line cs ct hfirst).trans hpass), hnext,
      ih hmore (completed_append_newline _) htext', unlines_cons]
    simp only [List.append_assoc, List.cons_append, List.nil_append]

/-- The area of the instructions ends behind them. -/
theorem Instructions.areaEnd (h : Instructions cs ct showInstructions text area rest) :
    ∃ fuel, (if showInstructions then areaEnd cs ct fuel text else some (text.length + 1))
      = some ((unlines area).length + 2) := by
  have hblank : unlines (area ++ [[]]) = unlines area ++ ['\n'] := by
    rw [unlines_append, unlines_cons, unlines_nil]
    rfl
  cases hshow : showInstructions with
  | false =>
    refine ⟨0, congrArg some ?_⟩
    rw [h.text_eq, h.ends hshow, List.length_append, List.length_singleton]
  | true =>
    refine ⟨(area ++ [[]]).length + 1, ?_⟩
    have hlines : ∀ l ∈ area ++ [[]], '\n' ∉ l ∧ GitRebase.passes cs ct l = true := by
      intro l hl
      rcases List.mem_append.mp hl with hl | hl
      · exact ⟨h.notMem l hl, h.passes hshow l hl⟩
      · rw [List.mem_singleton.mp hl]
        exact ⟨List.not_mem_nil, by simp [GitRebase.passes]⟩
    have htext : text = unlines (area ++ [[]]) ++ rest := by
      rw [hblank, List.append_assoc, h.text_eq]
      rfl
    have hloop : whileLoop (inArea cs ct text) (forwardLine text) ((area ++ [[]]).length + 1) 1
        = some ((unlines (area ++ [[]])).length + 1) := by
      have hnil : completed ([] : List Char) = [] := rfl
      simpa only [List.nil_append, List.length_nil, Nat.zero_add] using
        whileLoop_passing (h.stops hshow) hlines hnil (htext.trans (List.nil_append _).symm)
    rw [if_pos rfl, GitRebase.areaEnd, hloop, Option.map_some,
      lineBeginning_append (p := (unlines (area ++ [[]])).length + 1) htext rfl,
      completed_unlines, hblank, List.length_append, List.length_singleton]

/-! ## The lines to move -/

variable {b : TodoBuffer} {pre post : List (List Char)} {last tail : List Char} {sel : Selection}

/-- The bounds of the lines, also where `git-rebase-region-bounds` gives none. -/
theorem regionBounds_getD (h : Selected text sel pre lines last tail)
    (hinst : sel.region.isSome = true →
      (isInstruction cs (lines.headD last) && isInstruction cs last) = true) :
    (gitRebaseRegionBounds cs text sel false).getD
        (lineBeginning text sel.point, lineEnd text sel.point + 1)
      = ((unlines pre).length + 1, (unlines (pre ++ (lines ++ [last]))).length + 1) := by
  have hfin : (unlines pre ++ unlines lines).length + last.length + 2
      = (unlines (pre ++ (lines ++ [last]))).length + 1 := by
    simp only [unlines_append, unlines_cons, unlines_nil, List.length_append, List.length_cons,
      List.length_nil]
    omega
  cases hregion : sel.region with
  | some r =>
    have hsome : sel.region.isSome = true := by rw [hregion]; rfl
    rw [h.regionBounds (by rw [hsome, Bool.true_or]), if_pos (hinst hsome), Option.getD_some, hfin]
  | none =>
    have hbeg : sel.beg = sel.point := by rw [Selection.beg, hregion]; rfl
    have hend : sel.fin = sel.point := by rw [Selection.fin, hregion]; rfl
    have hbounds : gitRebaseRegionBounds cs text sel false = none := by
      rw [gitRebaseRegionBounds, hregion]
      rfl
    have hbeginning := h.lineBeginning
    have hending := h.lineEnd
    rw [hbeg] at hbeginning
    rw [hend] at hending
    rw [hbounds, Option.getD_none, hbeginning, hending, hfin]

/-- Down, or up if the number is negative, wherever the bounds come from. -/
theorem exists_moveLineDown_of_bounds {block : List (List Char)}
    (harea : Instructions cs ct showInstructions b.text (pre ++ block ++ post) rest)
    (hblock : block ≠ [])
    (hbounds : (gitRebaseRegionBounds cs b.text b.sel false).getD
        (lineBeginning b.text b.sel.point, lineEnd b.text b.sel.point + 1)
      = ((unlines pre).length + 1, (unlines (pre ++ block)).length + 1)) (n : ℤ) :
    ∃ fuel, gitRebaseMoveLineDown cs ct showInstructions fuel n b
      = some (moved pre block post n ('\n' :: rest) b.sel) := by
  obtain ⟨fuel, hfuel⟩ := harea.areaEnd
  refine ⟨fuel, ?_⟩
  rw [gitRebaseMoveLineDown, hbounds]
  dsimp only
  rw [hfuel, Option.map_some]
  exact congrArg some (moveWithin_eq harea.notMem hblock harea.text_eq n)

/-- **Moving the selected lines down** puts them behind the ones they pass. -/
theorem exists_moveLineDown (h : Selected b.text b.sel pre lines last tail)
    (hinst : b.sel.region.isSome = true →
      (isInstruction cs (lines.headD last) && isInstruction cs last) = true)
    (harea : Instructions cs ct showInstructions b.text (pre ++ (lines ++ [last]) ++ post) rest)
    (n : ℤ) :
    ∃ fuel, gitRebaseMoveLineDown cs ct showInstructions fuel n b
      = some (moved pre (lines ++ [last]) post n ('\n' :: rest) b.sel) :=
  exists_moveLineDown_of_bounds harea (by simp) (regionBounds_getD h hinst) n

/-! ## There and back -/

theorem Selection.beg_shift (sel : Selection) (beg beg' : ℕ) :
    (sel.shift beg beg').beg = beg' + sel.beg - beg := by
  cases sel with
  | mk point region => cases region <;> rfl

theorem Selection.fin_shift (sel : Selection) (beg beg' : ℕ) :
    (sel.shift beg beg').fin = beg' + sel.fin - beg := by
  cases sel with
  | mk point region => cases region <;> rfl

/-- Shifting a selection there and back leaves it as it was. -/
theorem Selection.shift_shift {beg : ℕ} (hpoint : beg ≤ sel.point)
    (hregion : ∀ r ∈ sel.region, beg ≤ r.1 ∧ beg ≤ r.2) (beg' : ℕ) :
    (sel.shift beg beg').shift beg' beg = sel := by
  have hback : ∀ {p : ℕ}, beg ≤ p → beg + (beg' + p - beg) - beg' = p := fun hp => by omega
  cases sel with
  | mk point region =>
    cases region with
    | none => rw [shift, shift, Option.map_none, Option.map_none, hback hpoint]
    | some r =>
      obtain ⟨hbeg, hfin⟩ := hregion r rfl
      rw [shift, shift, Option.map_some, Option.map_some, hback hpoint, hback hbeg, hback hfin]

/-- The lines where they have been moved to are selected again. -/
theorem selected_moved (h : Selected b.text b.sel pre lines last tail)
    (harea : Instructions cs ct showInstructions b.text (pre ++ (lines ++ [last]) ++ post) rest)
    (n : ℤ) :
    ∃ tail', Selected (moved pre (lines ++ [last]) post n ('\n' :: rest) b.sel).text
      (moved pre (lines ++ [last]) post n ('\n' :: rest) b.sel).sel
      ((pre ++ post).take (destination pre post n)) lines last tail' := by
  obtain ⟨hbeg, hbeg'⟩ := h.begins
  obtain ⟨hfin, hfin'⟩ := h.ends
  rw [List.length_append] at hfin hfin'
  refine ⟨'\n' :: (unlines ((pre ++ post).drop (destination pre post n)) ++ '\n' :: rest),
    ?_, fun l hl => harea.notMem l ?_, h.notMem, .inr ⟨_, rfl⟩, ?_, ?_⟩
  · rw [moved]
    simp only [unlines_append, unlines_cons, unlines_nil, List.append_assoc, List.cons_append,
      List.nil_append]
  · have hl := List.mem_of_mem_take hl
    simp only [List.mem_append] at hl ⊢
    exact hl.imp .inl id
  · rw [moved]
    dsimp only
    rw [Selection.beg_shift]
    omega
  · rw [moved]
    dsimp only
    rw [Selection.fin_shift, List.length_append]
    omega

/-- The area with lines moved is one of instructions. -/
theorem instructions_moved (harea : Instructions cs ct showInstructions text
    (pre ++ lines ++ post) rest) (n : ℤ) (sel : Selection) :
    Instructions cs ct showInstructions (moved pre lines post n ('\n' :: rest) sel).text
      ((pre ++ post).take (destination pre post n) ++ lines
        ++ (pre ++ post).drop (destination pre post n)) rest := by
  have hmem : ∀ l, l ∈ (pre ++ post).take (destination pre post n) ++ lines
      ++ (pre ++ post).drop (destination pre post n) → l ∈ pre ++ lines ++ post := by
    intro l hl
    have htake : l ∈ (pre ++ post).take (destination pre post n) → l ∈ pre ++ post :=
      List.mem_of_mem_take
    have hdrop : l ∈ (pre ++ post).drop (destination pre post n) → l ∈ pre ++ post :=
      List.mem_of_mem_drop
    simp only [List.mem_append] at hl htake hdrop ⊢
    tauto
  refine ⟨?_, fun l hl => harea.notMem l (hmem l hl),
    fun hshow l hl => harea.passes hshow l (hmem l hl), harea.stops, harea.ends⟩
  rw [moved]
  simp only [unlines_append]

/-- What is moved back is where it was. -/
theorem moved_moved (htext : b.text = unlines (pre ++ lines ++ post) ++ rest)
    (hpoint : (unlines pre).length + 1 ≤ b.sel.point)
    (hregion : ∀ r ∈ b.sel.region, (unlines pre).length + 1 ≤ r.1 ∧ (unlines pre).length + 1 ≤ r.2)
    {n : ℤ} (hn : ¬Clamped pre post n) :
    moved ((pre ++ post).take (destination pre post n)) lines
        ((pre ++ post).drop (destination pre post n)) (-n) rest
        (moved pre lines post n rest b.sel).sel
      = b := by
  rw [Clamped, not_or] at hn
  have hdestination : destination pre post n = (pre.length + n).toNat := by
    rw [destination, List.length_append]
    omega
  have hlength : ((pre ++ post).take (destination pre post n)).length = (pre.length + n).toNat := by
    rw [List.length_take, hdestination, List.length_append]
    omega
  have hback : destination ((pre ++ post).take (destination pre post n))
      ((pre ++ post).drop (destination pre post n)) (-n) = pre.length := by
    rw [destination, List.take_append_drop, hlength, List.length_append]
    omega
  cases b with
  | mk text sel =>
    rw [moved, hback, List.take_append_drop]
    rw [List.take_left, List.drop_left, ← unlines_append, ← unlines_append, ← htext, moved]
    dsimp only
    rw [Selection.shift_shift hpoint hregion]

/-- **Moving lines permutes them** — where an empty line stands between the instructions and the
comments, the lines are moved among the other ones, as far as there are any; and moving them back
again is the identity unless they were stopped at the end. -/
theorem moveLines (h : Selected b.text b.sel pre lines last tail)
    (hpoint : b.sel.beg ≤ b.sel.point)
    (hinst : b.sel.region.isSome = true →
      (isInstruction cs (lines.headD last) && isInstruction cs last) = true)
    (harea : Instructions cs ct showInstructions b.text (pre ++ (lines ++ [last]) ++ post) rest)
    (n : ℤ) :
    (∃ fuel, gitRebaseMoveLineDown cs ct showInstructions fuel n b
      = some (moved pre (lines ++ [last]) post n ('\n' :: rest) b.sel)) ∧
    (∃ fuel, gitRebaseMoveLineUp cs ct showInstructions fuel n b
      = some (moved pre (lines ++ [last]) post (-n) ('\n' :: rest) b.sel)) ∧
    (¬Clamped pre post n → ∃ fuel, gitRebaseMoveLineUp cs ct showInstructions fuel n
      (moved pre (lines ++ [last]) post n ('\n' :: rest) b.sel) = some b) := by
  refine ⟨exists_moveLineDown h hinst harea n, exists_moveLineDown h hinst harea (-n),
    fun hn => ?_⟩
  obtain ⟨tail', hselected⟩ := selected_moved h harea n
  have hregion : ∀ r ∈ b.sel.region, (unlines pre).length + 1 ≤ r.1 ∧
      (unlines pre).length + 1 ≤ r.2 := by
    intro r hr
    have hbeg := h.begins.1
    have hfin := h.ends.1
    rw [Selection.beg, hr] at hbeg
    rw [Selection.fin, hr, List.length_append] at hfin
    exact ⟨hbeg, by exact Nat.le_trans (by omega) hfin⟩
  have hisSome : (moved pre (lines ++ [last]) post n ('\n' :: rest) b.sel).sel.region.isSome
      = b.sel.region.isSome := Option.isSome_map
  have hup := exists_moveLineDown hselected (fun hsome => hinst (hisSome ▸ hsome))
    (instructions_moved harea n b.sel) (-n)
  rw [moved_moved harea.text_eq (h.begins.1.trans hpoint) hregion hn] at hup
  exact hup

end

/-! ## Two picks -/

/-- A line. -/
def pickA : List Char := "pick a".toList

/-- Another line. -/
def pickB : List Char := "pick b".toList

/-- Point is on the first one. -/
def picks : TodoBuffer := ⟨unlines ([] ++ [pickA] ++ [pickB]) ++ '\n' :: "# c\n".toList, ⟨1, none⟩⟩

theorem instructions_picks : Instructions .hash .exact true picks.text
    ([] ++ [pickA] ++ [pickB]) "# c\n".toList := by
  have hall : ∀ {p : List Char → Prop}, p pickA → p pickB →
      ∀ l ∈ [] ++ [pickA] ++ [pickB], p l := by
    intro p ha hb
    exact List.forall_mem_cons.mpr ⟨ha, List.forall_mem_singleton.mpr hb⟩
  exact ⟨rfl, hall (by decide) (by decide), fun _ => hall (by decide) (by decide),
    fun _ => by decide, fun h => absurd h (by decide)⟩

/-- In the example the line goes down and comes up again. -/
theorem moveLines_picks :
    ∃ fuel, gitRebaseMoveLineUp .hash .exact true fuel 1
      (moved [] [pickA] [pickB] 1 ('\n' :: "# c\n".toList) picks.sel) = some picks := by
  have hselected : Selected picks.text picks.sel [] [] pickA
      ('\n' :: (unlines [pickB] ++ '\n' :: "# c\n".toList)) :=
    ⟨by decide, fun _ hl => absurd hl List.not_mem_nil,
      List.forall_mem_singleton.mpr (by decide), .inr ⟨_, rfl⟩, by decide, by decide⟩
  exact (moveLines hselected (by decide) (fun h => absurd h (by decide)) instructions_picks 1).2.2
    (by rw [Clamped]; decide)

/-- Without the empty line. -/
example : gitRebaseMoveLineDown .hash .exact true 9 1 ⟨"pick a\npick b\n# c\n".toList, ⟨1, none⟩⟩
    = some ⟨"pick bpick a\n\n# c\n".toList, ⟨7, none⟩⟩ := by
  rfl

end Magit.GitRebase

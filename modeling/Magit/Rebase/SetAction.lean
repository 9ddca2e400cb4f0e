import Mathlib.Data.List.Forall2
import Magit.Emacs.WhileLoop
import Magit.Rebase.CommitLine

/-!
# Rebase/SetAction — setting the action of commit lines

`git-rebase-set-action` goes from line to line, up to a marker behind the last one that moves along
with the text that is inserted in front of it.  A line that ends in a newline is replaced in place
(`setActionLine_line`); the newline of the last line of the buffer may be missing, and then the
deletion of that line signals.
-/

namespace Magit.GitRebase

open Emacs

/-- The buffer, point, and `end-marker`. -/
structure Edit where
  text : List Char
  point : ℕ
  endMarker : Marker

namespace Edit

/-- `(insert piece)` -/
def insert (e : Edit) (piece : List Char) : Edit where
  text := insertText e.text e.point piece
  point := e.point + piece.length
  endMarker := e.endMarker.inserted e.point piece.length

/-- `(forward-line)` -/
def forwardLine (e : Edit) : Edit := { e with point := Emacs.forwardLine e.text e.point }

/-- `magit-delete-line` -/
def magitDeleteLine (e : Edit) : Option Edit :=
  if lineEnd e.text e.point + 1 ≤ e.text.length + 1 then
    some { e with
      text := deleteText e.text e.point (lineEnd e.text e.point + 1)
      endMarker := e.endMarker.deleted e.point (lineEnd e.text e.point + 1) }
  else none

end Edit

/-- One round of the loop; none if it signals. -/
def setActionLine (cs : CommentStart) (action : Option CommitAction) (e : Edit) : Option Edit :=
  let line := currentLine cs (lineAt e.text e.point)
  match action with
  | some a =>
    if line.actionType = some .commit then
      e.magitDeleteLine.map fun e =>
        e.insert (a.name ++ ' ' :: (line.target.getD [] ++ ' ' :: line.trailer.getD []) ++ ['\n'])
    else some e.forwardLine
  | none =>
    if line.actionType.isSome && !line.commentP then
      some (e.insert (cs.text ++ [' '])).forwardLine
    else some e.forwardLine

/-- Point is before the marker. -/
def Edit.before (e : Edit) : Bool := e.point < e.endMarker.pos

/-- `git-rebase-set-action`, up to the position of point: the text it leaves; none if it signals. -/
def gitRebaseSetAction (cs : CommentStart) (action : Option CommitAction) (text : List Char)
    (sel : Selection) : Option (List Char) :=
  match gitRebaseRegionBounds cs text sel true with
  | some bounds =>
    ((whileLoop (·.any Edit.before) (·.bind (setActionLine cs action)) (text.length + 1)
        (some ⟨text, bounds.1, ⟨min bounds.2 (text.length + 1), true⟩⟩)).bind id).map Edit.text
  | none => some text

section

variable {cs : CommentStart} {action : Option CommitAction} {e : Edit} {d n : ℕ}
  {before line rest : List Char} {lines : List (List Char)}

/-! ## One line -/

/-- Point is between the two texts, and the marker some characters behind it. -/
def Edit.at (before rest : List Char) (d : ℕ) : Edit :=
  ⟨before ++ rest, before.length + 1, ⟨before.length + 1 + d, true⟩⟩

/-- What is inserted is in front of point, and the marker moves along. -/
theorem Edit.insert_at (piece : List Char) :
    (Edit.at before rest d).insert piece = .at (before ++ piece) rest d := by
  have hpoint : before.length + 1 + piece.length = (before ++ piece).length + 1 := by
    rw [List.length_append]
    omega
  have hmarker : before.length + 1 + d + piece.length = (before ++ piece).length + 1 + d := by
    omega
  rw [Edit.at, Edit.insert, Edit.at]
  dsimp only
  rw [insertText_append rfl rfl, Marker.inserted_of_ge (Nat.le_add_right _ _) rfl]
  dsimp only
  rw [hpoint, hmarker]

/-- The line that point is on. -/
theorem Edit.lineAt_at (hbefore : completed before = before) (hline : '\n' ∉ line)
    (hrest : rest = [] ∨ ∃ more, rest = '\n' :: more) :
    lineAt (Edit.at before (line ++ rest) d).text (Edit.at before (line ++ rest) d).point
      = line := by
  have h : Line (before ++ (line ++ rest)) before line rest :=
    ⟨(List.append_assoc _ _ _).symm, hbefore, hline, hrest⟩
  exact h.lineAt le_rfl (Nat.add_le_add_right (Nat.le_add_right _ _) 1)

/-- The line that point is on is deleted with its newline. -/
theorem Edit.magitDeleteLine_at (hbefore : completed before = before) (hline : '\n' ∉ line) :
    (Edit.at before (line ++ '\n' :: rest) (line.length + 1 + d)).magitDeleteLine
      = some (.at before rest d) := by
  have h : Line (before ++ (line ++ '\n' :: rest)) before line ('\n' :: rest) :=
    ⟨(List.append_assoc _ _ _).symm, hbefore, hline, .inr ⟨rest, rfl⟩⟩
  have hlength : (line ++ ['\n']).length = line.length + 1 := List.length_append
  have hend : lineEnd (before ++ (line ++ '\n' :: rest)) (before.length + 1) + 1
      = before.length + (line ++ ['\n']).length + 1 := by
    rw [h.lineEnd le_rfl (Nat.add_le_add_right (Nat.le_add_right _ _) 1), hlength]
    rfl
  have htext : before ++ (line ++ '\n' :: rest) = before ++ (line ++ ['\n']) ++ rest := by
    simp only [List.append_assoc, List.cons_append, List.nil_append]
  have hbound : before.length + (line ++ ['\n']).length + 1
      ≤ (before ++ (line ++ '\n' :: rest)).length + 1 := by
    rw [htext, List.length_append]
    simp only [List.length_append]
    omega
  have hmarker : before.length + 1 + (line.length + 1 + d)
      - (before.length + (line ++ ['\n']).length + 1 - (before.length + 1))
        = before.length + 1 + d := by
    omega
  rw [Edit.magitDeleteLine, Edit.at, Edit.at]
  dsimp only
  rw [hend, if_pos hbound, deleteText_append htext rfl rfl,
    Marker.deleted_of_ge (by omega) (by dsimp only; omega)]
  dsimp only
  rw [hmarker]

/-- Point goes behind the newline of its line. -/
theorem Edit.forwardLine_at (hline : '\n' ∉ line) :
    (Edit.at before (line ++ '\n' :: rest) (line.length + 1 + d)).forwardLine
      = .at (before ++ line ++ ['\n']) rest d := by
  have hfrom : textFrom (before ++ (line ++ '\n' :: rest)) (before.length + 1)
      = line ++ '\n' :: rest := by
    rw [textFrom, Nat.add_sub_cancel, List.drop_left]
  have htext : before ++ (line ++ '\n' :: rest) = before ++ line ++ ['\n'] ++ rest := by
    simp only [List.append_assoc, List.cons_append, List.nil_append]
  have hlength : (before ++ line ++ ['\n']).length = before.length + line.length + 1 := by
    rw [List.length_append, List.length_append, List.length_singleton]
  have hmarker : before.length + 1 + (line.length + 1 + d)
      = before.length + line.length + 1 + 1 + d := by
    omega
  rw [Edit.forwardLine, Edit.at, Edit.at]
  dsimp only
  rw [forwardLine_line (Nat.le_add_left 1 _) hline hfrom, htext, hlength, hmarker,
    Nat.add_right_comm before.length 1]

/-- A line that ends in a newline is replaced, and point is behind it. -/
theorem setActionLine_line (hbefore : completed before = before) (hline : '\n' ∉ line) :
    setActionLine cs action (.at before (line ++ '\n' :: rest) (line.length + 1 + d))
      = some (.at (before ++ lineAfter cs action line ++ ['\n']) rest d) := by
  have hat := Edit.lineAt_at (d := line.length + 1 + d) hbefore hline (.inr ⟨rest, rfl⟩)
  rcases action with _ | a
  · rw [setActionLine, lineAfter, hat]
    split
    · have hkilled : before ++ (cs.text ++ [' ']) ++ line = before ++ (cs.text ++ ' ' :: line) := by
        simp only [List.append_assoc, List.cons_append, List.nil_append]
      rw [Edit.insert_at, Edit.forwardLine_at hline, hkilled]
    · rw [Edit.forwardLine_at hline]
  · rw [setActionLine, lineAfter, hat]
    split
    · rw [Edit.magitDeleteLine_at hbefore hline, Option.map_some, Edit.insert_at, ← List.append_assoc]
    · rw [Edit.forwardLine_at hline]

/-! ## All lines -/

/-- The loop ends when point has reached the end marker. -/
theorem whileLoop_stop {e : Edit} (h : e.endMarker.pos ≤ e.point) :
    whileLoop (·.any Edit.before) (·.bind (setActionLine cs action)) (n + 1) (some e)
      = some (some e) := by
  refine whileLoop_of_false ?_
  rw [Option.any_some, Edit.before, decide_eq_false_iff_not]
  omega

/-- A round for each line that ends in a newline. -/
theorem whileLoop_lines (hbefore : completed before = before) (hlines : ∀ l ∈ lines, '\n' ∉ l) :
    whileLoop (·.any Edit.before) (·.bind (setActionLine cs action)) (n + lines.length)
        (some (.at before (unlines lines ++ rest) ((unlines lines).length + d)))
      = whileLoop (·.any Edit.before) (·.bind (setActionLine cs action)) n
        (some (.at (before ++ unlines (lines.map (lineAfter cs action))) rest d)) := by
  induction lines generalizing before with
  | nil =>
    rw [List.length_nil, List.map_nil, unlines_nil, List.append_nil, List.nil_append,
      List.length_nil, Nat.zero_add, Nat.add_zero]
  | cons line lines ih =>
    obtain ⟨hline, hlines⟩ := List.forall_mem_cons.mp hlines
    have hbefore' : completed (before ++ lineAfter cs action line ++ ['\n'])
        = before ++ lineAfter cs action line ++ ['\n'] := completed_append_newline _
    have htest : (some (Edit.at before (line ++ '\n' :: (unlines lines ++ rest))
        (line.length + 1 + ((unlines lines).length + d)))).any Edit.before = true := by
      rw [Option.any_some, Edit.before, Edit.at, decide_eq_true_eq]
      dsimp only
      omega
    rw [unlines_cons, List.append_assoc, List.cons_append, ← unlines_cons, length_unlines_cons,
      List.length_cons, Nat.add_assoc (line.length + 1), ← Nat.add_assoc, whileLoop_of_true htest,
      Option.bind_some, setActionLine_line hbefore hline, ih hbefore' hlines, List.map_cons,
      unlines_cons]
    simp only [List.append_assoc, List.cons_append, List.nil_append]

/-- From the last line, where its newline is missing, point goes to the end. -/
theorem Edit.forwardLine_last (hline : '\n' ∉ line) :
    (Edit.at before line line.length).forwardLine = .at (before ++ line) [] 0 := by
  have hfrom : textFrom (before ++ line) (before.length + 1) = line := by
    rw [textFrom, Nat.add_sub_cancel, List.drop_left]
  have hlength : before.length + 1 + line.length = (before ++ line).length + 1 := by
    rw [List.length_append]
    omega
  rw [Edit.forwardLine, Edit.at, Edit.at]
  dsimp only
  rw [Emacs.forwardLine, hfrom, lineText_of_notMem hline, hlength,
    Nat.min_eq_right (Nat.le_succ _), List.append_nil, Nat.add_zero]

/-- To delete that line signals. -/
theorem Edit.magitDeleteLine_last (hbefore : completed before = before) (hline : '\n' ∉ line) :
    (Edit.at before line d).magitDeleteLine = none := by
  have h : Line (before ++ line) before line [] :=
    ⟨(List.append_nil _).symm, hbefore, hline, .inl rfl⟩
  have hend : ¬lineEnd (before ++ line) (before.length + 1) + 1 ≤ (before ++ line).length + 1 := by
    rw [h.lineEnd le_rfl (Nat.add_le_add_right (Nat.le_add_right _ _) 1), List.length_append]
    omega
  rw [Edit.magitDeleteLine, Edit.at]
  exact if_neg hend

/-- The last line of the buffer, where its newline is missing. -/
theorem setActionLine_last (hbefore : completed before = before) (hline : '\n' ∉ line) :
    setActionLine cs action (.at before line line.length)
      = if action ≠ none ∧ (currentLine cs line).actionType = some .commit then none
        else some (.at (before ++ lineAfter cs action line) [] 0) := by
  have hat := Edit.lineAt_at (d := line.length) hbefore hline (.inl rfl)
  rw [List.append_nil] at hat
  rcases action with _ | a
  · rw [if_neg fun hne => hne.1 rfl, setActionLine, lineAfter, hat]
    split
    · have hkilled : before ++ (cs.text ++ [' ']) ++ line = before ++ (cs.text ++ ' ' :: line) := by
        simp only [List.append_assoc, List.cons_append, List.nil_append]
      rw [Edit.insert_at, Edit.forwardLine_last hline, hkilled]
    · rw [Edit.forwardLine_last hline]
  · rw [setActionLine, lineAfter, hat]
    split
    next hcommit =>
      rw [if_pos ⟨Option.some_ne_none a, hcommit⟩, Edit.magitDeleteLine_last hbefore hline,
        Option.map_none]
    next hcommit =>
      rw [if_neg fun h => hcommit h.2, Edit.forwardLine_last hline]

/-- An instruction is not empty. -/
theorem ne_nil_of_isInstruction (h : isInstruction cs line = true) : line ≠ [] := by
  rintro rfl
  have hnil : currentLine cs [] = {} := by
    have hfound : found [] = none := by decide
    exact (currentLine_eq fun type => behindComment_of_not rfl).trans (by
      rw [List.dropWhile_nil, hfound]
      rfl : _ = ({} : RebaseAction))
  rw [isInstruction, hnil] at h
  cases h

section

variable {text last tail : List Char} {sel : Selection} {pre : List (List Char)}

/-- The loop starts in front of the selected lines, with the marker behind them. -/
theorem gitRebaseSetAction_loop (h : Selected text sel pre lines last tail)
    (hfirst : isInstruction cs (lines.headD last) = true) (hlast : isInstruction cs last = true)
    (hfuel : text.length + 1 = n)
    (hmarker : min ((unlines pre ++ unlines lines).length + last.length + 2) (text.length + 1)
      = (unlines pre).length + 1 + d) :
    gitRebaseSetAction cs action text sel
      = ((whileLoop (·.any Edit.before) (·.bind (setActionLine cs action)) n
          (some (.at (unlines pre) (unlines lines ++ last ++ tail) d))).bind id).map Edit.text := by
  have hstart : (⟨text, (unlines pre).length + 1, ⟨(unlines pre).length + 1 + d, true⟩⟩ : Edit)
      = .at (unlines pre) (unlines lines ++ last ++ tail) d := by
    rw [Edit.at, h.text_eq]
    simp only [List.append_assoc]
  rw [gitRebaseSetAction, h.regionBounds (Bool.or_true _), hfirst, hlast, Bool.and_self,
    if_pos rfl]
  dsimp only
  rw [hmarker, hstart, hfuel]

/-- Every line is replaced where each of them ends in a newline. -/
theorem gitRebaseSetAction_ended {more : List Char}
    (h : Selected text sel pre lines last ('\n' :: more))
    (hfirst : isInstruction cs (lines.headD last) = true) (hlast : isInstruction cs last = true) :
    gitRebaseSetAction cs action text sel
      = some (unlines pre ++ unlines (lines.map (lineAfter cs action))
          ++ lineAfter cs action last ++ '\n' :: more) := by
  have hblock : unlines (lines ++ [last]) ++ more = unlines lines ++ last ++ '\n' :: more := by
    rw [unlines_append, unlines_cons, unlines_nil]
    simp only [List.append_assoc, List.cons_append, List.nil_append]
  have hlength : (unlines (lines ++ [last])).length = (unlines lines).length + last.length + 1 := by
    rw [unlines_append, List.length_append, length_unlines_cons, unlines_nil, List.length_nil]
    omega
  have htext : text.length = (unlines pre).length + (unlines (lines ++ [last])).length
      + more.length := by
    rw [h.text_eq, hlength]
    simp only [List.length_append, List.length_cons]
    omega
  obtain ⟨k, hk⟩ := Nat.exists_eq_add_of_le (length_le_length_unlines (lines ++ [last]))
  have hfuel : text.length + 1
      = (unlines pre).length + k + more.length + 1 + (lines ++ [last]).length := by
    omega
  have hmarker : min ((unlines pre ++ unlines lines).length + last.length + 2) (text.length + 1)
      = (unlines pre).length + 1 + ((unlines (lines ++ [last])).length + 0) := by
    rw [List.length_append]
    omega
  have hrun : whileLoop (·.any Edit.before) (·.bind (setActionLine cs action))
      ((unlines pre).length + k + more.length + 1 + (lines ++ [last]).length)
      (some (.at (unlines pre) (unlines (lines ++ [last]) ++ more)
        ((unlines (lines ++ [last])).length + 0)))
      = _ := whileLoop_lines (completed_unlines pre) h.notMem
  rw [gitRebaseSetAction_loop h hfirst hlast hfuel hmarker, ← hblock, hrun,
    whileLoop_stop (by rw [Edit.at]), Option.bind_some, id, Option.map_some, Edit.at,
    List.map_append, unlines_append, List.map_cons, List.map_nil, unlines_cons, unlines_nil]
  simp only [List.append_assoc, List.cons_append, List.nil_append]

/-- The last line of the buffer is not, if it has a commit and its newline is missing. -/
theorem gitRebaseSetAction_unended (h : Selected text sel pre lines last [])
    (hfirst : isInstruction cs (lines.headD last) = true) (hlast : isInstruction cs last = true) :
    gitRebaseSetAction cs action text sel
      = if action ≠ none ∧ (currentLine cs last).actionType = some .commit then none
        else some (unlines pre ++ unlines (lines.map (lineAfter cs action))
          ++ lineAfter cs action last) := by
  have hlines : ∀ l ∈ lines, '\n' ∉ l := fun l hl => h.notMem l (List.mem_append_left _ hl)
  have hlastLine : '\n' ∉ last := h.notMem last (by simp)
  have htext : text.length = (unlines pre).length + (unlines lines).length + last.length := by
    rw [h.text_eq]
    simp only [List.length_append, List.length_nil, Nat.add_zero]
  obtain ⟨k, hk⟩ := Nat.exists_eq_add_of_le (length_le_length_unlines lines)
  obtain ⟨m, hm⟩ := Nat.exists_eq_add_of_lt
    (List.length_pos_iff.mpr (ne_nil_of_isInstruction hlast))
  have hfuel : text.length + 1 = (unlines pre).length + k + m + 1 + 1 + lines.length := by
    omega
  have hmarker : min ((unlines pre ++ unlines lines).length + last.length + 2) (text.length + 1)
      = (unlines pre).length + 1 + ((unlines lines).length + last.length) := by
    rw [List.length_append]
    omega
  have hrun : whileLoop (·.any Edit.before) (·.bind (setActionLine cs action))
      ((unlines pre).length + k + m + 1 + 1 + lines.length)
      (some (.at (unlines pre) (unlines lines ++ last) ((unlines lines).length + last.length)))
      = _ := whileLoop_lines (completed_unlines pre) hlines
  have htest : (some (Edit.at (unlines pre ++ unlines (lines.map (lineAfter cs action))) last
      last.length)).any Edit.before = true := by
    rw [Option.any_some, Edit.before, Edit.at, decide_eq_true_eq]
    dsimp only
    omega
  have hbefore : completed (unlines pre ++ unlines (lines.map (lineAfter cs action)))
      = unlines pre ++ unlines (lines.map (lineAfter cs action)) := by
    rw [← unlines_append, completed_unlines]
  rw [gitRebaseSetAction_loop h hfirst hlast hfuel hmarker, List.append_nil, hrun,
    whileLoop_of_true htest, Option.bind_some, setActionLine_last hbefore hlastLine]
  split
  next hsignal =>
    rw [whileLoop_of_false rfl]
    rfl
  next hsignal =>
    rw [whileLoop_stop (by rw [Edit.at]), Option.bind_some, id, Option.map_some, Edit.at,
      List.append_nil]

/-- Every line that is touched is replaced; but the last line of the buffer is not, where its
newline is missing. -/
theorem gitRebaseSetAction_eq (h : Selected text sel pre lines last tail)
    (hfirst : isInstruction cs (lines.headD last) = true)
    (hlast : isInstruction cs last = true) :
    gitRebaseSetAction cs action text sel
      = if tail = [] ∧ action ≠ none ∧ (currentLine cs last).actionType = some .commit then none
        else some (unlines pre ++ unlines (lines.map (lineAfter cs action))
          ++ lineAfter cs action last ++ tail) := by
  rcases h.eol with rfl | ⟨more, rfl⟩
  · rw [gitRebaseSetAction_unended h hfirst hlast, List.append_nil]
    simp only [true_and]
  · rw [gitRebaseSetAction_ended h hfirst hlast, if_neg fun h => List.cons_ne_nil _ _ h.1]

end

end

/-! ## The commits -/

/-- The selection begins and ends on instructions that the mode finds. -/
def Taken (cs : CommentStart) (lines : List (List Char)) (last : List Char) : Prop :=
  isInstruction cs (lines.headD last) = true ∧ isInstruction cs last = true

/-- What each line must be like: its action can be set, or that of a pick restored. -/
def Keepable (cs : CommentStart) : Option CommitAction → List Char → Prop
  | some a, line => Reactionable cs a line
  | none, line => ∀ c, readLine cs line = some (c, false) → Pickable cs line c

/-- What each line must be like if it stays as it is. -/
def Kept (cs : CommentStart) : Option CommitAction → List Char → Prop
  | some a, line => ∀ c, readLine cs line = some c → c.1.action = a.name ∧ c.2 = false
  | none, line => ∀ c, readLine cs line ≠ some (c, false)

/-- A line that is deleted, at once or when it is picked again. -/
def Deleted (cs : CommentStart) : Option CommitAction → List Char → Prop
  | some _, line => (currentLine cs line).actionType = some .commit
  | none, line => ∃ c, readLine cs line = some (c, false)

/-- The selection is taken and the actions can be set, with a newline behind the last line if it is
deleted; or it is not, and nothing was to be done. -/
structure Sound (cs : CommentStart) (action : Option CommitAction) (lines : List (List Char))
    (last tail : List Char) : Prop where
  taken : Taken cs lines last → ∀ line ∈ lines ++ [last], Keepable cs action line
  terminated : Taken cs lines last → tail = [] → ¬Deleted cs action last
  untaken : ¬Taken cs lines last → ∀ line ∈ lines ++ [last], Kept cs action line

section

variable {cs : CommentStart} {action : Option CommitAction} {text last tail line : List Char}
  {sel : Selection} {pre lines block block' : List (List Char)} {c : CommitLine}

/-- The lines that are killed are as many, in the same places. -/
theorem map_split {α β : Type*} (f : α → β) {as bs cs : List α} {a b : α}
    (h : as ++ [a] = bs ++ b :: cs) : as.map f ++ [f a] = bs.map f ++ f b :: cs.map f := by
  have hmapped := congrArg (List.map f) h
  rwa [List.map_append, List.map_append, List.map_cons, List.map_cons, List.map_nil] at hmapped

section

variable (hpre : ∀ l ∈ pre, '\n' ∉ l) (hlines : ∀ l ∈ lines ++ [last], '\n' ∉ l)
  (htail : tail = [] ∨ ∃ more, tail = '\n' :: more)
  (hseen : ∀ line ∈ lines ++ [last], ∀ c, readLine cs line = some (c, false) →
    Seen (bare cs line) c)

include hpre hlines htail hseen

end

end

section

end

end Magit.GitRebase

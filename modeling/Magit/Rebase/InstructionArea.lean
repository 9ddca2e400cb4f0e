import Magit.Emacs.SearchLine
import Magit.Emacs.WhileLoop
import Magit.Rebase.Todo

/-!
# Rebase/InstructionArea — where the instructions end

The loop of `git-rebase-move-line-down` passes over instructions, empty lines and `Branch` comments.
At the end of the buffer it finds an empty line, or still the last instruction, and does not get any
further; so it ends only if it is stopped before (`searchEnds_iff`).
-/

namespace Magit.GitRebase

open Emacs

/-- What `case-fold-search` makes of the characters.  No other character is taken for a newline. -/
structure CaseTable where
  fold : Char → Char
  newline : ∀ c, fold c = fold '\n' → c = '\n'

/-- `(concat git-rebase-comment-re " Branch")`, behind its `^`. -/
def branchComment (cs : CommentStart) : List Char := cs.text ++ " Branch".toList

/-- The test of the loop. -/
def inArea (cs : CommentStart) (ct : CaseTable) (text : List Char) (p : ℕ) : Bool :=
  gitRebaseLineP cs text p
    || (lineBeginning text p == p && (textFrom text p).head?.all (· == '\n'))
    || (lineBeginning text p == p && lookingAt ct.fold (branchComment cs) (textFrom text p))

/-- The loop ends. -/
def SearchEnds (cs : CommentStart) (ct : CaseTable) (text : List Char) : Prop :=
  Ends (inArea cs ct text) (forwardLine text) 1

/-- The beginning of the first line that does not belong to the instructions. -/
def areaEnd (cs : CommentStart) (ct : CaseTable) (fuel : ℕ) (text : List Char) : Option ℕ :=
  (whileLoop (inArea cs ct text) (forwardLine text) fuel 1).map (lineBeginning text)

/-- The loop passes over the line. -/
def passes (cs : CommentStart) (ct : CaseTable) (line : List Char) : Bool :=
  isInstruction cs line || line == [] || lookingAt ct.fold (branchComment cs) line

/-- The lines that end in a newline. -/
def todoLines (text : List Char) : List (List Char) := (text.splitOn '\n').dropLast

/-- What is behind the last newline. -/
def lastLine (text : List Char) : List Char := (text.splitOn '\n').getLast?.getD []

section

variable {cs : CommentStart} {ct : CaseTable} {text before line last rest : List Char}
  {lines : List (List Char)} {p : ℕ}

/-! ## The test -/

/-- The comment that introduces the branch is one line. -/
theorem newline_notMem_branchComment (cs : CommentStart) : '\n' ∉ branchComment cs := by
  intro h
  rcases List.mem_append.mp h with h | h
  · exact cs.newline_notMem h
  · exact absurd h (by decide)

/-- A comment does not go beyond its line. -/
theorem lookingAt_line (ct : CaseTable) {piece : List Char} (h : '\n' ∉ piece)
    (line rest : List Char) :
    lookingAt ct.fold piece (line ++ '\n' :: rest) = lookingAt ct.fold piece line := by
  rw [lookingAt, lookingAt]
  rcases Nat.lt_or_ge line.length piece.length with hlt | hle
  · have hshort : (line.take piece.length).map ct.fold ≠ piece.map ct.fold := by
      intro heq
      have hlen := congrArg List.length heq
      rw [List.length_map, List.length_map, List.length_take] at hlen
      omega
    have hlong : ((line ++ '\n' :: rest).take piece.length).map ct.fold ≠ piece.map ct.fold := by
      intro heq
      have hmem : ct.fold '\n' ∈ ((line ++ '\n' :: rest).take piece.length).map ct.fold := by
        refine List.mem_map_of_mem ?_
        obtain ⟨k, hk⟩ := Nat.exists_eq_add_of_lt hlt
        rw [List.take_append, hk]
        have hpos : line.length + k + 1 - line.length = k + 1 := by omega
        rw [hpos, List.take_succ_cons]
        exact List.mem_append_right _ List.mem_cons_self
      rw [heq] at hmem
      obtain ⟨c, hc, hfold⟩ := List.mem_map.mp hmem
      exact h (ct.newline c hfold ▸ hc)
    rw [beq_eq_false_iff_ne.mpr hshort, beq_eq_false_iff_ne.mpr hlong]
  · rw [List.take_append_of_le_length hle]

/-- At the beginning of a line that ends in a newline. -/
theorem inArea_line (cs : CommentStart) (ct : CaseTable) (h : Line text before line ('\n' :: rest)) :
    inArea cs ct text (before.length + 1) = passes cs ct line := by
  have hp : before.length + 1 ≤ before.length + line.length + 1 := by omega
  have hempty : (line ++ '\n' :: rest).head?.all (· == '\n') = (line == []) := by
    rcases line with _ | ⟨c, line⟩
    · rfl
    · have hc : c ≠ '\n' := fun heq => h.notMem (heq ▸ List.mem_cons_self)
      rw [List.cons_append, List.head?_cons, Option.all_some, beq_eq_false_iff_ne.mpr hc]
      rfl
  rw [inArea, gitRebaseLineP, h.lineAt le_rfl hp, h.lineBeginning le_rfl hp, h.textFrom,
    beq_self_eq_true, Bool.true_and, Bool.true_and, hempty,
    lookingAt_line ct (newline_notMem_branchComment cs)]
  rfl

/-- At the beginning of the last line, which does not. -/
theorem inArea_last (cs : CommentStart) (ct : CaseTable) (h : Line text before line []) :
    inArea cs ct text (before.length + 1) = passes cs ct line := by
  have hp : before.length + 1 ≤ before.length + line.length + 1 := by omega
  have hempty : line.head?.all (· == '\n') = (line == []) := by
    rcases line with _ | ⟨c, line⟩
    · rfl
    · have hc : c ≠ '\n' := fun heq => h.notMem (heq ▸ List.mem_cons_self)
      rw [List.head?_cons, Option.all_some, beq_eq_false_iff_ne.mpr hc]
      rfl
  rw [inArea, gitRebaseLineP, h.lineAt le_rfl hp, h.lineBeginning le_rfl hp, h.textFrom,
    beq_self_eq_true, Bool.true_and, Bool.true_and, List.append_nil, hempty]
  rfl

/-- At the end of the last line, an instruction is still found on it. -/
theorem inArea_end (cs : CommentStart) (ct : CaseTable) (h : Line text before line [])
    (hne : line ≠ []) :
    inArea cs ct text (text.length + 1) = isInstruction cs line := by
  have hlen : text.length + 1 = before.length + line.length + 1 := by
    rw [h.text_eq, List.append_nil, List.length_append]
  have hbegin : (before.length + 1 == before.length + line.length + 1) = false := by
    have := List.length_pos_iff.mpr hne
    exact beq_eq_false_iff_ne.mpr (by omega)
  have hp : before.length + 1 ≤ before.length + line.length + 1 := by omega
  rw [hlen, inArea, gitRebaseLineP, h.lineAt hp le_rfl, h.lineBeginning hp le_rfl, hbegin,
    Bool.false_and, Bool.or_false, Bool.false_and, Bool.or_false]
  rfl

theorem forwardLine_end (text : List Char) :
    forwardLine text (text.length + 1) = text.length + 1 := by
  rw [forwardLine]
  exact Nat.min_eq_right (by omega)

/-! ## The loop -/

/-- The last line stops the loop unless it is empty or an instruction. -/
theorem ends_last (cs : CommentStart) (ct : CaseTable) (h : Line text before line []) :
    Ends (inArea cs ct text) (forwardLine text) (before.length + 1)
      ↔ line ≠ [] ∧ isInstruction cs line = false := by
  have hp : before.length + 1 ≤ before.length + line.length + 1 := by omega
  have hforward := h.forwardLine_last le_rfl hp
  have hlen : text.length = before.length + line.length := by
    rw [h.text_eq, List.append_nil, List.length_append]
  by_cases hne : line = []
  · subst hne
    refine iff_of_false (not_ends (· = before.length + 1) rfl ?_) fun h => h.1 rfl
    rintro _ rfl
    refine ⟨(inArea_last cs ct h).trans ?_, hforward.trans (by rw [hlen]; rfl)⟩
    rw [passes]
    simp
  · rcases hinst : isInstruction cs line with _ | _
    · refine iff_of_true ?_ ⟨hne, rfl⟩
      rcases htest : inArea cs ct text (before.length + 1) with _ | _
      · exact ends_of_false htest
      · rw [ends_of_true htest, hforward]
        exact ends_of_false ((inArea_end cs ct h hne).trans hinst)
    · refine iff_of_false ?_ fun h => Bool.false_ne_true h.2.symm
      refine not_ends (fun p => p = before.length + 1 ∨ p = text.length + 1) (Or.inl rfl) ?_
      rintro p (rfl | rfl)
      · refine ⟨(inArea_last cs ct h).trans ?_, Or.inr hforward⟩
        rw [passes, hinst, Bool.true_or, Bool.true_or]
      · exact ⟨(inArea_end cs ct h hne).trans hinst, Or.inr (forwardLine_end text)⟩

/-- From a line on. -/
theorem ends_lines (hbefore : completed before = before) (hlines : ∀ l ∈ lines, '\n' ∉ l)
    (hlast : '\n' ∉ last) (htext : text = before ++ unlines lines ++ last) :
    Ends (inArea cs ct text) (forwardLine text) (before.length + 1)
      ↔ (∃ line ∈ lines, passes cs ct line = false) ∨ last ≠ [] ∧ isInstruction cs last = false := by
  induction lines generalizing before with
  | nil =>
    have hline : Line text before last [] :=
      ⟨by rw [htext, unlines_nil, List.append_nil, List.append_nil], hbefore, hlast, Or.inl rfl⟩
    simpa using ends_last cs ct hline
  | cons line lines ih =>
    obtain ⟨hline, hmore⟩ := List.forall_mem_cons.mp hlines
    have hfirst : Line text before line ('\n' :: (unlines lines ++ last)) := by
      refine ⟨?_, hbefore, hline, Or.inr ⟨_, rfl⟩⟩
      rw [htext, unlines_cons]
      simp only [List.append_assoc, List.cons_append]
    have htest := inArea_line cs ct hfirst
    rcases hpass : passes cs ct line with _ | _
    · exact iff_of_true (ends_of_false (htest.trans hpass))
        (Or.inl ⟨line, List.mem_cons_self, hpass⟩)
    · have hnext : forwardLine text (before.length + 1) = (before ++ line ++ ['\n']).length + 1 := by
        rw [hfirst.forwardLine le_rfl (by omega), List.length_append, List.length_append,
          List.length_singleton]
      have htext' : text = before ++ line ++ ['\n'] ++ unlines lines ++ last := by
        rw [htext, unlines_cons]
        simp only [List.append_assoc, List.cons_append, List.nil_append]
      rw [ends_of_true (htest.trans hpass), hnext,
        ih (completed_append_newline _) hmore htext']
      simp only [List.mem_cons, exists_eq_or_imp, hpass, Bool.true_eq_false, false_or]

/-! ## The lines of the buffer -/

/-- The lines of a text are those that made it. -/
theorem todoLines_eq (hlines : ∀ l ∈ lines, '\n' ∉ l) (hlast : '\n' ∉ last) :
    todoLines (unlines lines ++ last) = lines ∧ lastLine (unlines lines ++ last) = last := by
  rw [todoLines, lastLine, splitOn_unlines hlines, List.splitOn_eq_singleton hlast,
    List.dropLast_concat, List.getLast?_concat]
  exact ⟨rfl, rfl⟩

/-- **The loop ends exactly if a line stops it**: one that ends in a newline and is neither an
instruction, empty nor a `Branch` comment, or what is behind the last newline if it is neither empty
nor an instruction. -/
theorem searchEnds_iff (cs : CommentStart) (ct : CaseTable) (text : List Char) :
    SearchEnds cs ct text ↔ (∃ line ∈ todoLines text, passes cs ct line = false)
      ∨ lastLine text ≠ [] ∧ isInstruction cs (lastLine text) = false := by
  obtain ⟨lines, last, hlines, hlast, rfl⟩ := exists_lines text
  rw [(todoLines_eq hlines hlast).1, (todoLines_eq hlines hlast).2]
  have hstart : Ends (inArea cs ct (unlines lines ++ last)) (forwardLine (unlines lines ++ last))
      (([] : List Char).length + 1) ↔ _ :=
    ends_lines (completed_unlines []) hlines hlast (by rw [List.nil_append])
  exact hstart

end

/-- `case-fold-search` is nil. -/
def CaseTable.exact : CaseTable := ⟨id, fun _ h => h⟩

/-- Without a comment the loop does not end. -/
theorem not_searchEnds_pick : ¬SearchEnds .hash .exact "pick 1234567 Subject\n".toList := by
  have hlines : ∀ l ∈ ["pick 1234567 Subject".toList], '\n' ∉ l :=
    List.forall_mem_singleton.mpr (by decide)
  have htext : "pick 1234567 Subject\n".toList
      = [] ++ unlines ["pick 1234567 Subject".toList] ++ [] := by decide
  have hpass : passes .hash .exact "pick 1234567 Subject".toList = true := by decide
  have hstart : Ends (inArea .hash .exact "pick 1234567 Subject\n".toList)
      (forwardLine "pick 1234567 Subject\n".toList) (([] : List Char).length + 1) ↔ _ :=
    ends_lines (completed_unlines []) hlines List.not_mem_nil htext
  intro hends
  rcases hstart.mp hends with ⟨line, hline, hstop⟩ | hlast
  · rw [List.mem_singleton.mp hline, hpass] at hstop
    exact Bool.false_ne_true hstop.symm
  · exact hlast.1 rfl

end Magit.GitRebase

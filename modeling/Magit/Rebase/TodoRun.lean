import Magit.Rebase.LineCommands
import Magit.Rebase.MoveLine

/-!
# Rebase/TodoRun — editing the todo list

A session is any number of commands on the lines of the instructions, in any order: lines are moved,
the actions of commits are set, lines are killed, and commands without a commit are put between
them.  Each of them rearranges the instructions or makes of each line lines with its commit
(`exists_edited`), so that the list that comes out has the same commits (`session_keepsCommits`).
-/

namespace Magit.GitRebase

open Emacs

/-- A command, with where it is called and what it is given. -/
inductive TodoEdit
  | move (n : ℤ) (sel : Selection)
  | setAction (action : Option CommitAction) (sel : Selection)
  | setValue (action : ValueAction) (value : Value action) (arg : Bool) (p : ℕ)
  | setBare (action : BareAction) (arg : Bool) (p : ℕ)

/-- The text that a command leaves; none if it signals, or is given up. -/
def edited (cs : CommentStart) (ct : CaseTable) (showInstructions : Bool) (fuel : ℕ)
    (text : List Char) : TodoEdit → Option (List Char)
  | .move n sel =>
    (gitRebaseMoveLineDown cs ct showInstructions fuel n ⟨text, sel⟩).map TodoBuffer.text
  | .setAction action sel => gitRebaseSetAction cs action text sel
  | .setValue action value arg p =>
    gitRebaseSetNoncommitAction cs action.name value.text arg text p
  | .setBare action arg p => gitRebaseSetBareAction cs action.name arg text p

/-- Point and the region are within a text of that length. -/
def Selection.Within (sel : Selection) (n : ℕ) : Prop :=
  (1 ≤ sel.point ∧ sel.point ≤ n) ∧ ∀ r ∈ sel.region, 1 ≤ r.1 ∧ r.1 ≤ r.2 ∧ r.2 ≤ n

/-- The command is run at a position of a buffer of `n` characters. -/
def TodoEdit.Within (n : ℕ) : TodoEdit → Prop
  | .move _ sel => sel.Within n
  | .setAction _ sel => sel.Within n
  | .setValue _ _ _ p => 1 ≤ p ∧ p ≤ n
  | .setBare _ _ p => 1 ≤ p ∧ p ≤ n

/-- The lines of the instructions. -/
def todoArea (cs : CommentStart) (ct : CaseTable) (showInstructions : Bool) (text : List Char) :
    List (List Char) :=
  instructionArea (passedLines cs ct showInstructions text)

/-- Commands one after the other, each on the lines of the instructions. -/
inductive Session (cs : CommentStart) (ct : CaseTable) (showInstructions : Bool) :
    List Char → List TodoEdit → List Char → Prop
  | nil (text : List Char) : Session cs ct showInstructions text [] text
  | cons {text text' text'' : List Char} {e : TodoEdit} {es : List TodoEdit} {fuel : ℕ}
      (hwithin : e.Within (unlines (todoArea cs ct showInstructions text)).length)
      (hedited : edited cs ct showInstructions fuel text e = some text')
      (hrest : Session cs ct showInstructions text' es text'') :
      Session cs ct showInstructions text (e :: es) text''

variable {cs : CommentStart} {ct : CaseTable} {showInstructions : Bool}
  {text text' rest : List Char} {area : List (List Char)} {sel : Selection} {p q : ℕ}

/-! ## The instructions of a buffer -/

/-- The search for the end of the instructions stops at the first line behind them. -/
theorem takeWhile_passes (h : passes cs ct (lineText rest) = false) :
    (rest.splitOn '\n').dropLast.takeWhile (passes cs ct) = [] := by
  obtain ⟨lines, last, hlines, hlast, rfl⟩ := exists_lines rest
  rw [splitOn_unlines hlines, List.splitOn_eq_singleton hlast, List.dropLast_concat]
  rcases lines with _ | ⟨line, lines⟩
  · rfl
  · rw [unlines_cons, List.append_assoc, List.cons_append,
      lineText_append (hlines line List.mem_cons_self)] at h
    exact List.takeWhile_cons_of_neg (ne_true_of_eq_false h)

/-- The area of a file is that of its instructions. -/
theorem todoArea_of_instructions (h : Instructions cs ct showInstructions text area rest) :
    todoArea cs ct showInstructions text = area := by
  have hlines : ∀ l ∈ area ++ [[]], '\n' ∉ l := List.forall_mem_append.mpr
    ⟨h.notMem, List.forall_mem_singleton.mpr List.not_mem_nil⟩
  have htext : text = unlines (area ++ [[]]) ++ rest := by
    rw [h.text_eq, unlines_append]
    simp only [unlines_cons, unlines_nil, List.append_assoc, List.nil_append, List.cons_append]
  have htodo : todoLines text = (area ++ [[]]) ++ (rest.splitOn '\n').dropLast := by
    rw [todoLines, htext, splitOn_unlines hlines,
      List.dropLast_append_of_ne_nil (List.splitOn_ne_nil _ _)]
  have hpassed : passedLines cs ct showInstructions text = area ++ [[]] := by
    rw [passedLines, htodo]
    cases hshow : showInstructions with
    | false =>
      rw [h.ends hshow]
      exact List.append_nil _
    | true =>
      have hpass : ∀ l ∈ area ++ [[]], passes cs ct l = true := List.forall_mem_append.mpr
        ⟨h.passes hshow, List.forall_mem_singleton.mpr (by
          rw [passes, beq_self_eq_true, Bool.or_true, Bool.true_or])⟩
      rw [if_pos rfl, List.takeWhile_append_of_pos hpass, takeWhile_passes (h.stops hshow),
        List.append_nil]
  rw [todoArea, hpassed, instructionArea, List.getLast?_concat, if_pos rfl, List.dropLast_concat]

/-- A position before the end of some lines is on one of them. -/
theorem exists_line_of_pos (area : List (List Char)) (hp : 1 ≤ p)
    (hp' : p ≤ (unlines area).length) :
    ∃ pre line post, area = pre ++ line :: post ∧ (unlines pre).length + 1 ≤ p
      ∧ p ≤ (unlines pre).length + line.length + 1 := by
  induction area generalizing p with
  | nil =>
    rw [unlines_nil, List.length_nil] at hp'
    omega
  | cons line area ih =>
    rw [length_unlines_cons] at hp'
    by_cases hfirst : p ≤ line.length + 1
    · refine ⟨[], line, area, rfl, hp, ?_⟩
      rw [unlines_nil, List.length_nil, Nat.zero_add]
      exact hfirst
    · obtain ⟨pre, line', post, harea, hbeg, hend⟩ :=
        ih (p := p - (line.length + 1)) (by omega) (by omega)
      refine ⟨line :: pre, line', post, by rw [harea, List.cons_append], ?_, ?_⟩
      · rw [length_unlines_cons]
        omega
      · rw [length_unlines_cons]
        omega

/-- The lines between two positions. -/
theorem exists_lines_between (hp : 1 ≤ p) (hpq : p ≤ q) (hq : q ≤ (unlines area).length) :
    ∃ pre lines last post, area = pre ++ (lines ++ [last]) ++ post
      ∧ ((unlines pre).length + 1 ≤ p ∧ p ≤ (unlines pre).length + (lines.headD last).length + 1)
      ∧ ((unlines pre ++ unlines lines).length + 1 ≤ q
        ∧ q ≤ (unlines pre ++ unlines lines).length + last.length + 1) := by
  obtain ⟨pre, line, more, harea, hbeg, hbeg'⟩ := exists_line_of_pos area hp (hpq.trans hq)
  have hlen : (unlines area).length = (unlines pre).length + (unlines (line :: more)).length := by
    rw [harea, unlines_append, List.length_append]
  obtain ⟨lines, last, post, hmore, hend, hend'⟩ :=
    exists_line_of_pos (line :: more) (p := q - (unlines pre).length) (by omega) (by omega)
  have hhead : lines.headD last = line := by
    rcases lines with _ | ⟨line', lines⟩
    · exact (List.cons.inj hmore).1.symm
    · exact (List.cons.inj hmore).1.symm
  refine ⟨pre, lines, last, post, ?_, ?_, ?_⟩
  · rw [harea, hmore]
    simp only [List.append_assoc, List.cons_append, List.nil_append]
  · rw [hhead]
    exact ⟨hbeg, hbeg'⟩
  · rw [List.length_append]
    omega

/-! ## What a command does to the lines -/

/-- The instructions have the same commits, and what is behind them is as it was. -/
def KeepsTodo (cs : CommentStart) (ct : CaseTable) (showInstructions : Bool)
    (area : List (List Char)) (rest text' : List Char) : Prop :=
  ∃ area', Instructions cs ct showInstructions text' area' rest
    ∧ (area'.filterMap (commitOf cs)).Perm (area.filterMap (commitOf cs))

variable {pre block post lines : List (List Char)} {line last tail : List Char}

/-- Lines that stand for others have the same commits. -/
theorem filterMap_flatMap_commitOf {f : List Char → List (List Char)}
    (hf : ∀ l ∈ block, Rewritten cs ct l (f l)) :
    (block.flatMap f).filterMap (commitOf cs) = block.filterMap (commitOf cs) := by
  induction block with
  | nil => rfl
  | cons line block ih =>
    obtain ⟨hline, hblock⟩ := List.forall_mem_cons.mp hf
    have hcons : (line :: block).filterMap (commitOf cs)
        = [line].filterMap (commitOf cs) ++ block.filterMap (commitOf cs) := by
      rw [← List.filterMap_append, List.singleton_append]
    rw [List.flatMap_cons, List.filterMap_append, hline.commits, ih hblock, hcons]

/-- Every line of a block is made something else that has its commit. -/
theorem keepsTodo_flatMap
    (harea : Instructions cs ct showInstructions text (pre ++ block ++ post) rest)
    {f : List Char → List (List Char)} (hf : ∀ l ∈ block, Rewritten cs ct l (f l)) :
    KeepsTodo cs ct showInstructions (pre ++ block ++ post) rest
      (unlines (pre ++ block.flatMap f ++ post) ++ '\n' :: rest) := by
  refine ⟨pre ++ block.flatMap f ++ post, ⟨rfl, ?_, fun hshow => ?_, harea.stops, harea.ends⟩, ?_⟩
  · have hold := harea.notMem
    simp only [List.forall_mem_append, List.forall_mem_flatMap] at hold ⊢
    exact ⟨⟨hold.1.1, fun l hl => (hf l hl).notMem (hold.1.2 l hl)⟩, hold.2⟩
  · have hold := harea.passes hshow
    simp only [List.forall_mem_append, List.forall_mem_flatMap] at hold ⊢
    exact ⟨⟨hold.1.1, fun l hl => (hf l hl).passes (hold.1.2 l hl)⟩, hold.2⟩
  · rw [List.filterMap_append, List.filterMap_append, List.filterMap_append, List.filterMap_append,
      filterMap_flatMap_commitOf hf]

theorem keepsTodo_self (harea : Instructions cs ct showInstructions text area rest) :
    KeepsTodo cs ct showInstructions area rest text := ⟨area, harea, List.Perm.refl _⟩

/-- Lines are moved among the other ones. -/
theorem keepsTodo_moved
    (harea : Instructions cs ct showInstructions text (pre ++ block ++ post) rest)
    (n : ℤ) (sel : Selection) :
    KeepsTodo cs ct showInstructions (pre ++ block ++ post) rest
      (moved pre block post n ('\n' :: rest) sel).text := by
  refine ⟨_, instructions_moved harea n sel, List.Perm.filterMap _ ?_⟩
  have hfront : ((pre ++ post).take (destination pre post n) ++ block
      ++ (pre ++ post).drop (destination pre post n)).Perm (block ++ (pre ++ post)) := by
    conv_rhs => rw [← List.take_append_drop (destination pre post n) (pre ++ post),
      ← List.append_assoc]
    exact List.Perm.append_right _ List.perm_append_comm
  have hback : (block ++ (pre ++ post)).Perm (pre ++ block ++ post) := by
    rw [← List.append_assoc]
    exact List.Perm.append_right _ List.perm_append_comm
  exact hfront.trans hback

/-- A line of the instructions, as a line of the buffer. -/
theorem line_of_instructions
    (harea : Instructions cs ct showInstructions text (pre ++ line :: post) rest) :
    Line text (unlines pre) line ('\n' :: (unlines post ++ '\n' :: rest)) where
  text_eq := by
    rw [harea.text_eq, unlines_append, unlines_cons]
    simp only [List.append_assoc, List.cons_append]
  bol := completed_unlines pre
  notMem := harea.notMem line (List.mem_append_right _ List.mem_cons_self)
  eol := .inr ⟨_, rfl⟩

/-- What becomes of the line that point is on. -/
theorem keepsTodo_line (harea : Instructions cs ct showInstructions text (pre ++ line :: post) rest)
    {new : List (List Char)} (hnew : Rewritten cs ct line new) :
    KeepsTodo cs ct showInstructions (pre ++ line :: post) rest
      (unlines pre ++ unlines new ++ (unlines post ++ '\n' :: rest)) := by
  have hsplit : pre ++ line :: post = pre ++ [line] ++ post := by
    rw [List.append_assoc, List.singleton_append]
  rw [hsplit] at harea ⊢
  have hkeeps := keepsTodo_flatMap harea (f := fun _ => new)
    (List.forall_mem_singleton.mpr hnew)
  rw [List.flatMap_cons, List.flatMap_nil, List.append_nil] at hkeeps
  have htext : unlines pre ++ unlines new ++ (unlines post ++ '\n' :: rest)
      = unlines (pre ++ new ++ post) ++ '\n' :: rest := by
    rw [unlines_append, unlines_append]
    simp only [List.append_assoc]
  rwa [htext]

/-- What is selected among the instructions. -/
theorem exists_selected (sel : Selection)
    (harea : Instructions cs ct showInstructions text area rest)
    (hsel : 1 ≤ sel.beg ∧ sel.beg ≤ sel.fin ∧ sel.fin ≤ (unlines area).length) :
    ∃ pre lines last post, area = pre ++ (lines ++ [last]) ++ post
      ∧ Selected text sel pre lines last ('\n' :: (unlines post ++ '\n' :: rest)) := by
  obtain ⟨hbeg, hle, hfin⟩ := hsel
  obtain ⟨pre, lines, last, post, rfl, hbegins, hends⟩ := exists_lines_between hbeg hle hfin
  have hnotMem := harea.notMem
  rw [List.forall_mem_append, List.forall_mem_append] at hnotMem
  refine ⟨pre, lines, last, post, rfl, ?_, hnotMem.1.1, hnotMem.1.2, .inr ⟨_, rfl⟩, hbegins, hends⟩
  rw [harea.text_eq]
  simp only [unlines_append, unlines_cons, List.append_assoc, List.cons_append, List.nil_append]

/-- A selection within the text begins and ends there. -/
theorem Selection.Within.beg_fin {n : ℕ} (h : sel.Within n) :
    1 ≤ sel.beg ∧ sel.beg ≤ sel.fin ∧ sel.fin ≤ n := by
  cases sel with
  | mk point region =>
    cases region with
    | none => exact ⟨h.1.1, le_rfl, h.1.2⟩
    | some r => exact h.2 r rfl

/-- Moving lines keeps the instructions. -/
theorem exists_edited_move (harea : Instructions cs ct showInstructions text area rest)
    (hsel : sel.Within (unlines area).length) (n : ℤ) :
    ∃ fuel text', edited cs ct showInstructions fuel text (.move n sel) = some text'
      ∧ KeepsTodo cs ct showInstructions area rest text' := by
  obtain ⟨pre, block, post, rfl, hblock, hbounds⟩ : ∃ pre block post, area = pre ++ block ++ post
      ∧ block ≠ [] ∧ (gitRebaseRegionBounds cs text sel false).getD
          (lineBeginning text sel.point, lineEnd text sel.point + 1)
        = ((unlines pre).length + 1, (unlines (pre ++ block)).length + 1) := by
    obtain ⟨pre, lines, last, post, hsplit, hselected⟩ := exists_selected sel harea hsel.beg_fin
    by_cases hinst : sel.region.isSome = true →
        (isInstruction cs (lines.headD last) && isInstruction cs last) = true
    · exact ⟨pre, lines ++ [last], post, hsplit, by simp, regionBounds_getD hselected hinst⟩
    · -- The region does not end on instructions, and the line that point is on is moved.
      rw [Classical.not_imp, Bool.not_eq_true] at hinst
      have hnone : gitRebaseRegionBounds cs text sel false = none := by
        rw [hselected.regionBounds (by rw [hinst.1, Bool.true_or]), hinst.2,
          if_neg Bool.false_ne_true]
      obtain ⟨pre', lines', last', post', hsplit', hselected'⟩ :=
        exists_selected ⟨sel.point, none⟩ harea ⟨hsel.1.1, le_rfl, hsel.1.2⟩
      have hpoint : (gitRebaseRegionBounds cs text ⟨sel.point, none⟩ false).getD _ = _ :=
        regionBounds_getD hselected' fun hsome => by cases hsome
      exact ⟨pre', lines' ++ [last'], post', hsplit', by simp, by rw [hnone]; exact hpoint⟩
  obtain ⟨fuel, hmoved⟩ :=
    exists_moveLineDown_of_bounds (b := ⟨text, sel⟩) harea hblock hbounds n
  exact ⟨fuel, _, by rw [edited, hmoved, Option.map_some], keepsTodo_moved harea n sel⟩

/-- Setting an action keeps the instructions. -/
theorem exists_edited_setAction (harea : Instructions cs ct showInstructions text area rest)
    (hsel : sel.Within (unlines area).length) (action : Option CommitAction) (fuel : ℕ) :
    ∃ text', edited cs ct showInstructions fuel text (.setAction action sel) = some text'
      ∧ KeepsTodo cs ct showInstructions area rest text' := by
  obtain ⟨pre, lines, last, post, rfl, hselected⟩ := exists_selected sel harea hsel.beg_fin
  rw [edited]
  by_cases hinst : (isInstruction cs (lines.headD last) && isInstruction cs last) = true
  · obtain ⟨hfirst, hlast⟩ := (Bool.and_eq_true _ _).mp hinst
    refine ⟨_, (gitRebaseSetAction_eq hselected hfirst hlast).trans
      (if_neg fun h => List.cons_ne_nil _ _ h.1), ?_⟩
    have hkeeps := keepsTodo_flatMap harea (f := fun l => [lineAfter cs action l])
      fun l _ => rewritten_lineAfter cs ct action l
    have htext : unlines pre ++ unlines (lines.map (lineAfter cs action))
        ++ lineAfter cs action last ++ '\n' :: (unlines post ++ '\n' :: rest)
        = unlines (pre ++ (lines ++ [last]).flatMap (fun l => [lineAfter cs action l]) ++ post)
          ++ '\n' :: rest := by
      rw [← List.map_eq_flatMap, List.map_append]
      simp only [unlines_append, unlines_cons, List.map_cons, List.map_nil, List.append_assoc,
        List.cons_append, List.nil_append]
    rwa [htext]
  · refine ⟨text, ?_, keepsTodo_self harea⟩
    rw [gitRebaseSetAction, hselected.regionBounds (Bool.or_true _), if_neg hinst]

/-- Every command on the instructions does something to them that keeps the commits. -/
theorem exists_edited (harea : Instructions cs ct showInstructions text area rest) {e : TodoEdit}
    (he : e.Within (unlines area).length) :
    ∃ fuel text', edited cs ct showInstructions fuel text e = some text'
      ∧ KeepsTodo cs ct showInstructions area rest text' := by
  cases e with
  | move n sel => exact exists_edited_move harea he n
  | setAction action sel => exact ⟨0, exists_edited_setAction harea he action 0⟩
  | setValue action value arg p =>
    obtain ⟨pre, line, post, rfl, hbeg, hend⟩ := exists_line_of_pos _ he.1 he.2
    obtain ⟨new, hnew, hrewritten⟩ := exists_gitRebaseSetNoncommitAction cs
      (line_of_instructions harea) hbeg hend ct action value arg
    exact ⟨0, _, hnew, keepsTodo_line harea hrewritten⟩
  | setBare action arg p =>
    obtain ⟨pre, line, post, rfl, hbeg, hend⟩ := exists_line_of_pos _ he.1 he.2
    obtain ⟨new, hnew, hrewritten⟩ := exists_gitRebaseSetBareAction cs
      (line_of_instructions harea) hbeg hend ct action arg
    exact ⟨0, _, hnew, keepsTodo_line harea hrewritten⟩

/-! ## A session -/

/-- Where the area ends does not depend on the fuel. -/
theorem areaEnd_unique {fuel fuel' : ℕ} (h : areaEnd cs ct fuel text = some p)
    (h' : areaEnd cs ct fuel' text = some q) : p = q := by
  obtain ⟨s, hs, rfl⟩ := Option.map_eq_some_iff.mp h
  obtain ⟨s', hs', rfl⟩ := Option.map_eq_some_iff.mp h'
  have hmore := whileLoop_add hs fuel'
  rw [Nat.add_comm, whileLoop_add hs' fuel] at hmore
  exact congrArg _ (Option.some.inj hmore).symm

/-- With any fuel that suffices a command leaves the same text. -/
theorem edited_unique {e : TodoEdit} {fuel fuel' : ℕ} {t t' : List Char}
    (h : edited cs ct showInstructions fuel text e = some t)
    (h' : edited cs ct showInstructions fuel' text e = some t') : t = t' := by
  cases e with
  | move n sel =>
    obtain ⟨b, hb, rfl⟩ := Option.map_eq_some_iff.mp h
    obtain ⟨b', hb', rfl⟩ := Option.map_eq_some_iff.mp h'
    obtain ⟨q, hq, rfl⟩ := Option.map_eq_some_iff.mp hb
    obtain ⟨q', hq', rfl⟩ := Option.map_eq_some_iff.mp hb'
    have heq : q = q' := by
      split at hq
      next hshow =>
        rw [if_pos hshow] at hq'
        exact areaEnd_unique hq hq'
      next hshow =>
        rw [if_neg hshow] at hq'
        exact Option.some.inj (hq.symm.trans hq')
    rw [heq]
  | setAction action sel => exact Option.some.inj (h.symm.trans h')
  | setValue action value arg p => exact Option.some.inj (h.symm.trans h')
  | setBare action arg p => exact Option.some.inj (h.symm.trans h')

/-- **A whole session keeps the instructions**, by induction on its commands. -/
theorem Session.keepsTodo {es : List TodoEdit} (h : Session cs ct showInstructions text es text')
    (harea : Instructions cs ct showInstructions text area rest) :
    KeepsTodo cs ct showInstructions area rest text' := by
  induction h generalizing area with
  | nil text => exact keepsTodo_self harea
  | cons hwithin hedited hrest ih =>
    rw [todoArea_of_instructions harea] at hwithin
    obtain ⟨fuel, text₁, hedited', area₁, harea₁, hperm₁⟩ := exists_edited harea hwithin
    obtain rfl := edited_unique hedited hedited'
    obtain ⟨area', harea', hperm⟩ := ih harea₁
    exact ⟨area', harea', hperm.trans hperm₁⟩

/-- **A session loses no commit**: whatever commands are called on the instructions, afterwards they
have the same commits, each as many times, and what is behind them is as it was; and none of the
commands signals or goes on forever. -/
theorem session_keepsCommits {es : List TodoEdit}
    (harea : Instructions cs ct showInstructions text area rest)
    (h : Session cs ct showInstructions text es text') :
    ∃ area', Instructions cs ct showInstructions text' area' rest
      ∧ (area'.filterMap (commitOf cs)).Perm (area.filterMap (commitOf cs))
      ∧ ∀ e : TodoEdit, e.Within (unlines area').length →
        ∃ fuel text'', edited cs ct showInstructions fuel text' e = some text'' := by
  obtain ⟨area', harea', hperm⟩ := h.keepsTodo harea
  refine ⟨area', harea', hperm, fun e he => ?_⟩
  obtain ⟨fuel, text'', hedited, -⟩ := exists_edited harea' he
  exact ⟨fuel, text'', hedited⟩

/-- A `break` is put in front of two picks. -/
theorem exists_session_picks :
    ∃ text', Session .hash .exact true picks.text [.setBare .break_ false 1] text' := by
  have hwithin : (TodoEdit.setBare .break_ false 1).Within
      (unlines ([] ++ [pickA] ++ [pickB])).length := ⟨le_rfl, by decide⟩
  obtain ⟨fuel, text', hedited, -⟩ := exists_edited instructions_picks hwithin
  rw [← todoArea_of_instructions instructions_picks] at hwithin
  exact ⟨text', .cons hwithin hedited (.nil text')⟩

theorem session_keepsCommits_picks :
    ∃ text', Session .hash .exact true picks.text [.setBare .break_ false 1] text' ∧
      ∃ area', Instructions .hash .exact true text' area' "# c\n".toList
        ∧ (area'.filterMap (commitOf .hash)).Perm
          (([] ++ [pickA] ++ [pickB]).filterMap (commitOf .hash))
        ∧ ∀ e : TodoEdit, e.Within (unlines area').length →
          ∃ fuel text'', edited .hash .exact true fuel text' e = some text'' := by
  obtain ⟨text', hsession⟩ := exists_session_picks
  exact ⟨text', hsession, session_keepsCommits instructions_picks hsession⟩

end Magit.GitRebase

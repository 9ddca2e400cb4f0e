import Magit.Emacs.LineAt

/-!
# Rebase/Todo — the lines of a rebase todo list

`git-rebase-current-line` tries the expressions of `git-rebase-line-regexps` in order, each behind
an optional `comment-start` and spaces.  Where `comment-start` cannot be mistaken for a command, a
line is commented out exactly if it begins with it (`behindComment_append`, `behindComment_of_not`).
-/

namespace Magit.GitRebase

open Emacs

/-- `comment-start`.  Were its first character that of a command, git would read the commands as
comments. -/
structure CommentStart where
  first : Char
  others : List Char
  first_notMem : first ∉ "\n bdeflmnprstux".toList
  others_notMem : '\n' ∉ others

/-- `comment-start` -/
def CommentStart.text (cs : CommentStart) : List Char := cs.first :: cs.others

theorem hash_notMem : '#' ∉ "\n bdeflmnprstux".toList := by decide

theorem newline_notMem_nil : '\n' ∉ ([] : List Char) := List.not_mem_nil

/-- What `comment-start` is unless `core.commentChar` is set. -/
def CommentStart.hash : CommentStart := ⟨'#', [], hash_notMem, newline_notMem_nil⟩

/-- What a line does. -/
inductive ActionType
  | commit
  | exec
  | bare
  | label
  | merge
  deriving DecidableEq

/-- `git-rebase-action` -/
structure RebaseAction where
  actionType : Option ActionType := none
  action : Option (List Char) := none
  actionOptions : Option (List Char) := none
  target : Option (List Char) := none
  trailer : Option (List Char) := none
  commentP : Bool := false
  deriving DecidableEq

/-- The actions on a commit. -/
def commitWords : List (List Char) :=
  ["e", "edit", "f", "fixup", "p", "pick", "r", "reword", "s", "squash"].map String.toList

/-- The actions that run a command. -/
def execWords : List (List Char) := ["x", "exec"].map String.toList

/-- The actions without anything behind them. -/
def bareWords : List (List Char) := ["b", "break", "noop"].map String.toList

/-- The actions on a name. -/
def labelWords : List (List Char) :=
  ["l", "label", "t", "reset", "u", "update-ref"].map String.toList

/-- The actions that merge. -/
def mergeWords : List (List Char) := ["m", "merge"].map String.toList

/-- One of the words and a space, and what follows. -/
def afterWord (words : List (List Char)) (text : List Char) : Option (List Char × List Char) :=
  words.findSome? fun w =>
    if (w ++ [' ']).isPrefixOf text then some (w, text.drop (w.length + 1)) else none

/-- `\([^ \n]+\) ?\(.*\)` -/
def named (text : List Char) : Option (List Char × List Char) :=
  if text.takeWhile (· ≠ ' ') = [] then none
  else some (text.takeWhile (· ≠ ' '), (text.dropWhile (· ≠ ' ')).drop 1)

/-- `-[cC] `, and what follows. -/
def dashed (text : List Char) : Option (List Char × List Char) :=
  if ["-c ".toList, "-C ".toList].contains (text.take 3) then some (text.take 2, text.drop 3)
  else none

/-- `\(-[cC] [^ \n]+\) `, and what follows. -/
def mergeOption (text : List Char) : Option (List Char × List Char) :=
  (dashed text).bind fun o =>
    if o.2.takeWhile (· ≠ ' ') = [] ∨ o.2.dropWhile (· ≠ ' ') = [] then none
    else some (o.1 ++ ' ' :: o.2.takeWhile (· ≠ ' '), (o.2.dropWhile (· ≠ ' ')).drop 1)

/-- A line with one of the words, a target and a trailer. -/
def namedAction (type : ActionType) (words : List (List Char)) (text : List Char) :
    Option RebaseAction :=
  (afterWord words text).bind fun w =>
    (named w.2).map fun t =>
      { actionType := some type, action := some w.1, target := some t.1,
        trailer := some t.2 }

/-- `git-rebase-line-regexps`, behind what may stand at the beginning of the line.  The keys of
`git-rebase-short-options` are characters, so that `assoc` finds no string among them: an action
stays as it is written. -/
def lineRegexp : ActionType → List Char → Option RebaseAction
  | .commit, text => namedAction .commit commitWords text
  | .exec, text =>
    (afterWord execWords text).map fun w =>
      { actionType := some .exec, action := some w.1, target := some w.2 }
  | .bare, text =>
    bareWords.findSome? fun w =>
      if w.isPrefixOf text && (text.drop w.length).all (· == ' ') then
        some { actionType := some .bare, action := some w }
      else none
  | .label, text => namedAction .label labelWords text
  | .merge, text =>
    (afterWord mergeWords text).bind fun w =>
      ((mergeOption w.2).bind fun o =>
          (named o.2).map fun t =>
            { actionType := some .merge, action := some w.1, actionOptions := some o.1,
              target := some t.1, trailer := some t.2 }).or
        ((named w.2).map fun t =>
          { actionType := some .merge, action := some w.1, target := some t.1,
            trailer := some t.2 })

/-- Looks for `comment-start`, if it is there, spaces, and something else. -/
def behindComment {α : Type*} (cs : CommentStart) (looking : List Char → Option α)
    (line : List Char) : Option (α × Bool) :=
  (if cs.text.isPrefixOf line then
      (looking ((line.drop cs.text.length).dropWhile (· = ' '))).map fun a => (a, true)
    else none).or ((looking (line.dropWhile (· = ' '))).map fun a => (a, false))

/-- `git-rebase-current-line`, of the text of the line. -/
def currentLine (cs : CommentStart) (line : List Char) : RebaseAction :=
  ([ActionType.commit, .exec, .bare, .label, .merge].findSome? fun type =>
    (behindComment cs (lineRegexp type) line).map fun a => { a.1 with commentP := a.2 }).getD {}

/-- `git-rebase-line-p` -/
def gitRebaseLineP (cs : CommentStart) (text : List Char) (p : ℕ) : Bool :=
  (currentLine cs (lineAt text p)).actionType.isSome

/-- Point, and the region if there is one. -/
structure Selection where
  point : ℕ
  region : Option (ℕ × ℕ)

/-- `git-rebase-region-bounds` -/
def gitRebaseRegionBounds (cs : CommentStart) (text : List Char) (sel : Selection)
    (fallback : Bool) : Option (ℕ × ℕ) :=
  match sel.region with
  | some r =>
    if gitRebaseLineP cs text (lineBeginning text r.1) && gitRebaseLineP cs text (lineEnd text r.2)
    then some (lineBeginning text r.1, lineEnd text r.2 + 1) else none
  | none =>
    if fallback && gitRebaseLineP cs text sel.point
    then some (lineBeginning text sel.point, lineEnd text sel.point + 1) else none

section

variable {α : Type*} {cs : CommentStart} {looking : List Char → Option α}
  {words : List (List Char)} {text rest target : List Char}

/-! ## The comment -/

theorem CommentStart.first_ne_space (cs : CommentStart) : cs.first ≠ ' ' := by
  intro h
  have := cs.first_notMem
  rw [h] at this
  exact this (by decide)

theorem CommentStart.newline_notMem (cs : CommentStart) : '\n' ∉ cs.text := by
  intro h
  rcases List.mem_cons.mp h with h | h
  · have := cs.first_notMem
    rw [← h] at this
    exact this (by decide)
  · exact cs.others_notMem h

/-- What never matches where `comment-start` does. -/
def Refuses (cs : CommentStart) (looking : List Char → Option α) : Prop :=
  ∀ rest, looking (cs.first :: rest) = none

/-- Behind a comment start the line is read from its first character that is no blank. -/
theorem behindComment_append (h : Refuses cs looking) (rest : List Char) :
    behindComment cs looking (cs.text ++ rest)
      = (looking (rest.dropWhile (· = ' '))).map fun a => (a, true) := by
  have hpre : cs.text.isPrefixOf (cs.text ++ rest) = true :=
    List.isPrefixOf_iff_prefix.mpr (List.prefix_append _ _)
  have hline : (cs.text ++ rest).dropWhile (· = ' ') = cs.first :: (cs.others ++ rest) :=
    List.dropWhile_cons_of_neg (by simpa using cs.first_ne_space)
  rw [behindComment, if_pos hpre, List.drop_left, hline, h, Option.map_none, Option.or_none]

theorem behindComment_of_not {line : List Char} (h : cs.text.isPrefixOf line = false) :
    behindComment cs looking line
      = (looking (line.dropWhile (· = ' '))).map fun a => (a, false) := by
  rw [behindComment, h, if_neg Bool.false_ne_true, Option.none_or]

/-- A line without `comment-start`, if it begins with it, and without the spaces in front. -/
def bare (cs : CommentStart) (line : List Char) : List Char :=
  (if cs.text.isPrefixOf line then line.drop cs.text.length else line).dropWhile (· = ' ')

/-- What is read of a line is an end of it. -/
theorem bare_suffix (cs : CommentStart) (line : List Char) : bare cs line <:+ line := by
  rw [bare]
  split
  · exact (List.dropWhile_suffix _).trans (List.drop_suffix _ _)
  · exact List.dropWhile_suffix _

/-- Whether it is commented out or not, a line is looked at once. -/
theorem behindComment_eq (h : Refuses cs looking) (line : List Char) :
    behindComment cs looking line
      = (looking (bare cs line)).map fun a => (a, cs.text.isPrefixOf line) := by
  rw [bare]
  cases hpre : cs.text.isPrefixOf line with
  | false => exact behindComment_of_not hpre
  | true =>
    obtain ⟨rest, rfl⟩ := List.isPrefixOf_iff_prefix.mp hpre
    rw [if_pos rfl, List.drop_left]
    exact behindComment_append h rest

/-! ## The words -/

/-- No word begins like a comment. -/
def commands (words : List (List Char)) : Bool :=
  words.all fun w => w.head?.any fun c => "\n bdeflmnprstux".toList.contains c

/-- No command begins like a comment. -/
theorem isPrefixOf_first (cs : CommentStart) (hwords : commands words = true) {w : List Char}
    (hw : w ∈ words) (rest : List Char) : w.isPrefixOf (cs.first :: rest) = false := by
  have hfirst := List.all_eq_true.mp hwords w hw
  rcases w with _ | ⟨c, w⟩
  · simp at hfirst
  by_contra hpre
  obtain ⟨more, hmore⟩ := List.isPrefixOf_iff_prefix.mp (Bool.of_not_eq_false hpre)
  obtain ⟨rfl, -⟩ := List.cons.inj hmore
  exact cs.first_notMem (by simpa using hfirst)

theorem afterWord_first (hwords : commands words = true) (rest : List Char) :
    afterWord words (cs.first :: rest) = none := by
  refine List.findSome?_eq_none_iff.mpr fun w hw => if_neg fun hpre => ?_
  obtain ⟨more, hmore⟩ := List.isPrefixOf_iff_prefix.mp hpre
  have hfirst := isPrefixOf_first cs hwords hw rest
  rw [← hmore, List.append_assoc, List.isPrefixOf_iff_prefix.mpr (List.prefix_append _ _)] at hfirst
  exact Bool.false_ne_true hfirst.symm

/-- No regexp for a line matches a comment. -/
theorem refuses_lineRegexp (cs : CommentStart) (type : ActionType) :
    Refuses cs (lineRegexp type) := by
  intro rest
  cases type with
  | commit => rw [lineRegexp, namedAction, afterWord_first (by decide), Option.bind_none]
  | exec => rw [lineRegexp, afterWord_first (by decide), Option.map_none]
  | bare =>
    refine List.findSome?_eq_none_iff.mpr fun w hw => ?_
    have hbare : commands bareWords = true := by decide
    rw [isPrefixOf_first cs hbare hw, Bool.false_and, if_neg Bool.false_ne_true]
  | label => rw [lineRegexp, namedAction, afterWord_first (by decide), Option.bind_none]
  | merge => rw [lineRegexp, afterWord_first (by decide), Option.bind_none]

end

/-! ## The selected lines -/

/-- Where the region begins, or point. -/
def Selection.beg (sel : Selection) : ℕ := sel.region.elim sel.point Prod.fst

/-- Where the region ends, or point. -/
def Selection.fin (sel : Selection) : ℕ := sel.region.elim sel.point Prod.snd

/-- The selection begins and ends on lines of the buffer.  Those behind the first ones, up to the
last one, are touched. -/
structure Selected (text : List Char) (sel : Selection) (pre lines : List (List Char))
    (last tail : List Char) : Prop where
  text_eq : text = unlines pre ++ unlines lines ++ last ++ tail
  pre_notMem : ∀ l ∈ pre, '\n' ∉ l
  notMem : ∀ l ∈ lines ++ [last], '\n' ∉ l
  eol : tail = [] ∨ ∃ more, tail = '\n' :: more
  begins : (unlines pre).length + 1 ≤ sel.beg
    ∧ sel.beg ≤ (unlines pre).length + (lines.headD last).length + 1
  ends : (unlines pre ++ unlines lines).length + 1 ≤ sel.fin
    ∧ sel.fin ≤ (unlines pre ++ unlines lines).length + last.length + 1

/-- Whether the mode finds an instruction on a line. -/
def isInstruction (cs : CommentStart) (line : List Char) : Bool :=
  (currentLine cs line).actionType.isSome

namespace Selected

variable {cs : CommentStart} {text last tail : List Char} {sel : Selection}
  {pre lines : List (List Char)}

/-- The last selected line is a line of the text. -/
theorem lastLine (h : Selected text sel pre lines last tail) :
    Line text (unlines pre ++ unlines lines) last tail where
  text_eq := h.text_eq
  bol := by rw [← unlines_append, completed_unlines]
  notMem := h.notMem last (by simp)
  eol := h.eol

/-- The first selected line is a line of the text. -/
theorem firstLine (h : Selected text sel pre lines last tail) :
    ∃ rest, Line text (unlines pre) (lines.headD last) rest := by
  rcases lines with _ | ⟨line, lines⟩
  · refine ⟨tail, ?_, completed_unlines pre, h.notMem last (by simp), h.eol⟩
    rw [h.text_eq, unlines_nil, List.append_nil]
    rfl
  · refine ⟨'\n' :: (unlines lines ++ last ++ tail), ?_, completed_unlines pre,
      h.notMem line (by simp), Or.inr ⟨_, rfl⟩⟩
    rw [h.text_eq, unlines_cons]
    simp only [List.headD_cons, List.append_assoc, List.cons_append]

theorem lineBeginning (h : Selected text sel pre lines last tail) :
    lineBeginning text sel.beg = (unlines pre).length + 1 := by
  obtain ⟨rest, hfirst⟩ := h.firstLine
  exact hfirst.lineBeginning h.begins.1 h.begins.2

theorem lineEnd (h : Selected text sel pre lines last tail) :
    lineEnd text sel.fin = (unlines pre ++ unlines lines).length + last.length + 1 :=
  h.lastLine.lineEnd h.ends.1 h.ends.2

/-- The bounds, of a region or, if point is on an instruction, of its line. -/
theorem regionBounds (h : Selected text sel pre lines last tail) {fallback : Bool}
    (hregion : (sel.region.isSome || fallback) = true) :
    gitRebaseRegionBounds cs text sel fallback =
      if isInstruction cs (lines.headD last) && isInstruction cs last then
        some ((unlines pre).length + 1, (unlines pre ++ unlines lines).length + last.length + 2)
      else none := by
  have hbeg := h.lineBeginning
  have hend := h.lineEnd
  obtain ⟨rest, hfirst⟩ := h.firstLine
  have hlast := h.lastLine
  have hfirstP : ∀ p, (unlines pre).length + 1 ≤ p →
      p ≤ (unlines pre).length + (lines.headD last).length + 1 →
      gitRebaseLineP cs text p = isInstruction cs (lines.headD last) := fun p hp hp' => by
    rw [gitRebaseLineP, hfirst.lineAt hp hp', isInstruction]
  have hlastP : ∀ p, (unlines pre ++ unlines lines).length + 1 ≤ p →
      p ≤ (unlines pre ++ unlines lines).length + last.length + 1 →
      gitRebaseLineP cs text p = isInstruction cs last := fun p hp hp' => by
    rw [gitRebaseLineP, hlast.lineAt hp hp', isInstruction]
  rw [gitRebaseRegionBounds]
  rcases hr : sel.region with _ | r
  · have hpoint : sel.beg = sel.point ∧ sel.fin = sel.point := by
      rw [Selection.beg, Selection.fin, hr]
      exact ⟨rfl, rfl⟩
    rw [hr, Option.isSome_none, Bool.false_or] at hregion
    have hboth := (hfirstP _ h.begins.1 h.begins.2).symm.trans (hpoint.1 ▸ hpoint.2 ▸
      hlastP _ h.ends.1 h.ends.2)
    rw [hpoint.1] at hbeg
    rw [hpoint.2] at hend
    dsimp only
    rw [hregion, Bool.true_and, hbeg, hend, hboth, Bool.and_self, ← hpoint.2,
      hlastP _ h.ends.1 h.ends.2]
  · have hregion : sel.beg = r.1 ∧ sel.fin = r.2 := by
      rw [Selection.beg, Selection.fin, hr]
      exact ⟨rfl, rfl⟩
    rw [hregion.1] at hbeg
    rw [hregion.2] at hend
    dsimp only
    rw [hbeg, hend, hfirstP _ le_rfl (by omega), hlastP _ (by omega) le_rfl]

end Selected

end Magit.GitRebase

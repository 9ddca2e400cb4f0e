import Magit.Rebase.InstructionArea
import Magit.Rebase.SetAction

/-!
# Rebase/LineCommands — commands that insert or change a line without a commit

`git-rebase-set-noncommit-action` and `git-rebase-set-bare-action` replace the line at point if it
has the same action, and otherwise insert one beside it.  All that either of them, or setting the
action of commits, makes of a line are lines that have its commits again (`Rewritten`).
-/

namespace Magit.GitRebase

open Emacs

/-- The actions with a value. -/
inductive ValueAction
  | exec
  | label
  | reset
  | updateRef
  | merge
  deriving DecidableEq

/-- The action as a command writes it. -/
def ValueAction.name : ValueAction → List Char
  | exec => "exec".toList
  | label => "label".toList
  | reset => "reset".toList
  | updateRef => "update-ref".toList
  | merge => "merge".toList

/-- The commands that insert a line without a value. -/
inductive BareAction
  | noop
  | break_

/-- The action as a command writes it. -/
def BareAction.name : BareAction → List Char
  | noop => "noop".toList
  | break_ => "break".toList

/-- What is read from the user.  Labels and refs do not begin with a space. -/
structure Value (action : ValueAction) where
  text : List Char
  newline_notMem : '\n' ∉ text
  head : action ≠ .exec → text.head? ≠ some ' '

/-- `magit-delete-line`, at the beginning of the line. -/
def deleteLineAt (text : List Char) (bol : ℕ) : Option (List Char) :=
  if lineEnd text bol + 1 ≤ text.length + 1 then
    some (deleteText text bol (lineEnd text bol + 1))
  else none

/-- The target and the trailer of a line that has the action. -/
def initialValue (cs : CommentStart) (action : List Char) (arg : Bool) (line : List Char) :
    Option (List Char) × Option (List Char) :=
  if !arg && (currentLine cs line).action == some action then
    ((currentLine cs line).target, (currentLine cs line).trailer)
  else (none, none)

/-- The line that is inserted.  The trailer stays if the value does. -/
def valueLine (action value : List Char) (initial : Option (List Char) × Option (List Char)) :
    List Char :=
  action ++ ' ' :: (value ++
    if some value = initial.1 then (initial.2.map (' ' :: ·)).getD [] else [])

/-- `git-rebase-set-noncommit-action`; none if it signals. -/
def gitRebaseSetNoncommitAction (cs : CommentStart) (action value : List Char) (arg : Bool)
    (text : List Char) (p : ℕ) : Option (List Char) :=
  let bol := lineBeginning text p
  let initial := initialValue cs action arg (lineAt text p)
  if value = [] then
    if initial.1 = none then some text else deleteLineAt text bol
  else if initial.1.isSome then
    (deleteLineAt text bol).map (insertText · bol (valueLine action value initial ++ ['\n']))
  else some (insertText text (forwardLine text bol) (valueLine action value initial ++ ['\n']))

/-- `git-rebase-set-bare-action`; none if it signals. -/
def gitRebaseSetBareAction (cs : CommentStart) (action : List Char) (arg : Bool)
    (text : List Char) (p : ℕ) : Option (List Char) :=
  let bol := lineBeginning text p
  let line := currentLine cs (lineAt text p)
  let same := line.action == some action
  if arg || line.action.isNone || !same || (same && line.commentP) then
    (if arg || !same then some text else deleteLineAt text bol).map
      (insertText · bol (action ++ ['\n']))
  else some text

/-- The commit that the mode finds on a line, and what follows it. -/
def commitOf (cs : CommentStart) (line : List Char) : Option (List Char × List Char) :=
  if (currentLine cs line).actionType = some .commit then
    some ((currentLine cs line).target.getD [], (currentLine cs line).trailer.getD [])
  else none

/-- What becomes of a line has its commit, and no line stops the search for the end of the
instructions if it did not. -/
structure Rewritten (cs : CommentStart) (ct : CaseTable) (line : List Char)
    (new : List (List Char)) : Prop where
  notMem : '\n' ∉ line → ∀ l ∈ new, '\n' ∉ l
  passes : passes cs ct line = true → ∀ l ∈ new, passes cs ct l = true
  commits : new.filterMap (commitOf cs) = [line].filterMap (commitOf cs)

section

variable {cs : CommentStart} {ct : CaseTable} {line text before rest target trailer : List Char}
  {new : List (List Char)} {a : CommitAction} {type : ActionType}

/-! ## What is found on a line -/

/-- On a line that begins with the letter of a command, that command is looked for. -/
theorem currentLine_of_head (cs : CommentStart)
    (h : (line.head?.any fun c => "\n bdeflmnprstux".toList.contains c && c != ' ') = true) :
    currentLine cs line = ((found line).map fun r => { r with commentP := false }).getD {} := by
  rw [currentLine_bare, (bare_of_head cs h).1, (bare_of_head cs h).2]

/-- What the mode finds there, but whether it is commented out. -/
theorem commitOf_found {c : Bool}
    (hcur : currentLine cs line = ((found text).map fun r => { r with commentP := c }).getD {}) :
    commitOf cs line = (found text).bind (fun r =>
        if r.actionType = some .commit then some (r.target.getD [], r.trailer.getD []) else none)
      ∧ isInstruction cs line = ((found text).bind RebaseAction.actionType).isSome := by
  rw [commitOf, isInstruction, hcur]
  cases found text <;> exact ⟨rfl, rfl⟩

/-- A line that matches another regexp is found, but not for a commit. -/
theorem found_of_lineRegexp (hcommit : lineRegexp .commit text = none)
    (h : (lineRegexp type text).isSome = true) :
    ∃ r, found text = some r ∧ r.actionType.isSome = true ∧ r.actionType ≠ some .commit := by
  have hsome : (found text).isSome = true := by
    rw [found, List.findSome?_isSome_iff]
    exact ⟨type, by cases type <;> decide, h⟩
  obtain ⟨r, hr⟩ := Option.isSome_iff_exists.mp hsome
  obtain ⟨type', -, htype⟩ := List.exists_of_findSome?_eq_some hr
  refine ⟨r, hr, ?_, actionType_found_ne hcommit hr⟩
  rw [actionType_lineRegexp htype]
  rfl

theorem exists_found_of_commitOf (h : commitOf cs line ≠ none) :
    ∃ word arguments t, Found (bare cs line) word arguments t := by
  rw [commitOf] at h
  exact actionType_eq_commit_iff.mp (by_contra fun hne => h (if_neg hne))

/-- The action of a commit line is one of those that are set, as it is written. -/
theorem action_of_commit (h : commitOf cs line ≠ none) :
    ∃ w ∈ commitWords, (currentLine cs line).action = some w := by
  obtain ⟨word, arguments, t, hfound⟩ := exists_found_of_commitOf h
  refine ⟨word, hfound.word_mem, ?_⟩
  rw [currentLine_bare, hfound.found_eq]
  rfl

/-! ## Lines with a commit -/

/-- **Setting an action keeps the commit** of a line, and that it is an instruction. -/
theorem commitOf_lineAfter (cs : CommentStart) (action : Option CommitAction) (line : List Char) :
    commitOf cs (lineAfter cs action line) = commitOf cs line
      ∧ isInstruction cs (lineAfter cs action line) = isInstruction cs line := by
  obtain ⟨hcommit', hinst'⟩ := commitOf_found (currentLine_bare cs line)
  cases action with
  | none =>
    rw [lineAfter]
    split
    next hkill =>
      rw [Bool.and_eq_true, Bool.not_eq_true'] at hkill
      obtain ⟨htype, hcomment⟩ := hkill
      have hpre : cs.text.isPrefixOf line = false := by
        rw [currentLine_bare] at htype hcomment
        cases hfound : found (bare cs line) with
        | none =>
          rw [hfound] at htype
          cases htype
        | some r =>
          rw [hfound] at hcomment
          exact hcomment
      obtain ⟨hcommit, hinst⟩ := commitOf_found (currentLine_kill cs line)
      rw [← bare_of_not hpre] at hcommit hinst
      exact ⟨hcommit.trans hcommit'.symm, hinst.trans hinst'.symm⟩
    next => exact ⟨rfl, rfl⟩
  | some a =>
    by_cases htype : (currentLine cs line).actionType = some .commit
    · obtain ⟨word, arguments, t, h⟩ := actionType_eq_commit_iff.mp htype
      obtain ⟨hne, hspace, -⟩ := named_eq_some h.named_eq
      have hfound : Found (a.name ++ ' ' :: (t.1 ++ ' ' :: t.2)) a.name (t.1 ++ ' ' :: t.2) t :=
        ⟨rfl, by cases a <;> decide, named_append hne hspace⟩
      have hhead : ((a.name ++ ' ' :: (t.1 ++ ' ' :: t.2)).head?.any fun c =>
          "\n bdeflmnprstux".toList.contains c && c != ' ') = true := by
        cases a <;> rfl
      obtain ⟨hcommit, hinst⟩ := commitOf_found (currentLine_of_head cs hhead)
      rw [hfound.found_eq] at hcommit hinst
      rw [h.found_eq] at hcommit' hinst'
      rw [h.lineAfter_eq a]
      exact ⟨hcommit.trans hcommit'.symm, hinst.trans hinst'.symm⟩
    · rw [lineAfter_of_ne a htype]
      exact ⟨rfl, rfl⟩

theorem passes_of_isInstruction (h : isInstruction cs line = true) : passes cs ct line = true := by
  rw [passes, h, Bool.true_or, Bool.true_or]

/-- A line with its action set stands for the line. -/
theorem rewritten_lineAfter (cs : CommentStart) (ct : CaseTable) (action : Option CommitAction)
    (line : List Char) : Rewritten cs ct line [lineAfter cs action line] where
  notMem h := List.forall_mem_singleton.mpr (lineAfter_notMem cs action h)
  passes h := by
    refine List.forall_mem_singleton.mpr ?_
    cases hinst : isInstruction cs line with
    | true => exact passes_of_isInstruction ((commitOf_lineAfter cs action line).2.trans hinst)
    | false =>
      have hsame : lineAfter cs action line = line := by
        rw [isInstruction] at hinst
        cases action with
        | none => rw [lineAfter, hinst, Bool.false_and, if_neg Bool.false_ne_true]
        | some a =>
          refine lineAfter_of_ne a fun htype => ?_
          rw [htype] at hinst
          cases hinst
      rwa [hsame]
  commits := by
    rw [List.filterMap_cons, List.filterMap_cons, (commitOf_lineAfter cs action line).1]

/-! ## Lines without a commit -/

/-- An instruction that is not a commit. -/
structure Plain (cs : CommentStart) (line : List Char) : Prop where
  instruction : isInstruction cs line = true
  commit : commitOf cs line = none

/-- A line that matches another regexp than that for commits is plain. -/
theorem plain_of_lineRegexp (type : ActionType)
    (hhead : (line.head?.any fun c => "\n bdeflmnprstux".toList.contains c && c != ' ') = true)
    (hcommit : lineRegexp .commit line = none) (h : (lineRegexp type line).isSome = true) :
    Plain cs line := by
  obtain ⟨r, hr, hsome, hne⟩ := found_of_lineRegexp hcommit h
  obtain ⟨hcommitOf, hinst⟩ := commitOf_found (currentLine_of_head cs hhead)
  rw [hr, Option.bind_some] at hcommitOf hinst
  exact ⟨hinst.trans hsome, hcommitOf.trans (if_neg hne)⟩

theorem plain_bare (cs : CommentStart) (action : BareAction) : Plain cs action.name := by
  cases action <;> exact plain_of_lineRegexp .bare (by decide) (by decide) (by decide)

/-- An action with a value is plain. -/
theorem plain_value (cs : CommentStart) (action : ValueAction) (hne : text ≠ [])
    (hhead : action ≠ .exec → text.head? ≠ some ' ') :
    Plain cs (action.name ++ ' ' :: text) := by
  have hcommit : lineRegexp .commit (action.name ++ ' ' :: text) = none := by
    have hword : afterWord commitWords (action.name ++ ' ' :: text) = none := by
      rw [afterWord_word (by decide) (by cases action <;> decide), if_neg]
      cases action <;> decide
    rw [lineRegexp, namedAction, hword, Option.bind_none]
  have hfirst : ((action.name ++ ' ' :: text).head?.any fun c =>
      "\n bdeflmnprstux".toList.contains c && c != ' ') = true := by
    cases action <;> rfl
  have hlabel : action.name ∈ labelWords → action ≠ .exec →
      (lineRegexp .label (action.name ++ ' ' :: text)).isSome = true := by
    intro hmem hexec
    rw [lineRegexp, namedAction, afterWord_word (by decide) (by cases action <;> decide),
      if_pos hmem, Option.bind_some, Option.isSome_map]
    exact isSome_named_iff.mpr ⟨hne, hhead hexec⟩
  cases action with
  | exec =>
    refine plain_of_lineRegexp .exec hfirst hcommit ?_
    rw [lineRegexp, afterWord_word (by decide) (by decide), if_pos (by decide)]
    rfl
  | label => exact plain_of_lineRegexp .label hfirst hcommit (hlabel (by decide) (by decide))
  | reset => exact plain_of_lineRegexp .label hfirst hcommit (hlabel (by decide) (by decide))
  | updateRef => exact plain_of_lineRegexp .label hfirst hcommit (hlabel (by decide) (by decide))
  | merge =>
    refine plain_of_lineRegexp .merge hfirst hcommit ?_
    rw [lineRegexp, afterWord_word (by decide) (by decide), if_pos (by decide), Option.bind_some,
      Option.isSome_or, Option.isSome_map, isSome_named_iff.mpr ⟨hne, hhead (by decide)⟩,
      Bool.or_true]

/-- A line stands for itself. -/
theorem rewritten_self (cs : CommentStart) (ct : CaseTable) (line : List Char) :
    Rewritten cs ct line [line] where
  notMem h := List.forall_mem_singleton.mpr h
  passes h := List.forall_mem_singleton.mpr h
  commits := rfl

/-- A line without a commit goes. -/
theorem rewritten_nil (h : commitOf cs line = none) : Rewritten cs ct line [] where
  notMem _ := List.forall_mem_nil _
  passes _ := List.forall_mem_nil _
  commits := by rw [List.filterMap_cons, h]

/-- And another one is put there or stays. -/
theorem Rewritten.plain (before after : List (List Char))
    (h : Rewritten cs ct line (before ++ after)) {l : List Char} (hl : Plain cs l)
    (hnotMem : '\n' ∉ line → '\n' ∉ l) : Rewritten cs ct line (before ++ l :: after) where
  notMem hline := by
    obtain ⟨hbefore, hafter⟩ := List.forall_mem_append.mp (h.notMem hline)
    exact List.forall_mem_append.mpr
      ⟨hbefore, List.forall_mem_cons.mpr ⟨hnotMem hline, hafter⟩⟩
  passes hpass := by
    obtain ⟨hbefore, hafter⟩ := List.forall_mem_append.mp (h.passes hpass)
    exact List.forall_mem_append.mpr ⟨hbefore, List.forall_mem_cons.mpr
      ⟨passes_of_isInstruction hl.instruction, hafter⟩⟩
  commits := by
    have hsame := h.commits
    rw [List.filterMap_append] at hsame
    rw [List.filterMap_append, List.filterMap_cons, hl.commit, hsame]

/-! ## The commands -/

variable {p : ℕ}

/-- A line whose action is none of those on commits has none. -/
theorem commitOf_of_action {w : List Char} (h : (currentLine cs line).action = some w)
    (hw : ∀ v ∈ commitWords, v ≠ w) : commitOf cs line = none := by
  by_contra hne
  obtain ⟨v, hv, haction⟩ := action_of_commit hne
  exact hw v hv (Option.some.inj (haction.symm.trans h))

/-- The line at its position is deleted with its newline. -/
theorem deleteLineAt_line (h : Line text before line ('\n' :: rest)) :
    deleteLineAt text (before.length + 1) = some (before ++ rest) := by
  have hend := h.lineEnd (p := before.length + 1) (Nat.le_refl _) (by omega)
  have htext : text = before ++ (line ++ ['\n']) ++ rest := by
    rw [h.text_eq]
    simp only [List.append_assoc, List.cons_append, List.nil_append]
  rw [deleteLineAt, hend, if_pos]
  · refine congrArg some (deleteText_append htext rfl ?_)
    rw [List.length_append, List.length_singleton]
    omega
  · rw [htext]
    simp only [List.length_append, List.length_singleton]
    omega

/-! The trailer of a line is what ends it. -/

theorem named_suffix {t : List Char × List Char} (h : named text = some t) : t.2 <:+ text := by
  rw [named] at h
  split at h
  · cases h
  · obtain rfl := Option.some.inj h
    exact (List.drop_suffix _ _).trans (List.dropWhile_suffix _)

theorem afterWord_suffix {words : List (List Char)} {w : List Char × List Char}
    (h : afterWord words text = some w) : w.2 <:+ text := by
  rw [(afterWord_eq_some h).2]
  exact (List.suffix_cons _ _).trans (List.suffix_append _ _)

theorem mergeOption_suffix {o : List Char × List Char} (h : mergeOption text = some o) :
    o.2 <:+ text := by
  obtain ⟨d, hd, ho⟩ := Option.bind_eq_some_iff.mp h
  have hdash : d.2 <:+ text := by
    rw [(dashed_eq_some hd).1]
    exact (List.suffix_cons _ _).trans (List.suffix_append _ _)
  split at ho
  · cases ho
  · obtain rfl := Option.some.inj ho
    exact ((List.drop_suffix _ _).trans (List.dropWhile_suffix _)).trans hdash

theorem trailer_suffix {r : RebaseAction} (h : lineRegexp type text = some r) {t : List Char}
    (ht : r.trailer = some t) : t <:+ text := by
  have hnamed : ∀ type words, namedAction type words text = some r → t <:+ text := by
    intro type words hr
    obtain ⟨w, hw, hr⟩ := Option.bind_eq_some_iff.mp hr
    obtain ⟨u, hu, rfl⟩ := Option.map_eq_some_iff.mp hr
    obtain rfl := Option.some.inj ht
    exact (named_suffix hu).trans (afterWord_suffix hw)
  cases type with
  | commit => exact hnamed _ _ h
  | exec =>
    obtain ⟨w, -, rfl⟩ := Option.map_eq_some_iff.mp h
    cases ht
  | bare =>
    obtain ⟨w, -, hr⟩ := List.exists_of_findSome?_eq_some h
    split at hr
    · rw [← Option.some.inj hr] at ht
      cases ht
    · cases hr
  | label => exact hnamed _ _ h
  | merge =>
    obtain ⟨w, hw, hr⟩ := Option.bind_eq_some_iff.mp h
    rcases Option.or_eq_some_iff.mp hr with hr | ⟨-, hr⟩
    · obtain ⟨o, ho, hr⟩ := Option.bind_eq_some_iff.mp hr
      obtain ⟨u, hu, rfl⟩ := Option.map_eq_some_iff.mp hr
      obtain rfl := Option.some.inj ht
      exact ((named_suffix hu).trans (mergeOption_suffix ho)).trans (afterWord_suffix hw)
    · obtain ⟨u, hu, rfl⟩ := Option.map_eq_some_iff.mp hr
      obtain rfl := Option.some.inj ht
      exact (named_suffix hu).trans (afterWord_suffix hw)

/-- The trailer is the end of the line. -/
theorem trailer_currentLine {t : List Char} (ht : (currentLine cs line).trailer = some t) :
    t <:+ line := by
  rw [currentLine_bare] at ht
  cases hfound : found (bare cs line) with
  | none =>
    rw [hfound] at ht
    cases ht
  | some r =>
    obtain ⟨type, -, htype⟩ := List.exists_of_findSome?_eq_some hfound
    rw [hfound] at ht
    exact (trailer_suffix htype ht).trans (bare_suffix cs line)

/-- A line with a value is one line. -/
theorem newline_notMem_valueLine {action value : List Char} (haction : '\n' ∉ action)
    (hvalue : '\n' ∉ value) (arg : Bool) (hline : '\n' ∉ line) :
    '\n' ∉ valueLine action value (initialValue cs action arg line) := by
  have htrailer : ∀ t ∈ (initialValue cs action arg line).2, '\n' ∉ t := by
    intro t ht hmem
    rw [initialValue] at ht
    split at ht
    next => exact hline ((trailer_currentLine ht).subset hmem)
    next => cases ht
  rw [valueLine]
  generalize (initialValue cs action arg line) = initial at htrailer
  have hend : '\n' ∉ if some value = initial.1 then (initial.2.map (' ' :: ·)).getD [] else [] := by
    split
    · cases ht : initial.2 with
      | none => exact List.not_mem_nil
      | some t =>
        rw [Option.map_some, Option.getD_some, List.mem_cons, not_or]
        exact ⟨by decide, htrailer t ht⟩
    · exact List.not_mem_nil
  simp only [List.mem_append, List.mem_cons, not_or]
  exact ⟨haction, by decide, hvalue, hend⟩

/-- What a command with a value does to the line that point is on. -/
theorem exists_gitRebaseSetNoncommitAction (cs : CommentStart)
    (h : Line text before line ('\n' :: rest))
    (hp : before.length + 1 ≤ p) (hp' : p ≤ before.length + line.length + 1) (ct : CaseTable)
    (action : ValueAction) (value : Value action) (arg : Bool) :
    ∃ new, gitRebaseSetNoncommitAction cs action.name value.text arg text p
        = some (before ++ unlines new ++ rest)
      ∧ Rewritten cs ct line new := by
  have hself : before ++ unlines [line] ++ rest = text := by
    rw [h.text_eq, unlines_cons, unlines_nil]
    simp only [List.append_assoc, List.cons_append, List.nil_append]
  have hother : (initialValue cs action.name arg line).1 ≠ none → commitOf cs line = none := by
    intro hne
    rw [initialValue] at hne
    split at hne
    next hsame =>
      rw [Bool.and_eq_true, beq_iff_eq] at hsame
      exact commitOf_of_action hsame.2 (by cases action <;> decide)
    next => exact absurd rfl hne
  have hplain : value.text ≠ [] →
      Plain cs (valueLine action.name value.text (initialValue cs action.name arg line)) := by
    intro hne
    refine plain_value cs action (List.append_ne_nil_of_left_ne_nil hne _) fun hexec => ?_
    rw [List.head?_append_of_ne_nil _ hne]
    exact value.head hexec
  have hnotMem : '\n' ∉ line →
      '\n' ∉ valueLine action.name value.text (initialValue cs action.name arg line) :=
    newline_notMem_valueLine (by cases action <;> decide) value.newline_notMem arg
  rw [gitRebaseSetNoncommitAction, h.lineBeginning hp hp', h.lineAt hp hp',
    deleteLineAt_line h, h.forwardLine (Nat.le_refl _) (by omega)]
  split
  next hnil =>
    split
    next hnone => exact ⟨[line], congrArg some hself.symm, rewritten_self cs ct line⟩
    next hsome =>
      exact ⟨[], by rw [unlines_nil, List.append_nil], rewritten_nil (hother hsome)⟩
  next hne =>
    split
    next hsome =>
      refine ⟨[_], ?_, (rewritten_nil (hother (Option.isSome_iff_ne_none.mp hsome))).plain [] []
        (hplain hne) hnotMem⟩
      rw [Option.map_some, insertText_append rfl rfl, unlines_cons, unlines_nil]
    next hnone =>
      refine ⟨[line, _], ?_, (rewritten_self cs ct line).plain [line] []
        (hplain hne) hnotMem⟩
      have htext : text = before ++ line ++ ['\n'] ++ rest := by
        rw [h.text_eq]
        simp only [List.append_assoc, List.cons_append, List.nil_append]
      have hpos : before.length + line.length + 2 = (before ++ line ++ ['\n']).length + 1 := by
        simp only [List.length_append, List.length_singleton]
      rw [insertText_append htext hpos, unlines_cons, unlines_cons, unlines_nil]
      simp only [List.append_assoc, List.cons_append, List.nil_append]

/-- What a bare action makes of the line at point. -/
theorem exists_gitRebaseSetBareAction (cs : CommentStart)
    (h : Line text before line ('\n' :: rest))
    (hp : before.length + 1 ≤ p) (hp' : p ≤ before.length + line.length + 1) (ct : CaseTable)
    (action : BareAction) (arg : Bool) :
    ∃ new, gitRebaseSetBareAction cs action.name arg text p = some (before ++ unlines new ++ rest)
      ∧ Rewritten cs ct line new := by
  have hself : before ++ unlines [line] ++ rest = text := by
    rw [h.text_eq, unlines_cons, unlines_nil]
    simp only [List.append_assoc, List.cons_append, List.nil_append]
  have hnotMem : '\n' ∉ line → '\n' ∉ action.name := by
    intro _
    cases action <;> decide
  rw [gitRebaseSetBareAction, h.lineBeginning hp hp', h.lineAt hp hp', deleteLineAt_line h]
  split
  · split
    next =>
      refine ⟨[action.name, line], ?_, (rewritten_self cs ct line).plain [] [line]
        (plain_bare cs action) hnotMem⟩
      have htext : text = before ++ (line ++ '\n' :: rest) := by
        rw [h.text_eq, List.append_assoc]
      rw [Option.map_some, insertText_append htext rfl, unlines_cons, unlines_cons, unlines_nil]
      simp only [List.append_assoc, List.cons_append, List.nil_append]
    next hsame =>
      rw [Bool.or_eq_true, not_or, Bool.not_eq_true', Bool.not_eq_false, beq_iff_eq] at hsame
      refine ⟨[action.name], ?_, (rewritten_nil (commitOf_of_action hsame.2 (by
        cases action <;> decide))).plain [] [] (plain_bare cs action) hnotMem⟩
      rw [Option.map_some, insertText_append rfl rfl, unlines_cons, unlines_nil]
  · exact ⟨[line], congrArg some hself.symm, rewritten_self cs ct line⟩

end

end Magit.GitRebase
